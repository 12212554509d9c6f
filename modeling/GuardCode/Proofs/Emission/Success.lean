import GuardCode.Proofs.Emission.Drafts

/-! Every admissible expression has code. Its code can be written into any assembly whose labels
admit the current depth where the code will jump: all paths to a label come in one depth, labels of
the surroundings are left as they are, and each label that is branched to is marked or belongs to the
surroundings. -/
namespace GuardCode

namespace Assembly

variable {a b c : Assembly} {count count' depth : Nat} {labels labels' : List Label}

def IsMarked (a : Assembly) (label : Label) : Prop :=
  ∃ state, a.labels[label]? = some state ∧ ∃ position, state.position? = some position

/-- Between two states of an assembly none of the first so many labels is marked, and only the given
ones are reached, in the given depth. -/
def Kept (count : Nat) (labels : List Label) (depth : Nat) (a b : Assembly) : Prop :=
  ∀ label, label < count → ∃ before after, a.labels[label]? = some before ∧
    b.labels[label]? = some after ∧ after.position? = before.position? ∧
    (after.depth? = before.depth? ∨ label ∈ labels ∧ after.depth? = some depth)

theorem Kept.of_labels (h : ∀ label, label < count → b.labels[label]? = a.labels[label]?)
    (hcount : count ≤ a.labels.size) : Kept count labels depth a b := by
  intro label hlabel
  have hl := Array.getElem?_eq_getElem (Nat.lt_of_lt_of_le hlabel hcount)
  exact ⟨_, _, hl, (h label hlabel).trans hl, rfl, .inl rfl⟩

theorem Kept.refl (hcount : count ≤ a.labels.size) : Kept count labels depth a a :=
  .of_labels (fun _ _ => rfl) hcount

theorem Kept.trans (h : Kept count labels depth a b) (h' : Kept count labels depth b c) :
    Kept count labels depth a c := by
  intro label hlabel
  obtain ⟨s, t, hs, ht, hposition, hdepth⟩ := h label hlabel
  obtain ⟨t', u, ht', hu, hposition', hdepth'⟩ := h' label hlabel
  rw [ht] at ht'
  cases ht'
  refine ⟨s, u, hs, hu, hposition'.trans hposition, ?_⟩
  rcases hdepth' with hdepth' | hdepth'
  · rw [hdepth']
    exact hdepth
  · exact .inr hdepth'

theorem Kept.mono (h : Kept count labels depth a b) (hcount : count' ≤ count)
    (hlabels : labels ⊆ labels') : Kept count' labels' depth a b := by
  intro label hlabel
  obtain ⟨s, t, hs, ht, hposition, hdepth⟩ := h label (by omega)
  exact ⟨s, t, hs, ht, hposition, hdepth.imp_right (And.imp_left (@hlabels label))⟩

/-- A fresh label that is none of the given ones stays fresh. -/
theorem Kept.fresh (h : Kept a.labels.size labels depth a b) {label : Label}
    (hl : a.labels[label]? = some {}) (hlabel : label ∉ labels) : b.labels[label]? = some {} := by
  obtain ⟨before, after, hbefore, hafter, hp, hd⟩ :=
    h label (Array.getElem?_eq_some_iff.mp hl).1
  rw [hl] at hbefore
  cases hbefore
  have hd := hd.resolve_right fun hin => hlabel hin.1
  cases after
  simp_all

/-- Where no label is reached the depth does not matter. -/
theorem Kept.any_depth (h : Kept count [] depth a b) (depth' : Nat) : Kept count [] depth' a b := by
  intro label hlabel
  obtain ⟨s, t, hs, ht, hposition, hdepth⟩ := h label hlabel
  exact ⟨s, t, hs, ht, hposition, hdepth.imp_right fun h => absurd h.1 (by simp)⟩

/-- A label that admits a depth still does. -/
theorem Kept.admits (h : Kept count labels depth a b) {label : Label} (hlabel : label < count)
    (ha : a.Admits label depth) : b.Admits label depth := by
  obtain ⟨s, t, hs, ht, -, hdepth⟩ := h label hlabel
  obtain ⟨s', hs', hadmits⟩ := ha
  rw [hs] at hs'
  cases hs'
  refine ⟨t, ht, ?_⟩
  rcases hdepth with hdepth | ⟨-, hdepth⟩
  · rwa [hdepth]
  · exact .inr hdepth

theorem Admits.lt {label : Label} (h : a.Admits label depth) : label < a.labels.size := by
  obtain ⟨state, hl, -⟩ := h
  exact (Array.getElem?_eq_some_iff.mp hl).1

/-- The assembly with one label more. -/
def defined (a : Assembly) : Assembly := { a with labels := a.labels.push {} }

@[simp] theorem defined_size (a : Assembly) : a.defined.labels.size = a.labels.size + 1 := by
  simp [defined]

theorem defined_new (a : Assembly) : a.defined.labels[a.labels.size]? = some {} := by
  simp [defined]

theorem defined_old (a : Assembly) {label : Nat} (h : label < a.labels.size) :
    a.defined.labels[label]? = a.labels[label]? := by
  rw [defined, Array.getElem?_push_lt h, ← Array.getElem?_eq_getElem h]

theorem Admits.defined {label : Label} (h : a.Admits label depth) :
    a.defined.Admits label depth := by
  obtain ⟨state, hl, hd⟩ := h
  exact ⟨state, (a.defined_old (Admits.lt ⟨state, hl, hd⟩)).trans hl, hd⟩

theorem Emitted.kept {i : Instruction} (h : a.Emitted i b)
    (hlabels : ∀ label, i.target? = some label → label ∈ labels)
    (hdepth : ∀ label, i.target? = some label → depth = a.depth - i.pops a.returnsValue) :
    Kept a.labels.size labels depth a b := by
  intro label hlabel
  by_cases ht : i.target? = some label
  · obtain ⟨state, hl, -, hb⟩ := h.target label ht
    exact ⟨state, _, hl, hb, rfl, .inr ⟨hlabels label ht, by rw [hdepth label ht]⟩⟩
  · have hl := Array.getElem?_eq_getElem hlabel
    exact ⟨_, _, hl, (h.others label ht).trans hl, rfl, .inl rfl⟩

end Assembly

theorem Directive.Performs.isMarked {a b : Assembly} {ds : List Directive}
    (hf : a.frozen = false) (h : Performs ds a b) {label : Label} (hm : a.IsMarked label) :
    b.IsMarked label := by
  obtain ⟨state, hl, position, hp⟩ := hm
  obtain ⟨state', hl', hp'⟩ := h.position hf ⟨state, hl, hp⟩
  exact ⟨state', hl', position, hp'⟩

/-! ## Values that are left alone -/

namespace Directive

variable {a b : Assembly} {ds es : List Directive} {base : Nat}

/-- Carrying directives out has one outcome. -/
theorem Performs.unique {b' : Assembly} (h : Performs ds a b) (h' : Performs ds a b') :
    b' = b := by
  rw [Performs] at h h'
  rw [h] at h'
  cases h'
  rfl

/-- No instruction takes one of the lowest values of the stack, so many as given. -/
def Above (base : Nat) : List Directive → Assembly → Prop
  | [], _ => True
  | d :: ds, a =>
    (∀ i, d = .emit i → base + i.pops a.returnsValue ≤ a.depth) ∧
      ∀ b, perform d a = .ok () b → Above base ds b

theorem above_append :
    Above base (ds ++ es) a ↔ Above base ds a ∧ ∀ b, Performs ds a b → Above base es b := by
  induction ds generalizing a with
  | nil => simp [Above]
  | cons d ds ih =>
    simp only [List.cons_append, Above, ih, performs_cons, and_assoc]
    constructor
    · rintro ⟨hhead, h⟩
      refine ⟨hhead, fun b hb => (h b hb).1, ?_⟩
      rintro c ⟨b, hb, hc⟩
      exact (h b hb).2 c hc
    · rintro ⟨hhead, h, hrest⟩
      exact ⟨hhead, fun b hb => ⟨h b hb, fun c hc => hrest c ⟨b, hb, hc⟩⟩⟩

/-- Where the outcome of the first directives is known. -/
theorem Above.append (h : Above base ds a) (hb : Performs ds a b) (h' : Above base es b) :
    Above base (ds ++ es) a :=
  above_append.mpr ⟨h, fun c hc => by rw [hb.unique hc]; exact h'⟩

theorem Above.mono {base' : Nat} (h : Above base ds a) (hle : base' ≤ base) :
    Above base' ds a := by
  induction ds generalizing a with
  | nil => trivial
  | cons d ds ih =>
    refine ⟨fun i hi => ?_, fun b hb => ih (h.2 b hb)⟩
    have := h.1 i hi
    omega

theorem above_define (h : Above base ds { a with labels := a.labels.push {} }) :
    Above base (.define :: ds) a :=
  ⟨nofun, fun _ hb => by rw [perform_define.mp hb]; exact h⟩

theorem above_mark (label : Label) : Above base [.mark label] a :=
  ⟨nofun, fun _ _ => trivial⟩

/-- An instruction without operands. -/
theorem above_emit {i : Instruction} (hpops : i.pops a.returnsValue = 0) (h : base ≤ a.depth) :
    Above base [.emit i] a := by
  refine ⟨?_, fun _ _ => trivial⟩
  rintro j ⟨⟩
  rw [hpops]
  exact h

/-- Straight-line code leaves alone what lies below its operands. -/
theorem above_straight {is : List Instruction} {depth : Nat} (hf : a.frozen = false)
    (honward : ∀ i ∈ is, i.endsBlock = false) (hdepth : a.depth = base + depth)
    (h : Instruction.depthAfter a.returnsValue is depth ≠ none) :
    Above base (is.map .emit) a := by
  induction is generalizing a depth with
  | nil => trivial
  | cons i is ih =>
    simp only [Instruction.depthAfter] at h
    split at h
    · rename_i hpops
      refine ⟨?_, fun b hb => ?_⟩
      · rintro j ⟨⟩
        omega
      · have he := Assembly.emit_eq_ok hf (perform_emit.mp hb)
        have hends := honward i (by simp)
        refine ih (he.frozen.trans hf) (fun j hj => honward j (by simp [hj])) ?_
          (by rw [he.returnsValue]; exact h)
        rw [he.depth, hends]
        simp only [Bool.false_eq_true, ↓reduceIte]
        omega
    · exact absurd rfl h

end Directive

namespace Emission

open Directive Assembly

variable {a b c : Assembly} {ds es : List Directive} {labels labels' : List Label}
  {results results' : Nat}

/-- The directives can be carried out and leave so many values on the stack, above those that were
there. They branch to labels that they mark, and to the given ones. -/
structure Accepts (ds : List Directive) (labels : List Label) (results : Nat) (a b : Assembly) :
    Prop where
  performs : Performs ds a b
  reachable : b.reachable = true
  depth : b.depth = a.depth + results
  kept : Kept a.labels.size labels a.depth a b
  closed : ∀ label, targets label ds = true → label ∈ labels ∨ b.IsMarked label
  above : Above a.depth ds a

theorem Accepts.mono (h : Accepts ds labels results a b) (hlabels : labels ⊆ labels') :
    Accepts ds labels' results a b :=
  ⟨h.performs, h.reachable, h.depth, h.kept.mono (Nat.le_refl _) hlabels,
    fun label ht => (h.closed label ht).imp_left (@hlabels label), h.above⟩

/-- One piece of code after another. The second may jump only in the depth in which the first
began. -/
theorem Accepts.trans (hf : a.frozen = false) (h : Accepts ds labels results a b)
    (h' : Accepts es labels' results' b c) (hbase : results = 0 ∨ labels' = []) :
    Accepts (ds ++ es) (labels ++ labels') (results + results') a c := by
  have hle := h.performs.labelCount_le hf
  have hfb := h.performs.frozen hf
  have hdepth := h.depth
  refine ⟨Directive.performs_append.mpr ⟨b, h.performs, h'.performs⟩, h'.reachable, ?_, ?_, ?_,
    h.above.append h.performs (h'.above.mono (by omega))⟩
  · rw [h'.depth, h.depth, Nat.add_assoc]
  · have hkept : Kept a.labels.size labels' a.depth b c := by
      rcases hbase with hzero | rfl
      · have := h'.kept.mono hle (List.Subset.refl _)
        rwa [h.depth, hzero, Nat.add_zero] at this
      · exact (h'.kept.any_depth a.depth).mono hle (List.Subset.refl _)
    exact (h.kept.mono (Nat.le_refl _) (List.subset_append_left _ _)).trans
      (hkept.mono (Nat.le_refl _) (List.subset_append_right _ _))
  · intro label ht
    rw [targets_append, Bool.or_eq_true] at ht
    rcases ht with ht | ht
    · rcases h.closed label ht with hin | hm
      · exact .inl (List.mem_append_left _ hin)
      · exact .inr (h'.performs.isMarked hfb hm)
    · exact (h'.closed label ht).imp_left (List.mem_append_right _)

/-- Straight-line code is accepted where its operands are there and its label admits the depth
behind it. -/
theorem accepts_straight {taken left : Nat} {is : List Instruction}
    (hs : Instruction.Straight labels taken left is) (hf : a.frozen = false)
    (hr : a.reachable = true) {depth : Nat} (hdepth : a.depth = depth + taken)
    (hadmits : ∀ label ∈ labels, a.Admits label (depth + left)) :
    ∃ b, Performs (is.map .emit) a b ∧ b.reachable = true ∧ b.depth = depth + left ∧
      Kept a.labels.size labels (depth + left) a b := by
  have hafter := hs.enough a.returnsValue depth
  rw [← hdepth] at hafter
  have honward := hs.onward
  have hbranches := hs.branches
  clear hs hdepth
  generalize depth + left = after at hafter hadmits ⊢
  induction is generalizing a with
  | nil =>
    cases hafter
    exact ⟨a, performs_nil.mpr rfl, hr, rfl, .refl (Nat.le_refl _)⟩
  | cons i is ih =>
    simp only [Instruction.depthAfter] at hafter
    split at hafter
    · rename_i hpops
      have hends := honward i (by simp)
      -- A branch is the last instruction, so its label is reached in the depth behind it.
      have htarget : ∀ label, i.target? = some label →
          label ∈ labels ∧ after = a.depth - i.pops a.returnsValue := by
        intro label ht
        obtain ⟨rfl, hlabel⟩ := hbranches i [] is label rfl ht
        rw [Instruction.depthAfter, Option.some.injEq,
          Instruction.pushes_eq_zero_of_target a.returnsValue ht] at hafter
        exact ⟨hlabel, by omega⟩
      obtain ⟨b, hb⟩ := emit_ok hf hpops fun label ht => by
        obtain ⟨hlabel, hafter'⟩ := htarget label ht
        rw [← hafter']
        exact hadmits label hlabel
      have he := emit_eq_ok hf hb
      have hkept := he.kept (fun label ht => (htarget label ht).1)
        (fun label ht => (htarget label ht).2)
      have hbdepth : b.depth = a.depth - i.pops a.returnsValue + i.pushes a.returnsValue := by
        simp [he.depth, hends]
      obtain ⟨c, hc, hreach, hcdepth, hkept'⟩ := ih (he.frozen.trans hf)
        (by simp [he.reachable, hends])
        (fun j hj => honward j (by simp [hj]))
        (fun j is₁ is₂ label his => hbranches j (i :: is₁) is₂ label (by rw [his]; rfl))
        (by rw [he.returnsValue, hbdepth]; exact hafter)
        (fun label hlabel => hkept.admits (hadmits label hlabel).lt (hadmits label hlabel))
      refine ⟨c, performs_cons.mpr ⟨b, perform_emit.mpr hb, hc⟩, hreach, hcdepth, ?_⟩
      rw [he.labelCount] at hkept'
      exact hkept.trans hkept'
    · cases hafter

/-- A draft that is accepted by every assembly whose given labels admit its depth. -/
def Accepted (labels : List Label) (results : Nat) (draft : Draft) : Prop :=
  ∀ a, a.frozen = false → a.reachable = true → (∀ label ∈ labels, a.Admits label a.depth) →
    ∃ b, Accepts (draft a.labels.size) labels results a b

section

variable {f g : Draft} {taken left limit room : Nat} {is : List Instruction}

theorem Accepted.mono (h : Accepted labels results f) (hlabels : labels ⊆ labels') :
    Accepted labels' results f := by
  intro a hf hr hadmits
  obtain ⟨b, hb⟩ := h a hf hr fun label hlabel => hadmits label (hlabels hlabel)
  exact ⟨b, hb.mono hlabels⟩

/-- The second draft goes on with the labels where the first stopped. -/
theorem accepts_append (hf : a.frozen = false) (h : Accepts (f a.labels.size) labels results a b)
    (h' : Accepts (g b.labels.size) labels' results' b c) (hbase : results = 0 ∨ labels' = []) :
    Accepts ((f ++ g) a.labels.size) (labels ++ labels') (results + results') a c := by
  rw [Draft.append_apply, ← h.performs.labelCount hf]
  exact h.trans hf h' hbase

/-- Values one after another. -/
theorem Accepted.values (h : Accepted [] results f) (h' : Accepted [] results' g) :
    Accepted [] (results + results') (f ++ g) := by
  intro a hf hr _
  obtain ⟨b, hb⟩ := h a hf hr (by simp)
  obtain ⟨c, hc⟩ := h' b (hb.performs.frozen hf) hb.reachable (by simp)
  exact ⟨c, accepts_append hf hb hc (.inr rfl)⟩

/-- A condition that jumps, and one behind it. -/
theorem Accepted.conditions (h : Accepted labels 0 f) (h' : Accepted labels' results g) :
    Accepted (labels ++ labels') results (f ++ g) := by
  intro a hf hr hadmits
  obtain ⟨b, hb⟩ := h a hf hr fun label hlabel => hadmits label (List.mem_append_left _ hlabel)
  obtain ⟨c, hc⟩ := h' b (hb.performs.frozen hf) hb.reachable fun label hlabel => by
    have ha := hadmits label (List.mem_append_right _ hlabel)
    rw [hb.depth]
    exact hb.kept.admits ha.lt ha
  have := accepts_append hf hb hc (.inl rfl)
  rw [Nat.zero_add] at this
  exact ⟨c, this⟩

/-- Straight-line code behind its operands. -/
theorem Accepted.straight (h : Accepted [] taken f) (hs : Instruction.Straight labels taken left is)
    (hbase : left = 0 ∨ labels = []) : Accepted labels left (f ++ .emit is) := by
  intro a hf hr hadmits
  obtain ⟨b, hb⟩ := h a hf hr (by simp)
  have hfb := hb.performs.frozen hf
  have hle := hb.performs.labelCount_le hf
  have hlabels : ∀ label ∈ labels, b.Admits label (a.depth + left) := by
    intro label hlabel
    rcases hbase with rfl | rfl
    · have ha := hadmits label hlabel
      exact (hb.kept.any_depth _).admits ha.lt ha
    · simp at hlabel
  obtain ⟨c, hc, hreach, hdepth, hkept⟩ := accepts_straight hs hfb hb.reachable hb.depth hlabels
  have habove : Above a.depth (is.map .emit) b :=
    above_straight hfb hs.onward hb.depth (by
      have := hs.enough b.returnsValue 0
      rw [Nat.zero_add] at this
      simp [this])
  refine ⟨c, Directive.performs_append.mpr ⟨b, hb.performs, hc⟩, hreach, hdepth, ?_, ?_,
    hb.above.append hb.performs habove⟩
  · refine ((hb.kept.any_depth _).mono (Nat.le_refl _) (List.nil_subset _)).trans ?_
    rcases hbase with rfl | rfl
    · exact hkept.mono hle (List.Subset.refl _)
    · exact (hkept.any_depth _).mono hle (List.Subset.refl _)
  · intro label ht
    rw [Draft.append_apply, targets_append, Bool.or_eq_true] at ht
    rcases ht with ht | ht
    · rcases hb.closed label ht with hin | hm
      · simp at hin
      · exact .inr (hc.isMarked hfb hm)
    · obtain ⟨i, hi, hlabel⟩ := targets_iff.mp ht
      obtain ⟨j, hj, hji⟩ := List.mem_map.mp hi
      cases hji
      obtain ⟨is₁, is₂, his⟩ := List.append_of_mem hj
      exact .inl (hs.branches i is₁ is₂ label his hlabel).2

theorem accepted_nil : Accepted [] 0 (.write []) := fun a _ hr _ =>
  ⟨a, performs_nil.mpr rfl, hr, rfl, .refl (Nat.le_refl _), by simp [Draft.write, Directive.targets],
    trivial⟩

theorem accepted_emit (hs : Instruction.Straight labels 0 left is)
    (hbase : left = 0 ∨ labels = []) : Accepted labels left (.emit is) := by
  have := accepted_nil.straight hs hbase
  rwa [show (.write [] : Draft) ++ Draft.emit is = .emit is from rfl] at this

theorem accepted_enter {inside : Nat → Draft} {levels : Nat} (hroom : 1 + levels ≤ room)
    (h : ∀ room, levels ≤ room → Accepted labels results (inside room)) :
    Accepted labels results (enter limit room inside) := by
  cases room with
  | zero => omega
  | succ room => exact h room (by omega)

theorem outlet_base (outlet : Outlet) : outlet.results = 0 ∨ outlet.labels = [] := by
  cases outlet with
  | stack => exact .inr rfl
  | jumpIfFalse | jumpIfTrue => exact .inl rfl

theorem outlet_labels_subset (outlet : Outlet) (exits : Exits) :
    outlet.labels ⊆ (Purpose.condition outlet exits).labels := by
  cases outlet <;> simp [Outlet.labels, Purpose.labels]

theorem accepted_asValue {purpose : Purpose} {code : Nat → Draft} (levels : Nat)
    (hroom : purpose.levels ⟨1 + (1 + levels), 1 + levels⟩ ≤ room)
    (h : ∀ room, levels ≤ room → Accepted [] 1 (code room)) :
    Accepted purpose.labels purpose.results (asValue limit purpose room code) := by
  cases purpose with
  | value => exact accepted_enter hroom h
  | condition outlet exits =>
    refine accepted_enter hroom fun room hroom => ?_
    exact ((accepted_enter hroom h).straight (straight_test outlet) (outlet_base outlet)).mono
      (outlet_labels_subset outlet exits)

/-- A label behind a condition that lets its first part skip the second. -/
theorem accepted_skip {condition : Label → Draft}
    (h : ∀ skip, Accepted (skip :: labels) 0 (condition skip)) :
    Accepted labels 0 (.fresh fun skip => condition skip ++ .write [.mark skip]) := by
  intro a hf hr hadmits
  have hfd : a.defined.frozen = false := hf
  obtain ⟨b, hb⟩ := h a.labels.size a.defined hfd hr (by
    intro label hlabel
    rcases List.mem_cons.mp hlabel with rfl | hlabel
    · exact ⟨{}, a.defined_new, .inl rfl⟩
    · exact (hadmits label hlabel).defined)
  have hfb := hb.performs.frozen hfd
  obtain ⟨before, after, hbefore, hafter, hposition, hdepth⟩ :=
    hb.kept a.labels.size (by simp)
  rw [a.defined_new] at hbefore
  cases hbefore
  obtain ⟨c, hc⟩ := mark_ok hfb hafter hposition fun _ => by
    rw [hb.depth]
    exact hdepth.imp_right And.right
  have hm := mark_eq_ok hfb hc
  have hmark : Performs [.mark a.labels.size] b c :=
    performs_cons.mpr ⟨c, perform_mark.mpr hc, performs_nil.mpr rfl⟩
  have hperforms := hb.performs
  rw [a.defined_size] at hperforms
  have habove := hb.above
  rw [a.defined_size] at habove
  refine ⟨c, performs_cons.mpr ⟨a.defined, perform_define.mpr rfl,
    Directive.performs_append.mpr ⟨b, hperforms, hmark⟩⟩, hm.reachable, ?_, ?_, ?_,
    above_define (habove.append hperforms (above_mark _))⟩
  · obtain ⟨_, -, -, -, hcdepth⟩ := hm.state
    rw [hcdepth, hb.reachable, if_pos rfl, hb.depth]
    rfl
  · intro label hlabel
    obtain ⟨s, t, hs, ht, hp, hd⟩ := hb.kept label (by simp; omega)
    have hne : label ≠ a.labels.size := by omega
    refine ⟨s, t, (a.defined_old hlabel).symm.trans hs, (hm.others label hne).trans ht, hp, ?_⟩
    refine hd.imp_right (And.imp_left fun hin => ?_)
    exact (List.mem_cons.mp hin).resolve_left hne
  · intro label ht
    have ht' : Directive.targets label (condition a.labels.size a.defined.labels.size) = true := by
      obtain ⟨i, hi, hlabel⟩ := targets_iff.mp ht
      refine targets_iff.mpr ⟨i, ?_, hlabel⟩
      simpa [Draft.fresh, Draft.append_apply, Draft.write] using hi
    rcases hb.closed label ht' with hin | hmb
    · rcases List.mem_cons.mp hin with rfl | hin
      · exact .inr ⟨_, hm.here, _, rfl⟩
      · exact .inl hin
    · exact .inr (hmark.isMarked hfb hmb)

theorem accepted_chain {isAnd : Bool} {left right : Outlet → Draft} (outlet : Outlet)
    (exits : Exits)
    (hleft : ∀ outlet, Accepted (Purpose.condition outlet exits).labels outlet.results
      (left outlet))
    (hright : ∀ outlet, Accepted (Purpose.condition outlet exits).labels outlet.results
      (right outlet)) :
    Accepted (Purpose.condition outlet exits).labels outlet.results
      (chain isAnd left right outlet exits) := by
  cases isAnd with
  | true =>
    cases outlet with
    | stack =>
      exact ((hleft (.jumpIfFalse exits.onFalse)).conditions (hright .stack)).mono
        (by simp [Purpose.labels, Outlet.labels])
    | jumpIfFalse label =>
      exact ((hleft _).conditions (hright _)).mono (by simp [Purpose.labels, Outlet.labels])
    | jumpIfTrue label =>
      exact accepted_skip fun skip => ((hleft (.jumpIfFalse skip)).conditions (hright _)).mono
        (by simp [Purpose.labels, Outlet.labels])
  | false =>
    cases outlet with
    | stack =>
      exact ((hleft (.jumpIfTrue exits.onTrue)).conditions (hright .stack)).mono
        (by simp [Purpose.labels, Outlet.labels])
    | jumpIfTrue label =>
      exact ((hleft _).conditions (hright _)).mono (by simp [Purpose.labels, Outlet.labels])
    | jumpIfFalse label =>
      exact accepted_skip fun skip => ((hleft (.jumpIfTrue skip)).conditions (hright _)).mono
        (by simp [Purpose.labels, Outlet.labels])

end

/-! ## Where the paths of a condition meet -/

/-- The exits that are marked push their truth values, and all paths meet at a joint. -/
def meeting (onTrue onFalse : Bool) (exits : Exits) (join : Label) : List Directive :=
  .emit (.jump .always join) ::
    (if onTrue then
      [.mark exits.onTrue, .emit (.pushInt 1), .emit (.jump .always join)]
    else []) ++
    (if onFalse then [.mark exits.onFalse, .emit (.pushInt 0)] else []) ++
    [.mark join]

theorem landing_eq (exits : Exits) (join : Label) (ds : List Directive) :
    landing exits join ds = meeting (Directive.targets exits.onTrue ds)
      (Directive.targets exits.onFalse ds) exits join := rfl

theorem targets_meeting {onTrue onFalse : Bool} {exits : Exits} {join label : Label}
    (h : Directive.targets label (meeting onTrue onFalse exits join) = true) : join = label := by
  cases onTrue <;> cases onFalse <;> simpa [meeting, Directive.targets] using h

/-- A label that can be marked behind a jump and goes on in the given depth. -/
def Waits (a : Assembly) (label : Label) (depth : Nat) : Prop :=
  ∃ state, a.labels[label]? = some state ∧ state.position? = none ∧ state.depth?.getD 0 = depth

theorem waits_of_kept {label : Label} (h : Kept a.labels.size labels 0 a b)
    (hl : a.labels[label]? = some {}) : Waits b label 0 := by
  obtain ⟨before, after, hbefore, hafter, hp, hd⟩ :=
    h label (Array.getElem?_eq_some_iff.mp hl).1
  rw [hl] at hbefore
  cases hbefore
  refine ⟨after, hafter, hp, ?_⟩
  rcases hd with hd | ⟨-, hd⟩ <;> simp [hd]

/-- Between two states of an assembly only some labels change. -/
def Elsewhere (labels : List Label) (a b : Assembly) : Prop :=
  ∀ label, label ∉ labels → b.labels[label]? = a.labels[label]?

/-- A jump to a label that admits the depth. -/
theorem performs_jump {join : Label} (hf : a.frozen = false) (hadmits : a.Admits join a.depth) :
    ∃ b, Performs [.emit (.jump .always join)] a b ∧ b.reachable = false ∧ b.depth = 0 ∧
      (∃ state, a.labels[join]? = some state ∧
        b.labels[join]? = some { state with depth? := some a.depth }) ∧
      Elsewhere [join] a b := by
  have hpops : (Instruction.jump .always join).pops a.returnsValue = 0 := rfl
  have htarget : ∀ label, (Instruction.jump .always join).target? = some label → label = join := by
    intro label h
    cases h
    rfl
  obtain ⟨b, hb⟩ := emit_ok hf (by rw [hpops]; omega) fun label ht => by
    rw [htarget label ht, hpops]
    exact hadmits
  have he := emit_eq_ok hf hb
  obtain ⟨state, hl, -, hbl⟩ := he.target join rfl
  refine ⟨b, performs_cons.mpr ⟨b, perform_emit.mpr hb, performs_nil.mpr rfl⟩, he.reachable,
    by simp [he.depth, Instruction.jump, Instruction.endsBlock, BranchOp.isUnconditional],
    ⟨state, hl, hbl⟩, fun label hlabel => he.others label fun ht => ?_⟩
  exact hlabel (by simp [htarget label ht])

theorem Elsewhere.refl (labels : List Label) (a : Assembly) : Elsewhere labels a a :=
  fun _ _ => rfl

theorem Elsewhere.trans (h : Elsewhere labels a b) (h' : Elsewhere labels b c) :
    Elsewhere labels a c :=
  fun label hlabel => (h' label hlabel).trans (h label hlabel)

theorem Elsewhere.mono (h : Elsewhere labels a b) (hlabels : labels ⊆ labels') :
    Elsewhere labels' a b :=
  fun label hlabel => h label fun hin => hlabel (hlabels hin)

theorem Elsewhere.waits {label : Label} {depth : Nat} (h : Elsewhere labels a b)
    (hlabel : label ∉ labels) (hwaits : Waits a label depth) : Waits b label depth := by
  obtain ⟨state, hl, hp, hd⟩ := hwaits
  exact ⟨state, (h label hlabel).trans hl, hp, hd⟩

theorem performs_push (v : Int32) (hf : a.frozen = false) :
    ∃ b, Performs [.emit (.pushInt v)] a b ∧ b.reachable = true ∧ b.depth = a.depth + 1 ∧
      Elsewhere [] a b := by
  obtain ⟨b, hb⟩ := emit_ok (i := .pushInt v) hf (by simp) (by simp)
  have he := emit_eq_ok hf hb
  exact ⟨b, performs_cons.mpr ⟨b, perform_emit.mpr hb, performs_nil.mpr rfl⟩,
    by simp [he.reachable], by simp [he.depth], fun label _ => he.others label (by simp)⟩

/-- A mark behind a jump. -/
theorem performs_waiting {label : Label} {depth : Nat} (hf : a.frozen = false)
    (hr : a.reachable = false) (hwaits : Waits a label depth) :
    ∃ b, Performs [.mark label] a b ∧ b.reachable = true ∧ b.depth = depth ∧
      b.IsMarked label ∧ Elsewhere [label] a b := by
  obtain ⟨state, hl, hp, hd⟩ := hwaits
  obtain ⟨b, hb⟩ := mark_ok hf hl hp (by simp [hr])
  have hm := mark_eq_ok hf hb
  obtain ⟨state', hl', -, -, hdepth⟩ := hm.state
  rw [hl] at hl'
  cases hl'
  exact ⟨b, performs_cons.mpr ⟨b, perform_mark.mpr hb, performs_nil.mpr rfl⟩, hm.reachable,
    by simpa [hr, hd] using hdepth, ⟨_, hm.here, _, rfl⟩,
    fun other hother => hm.others other (by simpa using hother)⟩

/-- A mark of a fresh label on the way. -/
theorem performs_passing {label : Label} (hf : a.frozen = false) (hr : a.reachable = true)
    (hl : a.labels[label]? = some {}) :
    ∃ b, Performs [.mark label] a b ∧ b.depth = a.depth ∧ Elsewhere [label] a b := by
  obtain ⟨b, hb⟩ := mark_ok hf hl rfl fun _ => .inl rfl
  have hm := mark_eq_ok hf hb
  obtain ⟨_, -, -, -, hdepth⟩ := hm.state
  exact ⟨b, performs_cons.mpr ⟨b, perform_mark.mpr hb, performs_nil.mpr rfl⟩,
    by simpa [hr] using hdepth, fun other hother => hm.others other (by simpa using hother)⟩

/-- An exit behind a jump pushes its truth value. -/
theorem performs_exit {label : Label} {depth : Nat} (v : Int32) (hf : a.frozen = false)
    (hr : a.reachable = false) (hwaits : Waits a label depth) :
    ∃ b, Performs [.mark label, .emit (.pushInt v)] a b ∧ b.reachable = true ∧
      b.depth = depth + 1 ∧ b.IsMarked label ∧ Elsewhere [label] a b := by
  obtain ⟨c, hc, -, hdepth, hmarked, helse⟩ := performs_waiting hf hr hwaits
  have hfc := hc.frozen hf
  obtain ⟨b, hb, hreach, hbdepth, helse'⟩ := performs_push v hfc
  exact ⟨b, Directive.performs_append.mpr ⟨c, hc, hb⟩, hreach, by rw [hbdepth, hdepth],
    hb.isMarked hfc hmarked, helse.trans (helse'.mono (List.nil_subset _))⟩

/-- Nothing is reachable, and a label is reached in a depth but not marked. -/
def Pending (a : Assembly) (join : Label) (depth : Nat) : Prop :=
  a.reachable = false ∧ a.labels[join]? = some ⟨none, some depth⟩

theorem performs_exit_jump {label join : Label} {depth : Nat} (v : Int32) (hf : a.frozen = false)
    (hpending : Pending a join (depth + 1)) (hne : join ≠ label)
    (hwaits : Waits a label depth) :
    ∃ b, Performs [.mark label, .emit (.pushInt v), .emit (.jump .always join)] a b ∧
      Pending b join (depth + 1) ∧ b.IsMarked label ∧ Elsewhere [label, join] a b := by
  obtain ⟨hr, hjoin⟩ := hpending
  obtain ⟨c, hc, -, hdepth, hmarked, helse⟩ := performs_exit v hf hr hwaits
  have hfc := hc.frozen hf
  have hjoin' : c.labels[join]? = some ⟨none, some (depth + 1)⟩ :=
    (helse join (by simpa using hne)).trans hjoin
  obtain ⟨b, hb, hreach, -, ⟨state, hl, hbl⟩, helse'⟩ :=
    performs_jump hfc ⟨_, hjoin', .inr (by rw [hdepth])⟩
  rw [hjoin'] at hl
  cases hl
  refine ⟨b, Directive.performs_append.mpr ⟨c, hc, hb⟩, ⟨hreach, by rw [hbl, hdepth]⟩,
    hb.isMarked hfc hmarked, ?_⟩
  exact (helse.mono (by simp)).trans (helse'.mono (by simp))

/-- An exit behind a jump takes nothing from the stack. -/
theorem above_exit {label : Label} {depth : Nat} (join : Label) (v : Int32) (hf : a.frozen = false)
    (hr : a.reachable = false) (hwaits : Waits a label depth) :
    Above depth [.mark label, .emit (.pushInt v), .emit (.jump .always join)] a := by
  obtain ⟨c, hc, -, hdepth, -⟩ := performs_waiting hf hr hwaits
  have hfc := hc.frozen hf
  obtain ⟨d, hd, -, hddepth, -⟩ := performs_push v hfc
  exact (above_mark label).append hc ((above_emit (by simp) (by omega)).append hd
    (above_emit rfl (by omega)))

/-- All exits that are marked, and the paths that reach the joint, come in one depth. -/
theorem performs_meeting {onTrue onFalse : Bool} (exits : Exits) (join : Label) {depth : Nat}
    (hf : a.frozen = false) (hdepth : a.depth = depth + 1)
    (hjoin : a.labels[join]? = some {}) (hdistinct : join ≠ exits.onTrue ∧ join ≠ exits.onFalse ∧
      exits.onTrue ≠ exits.onFalse)
    (htrue : onTrue = true → Waits a exits.onTrue depth)
    (hfalse : onFalse = true → Waits a exits.onFalse depth) :
    ∃ b, Performs (meeting onTrue onFalse exits join) a b ∧ b.reachable = true ∧
      b.depth = depth + 1 ∧ b.IsMarked join ∧ (onTrue = true → b.IsMarked exits.onTrue) ∧
      (onFalse = true → b.IsMarked exits.onFalse) ∧
      Elsewhere [exits.onTrue, exits.onFalse, join] a b ∧
      Above depth (meeting onTrue onFalse exits join) a := by
  obtain ⟨hne, hne', hexits⟩ := hdistinct
  obtain ⟨c, hc, hreach, -, ⟨state, hl, hcl⟩, helse⟩ := performs_jump hf ⟨{}, hjoin, .inl rfl⟩
  rw [hjoin] at hl
  cases hl
  rw [hdepth] at hcl
  have hfc := hc.frozen hf
  -- The exit of a condition that holds.
  have hfirst : ∃ d, Performs (if onTrue then [.mark exits.onTrue, .emit (.pushInt 1),
        .emit (.jump .always join)] else []) c d ∧ Pending d join (depth + 1) ∧
      (onTrue = true → d.IsMarked exits.onTrue) ∧ Elsewhere [exits.onTrue, join] c d ∧
      Above depth (if onTrue then [.mark exits.onTrue, .emit (.pushInt 1),
        .emit (.jump .always join)] else []) c := by
    cases onTrue with
    | false => exact ⟨c, performs_nil.mpr rfl, ⟨hreach, hcl⟩, by simp, .refl _ _, trivial⟩
    | true =>
      have hwaits := helse.waits (by simpa using hne.symm) (htrue rfl)
      obtain ⟨d, hd, hpending, hmarked, helse'⟩ :=
        performs_exit_jump 1 hfc ⟨hreach, hcl⟩ hne hwaits
      exact ⟨d, hd, hpending, fun _ => hmarked, helse', above_exit join 1 hfc hreach hwaits⟩
  obtain ⟨d, hd, ⟨hreach, hdl⟩, htrueMarked, helse₁, habove₁⟩ := hfirst
  have hfd := hd.frozen hfc
  -- The exit of a condition that fails.
  have hsecond : ∃ e, Performs (if onFalse then [.mark exits.onFalse, .emit (.pushInt 0)] else [])
        d e ∧ (e.reachable = true → e.depth = depth + 1) ∧
      (onFalse = true → e.IsMarked exits.onFalse) ∧ Elsewhere [exits.onFalse] d e ∧
      Above depth (if onFalse then [.mark exits.onFalse, .emit (.pushInt 0)] else []) d := by
    cases onFalse with
    | false => exact ⟨d, performs_nil.mpr rfl, by simp [hreach], by simp, .refl _ _, trivial⟩
    | true =>
      have hwaits := helse₁.waits (by simp [hexits.symm, hne'.symm])
        (helse.waits (by simpa using hne'.symm) (hfalse rfl))
      obtain ⟨e, he, -, hedepth, hmarked, helse'⟩ := performs_exit 0 hfd hreach hwaits
      exact ⟨e, he, fun _ => hedepth, fun _ => hmarked, helse',
        (above_append.mp (above_exit join 0 hfd hreach hwaits :
          Above depth ([.mark exits.onFalse, .emit (.pushInt 0)] ++ _) d)).1⟩
  obtain ⟨e, he, hedepth, hfalseMarked, helse₂, habove₂⟩ := hsecond
  have hfe := he.frozen hfd
  have hel : e.labels[join]? = some ⟨none, some (depth + 1)⟩ :=
    (helse₂ join (by simpa using hne')).trans hdl
  obtain ⟨b, hb⟩ := mark_ok hfe hel rfl fun hr => .inr (by rw [hedepth hr])
  have hm := mark_eq_ok hfe hb
  have hmark : Performs [.mark join] e b :=
    performs_cons.mpr ⟨b, perform_mark.mpr hb, performs_nil.mpr rfl⟩
  refine ⟨b, ?_, hm.reachable, hm.depth_eq hel rfl, ⟨_, hm.here, _, rfl⟩,
    fun h => hmark.isMarked hfe (he.isMarked hfd (htrueMarked h)),
    fun h => hmark.isMarked hfe (hfalseMarked h), ?_, ?_⟩
  · rw [meeting]
    exact Directive.performs_append.mpr ⟨e, Directive.performs_append.mpr ⟨d,
      Directive.performs_append.mpr ⟨c, hc, hd⟩, he⟩, hmark⟩
  · have hlast : Elsewhere [join] e b := fun label hlabel => hm.others label (by simpa using hlabel)
    exact (((helse.mono (by simp)).trans (helse₁.mono (by simp))).trans
      (helse₂.mono (by simp))).trans (hlast.mono (by simp))
  · have hjumps : Above depth [.emit (.jump .always join)] a := above_emit rfl (by omega)
    rw [meeting]
    exact ((hjumps.append hc habove₁).append (Directive.performs_append.mpr ⟨c, hc, hd⟩)
      habove₂).append (Directive.performs_append.mpr ⟨d, Directive.performs_append.mpr
        ⟨c, hc, hd⟩, he⟩) (above_mark join)

/-- A fresh label that was branched to waits in the depth of the condition. -/
theorem Accepts.waits (h : Accepts ds labels results a b) (hf : a.frozen = false) {label : Label}
    (hl : a.labels[label]? = some {}) (ht : Directive.targets label ds = true) :
    Waits b label a.depth := by
  have hlt := (Array.getElem?_eq_some_iff.mp hl).1
  obtain ⟨before, after, hbefore, hafter, hp, hd⟩ := h.kept label hlt
  rw [hl] at hbefore
  cases hbefore
  obtain ⟨state, depth, hstate, hdepth⟩ := h.performs.reached hf ht
  rw [hafter] at hstate
  cases hstate
  refine ⟨after, hafter, hp, ?_⟩
  rcases hd with hd | ⟨-, hd⟩
  · rw [hdepth] at hd
    cases hd
  · rw [hd]
    rfl

theorem accepted_materialize {condition : Exits → Draft}
    (h : ∀ exits : Exits, Accepted [exits.onTrue, exits.onFalse] 1 (condition exits)) :
    Accepted [] 1 (materialize condition) := by
  intro a hf hr _
  -- The three labels of the condition are fresh.
  let start := a.defined.defined.defined
  let exits : Exits := ⟨a.labels.size, a.labels.size + 1⟩
  have hsize : start.labels.size = a.labels.size + 3 := by simp [start]
  have hold : ∀ {label : Nat}, label < a.labels.size + 1 →
      start.labels[label]? = a.defined.labels[label]? := fun h =>
    (a.defined.defined.defined_old (by simp; omega)).trans (a.defined.defined_old (by simpa using h))
  have honTrue : start.labels[a.labels.size]? = some {} :=
    (hold (by omega)).trans a.defined_new
  have honFalse : start.labels[a.labels.size + 1]? = some {} := by
    have := a.defined.defined_new
    rw [defined_size] at this
    exact (a.defined.defined.defined_old (by simp)).trans this
  have hjoin : start.labels[a.labels.size + 2]? = some {} := by
    have := a.defined.defined.defined_new
    rwa [defined_size, defined_size] at this
  have hfs : start.frozen = false := hf
  obtain ⟨b, hb⟩ := h exits start hfs hr (by
    intro label hlabel
    simp only [exits, List.mem_cons, List.not_mem_nil, or_false] at hlabel
    rcases hlabel with rfl | rfl
    · exact ⟨{}, honTrue, .inl rfl⟩
    · exact ⟨{}, honFalse, .inl rfl⟩)
  have hfb := hb.performs.frozen hfs
  have hwaitsTrue : Directive.targets exits.onTrue (condition exits start.labels.size) = true →
      Waits b exits.onTrue start.depth := hb.waits hfs honTrue
  have hwaitsFalse : Directive.targets exits.onFalse (condition exits start.labels.size) = true →
      Waits b exits.onFalse start.depth := hb.waits hfs honFalse
  obtain ⟨c, hc, hreach, hdepth, hjoined, htrue, hfalse, helse, habove⟩ := performs_meeting
    exits _ hfb hb.depth (hb.kept.fresh hjoin (by simp [exits])) (by simp [exits]) hwaitsTrue hwaitsFalse
  have hwritten : materialize condition a.labels.size =
      .define :: .define :: .define :: (condition exits start.labels.size ++
        landing exits (a.labels.size + 2) (condition exits start.labels.size)) := by
    rw [hsize]
    rfl
  refine ⟨c, ?_, hreach, hdepth, ?_, ?_, ?_⟩
  · rw [hwritten]
    refine performs_cons.mpr ⟨a.defined, perform_define.mpr rfl, performs_cons.mpr
      ⟨a.defined.defined, perform_define.mpr rfl, performs_cons.mpr
        ⟨start, perform_define.mpr rfl, Directive.performs_append.mpr ⟨b, hb.performs, hc⟩⟩⟩⟩
  · intro label hlabel
    obtain ⟨s, t, hs, ht, hp, hd⟩ := hb.kept label (by omega)
    have hne : ∀ k : Nat, label ≠ a.labels.size + k := fun k => by omega
    have hout : label ∉ [exits.onTrue, exits.onFalse, a.labels.size + 2] := by
      simpa [exits] using ⟨hne 0, hne 1, hne 2⟩
    refine ⟨s, t, ((hold (by omega)).trans (a.defined_old hlabel)).symm.trans hs,
      (helse label hout).trans ht, hp, .inl (hd.resolve_right fun hin => hout ?_)⟩
    exact List.mem_append_left [a.labels.size + 2] hin.1
  · intro label ht
    rw [hwritten] at ht
    have ht' : Directive.targets label (condition exits start.labels.size) = true ∨
        Directive.targets label (landing exits (a.labels.size + 2)
          (condition exits start.labels.size)) = true := by
      rw [← Bool.or_eq_true, ← targets_append]
      simpa [Directive.targets] using ht
    refine .inr ?_
    rcases ht' with ht | ht
    · rcases hb.closed label ht with hin | hm
      · simp only [List.mem_cons, List.not_mem_nil, or_false] at hin
        rcases hin with rfl | rfl
        · exact htrue ht
        · exact hfalse ht
      · exact hc.isMarked hfb hm
    · rw [landing_eq] at ht
      exact targets_meeting ht ▸ hjoined
  · rw [hwritten]
    exact above_define (above_define (above_define (hb.above.append hb.performs habove)))

/-! ## Expressions -/

theorem accepted_values {limit room : Nat} (callee : String) (place : Nat) {args : List Expr}
    (h : ∀ e ∈ args, Accepted [] 1 (expr limit e .value room)) :
    Accepted [] args.length
      (operands limit callee place (List.replicate args.length .value) args room) := by
  induction args generalizing place with
  | nil => simpa [operands] using accepted_nil
  | cons e es ih =>
    have htail := ih (place + 1) fun a ha => h a (by simp [ha])
    rw [List.length_cons, List.replicate_succ, operands, Nat.add_comm]
    exact (h e (by simp)).values htail

/-- A call that takes values only is one instruction behind them. -/
theorem invocation_straight {callee : Callee} {args : List Expr}
    (hload : callee ≠ .capability .load) (hleaves : callee.leavesValue)
    (hlength : args.length = callee.arity) :
    ∃ i, invocation callee args = .emit [i] ∧ Instruction.Straight [] args.length 1 [i] := by
  cases callee with
  | method m =>
    refine ⟨_, rfl, straight_plain rfl rfl (fun _ => hlength.symm) fun _ => ?_⟩
    simpa [Instruction.pushes, Instruction.stackEffect, Callee.leavesValue] using hleaves
  | capability c =>
    cases c with
    | add | subtract | remainder =>
      obtain ⟨x, y, rfl⟩ := Expr.two_of_length hlength
      exact ⟨_, rfl, straight_plain rfl rfl (fun _ => rfl) (fun _ => rfl)⟩
    | load => exact absurd rfl hload
    | store | increment | decrement => simp [Callee.leavesValue] at hleaves

theorem accepted_call {limit room : Nat} {callee : Callee} {args : List Expr} {type : Ty}
    (name : String) (h : Expr.Admissible (.call callee args type))
    (hroom : Expr.argumentNeed callee.params args ≤ room)
    (hargs : ∀ e ∈ args, e.Admissible → e.need.value ≤ room →
      Accepted [] 1 (expr limit e .value room)) :
    Accepted [] 1
      (operands limit name 1 callee.params args room ++ invocation callee args) := by
  rcases h.call_cases with ⟨m, rfl, rfl⟩ | ⟨hload, hleaves, hlength, hparams, hall⟩
  · rw [operands_load]
    exact (accepted_nil.values accepted_nil).values
      (accepted_emit (straight_load m) (.inr rfl))
  · obtain ⟨i, hi, hstraight⟩ := invocation_straight hload hleaves hlength
    rw [hparams] at hroom
    rw [hi, hparams]
    refine (accepted_values name 1 fun e he => hargs e he (hall e he) ?_).straight hstraight
      (.inr rfl)
    exact Nat.le_trans (Expr.need_le_argumentNeed he) hroom

/-- The code of an admissible expression can be written wherever its labels admit the depth. -/
theorem accepted_expr (limit : Nat) (e : Expr) (h : e.Admissible) (heq : e.EqualitiesProper)
    (purpose : Purpose) (room : Nat) (hroom : purpose.levels e.need ≤ room) :
    Accepted purpose.labels purpose.results (expr limit e purpose room) := by
  induction e generalizing purpose room with
  | member m =>
    rw [Expr.need] at hroom
    rw [expr]
    exact accepted_asValue 0 hroom fun _ _ =>
      accepted_emit (straight_load m) (.inr rfl)
  | literal l =>
    rw [Expr.need] at hroom
    rw [expr]
    exact accepted_asValue 0 hroom fun _ _ =>
      accepted_emit (straight_literal l) (.inr rfl)
  | carried c => exact absurd rfl (h.notCarried c)
  | call callee args type ih =>
    obtain ⟨name, error, hexpr⟩ := expr_call limit callee args type purpose room
    rw [Expr.need] at hroom
    rw [hexpr]
    have hlength : args.length = callee.arity := by
      rcases h.call_cases with ⟨m, rfl, rfl⟩ | ⟨-, -, hlength, -⟩
      · rfl
      · exact hlength
    refine accepted_asValue _ hroom fun room hroom => ?_
    rw [if_neg (Classical.not_not.mpr hlength)]
    exact accepted_call name h hroom fun e he hadm hneed =>
      ih e he hadm (heq.child he) .value room hneed
  | binary op left right ihl ihr =>
    obtain ⟨hsupported, hleft, hright⟩ := Expr.admissible_binary.mp h
    have hl := ihl hleft (heq.child (by simp [Expr.children]))
    have hr := ihr hright (heq.child (by simp [Expr.children]))
    -- Both operands as values, and both as conditions.
    have hvalues : ∀ room, max left.need.value right.need.value ≤ room →
        Accepted [] 2 (expr limit left .value room ++ expr limit right .value room) :=
      fun room hroom =>
        (hl .value room (Nat.max_le.mp hroom).1).values (hr .value room (Nat.max_le.mp hroom).2)
    have hjoined : ∀ (room : Nat) (outlet : Outlet) (exits : Exits),
        1 + max left.need.condition right.need.condition ≤ room →
        Accepted (Purpose.condition outlet exits).labels outlet.results
          (joined limit left right op room outlet exits) := by
      intro room outlet exits hroom
      refine accepted_enter hroom fun room hroom => accepted_chain outlet exits ?_ ?_
      · exact fun outlet => hl (.condition outlet exits) room (Nat.max_le.mp hroom).1
      · exact fun outlet => hr (.condition outlet exits) room (Nat.max_le.mp hroom).2
    by_cases hlogical : op.isLogical
    · rw [Expr.need_logical hlogical] at hroom
      cases purpose with
      | value =>
        rw [expr_logical_value limit left right room hlogical]
        exact accepted_enter hroom fun room hroom =>
          accepted_materialize fun exits => hjoined room .stack exits hroom
      | condition outlet exits =>
        rw [expr_logical_condition limit left right room hlogical]
        exact hjoined room outlet exits hroom
    · by_cases hcomparison : op.isComparison
      · rw [Expr.need_comparison hcomparison] at hroom
        rw [expr_comparison limit left right purpose room hcomparison]
        obtain ⟨is, his, hstraight⟩ := compare_straight hcomparison
          (comparisonType left right) purpose.outlet
          (fun method hcase hm => heq op left right method .self hcase hm)
        rw [his]
        have hneed : 1 + max left.need.value right.need.value ≤ room := by
          cases purpose <;> exact hroom
        refine (accepted_enter hneed fun room hroom =>
          (hvalues room hroom).straight hstraight (outlet_base _)).mono ?_
        cases purpose with
        | value => exact List.nil_subset _
        | condition outlet exits => exact outlet_labels_subset outlet exits
      · obtain rfl : op = .rem := by simpa [Expr.supported, hlogical, hcomparison] using hsupported
        rw [Expr.need_other hlogical hcomparison] at hroom
        rw [expr_rem]
        exact accepted_asValue _ hroom fun room hroom => (hvalues room hroom).straight
          (straight_plain rfl rfl (fun _ => rfl) (fun _ => rfl)) (.inr rfl)

end Emission

end GuardCode
