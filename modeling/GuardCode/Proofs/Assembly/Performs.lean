import GuardCode.Directive
import GuardCode.Proofs.Machine.Frame

/-! Carrying directives out on an assembly. One inversion lemma for each operation says all that it
does when it succeeds; from them follows what a whole list of directives keeps: instructions stay
where they are, a label that is marked stays marked at its position, and a label that was reached in
some depth keeps that depth. -/
namespace GuardCode

namespace Assembly

variable {a b : Assembly} {i : Instruction} {label : Label}

/-- Whether a path may reach a label in a depth: no earlier path reached it in another. -/
def Admits (a : Assembly) (label : Label) (depth : Nat) : Prop :=
  ∃ state, a.labels[label]? = some state ∧ (state.depth? = none ∨ state.depth? = some depth)

/-- What an assembly that takes instructions does with one. -/
structure Emitted (i : Instruction) (a b : Assembly) : Prop where
  operands : i.pops a.returnsValue ≤ a.depth
  instructions : b.instructions = a.instructions.push i
  depth : b.depth =
    if i.endsBlock then 0 else a.depth - i.pops a.returnsValue + i.pushes a.returnsValue
  maxDepth : b.maxDepth =
    max a.maxDepth (a.depth - i.pops a.returnsValue + i.pushes a.returnsValue)
  reachable : b.reachable = !i.endsBlock
  locals : b.locals = a.locals
  returnsValue : b.returnsValue = a.returnsValue
  encoding : b.encoding = a.encoding
  frozen : b.frozen = a.frozen
  labelCount : b.labels.size = a.labels.size
  /-- The label of a branch is reached in the depth without the operands. -/
  target : ∀ label, i.target? = some label → ∃ state, a.labels[label]? = some state ∧
    (state.depth? = none ∨ state.depth? = some (a.depth - i.pops a.returnsValue)) ∧
    b.labels[label]? = some { state with depth? := some (a.depth - i.pops a.returnsValue) }
  others : ∀ label, i.target? ≠ some label → b.labels[label]? = a.labels[label]?

/-- What an assembly that takes marks does with one. -/
structure Marked (label : Label) (a b : Assembly) : Prop where
  state : ∃ state, a.labels[label]? = some state ∧ state.position? = none ∧
    (a.reachable = true → state.depth? = none ∨ state.depth? = some a.depth) ∧
    b.depth = if a.reachable then a.depth else state.depth?.getD 0
  here : b.labels[label]? = some ⟨some a.instructions.size, some b.depth⟩
  others : ∀ other, other ≠ label → b.labels[other]? = a.labels[other]?
  reachable : b.reachable = true
  instructions : b.instructions = a.instructions
  maxDepth : b.maxDepth = a.maxDepth
  locals : b.locals = a.locals
  returnsValue : b.returnsValue = a.returnsValue
  encoding : b.encoding = a.encoding
  frozen : b.frozen = a.frozen
  labelCount : b.labels.size = a.labels.size

theorem recordDepth_eq_ok (h : recordDepth label a = .ok () b) :
    ∃ state, a.labels[label]? = some state ∧
      (state.depth? = none ∨ state.depth? = some a.depth) ∧
      b = a.setLabel label { state with depth? := some a.depth } := by
  unfold recordDepth at h
  cases hl : a.labels[label]? with
  | none => simp [hl] at h
  | some state =>
    cases hd : state.depth? with
    | none =>
      simp only [hl, hd, EStateM.Result.ok.injEq, true_and] at h
      exact ⟨state, rfl, .inl hd, h.symm⟩
    | some expected =>
      simp only [hl, hd] at h
      split at h
      · rename_i heq
        simp only [EStateM.Result.ok.injEq, true_and] at h
        subst heq h
        refine ⟨state, rfl, .inr hd, ?_⟩
        -- Recording the depth that is there already changes nothing.
        have hsame : { state with depth? := some a.depth } = state := by rw [← hd]
        have hset : a.labels.setIfInBounds label state = a.labels := by
          apply Array.ext
          · simp
          · intro j hj hj'
            rw [Array.getElem_setIfInBounds hj']
            split
            · rename_i heq
              subst heq
              have := Array.getElem?_eq_getElem hj'
              rw [hl] at this
              exact Option.some.inj this
            · rfl
        rw [setLabel, hsame, hset]
      · simp at h

theorem recordDepth_ok (h : Admits a label a.depth) : ∃ b, recordDepth label a = .ok () b := by
  obtain ⟨state, hl, hd⟩ := h
  unfold recordDepth
  rcases hd with hd | hd <;> simp [hl, hd]

theorem popOperands_eq_ok (h : popOperands i a = .ok () b) :
    i.pops a.returnsValue ≤ a.depth ∧
      b = { a with depth := a.depth - i.pops a.returnsValue } := by
  unfold popOperands at h
  simp only at h
  split at h
  · simp at h
  · rename_i hlt
    simp only [EStateM.Result.ok.injEq, true_and] at h
    exact ⟨by simpa [Instruction.pops] using hlt, h.symm⟩

theorem popOperands_ok (h : i.pops a.returnsValue ≤ a.depth) :
    popOperands i a = .ok () { a with depth := a.depth - i.pops a.returnsValue } := by
  unfold popOperands
  simp only [Instruction.pops] at h ⊢
  rw [if_neg (by omega)]

theorem modify_eq_ok {f : Assembly → Assembly}
    (h : (modify f : Operation Unit) a = .ok () b) : b = f a := by
  cases h
  rfl

theorem emit_eq_ok (hf : a.frozen = false) (h : emit i a = .ok () b) : Emitted i a b := by
  unfold emit at h
  simp only [hf, Bool.false_eq_true, ↓reduceIte] at h
  cases ht : i.target? with
  | none =>
    simp only [ht] at h
    cases hp : popOperands i a with
    | error e c => simp [bind, EStateM.bind, hp] at h
    | ok u c =>
      simp only [bind, EStateM.bind, hp] at h
      obtain ⟨hle, rfl⟩ := popOperands_eq_ok hp
      obtain rfl := modify_eq_ok h
      exact ⟨hle, rfl, rfl, rfl, rfl, rfl, rfl, rfl, rfl, rfl, by simp [ht], fun _ _ => rfl⟩
  | some label =>
    simp only [ht] at h
    split at h
    · simp at h
    · rename_i hlt
      cases hp : popOperands i a with
      | error e c => simp [bind, EStateM.bind, hp] at h
      | ok u c =>
        cases hr : recordDepth label c with
        | error e d => simp [bind, EStateM.bind, hp, hr] at h
        | ok u d =>
          simp only [bind, EStateM.bind, hp, hr] at h
          obtain ⟨hle, rfl⟩ := popOperands_eq_ok hp
          obtain ⟨state, hl, hd, rfl⟩ := recordDepth_eq_ok hr
          obtain rfl := modify_eq_ok h
          have hlt : label < a.labels.size := Nat.not_le.mp hlt
          refine ⟨hle, rfl, rfl, rfl, rfl, rfl, rfl, rfl, rfl, by simp [append, setLabel],
            ?_, ?_⟩
          · intro other hother
            rw [ht] at hother
            cases hother
            exact ⟨state, hl, hd, by simp [append, setLabel, hlt]⟩
          · intro other hother
            have hne : label ≠ other := by
              rintro rfl
              exact hother ht
            simp [append, setLabel, hne]

theorem emit_ok (hf : a.frozen = false) (hpops : i.pops a.returnsValue ≤ a.depth)
    (htarget : ∀ label, i.target? = some label →
      Admits a label (a.depth - i.pops a.returnsValue)) :
    ∃ b, emit i a = .ok () b := by
  unfold emit
  simp only [hf, Bool.false_eq_true, ↓reduceIte]
  cases ht : i.target? with
  | none =>
    simp only [bind, EStateM.bind, popOperands_ok hpops]
    exact ⟨_, rfl⟩
  | some label =>
    have hadmits := htarget label ht
    obtain ⟨c, hc⟩ := recordDepth_ok (a := { a with depth := a.depth - i.pops a.returnsValue })
      hadmits
    obtain ⟨state, hl, -⟩ := hadmits
    have hlt : ¬ a.labels.size ≤ label := Nat.not_le.mpr (Array.getElem?_eq_some_iff.mp hl).1
    simp only [hlt, ↓reduceIte, bind, EStateM.bind, popOperands_ok hpops, hc]
    exact ⟨_, rfl⟩

theorem mark_eq_ok (hf : a.frozen = false) (h : mark label a = .ok () b) : Marked label a b := by
  unfold mark at h
  simp only [hf, Bool.false_eq_true, ↓reduceIte] at h
  cases hl : a.labels[label]? with
  | none => simp [hl] at h
  | some state =>
    have hlt : label < a.labels.size := (Array.getElem?_eq_some_iff.mp hl).1
    simp only [hl] at h
    cases hp : state.position? with
    | some position => simp [hp] at h
    | none =>
      simp only [hp, Option.isSome_none, Bool.false_eq_true, ↓reduceIte] at h
      cases hr : a.reachable with
      | true =>
        simp only [hr, ↓reduceIte] at h
        cases hrec : recordDepth label a with
        | error e c => simp [hrec] at h
        | ok u c =>
          simp only [hrec, EStateM.Result.ok.injEq, true_and] at h
          obtain ⟨state', hl', hd, rfl⟩ := recordDepth_eq_ok hrec
          rw [hl] at hl'
          cases hl'
          subst h
          exact ⟨⟨state, hl, hp, fun _ => hd, by simp [setLabel, hr]⟩, by simp [setLabel, hlt],
            fun other hne => by simp [setLabel, Ne.symm hne], hr, rfl, rfl, rfl, rfl, rfl, rfl,
            by simp [setLabel]⟩
      | false =>
        simp only [hr, Bool.false_eq_true, ↓reduceIte, EStateM.Result.ok.injEq, true_and] at h
        subst h
        exact ⟨⟨state, hl, hp, by simp [hr], by simp [hr]⟩, by simp [setLabel, hlt],
          fun other hne => by simp [setLabel, Ne.symm hne], rfl, rfl, rfl, rfl, rfl, rfl, rfl,
          by simp [setLabel]⟩

/-- A mark at a label that was reached before goes on in the depth in which it was reached. -/
theorem Marked.depth_eq (h : Marked label a b) {state : LabelState} {depth : Nat}
    (hl : a.labels[label]? = some state) (hd : state.depth? = some depth) : b.depth = depth := by
  obtain ⟨state', hl', -, hreach, hdepth⟩ := h.state
  rw [hl] at hl'
  cases hl'
  cases hr : a.reachable with
  | true =>
    have := hreach hr
    rw [hd] at this
    simp only [hdepth, hr, ↓reduceIte]
    simpa [eq_comm] using this
  | false => simp [hdepth, hr, hd]

theorem mark_ok (hf : a.frozen = false) {state : LabelState}
    (hl : a.labels[label]? = some state) (hp : state.position? = none)
    (hd : a.reachable = true → state.depth? = none ∨ state.depth? = some a.depth) :
    ∃ b, mark label a = .ok () b := by
  unfold mark
  simp only [hf, hl, hp, Bool.false_eq_true, ↓reduceIte, Option.isSome_none]
  cases hr : a.reachable with
  | true =>
    obtain ⟨b, hb⟩ := recordDepth_ok ⟨state, hl, hd hr⟩
    simp [hb]
  | false => simp

end Assembly

namespace Directive

variable {a b c : Assembly} {d : Directive} {ds es : List Directive}

/-- The assembly carries all the directives out and is then as given. -/
def Performs (ds : List Directive) (a b : Assembly) : Prop := performAll ds a = .ok () b

instance : Decidable (Performs ds a b) :=
  match h : performAll ds a with
  | .ok () c => decidable_of_iff (c = b) (by rw [Performs, h, EStateM.Result.ok.injEq]; simp)
  | .error e c => isFalse (by rw [Performs, h]; exact nofun)

@[simp] theorem performs_nil : Performs [] a b ↔ b = a := by
  simp [Performs, performAll, pure, EStateM.pure, eq_comm]

theorem performs_cons :
    Performs (d :: ds) a b ↔ ∃ c, perform d a = .ok () c ∧ Performs ds c b := by
  unfold Performs
  rw [performAll]
  cases h : perform d a <;> simp [bind, EStateM.bind, h]

theorem performs_append : Performs (ds ++ es) a b ↔ ∃ c, Performs ds a c ∧ Performs es c b := by
  induction ds generalizing a with
  | nil => simp
  | cons d ds ih =>
    simp only [List.cons_append, performs_cons, ih]
    constructor
    · rintro ⟨c, hc, c', hc', hb⟩
      exact ⟨c', ⟨c, hc, hc'⟩, hb⟩
    · rintro ⟨c', ⟨c, hc, hc'⟩, hb⟩
      exact ⟨c, hc, c', hc', hb⟩

/-! Each directive by itself. -/

theorem perform_emit {i : Instruction} :
    perform (.emit i) a = .ok () b ↔ Assembly.emit i a = .ok () b := by
  simp only [perform, lift]
  cases h : Assembly.emit i a <;> simp

theorem perform_mark {label : Label} :
    perform (.mark label) a = .ok () b ↔ Assembly.mark label a = .ok () b := by
  simp only [perform, lift]
  cases h : Assembly.mark label a <;> simp

theorem perform_define :
    perform .define a = .ok () b ↔ b = { a with labels := a.labels.push {} } := by
  simp [perform, lift, Assembly.define, bind, EStateM.bind, pure, EStateM.pure, eq_comm]

theorem perform_declare {type : Ty} :
    perform (.declare type) a = .ok () b ↔
      a.locals.size < 65536 ∧ b = { a with locals := a.locals.push type } := by
  by_cases h : 65536 ≤ a.locals.size
  · have hlt : ¬ a.locals.size < 65536 := by omega
    simp [perform, lift, Assembly.declare, h, hlt, bind, EStateM.bind]
  · have hlt : a.locals.size < 65536 := by omega
    simp [perform, lift, Assembly.declare, h, hlt, bind, EStateM.bind, pure, EStateM.pure, eq_comm]

theorem perform_abort {error : CompileError} : ¬ perform (.abort error) a = .ok () b := by
  exact nofun

/-- Carrying a directive out, case by case. -/
inductive Performed : Directive → Assembly → Assembly → Prop where
  | emit {i : Instruction} {a b : Assembly} (h : a.Emitted i b) : Performed (.emit i) a b
  | define {a : Assembly} : Performed .define a { a with labels := a.labels.push {} }
  | mark {label : Label} {a b : Assembly} (h : a.Marked label b) : Performed (.mark label) a b
  | declare {type : Ty} {a : Assembly} (h : a.locals.size < 65536) :
      Performed (.declare type) a { a with locals := a.locals.push type }

theorem performed_of_perform (hf : a.frozen = false) (h : perform d a = .ok () b) :
    Performed d a b := by
  cases d with
  | emit i => exact .emit (Assembly.emit_eq_ok hf (perform_emit.mp h))
  | define =>
    obtain rfl := perform_define.mp h
    exact .define
  | mark label => exact .mark (Assembly.mark_eq_ok hf (perform_mark.mp h))
  | declare type =>
    obtain ⟨hlt, rfl⟩ := perform_declare.mp h
    exact .declare hlt
  | abort error => exact absurd h perform_abort

theorem Performed.frozen (h : Performed d a b) : b.frozen = a.frozen := by
  cases h with
  | emit h => exact h.frozen
  | mark h => exact h.frozen
  | define | declare => rfl

/-- What every directive keeps, a list of directives keeps. -/
theorem Performs.keeps {P : Assembly → Prop}
    (hstep : ∀ d a b, Performed d a b → P a → P b) (hf : a.frozen = false)
    (h : Performs ds a b) (ha : P a) : P b := by
  induction ds generalizing a with
  | nil =>
    obtain rfl := performs_nil.mp h
    exact ha
  | cons d ds ih =>
    obtain ⟨c, hc, h⟩ := performs_cons.mp h
    have hp := performed_of_perform hf hc
    exact ih (hp.frozen.trans hf) h (hstep d a c hp ha)

theorem Performs.frozen (hf : a.frozen = false) (h : Performs ds a b) : b.frozen = false :=
  h.keeps (fun _ _ _ hp hc => hp.frozen.trans hc) hf hf

/-- What the assembly was started with stays. -/
theorem Performs.setup (hf : a.frozen = false) (h : Performs ds a b) :
    b.returnsValue = a.returnsValue ∧ b.encoding = a.encoding := by
  refine h.keeps
    (P := fun c => c.returnsValue = a.returnsValue ∧ c.encoding = a.encoding) ?_ hf ⟨rfl, rfl⟩
  rintro d c c' hp ⟨hreturns, hencoding⟩
  cases hp with
  | emit h => exact ⟨h.returnsValue.trans hreturns, h.encoding.trans hencoding⟩
  | mark h => exact ⟨h.returnsValue.trans hreturns, h.encoding.trans hencoding⟩
  | define | declare => exact ⟨hreturns, hencoding⟩

theorem Performs.returnsValue (hf : a.frozen = false) (h : Performs ds a b) :
    b.returnsValue = a.returnsValue :=
  (h.setup hf).1

/-- Instructions stay where they are. -/
theorem Performs.instructions (hf : a.frozen = false) (h : Performs ds a b) {position : Nat}
    {i : Instruction} (hi : a.instructions[position]? = some i) :
    b.instructions[position]? = some i := by
  refine h.keeps (P := fun c => c.instructions[position]? = some i) ?_ hf hi
  intro d c c' hp hc
  cases hp with
  | emit h =>
    have hlt := (Array.getElem?_eq_some_iff.mp hc).1
    rw [h.instructions, Array.getElem?_push_lt hlt, ← Array.getElem?_eq_getElem hlt, hc]
  | mark h => rw [h.instructions, hc]
  | define | declare => exact hc

/-- Labels are never given up. -/
theorem Performs.labelCount_le (hf : a.frozen = false) (h : Performs ds a b) :
    a.labels.size ≤ b.labels.size := by
  refine h.keeps (P := fun c => a.labels.size ≤ c.labels.size) ?_ hf (Nat.le_refl _)
  intro d c c' hp hc
  cases hp with
  | emit h => exact h.labelCount ▸ hc
  | mark h => exact h.labelCount ▸ hc
  | define => exact Nat.le_trans hc (by simp)
  | declare => exact hc

/-- Nor are locals. -/
theorem Performs.localCount_le (hf : a.frozen = false) (h : Performs ds a b) :
    a.locals.size ≤ b.locals.size := by
  refine h.keeps (P := fun c => a.locals.size ≤ c.locals.size) ?_ hf (Nat.le_refl _)
  intro d c c' hp hc
  cases hp with
  | emit h => exact h.locals ▸ hc
  | mark h => exact h.locals ▸ hc
  | define => exact hc
  | declare => exact Nat.le_trans hc (by simp)

/-- A mark stays where it was made. -/
theorem Performs.position (hf : a.frozen = false) (h : Performs ds a b) {label position : Nat}
    (hl : ∃ state, a.labels[label]? = some state ∧ state.position? = some position) :
    ∃ state, b.labels[label]? = some state ∧ state.position? = some position := by
  refine h.keeps (P := fun c => ∃ state, c.labels[label]? = some state ∧
    state.position? = some position) ?_ hf hl
  rintro d c c' hp ⟨state, hs, hposition⟩
  cases hp with
  | @emit i _ _ h =>
    by_cases ht : i.target? = some label
    · obtain ⟨state', hs', -, hb⟩ := h.target label ht
      rw [hs] at hs'
      cases hs'
      exact ⟨_, hb, hposition⟩
    · exact ⟨state, (h.others label ht).trans hs, hposition⟩
  | @mark other _ _ h =>
    by_cases hne : label = other
    · subst hne
      obtain ⟨state', hs', hnone, -⟩ := h.state
      rw [hs] at hs'
      cases hs'
      simp [hposition] at hnone
    · exact ⟨state, (h.others label hne).trans hs, hposition⟩
  | define =>
    have hlt := (Array.getElem?_eq_some_iff.mp hs).1
    exact ⟨state, by rw [Array.getElem?_push_lt hlt, ← Array.getElem?_eq_getElem hlt, hs],
      hposition⟩
  | declare => exact ⟨state, hs, hposition⟩

/-- A label keeps the depth in which it was first reached. -/
theorem Performs.depth (hf : a.frozen = false) (h : Performs ds a b) {label depth : Nat}
    (hl : ∃ state, a.labels[label]? = some state ∧ state.depth? = some depth) :
    ∃ state, b.labels[label]? = some state ∧ state.depth? = some depth := by
  refine h.keeps (P := fun c => ∃ state, c.labels[label]? = some state ∧
    state.depth? = some depth) ?_ hf hl
  rintro d c c' hp ⟨state, hs, hdepth⟩
  cases hp with
  | @emit i _ _ h =>
    by_cases ht : i.target? = some label
    · obtain ⟨state', hs', hd, hb⟩ := h.target label ht
      rw [hs] at hs'
      cases hs'
      refine ⟨_, hb, ?_⟩
      rw [hdepth] at hd
      simpa [eq_comm] using hd
    · exact ⟨state, (h.others label ht).trans hs, hdepth⟩
  | @mark other _ _ h =>
    by_cases hne : label = other
    · subst hne
      exact ⟨_, h.here, by rw [h.depth_eq hs hdepth]⟩
    · exact ⟨state, (h.others label hne).trans hs, hdepth⟩
  | define =>
    have hlt := (Array.getElem?_eq_some_iff.mp hs).1
    exact ⟨state, by rw [Array.getElem?_push_lt hlt, ← Array.getElem?_eq_getElem hlt, hs],
      hdepth⟩
  | declare => exact ⟨state, hs, hdepth⟩

/-- Every label that directives create is there afterwards. -/
theorem Performs.labelCount (hf : a.frozen = false) (h : Performs ds a b) :
    b.labels.size = a.labels.size + Directive.labelCount ds := by
  induction ds generalizing a with
  | nil =>
    obtain rfl := performs_nil.mp h
    simp [Directive.labelCount]
  | cons d ds ih =>
    obtain ⟨c, hc, h⟩ := performs_cons.mp h
    have hp := performed_of_perform hf hc
    rw [ih (hp.frozen.trans hf) h]
    cases hp with
    | emit he => simp [Directive.labelCount, he.labelCount]
    | mark hm => simp [Directive.labelCount, hm.labelCount]
    | define =>
      simp only [Directive.labelCount, Array.size_push, List.countP_cons, ↓reduceIte]
      omega
    | declare => simp [Directive.labelCount]

theorem targets_iff {label : Label} :
    targets label ds = true ↔ ∃ i, .emit i ∈ ds ∧ i.target? = some label := by
  simp only [targets, List.any_eq_true]
  constructor
  · rintro ⟨d, hd, hlabel⟩
    cases d with
    | emit i => exact ⟨i, hd, by simpa using hlabel⟩
    | _ => simp at hlabel
  · rintro ⟨i, hi, hlabel⟩
    exact ⟨_, hi, by simp [hlabel]⟩

theorem targets_append {label : Label} :
    targets label (ds ++ es) = (targets label ds || targets label es) := by
  simp [targets]

/-- No directive gives up. -/
def Unaborted (ds : List Directive) : Prop := ∀ error, .abort error ∉ ds

theorem unaborted_nil : Unaborted [] := by simp [Unaborted]

theorem unaborted_cons : Unaborted (d :: ds) ↔ (∀ error, d ≠ .abort error) ∧ Unaborted ds := by
  simp only [Unaborted, List.mem_cons, not_or, forall_and, ne_eq, eq_comm]

theorem unaborted_append : Unaborted (ds ++ es) ↔ Unaborted ds ∧ Unaborted es := by
  simp only [Unaborted, List.mem_append, not_or, forall_and]

theorem Performs.unaborted (h : Performs ds a b) : Unaborted ds := by
  induction ds generalizing a with
  | nil => exact unaborted_nil
  | cons d ds ih =>
    obtain ⟨c, hc, htail⟩ := performs_cons.mp h
    refine unaborted_cons.mpr ⟨?_, ih htail⟩
    rintro error rfl
    exact perform_abort hc

/-- A label that directives branch to has been reached. -/
theorem Performs.reached (hf : a.frozen = false) (h : Performs ds a b) {label : Label}
    (ht : targets label ds = true) :
    ∃ state depth, b.labels[label]? = some state ∧ state.depth? = some depth := by
  induction ds generalizing a with
  | nil => simp [targets] at ht
  | cons d ds ih =>
    obtain ⟨c, hc, htail⟩ := performs_cons.mp h
    have hp := performed_of_perform hf hc
    have hfc := hp.frozen.trans hf
    by_cases hrest : targets label ds = true
    · exact ih hfc htail hrest
    · obtain ⟨i, hi, hlabel⟩ := targets_iff.mp ht
      rcases List.mem_cons.mp hi with rfl | hi
      · cases hp with
        | emit he =>
          obtain ⟨_, -, -, hstate⟩ := he.target label hlabel
          obtain ⟨state, hl, hd⟩ := htail.depth hfc ⟨_, hstate, rfl⟩
          exact ⟨state, _, hl, hd⟩
      · exact absurd (targets_iff.mpr ⟨i, hi, hlabel⟩) hrest

/-- An instruction that is there in the end was there before or was emitted. -/
theorem Performs.emitted (hf : a.frozen = false) (h : Performs ds a b) {position : Nat}
    {i : Instruction} (hi : b.instructions[position]? = some i) :
    a.instructions[position]? = some i ∨ .emit i ∈ ds := by
  induction ds generalizing a with
  | nil =>
    obtain rfl := performs_nil.mp h
    exact .inl hi
  | cons d ds ih =>
    obtain ⟨c, hc, htail⟩ := performs_cons.mp h
    have hp := performed_of_perform hf hc
    rcases ih (hp.frozen.trans hf) htail with hthere | hmem
    · cases hp with
      | emit he =>
        rw [he.instructions, Array.getElem?_push] at hthere
        split at hthere
        · cases hthere
          exact .inr (by simp)
        · exact .inl hthere
      | mark hm => exact .inl (hm.instructions ▸ hthere)
      | define | declare => exact .inl hthere
    · exact .inr (List.mem_cons_of_mem _ hmem)

end Directive

end GuardCode
