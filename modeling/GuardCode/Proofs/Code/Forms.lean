import GuardCode.Proofs.Assembly.Performs

/-! Finishing an assembly. The finished code has the instructions of the assembly, at most the forms
of branches are other ones, and each label stands where it was marked. -/
namespace GuardCode

namespace Instruction

/-- Equal instructions, or branches that differ in their form only. -/
def Alike (i j : Instruction) : Prop := Relaxation.lengthen i = Relaxation.lengthen j

namespace Alike

variable {i j k : Instruction}

theorem refl (i : Instruction) : Alike i i := rfl

theorem trans (h : Alike i j) (h' : Alike j k) : Alike i k := Eq.trans h h'

theorem lengthen (i : Instruction) : Alike (Relaxation.lengthen i) i := by
  cases i <;> rfl

/-- Branches that are alike have one condition and one label. -/
theorem cases_eq (h : Alike i j) :
    i = j ∨ ∃ op label f g, i = .branch op label f ∧ j = .branch op label g := by
  unfold Alike at h
  cases i with
  | branch op label f =>
    cases j with
    | branch op' label' g =>
      simp only [Relaxation.lengthen, branch.injEq, and_true] at h
      obtain ⟨rfl, rfl⟩ := h
      exact .inr ⟨op, label, f, g, rfl, rfl⟩
    | _ => simp [Relaxation.lengthen] at h
  | _ =>
    cases j with
    | branch => simp [Relaxation.lengthen] at h
    | _ => exact .inl h

theorem stackEffect_eq (h : Alike i j) (returnsValue : Bool) :
    i.stackEffect returnsValue = j.stackEffect returnsValue := by
  obtain rfl | ⟨op, label, f, g, rfl, rfl⟩ := h.cases_eq <;> rfl

theorem pops_eq (h : Alike i j) (returnsValue : Bool) :
    i.pops returnsValue = j.pops returnsValue := by
  rw [pops, h.stackEffect_eq, pops]

theorem pushes_eq (h : Alike i j) (returnsValue : Bool) :
    i.pushes returnsValue = j.pushes returnsValue := by
  rw [pushes, h.stackEffect_eq, pushes]

theorem endsBlock_eq (h : Alike i j) : i.endsBlock = j.endsBlock := by
  obtain rfl | ⟨op, label, f, g, rfl, rfl⟩ := h.cases_eq <;> rfl

theorem target?_eq (h : Alike i j) : i.target? = j.target? := by
  obtain rfl | ⟨op, label, f, g, rfl, rfl⟩ := h.cases_eq <;> rfl

end Alike

end Instruction

namespace Relaxation

/-- Instruction by instruction alike. -/
def AllAlike (is js : Array Instruction) : Prop :=
  js.size = is.size ∧
    ∀ (position : Nat) (j : Instruction), js[position]? = some j →
      ∃ i, is[position]? = some i ∧ j.Alike i

theorem AllAlike.refl (is : Array Instruction) : AllAlike is is :=
  ⟨rfl, fun _ j hj => ⟨j, hj, .refl j⟩⟩

theorem AllAlike.trans {is js ks : Array Instruction} (h : AllAlike is js)
    (h' : AllAlike js ks) : AllAlike is ks := by
  refine ⟨h'.1.trans h.1, fun position k hk => ?_⟩
  obtain ⟨j, hj, hkj⟩ := h'.2 position k hk
  obtain ⟨i, hi, hji⟩ := h.2 position j hj
  exact ⟨i, hi, hkj.trans hji⟩

theorem pass_allAlike (targets : Array Nat) (is : Array Instruction) :
    AllAlike is (pass targets is) := by
  refine ⟨by simp [pass], fun position j hj => ?_⟩
  simp only [pass, Array.getElem?_mapIdx, Option.map_eq_some_iff] at hj
  obtain ⟨i, hi, rfl⟩ := hj
  refine ⟨i, hi, ?_⟩
  split
  · exact .lengthen i
  · exact .refl i

theorem settle_allAlike (targets : Array Nat) (passes : Nat) (is : Array Instruction) :
    AllAlike is (settle targets passes is) := by
  induction passes generalizing is with
  | zero => exact .refl is
  | succ passes ih =>
    simp only [settle]
    split
    · exact .refl is
    · exact (pass_allAlike targets is).trans (ih _)

theorem relax_allAlike {encoding : Encoding} {targets : Array Nat} {is js : Array Instruction}
    (h : relax encoding targets is = .ok js) : AllAlike is js := by
  cases encoding with
  | auto =>
    simp only [relax, Except.ok.injEq] at h
    subst h
    exact settle_allAlike _ _ _
  | short =>
    simp only [relax] at h
    split at h
    · cases h
    · cases h
      exact .refl _
  | long =>
    simp only [relax, Except.ok.injEq] at h
    subst h
    refine ⟨by simp, fun position j hj => ?_⟩
    simp only [Array.getElem?_map, Option.map_eq_some_iff] at hj
    obtain ⟨i, hi, rfl⟩ := hj
    exact ⟨i, hi, .lengthen i⟩

/-- Only the encoding that demands short branches can fail. -/
theorem relax_ok {encoding : Encoding} (h : encoding ≠ .short) (targets : Array Nat)
    (is : Array Instruction) : ∃ js, relax encoding targets is = .ok js := by
  cases encoding with
  | auto | long => exact ⟨_, rfl⟩
  | short => exact absurd rfl h

end Relaxation

namespace Assembly

variable {a : Assembly} {code : Code}

/-- Every label that an instruction branches to is marked. -/
def Bound (a : Assembly) : Prop :=
  ∀ (position : Nat) (i : Instruction) (label : Label) (state : LabelState),
    a.instructions[position]? = some i → i.target? = some label →
      a.labels[label]? = some state → ∃ target, state.position? = some target

theorem unmarked?_eq_none_iff : a.unmarked? = none ↔ a.Bound := by
  simp only [unmarked?, Option.map_eq_none_iff, List.find?_eq_none]
  constructor
  · intro h position i label state hi ht hl
    have hmem : (state, label) ∈ a.labels.toList.zipIdx := by
      rw [List.mk_mem_zipIdx_iff_getElem?]
      simpa using hl
    have hbranch : label ∈ a.instructions.toList.filterMap Instruction.target? := by
      refine List.mem_filterMap.mpr ⟨i, ?_, ht⟩
      exact List.mem_of_getElem? (by simpa using hi)
    have := h _ hmem
    simp only [List.contains_eq_mem, hbranch, decide_true, Bool.and_true,
      Option.isNone_iff_eq_none] at this
    exact Option.ne_none_iff_exists'.mp this
  · rintro h ⟨state, label⟩ hmem hcontra
    simp only [Bool.and_eq_true, Option.isNone_iff_eq_none, List.contains_eq_mem,
      decide_eq_true_eq] at hcontra
    obtain ⟨hnone, hbranch⟩ := hcontra
    obtain ⟨i, hi, ht⟩ := List.mem_filterMap.mp hbranch
    obtain ⟨position, hposition⟩ := List.getElem?_of_mem hi
    rw [List.mk_mem_zipIdx_iff_getElem?] at hmem
    obtain ⟨target, htarget⟩ := h position i label state (by simpa using hposition) ht
      (by simpa using hmem)
    simp [hnone] at htarget

theorem finish_eq_ok (h : a.finish = .ok code) :
    a.Bound ∧ Relaxation.relax a.encoding a.targets a.instructions = .ok code.instructions ∧
      code.labels = a.targets ∧ code.locals = a.locals ∧ code.maxStack = a.maxDepth ∧
      code.returnsValue = a.returnsValue := by
  unfold finish at h
  cases hu : a.unmarked? with
  | some label => simp [hu, throw, throwThe, MonadExceptOf.throw] at h
  | none =>
    cases hr : Relaxation.relax a.encoding a.targets a.instructions with
    | error e => simp [hu, hr, bind, Except.bind] at h
    | ok js =>
      simp only [hu, hr, bind, Except.bind, pure, Except.pure, Except.ok.injEq] at h
      subst h
      exact ⟨unmarked?_eq_none_iff.mp hu, rfl, rfl, rfl, rfl, rfl⟩

theorem finish_ok (hbound : a.Bound) (hencoding : a.encoding ≠ .short) :
    ∃ code, a.finish = .ok code := by
  obtain ⟨js, hr⟩ := Relaxation.relax_ok hencoding a.targets a.instructions
  unfold finish
  simp [unmarked?_eq_none_iff.mpr hbound, hr, bind, Except.bind, pure, Except.pure]

/-- A label stands in the code where it was marked. -/
theorem target_eq (h : a.finish = .ok code) {label position : Nat} {state : LabelState}
    (hl : a.labels[label]? = some state) (hp : state.position? = some position) :
    code.target label = position := by
  obtain ⟨-, -, hlabels, -⟩ := finish_eq_ok h
  simp [Code.target, hlabels, targets, Array.getD_eq_getD_getElem?, hl, hp]

end Assembly

end GuardCode
