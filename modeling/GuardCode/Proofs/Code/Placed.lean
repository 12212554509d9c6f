import GuardCode.Proofs.Code.Forms

/-! Where the instructions of directives stand in finished code. The directives of a body that was
finished are in place from its first instruction on: each instruction stands behind the one before it,
and each label stands where it was marked. -/
namespace GuardCode

/-- The code has an instruction at a position, be it a branch of another form. -/
def Code.Holds (code : Code) (position : Nat) (i : Instruction) : Prop :=
  ∃ j, code.instructions[position]? = some j ∧ j.Alike i

namespace Code.Holds

variable {code : Code} {position : Nat}

/-- Only branches have other forms. -/
theorem eq_some {i : Instruction} (h : code.Holds position i) (ht : i.target? = none) :
    code.instructions[position]? = some i := by
  obtain ⟨j, hj, halike⟩ := h
  obtain rfl | ⟨op, label, f, g, rfl, rfl⟩ := halike.cases_eq
  · exact hj
  · cases ht

theorem eq_branch {op : BranchOp} {label : Label} (h : code.Holds position (.jump op label)) :
    ∃ form, code.instructions[position]? = some (.branch op label form) := by
  obtain ⟨j, hj, halike⟩ := h
  obtain rfl | ⟨op', label', f, g, rfl, hg⟩ := halike.cases_eq
  · exact ⟨_, hj⟩
  · cases hg
    exact ⟨f, hj⟩

end Code.Holds

namespace Directive

/-- How many instructions directives emit. -/
def length (ds : List Directive) : Nat := ds.countP (· matches .emit _)

/-- The directives have been carried out in the code, from a position on. -/
def Placed (code : Code) : Nat → List Directive → Prop
  | _, [] => True
  | position, .emit i :: ds => code.Holds position i ∧ Placed code (position + 1) ds
  | position, .mark label :: ds => code.target label = position ∧ Placed code position ds
  | _, .abort _ :: _ => False
  | position, _ :: ds => Placed code position ds

variable {code : Code} {position : Nat} {ds es : List Directive}

@[simp] theorem length_nil : length [] = 0 := rfl

@[simp] theorem length_emit (i : Instruction) : length (.emit i :: ds) = length ds + 1 := by
  simp [length]

@[simp] theorem length_mark (label : Label) : length (.mark label :: ds) = length ds := by
  simp [length]

@[simp] theorem length_define : length (.define :: ds) = length ds := by
  simp [length]

@[simp] theorem length_declare (type : Ty) : length (.declare type :: ds) = length ds := by
  simp [length]

@[simp] theorem length_append : length (ds ++ es) = length ds + length es := by
  simp [length]

@[simp] theorem length_map_emit (is : List Instruction) :
    length (is.map .emit) = is.length := by
  induction is with
  | nil => rfl
  | cons i is ih => simp [ih]

theorem placed_append :
    Placed code position (ds ++ es) ↔
      Placed code position ds ∧ Placed code (position + length ds) es := by
  induction ds generalizing position with
  | nil => simp [Placed]
  | cons d ds ih =>
    cases d with
    | emit i =>
      simp only [List.cons_append, Placed, ih, length_emit, and_assoc]
      rw [Nat.add_right_comm, Nat.add_assoc]
    | mark label => simp only [List.cons_append, Placed, ih, length_mark, and_assoc]
    | define => simp only [List.cons_append, Placed, ih, length_define]
    | declare type => simp only [List.cons_append, Placed, ih, length_declare]
    | abort error => simp [Placed]

theorem Placed.unaborted (h : Placed code position ds) : Unaborted ds := by
  induction ds generalizing position with
  | nil => exact unaborted_nil
  | cons d ds ih =>
    cases d with
    | emit i => exact unaborted_cons.mpr ⟨nofun, ih h.2⟩
    | mark label => exact unaborted_cons.mpr ⟨nofun, ih h.2⟩
    | define => exact unaborted_cons.mpr ⟨nofun, ih h⟩
    | declare type => exact unaborted_cons.mpr ⟨nofun, ih h⟩
    | abort error => exact h.elim

/-- What was carried out makes the code longer by the instructions that it emits. -/
theorem Performs.size {a b : Assembly} (hf : a.frozen = false) (h : Performs ds a b) :
    b.instructions.size = a.instructions.size + length ds := by
  induction ds generalizing a with
  | nil =>
    obtain rfl := performs_nil.mp h
    rfl
  | cons d ds ih =>
    obtain ⟨c, hc, htail⟩ := performs_cons.mp h
    have hp := performed_of_perform hf hc
    rw [ih (hp.frozen.trans hf) htail]
    cases hp with
    | emit he =>
      rw [he.instructions, Array.size_push, length_emit]
      omega
    | mark hm => rw [hm.instructions, length_mark]
    | define => rw [length_define]
    | declare => rw [length_declare]

/-- An instruction of an assembly stands in the finished code. -/
theorem holds_of_finish {b : Assembly} {i : Instruction} (hfinish : b.finish = .ok code)
    (hi : b.instructions[position]? = some i) : code.Holds position i := by
  obtain ⟨-, hrelax, -⟩ := Assembly.finish_eq_ok hfinish
  have halike := Relaxation.relax_allAlike hrelax
  have hlt : position < code.instructions.size := by
    rw [halike.1]
    exact (Array.getElem?_eq_some_iff.mp hi).1
  obtain ⟨i', hi', hji⟩ := halike.2 position _ (Array.getElem?_eq_getElem hlt)
  rw [hi] at hi'
  cases hi'
  exact ⟨_, Array.getElem?_eq_getElem hlt, hji⟩

/-- What was carried out stands in the finished code. -/
theorem Performs.placed {a b : Assembly} (hf : a.frozen = false) (h : Performs ds a b)
    (hfinish : b.finish = .ok code) : Placed code a.instructions.size ds := by
  induction ds generalizing a with
  | nil => trivial
  | cons d ds ih =>
    obtain ⟨c, hc, htail⟩ := performs_cons.mp h
    have hp := performed_of_perform hf hc
    have hfc := hp.frozen.trans hf
    have hrest := ih hfc htail
    cases hp with
    | @emit i _ _ he =>
      have hlast : c.instructions[a.instructions.size]? = some i := by
        rw [he.instructions, Array.getElem?_push_size]
      rw [he.instructions, Array.size_push] at hrest
      exact ⟨holds_of_finish hfinish (htail.instructions hfc hlast), hrest⟩
    | mark hm =>
      refine ⟨?_, hm.instructions ▸ hrest⟩
      obtain ⟨state, hl, hposition⟩ := htail.position hfc ⟨_, hm.here, rfl⟩
      exact Assembly.target_eq hfinish hl hposition
    | define | declare => exact hrest

end Directive

end GuardCode
