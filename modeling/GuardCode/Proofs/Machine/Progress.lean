import GuardCode.Proofs.Machine.Effects

/-! Code whose branches all go forward. The positions of a run of such code increase from each
instruction to the next, so none is carried out twice and every run is over after as many instructions
as the code has. -/
namespace GuardCode

/-- Every branch goes to an instruction behind it. -/
def Code.Forward (code : Code) : Prop :=
  ∀ (position : Nat) (i : Instruction) (label : Label),
    code.instructions[position]? = some i → i.target? = some label → position < code.target label

theorem Code.Forward.lt_of_edge {code : Code} (h : code.Forward) {position next : Nat}
    {i : Instruction} (hi : code.instructions[position]? = some i)
    (hedge : code.Edge position i next) : position < next := by
  rcases hedge with ⟨rfl, -⟩ | ⟨label, htarget, rfl⟩
  · omega
  · exact h position i label hi htarget

namespace Machine

variable {σ : Type} {s : Setting σ} {c d e : Place σ} {n k : Nat}

/-- Each instruction of a run takes it further. -/
theorem Reaches.advances (hf : s.code.Forward) (h : Reaches s c n d) : c.1 + n ≤ d.1 := by
  induction h with
  | refl c => exact Nat.le_refl _
  | @next position next n i m m' c hi hs _ ih =>
    have hlt := hf.lt_of_edge hi (step_goto hs).1
    simp only at ih ⊢
    omega

/-- There is one way to go on from a place. -/
theorem Reaches.rest (h : Reaches s c n d) (h' : Reaches s c (n + k) e) : Reaches s d k e := by
  induction h with
  | refl c => simpa using h'
  | @next position next n i m m' c hi hs _ ih =>
    rw [Nat.add_right_comm] at h'
    cases h' with
    | next hi' hs' htail =>
      rw [hi] at hi'
      cases hi'
      rw [hs] at hs'
      cases hs'
      exact ih htail

/-- No instruction is carried out twice. -/
theorem Reaches.once (hf : s.code.Forward) {position : Nat} {m m' : Machine σ}
    (h : Reaches s c n (position, m)) (h' : Reaches s c k (position, m')) : n = k := by
  rcases Nat.le_total n k with hle | hle
  · obtain ⟨more, rfl⟩ := Nat.exists_eq_add_of_le hle
    have hadvances := (h.rest h').advances hf
    simp only at hadvances
    omega
  · obtain ⟨more, rfl⟩ := Nat.exists_eq_add_of_le hle
    have hadvances := (h'.rest h).advances hf
    simp only at hadvances
    omega

/-- More fuel changes nothing once a run is over. -/
theorem resume_more {fuel steps position : Nat} {m : Machine σ} {last : Ending × Machine σ}
    (h : resume s fuel steps position m = some last) (more : Nat) :
    resume s (fuel + more) steps position m = some last := by
  induction fuel generalizing steps position m with
  | zero => simp [resume] at h
  | succ fuel ih =>
    rw [Nat.add_right_comm, resume]
    rw [resume] at h
    cases hi : s.code.instructions[position]? with
    | none => simpa [hi] using h
    | some i =>
      cases hl : limitReached? s steps with
      | some e => simpa [hi, hl] using h
      | none =>
        cases hs : step s position i m with
        | stop ending m' => simpa [hi, hl, hs] using h
        | goto next m' =>
          simp only [hi, hl, hs] at h ⊢
          exact ih h

/-- The fuel that a run needs is the number of the instructions that are left. -/
theorem resume_ends (hf : s.code.Forward) {fuel : Nat} (steps : Nat) {position : Nat}
    (m : Machine σ) (hfuel : 0 < fuel) (h : s.code.instructions.size < fuel + position) :
    ∃ last, resume s fuel steps position m = some last := by
  induction fuel generalizing steps position m with
  | zero => omega
  | succ fuel ih =>
    rw [resume]
    cases hi : s.code.instructions[position]? with
    | none => exact ⟨_, rfl⟩
    | some i =>
      cases hl : limitReached? s steps with
      | some e => exact ⟨_, rfl⟩
      | none =>
        cases hs : step s position i m with
        | stop ending m' =>
          simp only [hs]
          exact ⟨_, rfl⟩
        | goto next m' =>
          simp only [hs]
          have hlt := hf.lt_of_edge hi (step_goto hs).1
          have hinside : position < s.code.instructions.size :=
            (Array.getElem?_eq_some_iff.mp hi).1
          exact ih (steps + 1) m' (by omega) (by omega)

/-- Every run of forward code is over once it has fuel for each of its instructions. -/
theorem run_ends (hf : s.code.Forward) (m : Machine σ) :
    ∃ last, ∀ fuel, s.code.instructions.size < fuel → run s fuel m = some last := by
  obtain ⟨last, hlast⟩ : ∃ last, resume s (s.code.instructions.size + 1) 0 0 m = some last :=
    resume_ends hf 0 m (by omega) (by omega)
  refine ⟨last, fun fuel hfuel => ?_⟩
  obtain ⟨more, rfl⟩ := Nat.exists_eq_add_of_le (show s.code.instructions.size + 1 ≤ fuel from hfuel)
  exact resume_more hlast more

end Machine

end GuardCode
