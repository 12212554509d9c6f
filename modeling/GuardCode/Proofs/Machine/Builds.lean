import GuardCode.Proofs.Machine.Calls
import GuardCode.Proofs.StackSafety

/-! Debug builds. A debug build does what a release build does up to the first push that finds no room,
and there it panics. A run of balanced code from an empty stack always has room; with values below its
stack it has as much less as there are values. -/
namespace GuardCode.Machine

variable {σ : Type} {s : Setting σ} {a b fuel steps position : Nat} {m m' : Machine σ}

theorem resumeIn_release (fuel steps position : Nat) (m : Machine σ) :
    resumeIn .release s fuel steps position m = (resume s fuel steps position m).map .stopped := by
  induction fuel generalizing steps position m with
  | zero => rfl
  | succ fuel ih =>
    rw [resumeIn, resume]
    cases s.code.instructions[position]? with
    | none => rfl
    | some i =>
      cases limitReached? s steps with
      | some e => rfl
      | none =>
        dsimp only
        cases step s position i m with
        | stop ending m₁ => rfl
        | goto next m₁ => exact ih (steps + 1) next m₁

/-- One of the next instructions of a run pushes a value that finds no room, if so many further values
lie below its stack. -/
inductive Overflows (s : Setting σ) (below : Nat) : (fuel steps : Nat) → Place σ → Prop where
  | here {fuel steps position next : Nat} {i : Instruction} {m m' : Machine σ}
      (hi : s.code.instructions[position]? = some i) (hl : limitReached? s steps = none)
      (hs : step s position i m = .goto next m') (hpushes : 0 < i.pushes s.code.returnsValue)
      (hfull : s.code.maxStack < m'.stack.length + below) :
      Overflows s below (fuel + 1) steps (position, m)
  | later {fuel steps position next : Nat} {i : Instruction} {m m' : Machine σ}
      (hi : s.code.instructions[position]? = some i) (hl : limitReached? s steps = none)
      (hs : step s position i m = .goto next m')
      (h : Overflows s below fuel (steps + 1) (next, m')) :
      Overflows s below (fuel + 1) steps (position, m)

theorem panics_debug_iff {code : Code} {i : Instruction} :
    Build.debug.panics code i m = true ↔
      0 < i.pushes code.returnsValue ∧ code.maxStack < m.stack.length := by
  simp [Build.panics, Instruction.pushes]

/-- Where a push finds no room, a debug build panics, after the calls made up to there. -/
theorem Overflows.panicked {c : Place σ} (h : Overflows s 0 fuel steps c) :
    resumeIn .debug s fuel steps c.1 c.2 = some .panicked ∧
      callsIn .debug s fuel steps c.1 c.2 <+: calls s fuel steps c.1 c.2 := by
  induction h with
  | @here fuel steps position next i m m' hi hl hs hpushes hfull =>
    have hpanics : Build.debug.panics s.code i m' = true :=
      panics_debug_iff.mpr ⟨hpushes, hfull⟩
    simp only [resumeIn, callsIn, calls, hi, hl, hs, hpanics, ↓reduceIte, true_and]
    exact List.prefix_append _ _
  | @later fuel steps position next i m m' hi hl hs _ ih =>
    simp only [resumeIn, callsIn, calls, hi, hl, hs]
    split
    · exact ⟨rfl, List.prefix_append _ _⟩
    · exact ⟨ih.1, (List.prefix_append_right_inj _).mpr ih.2⟩

/-- Where every push finds room, a debug build does what a release build does. -/
theorem resumeIn_of_room (h : ¬Overflows s 0 fuel steps (position, m)) :
    resumeIn .debug s fuel steps position m = (resume s fuel steps position m).map .stopped ∧
      callsIn .debug s fuel steps position m = calls s fuel steps position m := by
  induction fuel generalizing steps position m with
  | zero => exact ⟨rfl, rfl⟩
  | succ fuel ih =>
    rw [resumeIn, resume, callsIn, calls]
    cases hi : s.code.instructions[position]? with
    | none => exact ⟨rfl, rfl⟩
    | some i =>
      cases hl : limitReached? s steps with
      | some e => exact ⟨rfl, rfl⟩
      | none =>
        dsimp only
        cases hs : step s position i m with
        | stop ending m₁ => exact ⟨rfl, rfl⟩
        | goto next m₁ =>
          have hroom : Build.debug.panics s.code i m₁ = false := by
            rw [Bool.eq_false_iff, Ne, panics_debug_iff]
            exact fun hfull => h (.here hi hl hs hfull.1 hfull.2)
          obtain ⟨hresume, hcalls⟩ := ih fun hlater => h (.later hi hl hs hlater)
          simp only [hroom, Bool.false_eq_true, ↓reduceIte, hresume, hcalls, and_self]

/-- A run that a build does not break off is that of a release build. -/
theorem run_of_runIn {build : Build} {last : Ending × Machine σ}
    (h : runIn build s fuel m = some (.stopped last)) : run s fuel m = some last := by
  have hsame : runIn build s fuel m = (run s fuel m).map .stopped := by
    cases build with
    | release => exact resumeIn_release fuel 0 0 m
    | debug =>
      by_cases hfull : Overflows s 0 fuel 0 (0, m)
      · rw [runIn, hfull.panicked.1] at h
        cases h
      · exact (resumeIn_of_room hfull).1
  rw [hsame, Option.map_eq_some_iff] at h
  obtain ⟨last', hrun, hlast⟩ := h
  cases hlast
  exact hrun

variable {depths : List Nat}

end GuardCode.Machine
