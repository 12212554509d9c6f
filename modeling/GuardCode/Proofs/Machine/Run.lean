import GuardCode.Machine.Basic

/-! Runs of the stack machine, instruction by instruction. A run of `Machine.resume` is a chain of
steps with an ending, so what every step keeps holds all along a run. -/
namespace GuardCode.Machine

variable {σ : Type}

/-- A place of a run: the position of the next instruction, and the machine before it. -/
abbrev Place (σ : Type) := Nat × Machine σ

/-- From one place the run comes to another by so many instructions. -/
inductive Reaches (s : Setting σ) : Place σ → Nat → Place σ → Prop where
  | refl (c : Place σ) : Reaches s c 0 c
  | next {position next n : Nat} {i : Instruction} {m m' : Machine σ} {c : Place σ} :
      s.code.instructions[position]? = some i → step s position i m = .goto next m' →
        Reaches s (next, m') n c → Reaches s (position, m) (n + 1) c

namespace Reaches

variable {s : Setting σ} {c d e : Place σ} {n k : Nat}

theorem trans (h : Reaches s c n d) (h' : Reaches s d k e) : Reaches s c (n + k) e := by
  induction h with
  | refl => simpa using h'
  | next hi hs _ ih => simpa [Nat.add_right_comm] using next hi hs (ih h')

theorem single {position next : Nat} {i : Instruction} {m m' : Machine σ}
    (hi : s.code.instructions[position]? = some i) (hs : step s position i m = .goto next m') :
    Reaches s (position, m) 1 (next, m') :=
  .next hi hs (.refl _)

/-- What every step keeps holds at every place of a run. -/
theorem keeps {P : Place σ → Prop}
    (hstep : ∀ position i m next m', s.code.instructions[position]? = some i →
      P (position, m) → step s position i m = .goto next m' → P (next, m'))
    (h : Reaches s c n d) (hc : P c) : P d := by
  induction h with
  | refl => exact hc
  | next hi hs _ ih => exact ih (hstep _ _ _ _ _ hi hc hs)

end Reaches

variable {s : Setting σ}

/-- A run stops behind the code, at the limit on its steps, or by an instruction that ends it. -/
inductive Stops (s : Setting σ) (steps : Nat) : Place σ → Ending → Machine σ → Prop where
  | fellOff {position : Nat} {m : Machine σ} (hi : s.code.instructions[position]? = none) :
      Stops s steps (position, m) (.error .fellOffEnd) m
  | limit {position : Nat} {m : Machine σ} {i : Instruction} {e : ExecutionError}
      (hi : s.code.instructions[position]? = some i) (hl : limitReached? s steps = some e) :
      Stops s steps (position, m) (.error e) m
  | step {position : Nat} {m m' : Machine σ} {i : Instruction} {ending : Ending}
      (hi : s.code.instructions[position]? = some i) (hl : limitReached? s steps = none)
      (hs : step s position i m = .stop ending m') : Stops s steps (position, m) ending m'

/-- A run that is over has come to a place where it stops. -/
theorem stops_of_resume {fuel steps position : Nat} {m m' : Machine σ} {ending : Ending}
    (h : resume s fuel steps position m = some (ending, m')) :
    ∃ n c, Reaches s (position, m) n c ∧ Stops s (steps + n) c ending m' := by
  induction fuel generalizing steps position m with
  | zero => simp [resume] at h
  | succ fuel ih =>
    rw [resume] at h
    cases hi : s.code.instructions[position]? with
    | none =>
      simp only [hi, Option.some.injEq, Prod.mk.injEq] at h
      obtain ⟨rfl, rfl⟩ := h
      exact ⟨0, _, .refl _, .fellOff hi⟩
    | some i =>
      cases hl : limitReached? s steps with
      | some e =>
        simp only [hi, hl, Option.some.injEq, Prod.mk.injEq] at h
        obtain ⟨rfl, rfl⟩ := h
        exact ⟨0, _, .refl _, .limit hi hl⟩
      | none =>
        cases hs : step s position i m with
        | stop ending' m₁ =>
          simp only [hi, hl, hs, Option.some.injEq, Prod.mk.injEq] at h
          obtain ⟨rfl, rfl⟩ := h
          exact ⟨0, _, .refl _, .step hi hl hs⟩
        | goto next m₁ =>
          simp only [hi, hl, hs] at h
          obtain ⟨n, c, hr, hstop⟩ := ih h
          refine ⟨n + 1, c, .next hi hs hr, ?_⟩
          rwa [show steps + (n + 1) = steps + 1 + n by omega]

/-- Without a limit a run goes on from every place that it reaches. -/
theorem resume_of_reaches (hlimit : s.maxSteps? = none) {c d : Place σ} {n : Nat}
    (h : Reaches s c n d) (fuel steps : Nat) :
    resume s (fuel + n) steps c.1 c.2 = resume s fuel (steps + n) d.1 d.2 := by
  induction h generalizing steps with
  | refl => rfl
  | @next position next n i m m' c hi hs _ ih =>
    rw [← Nat.add_assoc, resume]
    simp only [hi, limitReached?, hlimit, hs]
    rw [ih (steps + 1), show steps + (n + 1) = steps + 1 + n by omega]

/-- Without a limit a run is over once it reaches an instruction that ends it, and more fuel changes
nothing. -/
theorem run_of_reaches (hlimit : s.maxSteps? = none) {m m₁ m' : Machine σ} {n position : Nat}
    {i : Instruction} {ending : Ending} (h : Reaches s (0, m) n (position, m₁))
    (hi : s.code.instructions[position]? = some i)
    (hs : step s position i m₁ = .stop ending m') {fuel : Nat} (hfuel : n < fuel) :
    run s fuel m = some (ending, m') := by
  obtain ⟨extra, rfl⟩ : ∃ extra, fuel = extra + 1 + n := ⟨fuel - n - 1, by omega⟩
  rw [run, resume_of_reaches hlimit h (extra + 1) 0, resume]
  simp only [hi, limitReached?, hlimit, hs]

theorem eq_of_limitReached {steps : Nat} {e : ExecutionError}
    (h : limitReached? s steps = some e) :
    ∃ limit, s.maxSteps? = some limit ∧ e = .stepLimitExceeded limit := by
  unfold limitReached? at h
  split at h
  · next limit hmax =>
    split at h
    · cases h
      exact ⟨limit, hmax, rfl⟩
    · cases h
  · cases h

/-- Under a limit a run ends as it does without, or at the limit. -/
theorem resume_under_limit {c d : Place σ} {n steps : Nat} {m' : Machine σ} {i : Instruction}
    {ending : Ending} (h : Reaches s c n d) (hi : s.code.instructions[d.1]? = some i)
    (hs : step s d.1 i d.2 = .stop ending m') :
    ∃ last : Ending × Machine σ, (last = (ending, m') ∨
        ∃ limit, s.maxSteps? = some limit ∧ last.1 = .error (.stepLimitExceeded limit)) ∧
      ∀ fuel, n < fuel → resume s fuel steps c.1 c.2 = some last := by
  -- Wherever the limit is reached, the run is over.
  have hover : ∀ {position j steps e} {m : Machine σ}, s.code.instructions[position]? = some j →
      limitReached? s steps = some e → ∀ fuel, 0 < fuel →
        resume s fuel steps position m = some (.error e, m) := by
    intro position j steps e m hj he fuel hfuel
    obtain ⟨less, rfl⟩ : ∃ less, fuel = less + 1 := ⟨fuel - 1, by omega⟩
    rw [resume]
    simp only [hj, he]
  induction h generalizing steps with
  | refl c =>
    cases hl : limitReached? s steps with
    | some e =>
      obtain ⟨limit, hmax, rfl⟩ := eq_of_limitReached hl
      exact ⟨_, .inr ⟨limit, hmax, rfl⟩, hover hi hl⟩
    | none =>
      refine ⟨_, .inl rfl, fun fuel hfuel => ?_⟩
      obtain ⟨less, rfl⟩ : ∃ less, fuel = less + 1 := ⟨fuel - 1, by omega⟩
      rw [resume]
      simp only [hi, hl, hs]
  | next hj hgoto _ ih =>
    cases hl : limitReached? s steps with
    | some e =>
      obtain ⟨limit, hmax, rfl⟩ := eq_of_limitReached hl
      exact ⟨_, .inr ⟨limit, hmax, rfl⟩, fun fuel hfuel => hover hj hl fuel (by omega)⟩
    | none =>
      obtain ⟨last, hlast, hresume⟩ := ih hi hs
      refine ⟨last, hlast, fun fuel hfuel => ?_⟩
      obtain ⟨less, rfl⟩ : ∃ less, fuel = less + 1 := ⟨fuel - 1, by omega⟩
      rw [resume]
      simp only [hj, hl, hgoto]
      exact hresume less (by omega)

/-- A limit on the steps does not change what a step does. -/
theorem Reaches.limited {c d : Place σ} {n : Nat} (h : Reaches s c n d) (limit? : Option Nat) :
    Reaches { s with maxSteps? := limit? } c n d := by
  induction h with
  | refl c => exact .refl c
  | next hi hs _ ih => exact .next hi hs ih

end GuardCode.Machine
