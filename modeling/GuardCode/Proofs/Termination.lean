import GuardCode.Proofs.Layout

/-! Compiled guards always terminate. All branches of a compiled guard go forward, and the only one
that goes behind the last instruction stands where no run comes to: both bodies return before it. So a
run carries each instruction out once at most and ends with a `ret` or with an error of an
instruction, under every limit that leaves room for all of them. -/
namespace GuardCode

namespace Predicate.Laid

variable {P : Instruction → Prop} {code : Code} {front position next : Nat} {i : Instruction}

/-- The positions that runs come to: all but that of the jump behind the first body. -/
def Live (front position : Nat) : Prop := position < front + 8 ∧ position ≠ front + 5

theorem live_edge (h : Laid P code front) (hlive : Live front position)
    (hi : code.instructions[position]? = some i) (hedge : code.Edge position i next) :
    Live front next := by
  rcases Nat.lt_or_ge position front with hlt | hge
  · -- Up to the stored outcome control stays in front of it or comes to it.
    have hle : next ≤ front := by
      rcases hedge with ⟨rfl, -⟩ | ⟨label, ht, rfl⟩
      · exact hlt
      · exact (h.branches position i label hlt hi ht).2
    exact ⟨by omega, by omega⟩
  · rcases hedge with ⟨rfl, hends⟩ | ⟨label, ht, rfl⟩
    · cases h.tail position i hge hi with
      | store | load | test | pushTrue | pushFalse => exact ⟨by omega, by omega⟩
      | answerTrue | answerFalse => cases hends
      | skip => exact absurd rfl hlive.2
    · cases h.tail position i hge hi with
      | test form =>
        cases ht
        rw [show code.target 4 = front + 6 from h.elseBody]
        exact ⟨by omega, by omega⟩
      | skip => exact absurd rfl hlive.2
      | store | load | answerTrue | answerFalse => cases ht
      | pushTrue | pushFalse => simp at ht

/-- No run comes to the end of the code. -/
theorem inside {σ : Type} {s : Setting σ} (h : Laid P s.code front) {n : Nat} {m m' : Machine σ}
    (hreach : Machine.Reaches s (0, m) n (position, m')) :
    position < s.code.instructions.size := by
  have hlive : Live front position := by
    refine hreach.keeps (P := fun c => Live front c.1) ?_ ⟨by omega, by omega⟩
    intro position i m next m' hi hlive hs
    exact h.live_edge hlive hi (Machine.step_goto hs).1
  rw [h.size]
  exact hlive.1

end Predicate.Laid

namespace Machine

section

variable {σ : Type} (s : Setting σ) (m : Machine σ)

/-- A host method that the run calls fails with this error. -/
def Reported (e : ExecutionError) : Prop :=
  ∃ n position m' i, Reaches s (0, m) n (position, m') ∧
    s.code.instructions[position]? = some i ∧ Relayed s m' i e

/-- How a run ends that stays inside its code. -/
structure Ends (ending : Ending) : Prop where
  /-- Without an error it ends by a `ret`, with a value if the method returns one. -/
  returned : ∀ result?, ending = .ok result? → result?.isSome = s.code.returnsValue ∧
    ∃ n position m', Reaches s (0, m) n (position, m') ∧
      s.code.instructions[position]? = some .ret
  /-- It does not run past the last instruction; an error that says so comes from the host. -/
  inside : ending = .error .fellOffEnd → Reported s m .fellOffEnd
  /-- It does not use up a limit that leaves room for all instructions; an error that says so comes
  from the host. -/
  withinLimit : (∀ limit, s.maxSteps? = some limit → s.code.instructions.size ≤ limit) →
    ∀ limit, ending = .error (.stepLimitExceeded limit) →
      Reported s m (.stepLimitExceeded limit)

structure Terminates : Prop where
  /-- Each instruction is carried out at most once. -/
  once : ∀ n k position m₁ m₂, Reaches s (0, m) n (position, m₁) →
    Reaches s (0, m) k (position, m₂) → n = k
  inside : ∀ n position m', Reaches s (0, m) n (position, m') →
    position < s.code.instructions.size
  /-- With fuel for all instructions the run is over, and more fuel changes nothing. -/
  ends : ∃ ending last, Ends s m ending ∧
    ∀ fuel, s.code.instructions.size < fuel → run s fuel m = some (ending, last)

end

variable {σ : Type} {s : Setting σ} {m : Machine σ}

/-- A limit that leaves room for all instructions is not reached inside the code. -/
theorem limitReached?_eq_none {steps : Nat}
    (hlimit : ∀ limit, s.maxSteps? = some limit → s.code.instructions.size ≤ limit)
    (hsteps : steps < s.code.instructions.size) : limitReached? s steps = none := by
  unfold limitReached?
  split
  · next limit hmax =>
    have hle := hlimit limit hmax
    exact if_neg (by omega)
  · rfl

theorem ends_of_stops (hf : s.code.Forward) {n position : Nat} {m₁ last : Machine σ}
    {ending : Ending} (hreach : Reaches s (0, m) n (position, m₁))
    (hinside : position < s.code.instructions.size)
    (hstops : Stops s n (position, m₁) ending last) : Ends s m ending := by
  cases hstops with
  | fellOff hi =>
    rw [Array.getElem?_eq_none_iff] at hi
    omega
  | limit hi hl =>
    obtain ⟨limit, hmax, rfl⟩ := eq_of_limitReached hl
    refine ⟨nofun, nofun, fun hroom _ _ => ?_⟩
    have hadvances := hreach.advances hf
    simp only at hadvances
    rw [limitReached?_eq_none hroom (by omega)] at hl
    cases hl
  | @step _ _ _ i ending hi hl hs =>
    have hends := (step_stop hs).1
    cases ending with
    | ok result? =>
      obtain ⟨rfl, hresult⟩ := hends
      refine ⟨fun _ h => ?_, nofun, nofun⟩
      cases h
      exact ⟨hresult, n, position, m₁, hreach, hi⟩
    | error e =>
      have hreported : e.ofRun = true → Reported s m e := fun he =>
        ⟨n, position, m₁, i, hreach, hi, hends.relayed_of_ofRun he⟩
      refine ⟨nofun, fun h => ?_, fun _ limit h => ?_⟩
      · cases h
        exact hreported rfl
      · cases h
        exact hreported rfl

/-- Forward code terminates from wherever its runs stay inside it. -/
theorem terminates_of_forward (hf : s.code.Forward)
    (hinside : ∀ n position m', Reaches s (0, m) n (position, m') →
      position < s.code.instructions.size) : Terminates s m := by
  refine ⟨fun n k position m₁ m₂ h h' => h.once hf h', hinside, ?_⟩
  obtain ⟨⟨ending, last⟩, hrun⟩ := run_ends hf m
  obtain ⟨n, ⟨position, m₁⟩, hreach, hstops⟩ := stops_of_resume (hrun _ (Nat.lt_succ_self _))
  rw [Nat.zero_add] at hstops
  exact ⟨ending, last, ends_of_stops hf hreach (hinside n position m₁ hreach) hstops, hrun⟩

end Machine

/-- A compiled guard branches forward only and terminates on every machine, whatever the arguments,
the host and the limit on the steps are. -/
theorem compiled_guard_terminates {source : String} {params : List Ty} {around : Surroundings}
    {options : Options} {p : Predicate}
    (hcompile : Predicate.compile source params around options = .ok p) :
    p.code.Forward ∧ p.code.returnsValue = true ∧
      ∀ {σ : Type} (host : Host σ) (args : Array Value) (limit? : Option Nat) (m : Machine σ),
        Machine.Terminates { code := p.code, host, args, maxSteps? := limit? } m := by
  obtain ⟨front, hlaid⟩ := Predicate.laid_of_compile hcompile
  refine ⟨hlaid.forward, hlaid.returnsValue, fun host args limit? m => ?_⟩
  exact Machine.terminates_of_forward hlaid.forward fun n position m' hreach =>
    Predicate.Laid.inside hlaid hreach

/-- A guard with nested chains, in long branches, under a limit on its steps. -/
theorem rootedGuard_terminates :
    ∃ p, Predicate.compile "(arg2 != root || ask(arg0)) == (arg0 % arg1 < @add(arg1, 2))"
        [.i32, .i32, nodeType] rootedSurroundings { encoding := .long } = .ok p ∧
      p.code.Forward ∧
      Machine.Terminates
        { code := p.code, host := countingHost, args := #[.int32 7, .int32 0, .object 3],
          maxSteps? := some 5 }
        (.start p.code #[.object 3] 0) := by
  have hcompiles : (Predicate.compile
      "(arg2 != root || ask(arg0)) == (arg0 % arg1 < @add(arg1, 2))" [.i32, .i32, nodeType]
      rootedSurroundings { encoding := .long }).toOption.isSome = true := by decide +kernel
  obtain ⟨p, hcompile⟩ := Predicate.exists_of_isSome hcompiles
  obtain ⟨hforward, -, hterminates⟩ := compiled_guard_terminates hcompile
  exact ⟨p, hcompile, hforward, hterminates _ _ _ _⟩

end GuardCode
