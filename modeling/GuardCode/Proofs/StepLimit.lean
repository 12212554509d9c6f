import GuardCode.Proofs.Machine.Calls
import GuardCode.Proofs.Machine.Progress

/-! A limit on the steps only cuts runs short. Up to the limit a run goes the way it goes without one,
so a run that comes to its own end under a limit comes to the same end under every larger one. -/
namespace GuardCode

/-- The same setting with another limit on the steps, or with none. -/
def Setting.limitedTo {σ : Type} (s : Setting σ) (limit? : Option Nat) : Setting σ :=
  { s with maxSteps? := limit? }

namespace Machine

variable {σ : Type} {s : Setting σ} {c d : Place σ} {n steps : Nat} {ending : Ending}
  {last : Machine σ}

/-- The places of a run at which it carries an instruction out, in order. -/
def course (s : Setting σ) : (fuel steps position : Nat) → Machine σ → List (Place σ)
  | 0, _, _, _ => []
  | fuel + 1, steps, position, m =>
    match s.code.instructions[position]? with
    | none => []
    | some i =>
      match limitReached? s steps with
      | some _ => []
      | none =>
        match step s position i m with
        | .stop _ _ => [(position, m)]
        | .goto next m' => (position, m) :: course s fuel (steps + 1) next m'

/-- A run under a limit carries out no more instructions than the limit leaves. -/
theorem length_course_le (limit fuel steps position : Nat) (m : Machine σ) :
    (course (s.limitedTo limit) fuel steps position m).length ≤ limit - steps := by
  induction fuel generalizing steps position m with
  | zero => exact Nat.zero_le _
  | succ fuel ih =>
    rw [course]
    cases (s.limitedTo limit).code.instructions[position]? with
    | none => exact Nat.zero_le _
    | some i =>
      by_cases hlimit : limit ≤ steps
      · simp [limitReached?, Setting.limitedTo, hlimit]
      · have hnone : limitReached? (s.limitedTo limit) steps = none := if_neg hlimit
        simp only [hnone]
        cases step (s.limitedTo limit) position i m with
        | stop ending m' =>
          simp only [List.length_singleton]
          omega
        | goto next m' =>
          have hrest := ih (steps + 1) next m'
          simp only [List.length_cons]
          omega

/-! ## The way of a run -/

/-- A limit leaves room for one more instruction after so many steps. -/
def Allows (limit? : Option Nat) (steps : Nat) : Prop := ∀ limit, limit? = some limit → steps < limit

theorem limitReached?_of_allows {limit? : Option Nat} (h : Allows limit? steps) :
    limitReached? (s.limitedTo limit?) steps = none := by
  cases limit? with
  | none => rfl
  | some limit => exact if_neg (Nat.not_le.mpr (h limit rfl))

/-- A stretch of a run is the same under every limit that leaves room for its instructions. -/
theorem Reaches.stretch (h : Reaches s c n d) : ∃ path made, ∀ (limit? : Option Nat) (steps : Nat),
    (∀ k, k < n → Allows limit? (steps + k)) → ∀ fuel,
      resume (s.limitedTo limit?) (fuel + n) steps c.1 c.2 =
          resume (s.limitedTo limit?) fuel (steps + n) d.1 d.2 ∧
        course (s.limitedTo limit?) (fuel + n) steps c.1 c.2 =
          path ++ course (s.limitedTo limit?) fuel (steps + n) d.1 d.2 ∧
        calls (s.limitedTo limit?) (fuel + n) steps c.1 c.2 =
          made ++ calls (s.limitedTo limit?) fuel (steps + n) d.1 d.2 := by
  induction h with
  | refl c => exact ⟨[], [], fun limit? steps _ fuel => ⟨rfl, rfl, rfl⟩⟩
  | @next position next n i m m' d hi hs _ ih =>
    obtain ⟨path, made, hsame⟩ := ih
    refine ⟨(position, m) :: path, called s i m ++ made, fun limit? steps hroom fuel => ?_⟩
    have hin : (s.limitedTo limit?).code.instructions[position]? = some i := hi
    have hnone := limitReached?_of_allows (s := s) (hroom 0 (Nat.succ_pos n))
    have hstep : step (s.limitedTo limit?) position i m = .goto next m' := hs
    rw [Nat.add_zero] at hnone
    have hrest := hsame limit? (steps + 1) (fun k hk => by
      rw [Nat.add_right_comm, Nat.add_assoc]
      exact hroom (k + 1) (Nat.succ_lt_succ hk)) fuel
    rw [Nat.add_assoc, Nat.add_comm 1 n] at hrest
    rw [← Nat.add_assoc fuel]
    simp only [resume, course, calls, hin, hnone, hstep, hrest, List.cons_append, List.append_assoc]
    exact ⟨trivial, trivial, rfl⟩

/-- Without a limit the run comes to its end at a place, by the instruction there or behind the
code. -/
def Over (s : Setting σ) (c : Place σ) (ending : Ending) (last : Machine σ) : Prop :=
  Stops (s.limitedTo none) 0 c ending last

/-- The end of a run is the same under every limit that allows one more instruction. -/
theorem Over.same (h : Over s c ending last) : ∃ path made, ∀ (limit? : Option Nat) (steps : Nat),
    (c.1 < s.code.instructions.size → Allows limit? steps) → ∀ fuel,
      resume (s.limitedTo limit?) (fuel + 1) steps c.1 c.2 = some (ending, last) ∧
        course (s.limitedTo limit?) (fuel + 1) steps c.1 c.2 = path ∧
        calls (s.limitedTo limit?) (fuel + 1) steps c.1 c.2 = made := by
  cases h with
  | fellOff hi =>
    refine ⟨[], [], fun limit? steps _ fuel => ?_⟩
    have hout : (s.limitedTo limit?).code.instructions[_]? = none := hi
    simp only [resume, course, calls, hout, and_self]
  | limit hi hl => cases hl
  | @step position m m' i ending hi hl hs =>
    refine ⟨[(position, m)], called s i m, fun limit? steps hroom fuel => ?_⟩
    have hin : (s.limitedTo limit?).code.instructions[position]? = some i := hi
    have hnone := limitReached?_of_allows (s := s) (hroom (Array.getElem?_eq_some_iff.mp hi).1)
    have hstep : step (s.limitedTo limit?) position i m = .stop ending last := hs
    simp only [resume, course, calls, hin, hnone, hstep]
    exact ⟨trivial, trivial, rfl⟩

/-- A run comes to one place by so many instructions. -/
theorem Reaches.same {e : Place σ} (h : Reaches s c n d) (h' : Reaches s c n e) : d = e := by
  have hrest : Reaches s d 0 e := h.rest h'
  cases hrest
  rfl

/-- A run that is over at a place does not come further. -/
theorem Over.le {e : Place σ} {k : Nat} (hover : Over s d ending last) (h : Reaches s c n d)
    (h' : Reaches s c k e) : k ≤ n := by
  refine Nat.not_lt.mp fun hlt => ?_
  obtain ⟨more, rfl⟩ := Nat.exists_eq_add_of_lt hlt
  have hrest : Reaches s d (more + 1) e := h.rest (by rwa [← Nat.add_assoc])
  cases hrest with
  | next hi hs _ =>
    cases hover with
    | fellOff hi' =>
      cases hi.symm.trans hi'
    | limit _ hl => cases hl
    | step hi' _ hs' =>
      cases hi.symm.trans hi'
      cases hs.symm.trans hs'

/-- A run is over in one way. -/
theorem Over.unique {e : Place σ} {k : Nat} {ending' : Ending} {last' : Machine σ}
    (hover : Over s d ending last) (h : Reaches s c n d) (hover' : Over s e ending' last')
    (h' : Reaches s c k e) : n = k ∧ ending = ending' := by
  obtain rfl : n = k := Nat.le_antisymm (hover'.le h' h) (hover.le h h')
  obtain rfl := h.same h'
  obtain ⟨_, _, hsame⟩ := hover.same
  obtain ⟨_, _, hsame'⟩ := hover'.same
  have hrun := (hsame none 0 (fun _ => nofun) 0).1
  rw [(hsame' none 0 (fun _ => nofun) 0).1] at hrun
  cases hrun
  exact ⟨rfl, rfl⟩

/-- The run without a limit carries so many instructions out and stands in front of another. -/
def GoesOn (s : Setting σ) (m : Machine σ) (n : Nat) (m' : Machine σ) : Prop :=
  ∃ position, Reaches (s.limitedTo none) (0, m) n (position, m') ∧
    position < s.code.instructions.size

theorem GoesOn.reaches {m m' : Machine σ} (h : GoesOn s m n m') :
    ∃ position, Reaches s (0, m) n (position, m') ∧ position < s.code.instructions.size := by
  obtain ⟨position, hreach, hinside⟩ := h
  exact ⟨position, hreach.limited s.maxSteps?, hinside⟩

/-- A run goes on for any number of instructions, or is over before. -/
theorem goesOn_or_over (s : Setting σ) (m : Machine σ) (n : Nat) :
    (∃ m', GoesOn s m n m') ∨
      ∃ k c ending last, Reaches s (0, m) k c ∧ Over s c ending last ∧
        (k < n ∨ k = n ∧ s.code.instructions.size ≤ c.1) := by
  -- A place behind the code is where the run is over.
  have hplace : ∀ k position m', Reaches s (0, m) k (position, m') →
      (∃ m', GoesOn s m k m') ∨ ∃ k' c ending last, Reaches s (0, m) k' c ∧
        Over s c ending last ∧ (k' < k ∨ k' = k ∧ s.code.instructions.size ≤ c.1) := by
    intro k position m' h
    by_cases hinside : position < s.code.instructions.size
    · exact .inl ⟨m', position, h.limited none, hinside⟩
    · have hout := Nat.not_lt.mp hinside
      exact .inr ⟨k, _, _, _, h, .fellOff (Array.getElem?_eq_none_iff.mpr hout), .inr ⟨rfl, hout⟩⟩
  induction n with
  | zero => exact hplace 0 0 m (.refl _)
  | succ n ih =>
    rcases ih with ⟨m', h⟩ | ⟨k, c, ending, last, h, hover, hk⟩
    · obtain ⟨position, hreach, hinside⟩ := h.reaches
      obtain ⟨i, hi⟩ : ∃ i, s.code.instructions[position]? = some i :=
        ⟨_, Array.getElem?_eq_getElem hinside⟩
      cases hs : step s position i m' with
      | stop ending last =>
        exact .inr ⟨n, _, ending, last, hreach, .step hi rfl hs, .inl (Nat.lt_succ_self n)⟩
      | goto next m'' => exact hplace (n + 1) next m'' (hreach.trans (.single hi hs))
    · exact .inr ⟨k, c, ending, last, h, hover, .inl (by omega)⟩

/-! ## The limit -/

/-- How a run that is over goes under a limit that leaves room for it. -/
theorem resume_of_over (h : Reaches s c n d) (hover : Over s d ending last) :
    ∃ path made, ∀ (limit? : Option Nat) (steps : Nat),
      (∀ k, k < n ∨ k = n ∧ d.1 < s.code.instructions.size → Allows limit? (steps + k)) →
      ∀ fuel, n < fuel →
        resume (s.limitedTo limit?) fuel steps c.1 c.2 = some (ending, last) ∧
          course (s.limitedTo limit?) fuel steps c.1 c.2 = path ∧
          calls (s.limitedTo limit?) fuel steps c.1 c.2 = made := by
  obtain ⟨front, made, hfront⟩ := h.stretch
  obtain ⟨back, more, hback⟩ := hover.same
  refine ⟨front ++ back, made ++ more, fun limit? steps hroom fuel hfuel => ?_⟩
  obtain ⟨extra, rfl⟩ : ∃ extra, fuel = extra + 1 + n := ⟨fuel - n - 1, by omega⟩
  obtain ⟨hresume, hcourse, hcalls⟩ := hfront limit? steps (fun k hk => hroom k (.inl hk)) (extra + 1)
  obtain ⟨hresume', hcourse', hcalls'⟩ :=
    hback limit? (steps + n) (fun hinside => hroom n (.inr ⟨rfl, hinside⟩)) extra
  exact ⟨hresume.trans hresume', by rw [hcourse, hcourse'], by rw [hcalls, hcalls']⟩

/-- A run that goes on is stopped by the limit, with the machine as it stands there. -/
theorem run_of_goesOn {limit : Nat} {m m' : Machine σ} (h : GoesOn s m limit m') {fuel : Nat}
    (hfuel : limit < fuel) :
    run (s.limitedTo limit) fuel m = some (.error (.stepLimitExceeded limit), m') := by
  obtain ⟨position, hreach, hinside⟩ := h.reaches
  obtain ⟨path, made, hfront⟩ := hreach.stretch
  obtain ⟨extra, rfl⟩ : ∃ extra, fuel = extra + 1 + limit := ⟨fuel - limit - 1, by omega⟩
  have hroom : ∀ k, k < limit → Allows limit (0 + k) := by
    rintro k hk _ ⟨⟩
    omega
  obtain ⟨i, hi⟩ : ∃ i, (s.limitedTo limit).code.instructions[position]? = some i :=
    ⟨_, Array.getElem?_eq_getElem hinside⟩
  have hlimit : limitReached? (s.limitedTo limit) (0 + limit) =
      some (.stepLimitExceeded limit) := if_pos (by omega)
  refine (hfront limit 0 hroom (extra + 1)).1.trans ?_
  simp only [resume, hi, hlimit]

/-- The host makes a run end with an error of its own choice, by one of its first `n`
instructions. -/
def HostEnds (s : Setting σ) (m : Machine σ) (n : Nat) (e : ExecutionError) : Prop :=
  ∃ k position m' i last, k < n ∧ Reaches s (0, m) k (position, m') ∧
    s.code.instructions[position]? = some i ∧ Relayed s m' i e ∧
    step s position i m' = .stop (.error e) last

theorem HostEnds.over {m : Machine σ} {e : ExecutionError} (h : HostEnds s m n e) :
    ∃ k c last, k < n ∧ Reaches s (0, m) k c ∧ Over s c (.error e) last := by
  obtain ⟨k, position, m', i, last, hk, hreach, hi, -, hs⟩ := h
  exact ⟨k, _, last, hk, hreach, .step hi rfl hs⟩

/-- No instruction fails with an error about the limit, so the host has reported it. -/
theorem Over.hostEnds {m : Machine σ} {limit k : Nat} (h : Reaches s (0, m) k c)
    (hover : Over s c (.error (.stepLimitExceeded n)) last)
    (hk : k < limit ∨ k = limit ∧ s.code.instructions.size ≤ c.1) :
    HostEnds s m limit (.stepLimitExceeded n) := by
  cases hover with
  | limit hi hl => cases hl
  | @step position m' _ i _ hi hl hs =>
    have hinside := (Array.getElem?_eq_some_iff.mp hi).1
    have hk : k < limit := hk.resolve_right fun hout => absurd hinside (Nat.not_lt.mpr hout.2)
    have hrelayed := (step_stop (s := s) hs).1.relayed_of_ofRun rfl
    exact ⟨k, position, m', i, last, hk, h, hi, hrelayed, hs⟩

/-- What a limit makes of a run, which ends one way under it. -/
structure CutShort (s : Setting σ) (m : Machine σ) (limit : Nat) (ending : Ending)
    (last : Machine σ) : Prop where
  ends : ∀ fuel, limit < fuel → run (s.limitedTo limit) fuel m = some (ending, last)
  /-- The run carries out no more instructions than the limit says. -/
  within : ∀ fuel, (course (s.limitedTo limit) fuel 0 0 m).length ≤ limit
  /-- An end of another kind is the end under every larger limit and without one. The machine is
  left the same, and the same instructions and calls lead there. -/
  kept : (∀ n, ending ≠ .error (.stepLimitExceeded n)) → ∀ larger? : Option Nat,
    (∀ n, larger? = some n → limit ≤ n) → ∀ fuel, limit < fuel →
      run (s.limitedTo larger?) fuel m = some (ending, last) ∧
        course (s.limitedTo larger?) fuel 0 0 m = course (s.limitedTo limit) fuel 0 0 m ∧
        calls (s.limitedTo larger?) fuel 0 0 m = calls (s.limitedTo limit) fuel 0 0 m
  /-- The limit is exceeded exactly where the run without a limit goes on. Any other error that says
  so is of the host's making. -/
  exceeded : ∀ n, ending = .error (.stepLimitExceeded n) ↔
    n = limit ∧ (∃ m', GoesOn s m limit m') ∨ HostEnds s m limit (.stepLimitExceeded n)
  /-- There the machine is left as it stands in front of the next instruction. -/
  left : ∀ m', GoesOn s m limit m' → last = m'

/-- A limit on the steps only cuts runs short. -/
theorem step_limit_cuts_short (s : Setting σ) (m : Machine σ) (limit : Nat) :
    ∃ ending last, CutShort s m limit ending last := by
  have hwithin := fun fuel => length_course_le (s := s) limit fuel 0 0 m
  rcases goesOn_or_over s m limit with ⟨last, h⟩ | ⟨n, c, ending, last, h, hover, hn⟩
  · obtain ⟨position, hreach, hinside⟩ := h.reaches
    refine ⟨.error (.stepLimitExceeded limit), last, fun fuel => run_of_goesOn h, hwithin,
      fun hother => absurd rfl (hother limit), fun n => ⟨?_, ?_⟩, fun m' h' => ?_⟩
    · rintro ⟨⟩
      exact .inl ⟨rfl, last, h⟩
    · rintro (⟨rfl, -⟩ | hhost)
      · rfl
      · obtain ⟨k, c, _, hk, hreach', hover⟩ := hhost.over
        have hle := hover.le hreach' hreach
        omega
    · obtain ⟨position', hreach', -⟩ := h'.reaches
      exact congrArg Prod.snd (hreach.same hreach')
  · -- the run is over before the limit, or behind the code at the limit
    have hstops : ∀ m', ¬GoesOn s m limit m' := by
      intro m' h'
      obtain ⟨position, hreach, hinside⟩ := h'.reaches
      have hle := hover.le h hreach
      obtain ⟨rfl, hout⟩ := hn.resolve_left (by omega)
      obtain rfl := h.same hreach
      exact absurd hinside (Nat.not_lt.mpr hout)
    obtain ⟨path, made, hsame⟩ := resume_of_over h hover
    have hroom : ∀ larger? : Option Nat, (∀ n, larger? = some n → limit ≤ n) →
        ∀ k, k < n ∨ k = n ∧ c.1 < s.code.instructions.size → Allows larger? (0 + k) := by
      intro larger? hlarger k hk larger hsome
      have hle := hlarger larger hsome
      omega
    have hlimited := hsame limit 0 (hroom limit (by simp))
    refine ⟨ending, last, fun fuel hfuel => ?_, hwithin, fun _ larger? hlarger fuel hfuel => ?_,
      fun n => ⟨fun hending => ?_, ?_⟩, fun m' h' => absurd h' (hstops m')⟩
    · exact (hlimited fuel (by omega)).1
    · obtain ⟨hrun, hcourse, hcalls⟩ := hsame larger? 0 (hroom larger? hlarger) fuel (by omega)
      obtain ⟨-, hcourse', hcalls'⟩ := hlimited fuel (by omega)
      exact ⟨hrun, hcourse.trans hcourse'.symm, hcalls.trans hcalls'.symm⟩
    · subst hending
      exact .inr (hover.hostEnds h hn)
    · rintro (⟨-, m', h'⟩ | hhost)
      · exact absurd h' (hstops m')
      · obtain ⟨k, c', last', -, hreach, hover'⟩ := hhost.over
        exact (hover.unique h hover' hreach).2

end Machine

end GuardCode
