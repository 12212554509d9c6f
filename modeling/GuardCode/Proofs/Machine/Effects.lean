import GuardCode.Proofs.Machine.Run

/-! What an instruction can do, whatever is on the stack: where control goes from it, how much it takes
from the stack and puts there, which fields and locals it leaves alone, and with what it can end a run.
From one instruction this carries over to all places of a run and to its end. -/
namespace GuardCode

namespace Instruction

/-- Values that an instruction takes from the stack. -/
def pops (returnsValue : Bool) (i : Instruction) : Nat := (i.stackEffect returnsValue).1

/-- Values that an instruction puts on the stack. -/
def pushes (returnsValue : Bool) (i : Instruction) : Nat := (i.stackEffect returnsValue).2

theorem pushes_eq_zero_of_target {i : Instruction} {label : Label} (returnsValue : Bool)
    (h : i.target? = some label) : i.pushes returnsValue = 0 := by
  cases i <;> simp_all [target?, pushes, stackEffect]

end Instruction

/-! ## Errors of operations -/

/-- An error about operands: their kinds, a division by zero or an overflow. -/
def ExecutionError.isFault : ExecutionError → Bool
  | typeMismatch .. | divideByZero | overflow => true
  | _ => false

namespace Operation

/-- An operation fails for its operands only. -/
def Faults {α : Type} (outcome : Except ExecutionError α) : Prop :=
  ∀ e, outcome = .error e → e.isFault = true

theorem faults_ok {α : Type} (a : α) : Faults (.ok a) := nofun

theorem faults_error {α : Type} {e : ExecutionError} (h : e.isFault = true) :
    Faults (.error e : Except ExecutionError α) := by
  intro e' he
  cases he
  exact h

theorem Faults.map {α β : Type} {outcome : Except ExecutionError α} (f : α → β)
    (h : Faults outcome) : Faults (outcome.map f) := by
  cases outcome with
  | ok a => exact faults_ok (f a)
  | error e => exact faults_error (h e rfl)

theorem add_faults (i : Instruction) (a b : Value) : Faults (add i a b) := by
  unfold add
  split
  all_goals first | exact faults_ok _ | exact faults_error rfl

theorem sub_faults (i : Instruction) (a b : Value) : Faults (sub i a b) := by
  unfold sub
  split
  all_goals first | exact faults_ok _ | exact faults_error rfl

theorem rem32_faults (x y : Int32) : Faults (rem32 x y) := by
  unfold rem32
  repeat' split
  all_goals first | exact faults_ok _ | exact faults_error rfl

theorem rem64_faults (x y : Int64) : Faults (rem64 x y) := by
  unfold rem64
  repeat' split
  all_goals first | exact faults_ok _ | exact faults_error rfl

theorem rem_faults (i : Instruction) (a b : Value) : Faults (rem i a b) := by
  unfold rem
  split
  · exact (rem32_faults _ _).map _
  · exact (rem64_faults _ _).map _
  all_goals first | exact faults_ok _ | exact faults_error rfl

theorem widen16_faults (i : Instruction) (signed : Bool) (v : Value) :
    Faults (widen16 i signed v) := by
  unfold widen16
  split
  all_goals first | exact faults_ok _ | exact faults_error rfl

theorem equal_faults (i : Instruction) (a b : Value) : Faults (equal i a b) := by
  cases a <;> cases b <;> first | exact faults_ok _ | exact faults_error rfl

theorem order_faults (i : Instruction) (unsigned : Bool) (a b : Value) :
    Faults (order i unsigned a b) := by
  unfold order
  split
  all_goals first | exact faults_ok _ | exact faults_error rfl

theorem related_faults (i : Instruction) (relation : Relation) (unordered : Bool)
    (a b : Value) : Faults (related i relation unordered a b) := by
  have hequal := equal_faults i a b
  have horder := order_faults i unordered a b
  unfold related
  split
  · cases h : equal i a b with
    | ok outcome => exact faults_ok _
    | error e => exact faults_error (hequal e h)
  · cases h : order i unordered a b with
    | ok o => cases o <;> exact faults_ok _
    | error e => exact faults_error (horder e h)

theorem holds_faults (i : Instruction) (a b : Value) (op : BranchOp) :
    Faults (holds i a b op) := by
  cases op with
  | eq => exact equal_faults _ _ _
  | neUn => exact (equal_faults _ _ _).map _
  | gt | gtUn | ge | geUn | lt | ltUn | le | leUn => exact related_faults _ _ _ _ _
  | always | ifTrue | ifFalse => exact faults_ok _

end Operation

/-! ## What an instruction can do -/

/-- Control can go from an instruction to a position: on to the next, or to the target of a branch. -/
def Code.Edge (code : Code) (position : Nat) (i : Instruction) (next : Nat) : Prop :=
  next = position + 1 ∧ i.endsBlock = false ∨
    ∃ label, i.target? = some label ∧ next = code.target label

/-- An error of a whole run: no instruction fails with it. -/
def ExecutionError.ofRun : ExecutionError → Bool
  | fellOffEnd | stepLimitExceeded _ => true
  | _ => false

theorem ExecutionError.ofRun_of_isFault {e : ExecutionError} (h : e.isFault = true) :
    e.ofRun = false := by
  cases e <;> first | rfl | cases h

namespace Machine

variable {σ : Type}

/-- A host method that the machine calls has failed with this error. -/
def Relayed (s : Setting σ) (m : Machine σ) (i : Instruction) (e : ExecutionError) : Prop :=
  ∃ method implementation args world, i = .call method ∧
    s.host.find? method.id = some implementation ∧ implementation args m.world = .error e world

/-- An instruction fails with an error. That of a whole run is none of its own, and it lacks operands
only where they are not on the stack; any other error of these can only come from the host. -/
def FailsWith (s : Setting σ) (m : Machine σ) (i : Instruction) (e : ExecutionError) : Prop :=
  Relayed s m i e ∨ e.ofRun = false ∧
    ∀ place, e = .stackUnderflow place → m.stack.length < i.pops s.code.returnsValue

/-- Fields and locals are as before, but for what the instruction stores. -/
structure Keeps (i : Instruction) (m m' : Machine σ) : Prop where
  fields : (∀ field, i ≠ .storeField field) → m'.fields = m.fields
  locals : ∀ index, i ≠ .storeLocal index → m'.locals[index]? = m.locals[index]?
  size : m'.locals.size = m.locals.size

/-- How an instruction ends a run: without an error it is a `ret`. -/
def EndsWith (s : Setting σ) (m : Machine σ) (i : Instruction) : Ending → Prop
  | .ok result? => i = .ret ∧ result?.isSome = s.code.returnsValue
  | .error e => FailsWith s m i e

/-- What an instruction comes to. The stack grows and shrinks by what the instruction pushes and pops;
one that ends the run pushes nothing. -/
def Affects (s : Setting σ) (position : Nat) (i : Instruction) (m : Machine σ) :
    Transition σ → Prop
  | .goto next m' =>
    s.code.Edge position i next ∧ Keeps i m m' ∧
      m'.stack.length + i.pops s.code.returnsValue = m.stack.length + i.pushes s.code.returnsValue
  | .stop ending m' =>
    EndsWith s m i ending ∧ Keeps i m m' ∧ m'.stack.length ≤ m.stack.length

variable {s : Setting σ} {position n : Nat} {i : Instruction} {m : Machine σ}
  {stack : List Value}

theorem Keeps.refl (i : Instruction) (m : Machine σ) : Keeps i m m :=
  ⟨fun _ => rfl, fun _ _ => rfl, rfl⟩

/-- The stack is none of the fields and locals. -/
theorem Keeps.withStack (i : Instruction) (m : Machine σ) (stack : List Value) :
    Keeps i m { m with stack } :=
  ⟨fun _ => rfl, fun _ _ => rfl, rfl⟩

theorem FailsWith.of_isFault {e : ExecutionError} (h : e.isFault = true) : FailsWith s m i e := by
  refine .inr ⟨ExecutionError.ofRun_of_isFault h, fun place he => ?_⟩
  subst he
  cases h

/-! The machine may have taken some operands of the instruction from the stack already, `n` of them. -/

theorem fail_affects {e : ExecutionError} (hstack : stack.length + n = m.stack.length)
    (h : FailsWith s m i e) : Affects s position i m (({ m with stack } : Machine σ).fail e) :=
  ⟨h, .withStack i m stack, by simp only; omega⟩

theorem withTop_affects {k : Value → Machine σ → Transition σ}
    (hstack : stack.length + n = m.stack.length) (hn : n < i.pops s.code.returnsValue)
    (hk : ∀ v rest, rest.length + (n + 1) = m.stack.length →
      Affects s position i m (k v { m with stack := rest })) :
    Affects s position i m (({ m with stack } : Machine σ).withTop position k) := by
  cases stack with
  | nil =>
    refine fail_affects hstack (.inr ⟨rfl, fun _ _ => ?_⟩)
    simp only [List.length_nil] at hstack
    omega
  | cons v rest =>
    refine hk v rest ?_
    simp only [List.length_cons] at hstack
    omega

theorem withTwo_affects {k : Value → Value → Machine σ → Transition σ}
    (hpops : i.pops s.code.returnsValue = 2)
    (hk : ∀ a b rest, rest.length + i.pops s.code.returnsValue = m.stack.length →
      Affects s position i m (k a b { m with stack := rest })) :
    Affects s position i m (m.withTwo position k) :=
  withTop_affects (n := 0) rfl (by omega) fun b _ hb =>
    withTop_affects hb (by omega) fun a rest ha => hk a b rest (by omega)

/-- Pushing the result of an operation, its operands off the stack. -/
theorem pushResult_affects {result : Except ExecutionError Value}
    (hresult : Operation.Faults result)
    (hstack : stack.length + i.pops s.code.returnsValue = m.stack.length)
    (hpushes : i.pushes s.code.returnsValue = 1) (hends : i.endsBlock = false) :
    Affects s position i m (({ m with stack } : Machine σ).pushResult position result) := by
  cases result with
  | ok v =>
    refine ⟨.inl ⟨rfl, hends⟩, .withStack i m _, ?_⟩
    simp only [push, List.length_cons]
    omega
  | error e => exact fail_affects hstack (.of_isFault (hresult e rfl))

theorem pushSlot_affects {error : ExecutionError} (herror : FailsWith s m i error)
    (held : Option Value) (hpops : i.pops s.code.returnsValue = 0)
    (hpushes : i.pushes s.code.returnsValue = 1) (hends : i.endsBlock = false) :
    Affects s position i m (m.pushSlot position error held) := by
  cases held with
  | some v =>
    refine ⟨.inl ⟨rfl, hends⟩, .withStack i m _, ?_⟩
    simp only [push, List.length_cons]
    omega
  | none => exact fail_affects (n := 0) rfl herror

/-- Taking a branch or not, its operands off the stack. -/
theorem branched_affects {outcome : Except ExecutionError Bool} {label : Label}
    (houtcome : Operation.Faults outcome)
    (hstack : stack.length + i.pops s.code.returnsValue = m.stack.length)
    (htarget : i.target? = some label) (hends : i.endsBlock = false) :
    Affects s position i m
      (({ m with stack } : Machine σ).branched position (s.code.target label) outcome) := by
  have hpushes := Instruction.pushes_eq_zero_of_target s.code.returnsValue htarget
  rcases outcome with e | _ | _
  · exact fail_affects hstack (.of_isFault (houtcome e rfl))
  · exact ⟨.inl ⟨rfl, hends⟩, .withStack i m stack, by simp only; omega⟩
  · exact ⟨.inr ⟨label, htarget, rfl⟩, .withStack i m stack, by simp only; omega⟩

theorem call_affects (method : Method) :
    Affects s position (.call method) m (m.call s.host position method) := by
  unfold call
  cases hfind : s.host.find? method.id with
  | none => exact fail_affects (n := 0) rfl (.inr ⟨rfl, nofun⟩)
  | some implementation =>
    simp only
    split
    · next hshort => exact fail_affects (n := 0) rfl (.inr ⟨rfl, fun _ _ => hshort⟩)
    · next henough =>
      have hdrop := List.length_drop (i := method.arity) (l := m.stack)
      cases hcall : implementation (m.stack.take method.arity).reverse m.world with
      | error e world =>
        exact ⟨.inl ⟨method, implementation, _, world, rfl, hfind, hcall⟩,
          ⟨fun _ => rfl, fun _ _ => rfl, rfl⟩, by simp only; omega⟩
      | ok result? world =>
        have hkeeps : ∀ stack, Keeps (.call method) m { m with stack, world } := fun _ =>
          ⟨fun _ => rfl, fun _ _ => rfl, rfl⟩
        have heffect : (Instruction.call method).stackEffect s.code.returnsValue =
            (method.arity, if method.returnsValue then 1 else 0) := rfl
        have hbad : Affects s position (.call method) m
            (({ m with stack := m.stack.drop method.arity, world } : Machine σ).fail
              (.badHostReturn method.name)) :=
          ⟨.inr ⟨rfl, nofun⟩, hkeeps _, by simp only; omega⟩
        cases result? with
        | some result =>
          cases hreturns : method.returnsValue with
          | false => exact hbad
          | true =>
            refine ⟨.inl ⟨rfl, rfl⟩, hkeeps _, ?_⟩
            simp only [push, List.length_cons, Instruction.pops, Instruction.pushes, heffect,
              hreturns, ↓reduceIte]
            omega
        | none =>
          cases hreturns : method.returnsValue with
          | true => exact hbad
          | false =>
            refine ⟨.inl ⟨rfl, rfl⟩, hkeeps _, ?_⟩
            simp only [Instruction.pops, Instruction.pushes, heffect, hreturns,
              Bool.false_eq_true, ↓reduceIte]
            omega

theorem step_affects (s : Setting σ) (position : Nat) (i : Instruction) (m : Machine σ) :
    Affects s position i m (step s position i m) := by
  cases i with
  | nop => exact ⟨.inl ⟨rfl, rfl⟩, .refl _ m, rfl⟩
  | loadNull | loadMinusOne | loadSmall | loadInt | loadLong | loadSingle | loadDouble
  | loadString => exact ⟨.inl ⟨rfl, rfl⟩, .withStack _ m _, rfl⟩
  | dup =>
    simp only [step]
    exact withTop_affects (n := 0) rfl Nat.one_pos fun v rest hrest =>
      ⟨.inl ⟨rfl, rfl⟩, .withStack _ m _, congrArg (· + 2) hrest⟩
  | pop =>
    simp only [step]
    exact withTop_affects (n := 0) rfl Nat.one_pos fun v rest hrest =>
      ⟨.inl ⟨rfl, rfl⟩, .withStack _ m _, hrest⟩
  | loadArg | loadLocal | loadField =>
    refine pushSlot_affects ?_ _ rfl rfl rfl
    exact .inr ⟨rfl, nofun⟩
  | storeLocal index =>
    simp only [step]
    refine withTop_affects (n := 0) rfl Nat.one_pos fun v rest hrest => ?_
    dsimp only
    split
    · refine ⟨.inl ⟨rfl, rfl⟩, ⟨fun _ => rfl, fun other hother => ?_, by simp⟩, hrest⟩
      have hne : index ≠ other := by
        rintro rfl
        exact hother rfl
      simp [hne]
    · exact fail_affects hrest (.inr ⟨rfl, nofun⟩)
  | storeField field =>
    simp only [step]
    refine withTop_affects (n := 0) rfl Nat.one_pos fun v rest hrest => ?_
    dsimp only
    split
    · exact ⟨.inl ⟨rfl, rfl⟩, ⟨fun h => absurd rfl (h field), fun _ _ => rfl, rfl⟩, hrest⟩
    · exact fail_affects hrest (.inr ⟨rfl, nofun⟩)
  | add =>
    exact withTwo_affects rfl fun _ _ _ h =>
      pushResult_affects (Operation.add_faults _ _ _) h rfl rfl
  | sub =>
    exact withTwo_affects rfl fun _ _ _ h =>
      pushResult_affects (Operation.sub_faults _ _ _) h rfl rfl
  | rem =>
    exact withTwo_affects rfl fun _ _ _ h =>
      pushResult_affects (Operation.rem_faults _ _ _) h rfl rfl
  | signed16 | unsigned16 =>
    simp only [step]
    exact withTop_affects (n := 0) rfl Nat.one_pos fun _ _ h =>
      pushResult_affects (Operation.widen16_faults _ _ _) h rfl rfl
  | compareEqual =>
    exact withTwo_affects rfl fun _ _ _ h =>
      pushResult_affects ((Operation.equal_faults _ _ _).map _) h rfl rfl
  | compareGreater | compareGreaterUn | compareLess | compareLessUn =>
    exact withTwo_affects rfl fun _ _ _ h =>
      pushResult_affects ((Operation.related_faults _ _ _ _ _).map _) h rfl rfl
  | branch op label form =>
    cases op with
    | always => exact ⟨.inr ⟨label, rfl, rfl⟩, .refl _ m, rfl⟩
    | ifTrue | ifFalse =>
      simp only [step]
      exact withTop_affects (n := 0) rfl Nat.one_pos fun _ _ h =>
        branched_affects (Operation.faults_ok _) h rfl rfl
    | eq | neUn | gt | gtUn | ge | geUn | lt | ltUn | le | leUn =>
      exact withTwo_affects rfl fun _ _ _ h =>
        branched_affects (Operation.holds_faults _ _ _ _) h rfl rfl
  | call method => exact call_affects method
  | ret =>
    simp only [step]
    split
    · next hreturns =>
      have hpops : (0 : Nat) < Instruction.ret.pops s.code.returnsValue := by
        simp [Instruction.pops, Instruction.stackEffect, hreturns]
      exact withTop_affects (n := 0) rfl hpops fun v rest hrest =>
        ⟨⟨rfl, hreturns.symm⟩, .withStack _ m rest, by simp only; omega⟩
    · next hreturns => exact ⟨⟨rfl, by simpa using hreturns⟩, .refl _ m, Nat.le_refl _⟩

theorem step_goto {next : Nat} {m' : Machine σ} (h : step s position i m = .goto next m') :
    s.code.Edge position i next ∧ Keeps i m m' ∧
      m'.stack.length + i.pops s.code.returnsValue =
        m.stack.length + i.pushes s.code.returnsValue := by
  have haffects := step_affects s position i m
  rwa [h] at haffects

theorem step_stop {ending : Ending} {m' : Machine σ} (h : step s position i m = .stop ending m') :
    EndsWith s m i ending ∧ Keeps i m m' ∧ m'.stack.length ≤ m.stack.length := by
  have haffects := step_affects s position i m
  rwa [h] at haffects

/-- The errors of whole runs are none of the instruction, so the host has reported one that it fails
with. -/
theorem FailsWith.relayed_of_ofRun {e : ExecutionError} (h : FailsWith s m i e)
    (he : e.ofRun = true) : Relayed s m i e := by
  refine h.resolve_right fun hown => ?_
  rw [he] at hown
  exact nomatch hown.1

/-- Where the operands are on the stack, an instruction lacks some only if the host says so. -/
theorem FailsWith.relayed_of_underflow {place : Nat}
    (h : FailsWith s m i (.stackUnderflow place))
    (hpops : i.pops s.code.returnsValue ≤ m.stack.length) :
    Relayed s m i (.stackUnderflow place) :=
  h.resolve_right fun hown => absurd (hown.2 place rfl) (Nat.not_lt.mpr hpops)

/-! ## Runs -/

/-- What the instructions of a code keep holds at every place that a run comes to. -/
theorem Reaches.frame {P : Machine σ → Prop} {c d : Place σ} {n : Nat}
    (hP : ∀ (position : Nat) i m m', s.code.instructions[position]? = some i → Keeps i m m' →
      P m → P m')
    (h : Reaches s c n d) (hc : P c.2) : P d.2 := by
  refine h.keeps (P := fun e => P e.2) (fun position i m next m' hi hm hs => ?_) hc
  exact hP position i m m' hi (step_goto hs).2.1 hm

/-- It also holds at the end of a run. -/
theorem run_frame {P : Machine σ → Prop} {fuel : Nat} {m m' : Machine σ} {ending : Ending}
    (hP : ∀ (position : Nat) i m m', s.code.instructions[position]? = some i → Keeps i m m' →
      P m → P m')
    (h : run s fuel m = some (ending, m')) (hm : P m) : P m' := by
  obtain ⟨n, ⟨position, m₁⟩, hreach, hstops⟩ := stops_of_resume h
  have hm₁ : P m₁ := hreach.frame hP hm
  cases hstops with
  | fellOff | limit => exact hm₁
  | step hi _ hs => exact hP _ _ _ _ hi (step_stop hs).2.1 hm₁

/-- No instruction makes room for further locals. -/
theorem Reaches.localCount {c d : Place σ} {n : Nat} (h : Reaches s c n d) :
    d.2.locals.size = c.2.locals.size :=
  h.frame (P := fun m => m.locals.size = c.2.locals.size)
    (fun _ _ _ _ _ hkeeps hm => hkeeps.size.trans hm) rfl

end Machine

end GuardCode
