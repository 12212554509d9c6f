import GuardCode.Code.Basic
import GuardCode.Machine.Host
import GuardCode.Machine.Operation

/-! The stack machine. `Machine.step` carries out one instruction, `Machine.run` goes on until the
method returns or fails. Stack, locals and fields outlive a run, also one that fails. -/
namespace GuardCode

/-- What stays fixed during a run. -/
structure Setting (σ : Type) where
  code : Code
  host : Host σ
  args : Array Value
  maxSteps? : Option Nat := none

structure Machine (σ : Type) where
  /-- Operands, the top one first. -/
  stack : List Value := []
  locals : Array Value
  fields : Array Value
  world : σ

/-- How a run ends: with what the method returns, or with an error. -/
abbrev Ending := Except ExecutionError (Option Value)

/-- What one instruction leads to. -/
inductive Transition (σ : Type) where
  | goto (position : Nat) (m : Machine σ)
  | stop (ending : Ending) (m : Machine σ)

namespace Machine

variable {σ : Type}

/-- A machine for some code, its locals at the zero values of their types. -/
def start (code : Code) (fields : Array Value) (world : σ) : Machine σ :=
  { locals := code.locals.map Value.zero, fields, world }

/-- Puts a value on the stack. That the code has declared room for it is asserted in debug builds only,
and there it ends the run (`Machine.runIn`). -/
def push (m : Machine σ) (v : Value) : Machine σ := { m with stack := v :: m.stack }

def fail (m : Machine σ) (e : ExecutionError) : Transition σ := .stop (.error e) m

/-- Goes on with the value on top. -/
def withTop (m : Machine σ) (position : Nat) (k : Value → Machine σ → Transition σ) :
    Transition σ :=
  match m.stack with
  | [] => m.fail (.stackUnderflow position)
  | v :: stack => k v { m with stack }

/-- Goes on with the two values on top, in the order in which they were pushed. -/
def withTwo (m : Machine σ) (position : Nat) (k : Value → Value → Machine σ → Transition σ) :
    Transition σ :=
  m.withTop position fun b m => m.withTop position fun a m => k a b m

/-- Pushes a result and goes on with the next instruction, or stops with the error. -/
def pushResult (m : Machine σ) (position : Nat) : Except ExecutionError Value → Transition σ
  | .ok v => .goto (position + 1) (m.push v)
  | .error e => m.fail e

/-- Pushes a value that has a number, if there is one of that number. -/
def pushSlot (m : Machine σ) (position : Nat) (error : ExecutionError) :
    Option Value → Transition σ
  | some v => .goto (position + 1) (m.push v)
  | none => m.fail error

/-- Pushes the outcome of a comparison of the two values on top. -/
def compared (m : Machine σ) (position : Nat)
    (outcome : Value → Value → Except ExecutionError Bool) : Transition σ :=
  m.withTwo position fun a b m => m.pushResult position ((outcome a b).map Value.ofBool)

/-- Goes to the target of a branch if the outcome is that it is taken. -/
def branched (m : Machine σ) (position target : Nat) : Except ExecutionError Bool → Transition σ
  | .ok true => .goto target m
  | .ok false => .goto (position + 1) m
  | .error e => m.fail e

/-- Calls a host method. Its result must be there exactly if the method declares one. -/
def call (m : Machine σ) (host : Host σ) (position : Nat) (method : Method) : Transition σ :=
  match host.find? method.id with
  | none => m.fail (.missingHostMethod method.name)
  | some implementation =>
    if m.stack.length < method.arity then m.fail (.stackUnderflow position)
    else
      let args := (m.stack.take method.arity).reverse
      let m := { m with stack := m.stack.drop method.arity }
      match implementation args m.world with
      | .error e world => fail { m with world } e
      | .ok result? world =>
        let m := { m with world }
        match result?, method.returnsValue with
        | some result, true => .goto (position + 1) (m.push result)
        | none, false => .goto (position + 1) m
        | _, _ => m.fail (.badHostReturn method.name)

/-- Carries out the instruction at a position. -/
def step (s : Setting σ) (position : Nat) (i : Instruction) (m : Machine σ) : Transition σ :=
  let next := position + 1
  match i with
  | .nop => .goto next m
  | .loadNull => .goto next (m.push .null)
  | .loadMinusOne => .goto next (m.push (.int32 (-1)))
  | .loadSmall v => .goto next (m.push (.int32 (Int32.ofNat v.toNat)))
  | .loadInt v => .goto next (m.push (.int32 v))
  | .loadLong v => .goto next (m.push (.int64 v))
  | .loadSingle v => .goto next (m.push (.float32 v))
  | .loadDouble v => .goto next (m.push (.float64 v))
  | .loadString v => .goto next (m.push (.string v))
  | .dup => m.withTop position fun v m => .goto next ((m.push v).push v)
  | .pop => m.withTop position fun _ m => .goto next m
  | .loadArg index =>
    m.pushSlot position (.argumentOutOfRange index s.args.size) s.args[index]?
  | .loadLocal index =>
    m.pushSlot position (.localOutOfRange index m.locals.size) m.locals[index]?
  | .storeLocal index =>
    m.withTop position fun v m =>
      if index < m.locals.size then
        .goto next { m with locals := m.locals.setIfInBounds index v }
      else m.fail (.localOutOfRange index m.locals.size)
  | .loadField field =>
    m.pushSlot position (.fieldOutOfRange field.index m.fields.size) m.fields[field.index]?
  | .storeField field =>
    m.withTop position fun v m =>
      if field.index < m.fields.size then
        .goto next { m with fields := m.fields.setIfInBounds field.index v }
      else m.fail (.fieldOutOfRange field.index m.fields.size)
  | .add => m.withTwo position fun a b m => m.pushResult position (Operation.add i a b)
  | .sub => m.withTwo position fun a b m => m.pushResult position (Operation.sub i a b)
  | .rem => m.withTwo position fun a b m => m.pushResult position (Operation.rem i a b)
  | .signed16 => m.withTop position fun v m => m.pushResult position (Operation.widen16 i true v)
  | .unsigned16 =>
    m.withTop position fun v m => m.pushResult position (Operation.widen16 i false v)
  | .compareEqual => m.compared position (Operation.equal i)
  | .compareGreater => m.compared position (Operation.related i .greater false)
  | .compareGreaterUn => m.compared position (Operation.related i .greater true)
  | .compareLess => m.compared position (Operation.related i .less false)
  | .compareLessUn => m.compared position (Operation.related i .less true)
  | .branch .always label _ => .goto (s.code.target label) m
  | .branch .ifTrue label _ =>
    m.withTop position fun v m => m.branched position (s.code.target label) (.ok v.isTruthy)
  | .branch .ifFalse label _ =>
    m.withTop position fun v m => m.branched position (s.code.target label) (.ok !v.isTruthy)
  | .branch op label _ =>
    m.withTwo position fun a b m =>
      m.branched position (s.code.target label) (Operation.holds i a b op)
  | .call method => m.call s.host position method
  | .ret =>
    if s.code.returnsValue then m.withTop position fun v m => .stop (.ok (some v)) m
    else .stop (.ok none) m

/-- Whether a limit on the steps is used up. -/
def limitReached? (s : Setting σ) (steps : Nat) : Option ExecutionError :=
  match s.maxSteps? with
  | some limit => if limit ≤ steps then some (.stepLimitExceeded limit) else none
  | none => none

/-- Goes on from a position, after `steps` steps, for at most `fuel` more; nothing if the run is not
over by then. -/
def resume (s : Setting σ) : (fuel steps position : Nat) → Machine σ → Option (Ending × Machine σ)
  | 0, _, _, _ => none
  | fuel + 1, steps, position, m =>
    match s.code.instructions[position]? with
    | none => some (.error .fellOffEnd, m)
    | some i =>
      match limitReached? s steps with
      | some e => some (.error e, m)
      | none =>
        match step s position i m with
        | .stop ending m => some (ending, m)
        | .goto position m => resume s fuel (steps + 1) position m

/-- Runs the method from its first instruction, as a release build does. -/
def run (s : Setting σ) (fuel : Nat) (m : Machine σ) : Option (Ending × Machine σ) :=
  resume s fuel 0 0 m

end Machine

end GuardCode
