import GuardCode.ExecutionError
import GuardCode.Value

/-! Arithmetic and comparison of stack values. Both operands must be of one kind; references of any
kind can be compared for identity. -/
namespace GuardCode.Operation

def mismatch (i : Instruction) (operands : List Value) : ExecutionError :=
  .typeMismatch i (operands.map Value.kind)

def rem32 (x y : Int32) : Except ExecutionError Int32 :=
  if y = 0 then .error .divideByZero
  else if x = Int32.minValue ∧ y = -1 then .error .overflow
  else .ok (x % y)

def rem64 (x y : Int64) : Except ExecutionError Int64 :=
  if y = 0 then .error .divideByZero
  else if x = Int64.minValue ∧ y = -1 then .error .overflow
  else .ok (x % y)

/-- Sums and differences wrap around. -/
def add (i : Instruction) : Value → Value → Except ExecutionError Value
  | .int32 x, .int32 y => .ok (.int32 (x + y))
  | .int64 x, .int64 y => .ok (.int64 (x + y))
  | .float32 x, .float32 y => .ok (.float32 (x.add y))
  | .float64 x, .float64 y => .ok (.float64 (x.add y))
  | a, b => .error (mismatch i [a, b])

def sub (i : Instruction) : Value → Value → Except ExecutionError Value
  | .int32 x, .int32 y => .ok (.int32 (x - y))
  | .int64 x, .int64 y => .ok (.int64 (x - y))
  | .float32 x, .float32 y => .ok (.float32 (x.sub y))
  | .float64 x, .float64 y => .ok (.float64 (x.sub y))
  | a, b => .error (mismatch i [a, b])

/-- Remainders have the sign of the dividend. -/
def rem (i : Instruction) : Value → Value → Except ExecutionError Value
  | .int32 x, .int32 y => (rem32 x y).map .int32
  | .int64 x, .int64 y => (rem64 x y).map .int64
  | .float32 x, .float32 y => .ok (.float32 (x.rem y))
  | .float64 x, .float64 y => .ok (.float64 (x.rem y))
  | a, b => .error (mismatch i [a, b])

/-- The low sixteen bits of an int32, sign-extended or zero-extended. -/
def widen16 (i : Instruction) (signed : Bool) : Value → Except ExecutionError Value
  | .int32 v =>
    .ok (.int32 (if signed then v.toInt16.toInt32 else Int32.ofNat v.toInt16.toUInt16.toNat))
  | a => .error (mismatch i [a])

def equal (i : Instruction) : Value → Value → Except ExecutionError Bool
  | .int32 x, .int32 y => .ok (x == y)
  | .int64 x, .int64 y => .ok (x == y)
  | .float32 x, .float32 y => .ok (x.equal y)
  | .float64 x, .float64 y => .ok (x.equal y)
  | .string x, .string y => .ok (x == y)
  | .object x, .object y => .ok (x == y)
  | .null, .null => .ok true
  | a, b => if a.isReference && b.isReference then .ok false else .error (mismatch i [a, b])

/-- The order of two numbers, integers as unsigned ones if asked; nothing where floats are not
ordered. -/
def order (i : Instruction) (unsigned : Bool) :
    Value → Value → Except ExecutionError (Option Ordering)
  | .int32 x, .int32 y =>
    .ok (some (if unsigned then compare x.toUInt32 y.toUInt32 else compare x y))
  | .int64 x, .int64 y =>
    .ok (some (if unsigned then compare x.toUInt64 y.toUInt64 else compare x y))
  | .float32 x, .float32 y => .ok (x.compare y)
  | .float64 x, .float64 y => .ok (x.compare y)
  | a, b => .error (mismatch i [a, b])

/-- The orders on which an ordering is decided. -/
inductive Relation where
  | greater | greaterOrEqual | less | lessOrEqual
  deriving DecidableEq

def Relation.admits : Relation → Ordering → Bool
  | greater, o => o == .gt
  | greaterOrEqual, o => o != .lt
  | less, o => o == .lt
  | lessOrEqual, o => o != .gt

/-- Whether two values stand in a relation. The unordered form takes integers as unsigned, holds
where floats are not ordered, and on references holds where they differ. -/
def related (i : Instruction) (relation : Relation) (unordered : Bool) (a b : Value) :
    Except ExecutionError Bool := do
  if unordered && a.isReference && b.isReference then return !(← equal i a b)
  match ← order i unordered a b with
  | none => return unordered
  | some o => return relation.admits o

/-- Whether the condition of a branch on two values holds. -/
def holds (i : Instruction) (a b : Value) : BranchOp → Except ExecutionError Bool
  | .eq => equal i a b
  | .neUn => (equal i a b).map (!·)
  | .gt => related i .greater false a b
  | .gtUn => related i .greater true a b
  | .ge => related i .greaterOrEqual false a b
  | .geUn => related i .greaterOrEqual true a b
  | .lt => related i .less false a b
  | .ltUn => related i .less true a b
  | .le => related i .lessOrEqual false a b
  | .leUn => related i .lessOrEqual true a b
  | .always => .ok true
  | .ifTrue => .ok b.isTruthy
  | .ifFalse => .ok !b.isTruthy

end GuardCode.Operation
