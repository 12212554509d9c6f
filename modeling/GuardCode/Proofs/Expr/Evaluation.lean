import GuardCode.Emission
import GuardCode.Machine.Host
import GuardCode.Machine.Operation
import GuardCode.Proofs.Expr.Parts

/-! The value of a guard, without any code. Operands are evaluated from left to right, `&&` and `||`
leave their right operand out where the left one decides, and host methods act on the world in the
order in which they are called. -/
namespace GuardCode

/-- The error with no instruction to blame for operands of the wrong kinds. -/
def ExecutionError.plain : ExecutionError → ExecutionError
  | typeMismatch _ found => typeMismatch .nop found
  | e => e

/-- Narrow integers, truth values and characters are held as int32. -/
def Literal.value : Literal → Value
  | null => .null
  | bool v => .ofBool v
  | u8 v => .int32 (Int32.ofNat v.toNat)
  | i8 v => .int32 v.toInt32
  | i16 v => .int32 v.toInt32
  | u16 v => .int32 (Int32.ofNat v.toNat)
  | i32 v => .int32 v
  | char v => .int32 (Int32.ofNat v.toNat)
  | i64 v => .int64 v
  | f32 v => .float32 v
  | f64 v => .float64 v
  | string v => .string v

namespace BinaryOp

/-- What `&&` and `||` come to where the left operand decides. -/
def decided? (op : BinaryOp) (left : Value) : Option Bool :=
  match op with
  | and => if left.isTruthy then none else some false
  | or => if left.isTruthy then some true else none
  | _ => none

/-- The error of what has no value. No code is ever made of it. -/
def meaningless : ExecutionError := .typeMismatch .nop []

/-- Whether a comparison holds of two values. An ordering fails where floats are not ordered. -/
def holds (op : BinaryOp) (a b : Value) : Except ExecutionError Bool :=
  match op with
  | eq => Operation.equal .nop a b
  | ne => (Operation.equal .nop a b).map (!·)
  | lt => Operation.related .nop .less false a b
  | le => Operation.related .nop .lessOrEqual false a b
  | gt => Operation.related .nop .greater false a b
  | ge => Operation.related .nop .greaterOrEqual false a b
  | _ => .error meaningless

/-- An operator on two values. -/
def apply (op : BinaryOp) (a b : Value) : Except ExecutionError Value :=
  match op with
  | and => .ok (.ofBool (a.isTruthy && b.isTruthy))
  | or => .ok (.ofBool (a.isTruthy || b.isTruthy))
  | rem => Operation.rem .nop a b
  | _ => (op.holds a b).map .ofBool

end BinaryOp

/-- What a guard can reach when it is evaluated. -/
structure Environment (σ : Type) where
  host : Host σ
  args : Array Value
  locals : Array Value
  fields : Array Value

/-- An evaluation may fail, and acts on the world of the host. -/
abbrev Evaluation (σ : Type) := EStateM ExecutionError σ

namespace Environment

variable {σ : Type} (env : Environment σ)

/-- A value that is there or not. -/
def fetch (error : ExecutionError) : Option Value → Evaluation σ Value
  | some v => pure v
  | none => throw error

def load : Member → Evaluation σ Value
  | .arg slot => fetch (.argumentOutOfRange slot.index env.args.size) env.args[slot.index]?
  | .loc slot => fetch (.localOutOfRange slot.index env.locals.size) env.locals[slot.index]?
  | .field f => fetch (.fieldOutOfRange f.index env.fields.size) env.fields[f.index]?

/-- Calls a host method for its result. -/
def call (method : Method) (args : List Value) : Evaluation σ Value :=
  match env.host.find? method.id with
  | none => throw (.missingHostMethod method.name)
  | some implementation => implementation args >>= fetch (.badHostReturn method.name)

/-- An operator on two values that are compared on a type, whose class may decide equality by a
method. -/
def operate (op : BinaryOp) (type : Ty) (a b : Value) : Evaluation σ Value :=
  match op, type.equality? with
  | .eq, some method => env.call method [a, b]
  | .ne, some method => do return .ofBool !(← env.call method [a, b]).isTruthy
  | _, _ => MonadExcept.ofExcept (op.apply a b)

/-- A call on the values of its arguments. -/
def invoke (callee : Callee) (args : List Value) : Evaluation σ Value :=
  match callee, args with
  | .method m, args => env.call m args
  | .capability .add, [a, b] => MonadExcept.ofExcept (Operation.add .nop a b)
  | .capability .subtract, [a, b] => MonadExcept.ofExcept (Operation.sub .nop a b)
  | .capability .remainder, [a, b] => MonadExcept.ofExcept (Operation.rem .nop a b)
  | _, _ => throw BinaryOp.meaningless

end Environment

namespace Expr

/-- The member whose value a call loads. -/
def loaded? : Callee → List Expr → Option Member
  | .capability .load, [carried (.member m)] => some m
  | _, _ => none

section

variable {σ : Type} (env : Environment σ)

mutual

/-- The value of an expression. -/
def eval : Expr → Evaluation σ Value
  | binary op left right => do
    let a ← eval left
    match op.decided? a with
    | some outcome => return .ofBool outcome
    | none =>
      let b ← eval right
      env.operate op (Emission.comparisonType left right) a b
  | member m => env.load m
  | literal l => return l.value
  | carried _ => throw BinaryOp.meaningless
  | call callee args _ =>
    match loaded? callee args with
    | some m => env.load m
    | none => do env.invoke callee (← evalAll args)

/-- The values of expressions, one after another. -/
def evalAll : List Expr → Evaluation σ (List Value)
  | [] => return []
  | e :: es => do return (← eval e) :: (← evalAll es)

end

/-- The expression can have the value, in some world. -/
def Yields (e : Expr) (v : Value) : Prop := ∃ before after, e.eval env before = .ok v after

end

/-! ## Values of the expected kinds -/

def isLogical : Expr → Bool
  | binary op _ _ => op.isLogical
  | _ => false

/-- The operand of a chain of `&&` and `||` that comes last. -/
def lastOperand : Expr → Expr
  | binary op left right => if op.isLogical then lastOperand right else binary op left right
  | e => e

end Expr

namespace Value

def isFloat : Value → Bool
  | float32 _ | float64 _ => true
  | _ => false

/-- A float where a float is declared, a reference where a reference is. -/
def Fits (v : Value) (type : Ty) : Prop :=
  v.isFloat = type.isFloat ∧ v.isReference = type.isReference

end Value

namespace Expr

variable {σ : Type}

/-- The values on which the choice of instructions relies. -/
structure WellKinded (env : Environment σ) (e : Expr) : Prop where
  /-- What is compared is of the kind that its type says. -/
  operands : ∀ op left right, Part (binary op left right) e → op.isComparison →
    (∀ v, left.Yields env v → v.Fits left.type) ∧ ∀ v, right.Yields env v → v.Fits right.type
  /-- A method that decides inequality returns an int32. -/
  differences : ∀ left right method, Part (binary .ne left right) e →
    (Emission.comparisonType left right).equality? = some method →
      ∀ a b before v after, env.call method [a, b] before = .ok v after → ∃ n, v = .int32 n
  /-- A chain whose value is used ends in an operand that is 0 or 1. -/
  chains : ∀ p c v, Part p e → p.isLogical = false → c ∈ p.children → c.isLogical = true →
    c.lastOperand.Yields env v → v = .ofBool v.isTruthy

theorem WellKinded.child {env : Environment σ} {e c : Expr} (h : e.WellKinded env)
    (hc : c ∈ e.children) : c.WellKinded env where
  operands op left right hp := h.operands op left right (.child hc hp)
  differences left right method hp := h.differences left right method (.child hc hp)
  chains p c v hp := h.chains p c v (.child hc hp)

end Expr

end GuardCode
