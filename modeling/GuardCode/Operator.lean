/-! Binary operators, ten levels of precedence, and the capabilities that a guard may call. -/
namespace GuardCode

inductive BinaryOp where
  | eq | ne | lt | le | gt | ge | and | or | rem | add | sub | mul | div | bitAnd | bitOr | xor
  | shl | shr
  deriving DecidableEq

namespace BinaryOp

def all : List BinaryOp :=
  [eq, ne, lt, le, gt, ge, and, or, rem, add, sub, mul, div, bitAnd, bitOr, xor, shl, shr]

def isComparison : BinaryOp → Bool
  | eq | ne | lt | le | gt | ge => true
  | _ => false

def isLogical : BinaryOp → Bool
  | and | or => true
  | _ => false

def isShift : BinaryOp → Bool
  | shl | shr => true
  | _ => false

def symbol : BinaryOp → String
  | eq => "=="
  | ne => "!="
  | lt => "<"
  | le => "<="
  | gt => ">"
  | ge => ">="
  | and => "&&"
  | or => "||"
  | rem => "%"
  | add => "+"
  | sub => "-"
  | mul => "*"
  | div => "/"
  | bitAnd => "&"
  | bitOr => "|"
  | xor => "^"
  | shl => "<<"
  | shr => ">>"

/-- Binding strength; the higher binds tighter. Operators of one level associate to the left. -/
def precedence : BinaryOp → Nat
  | or => 1
  | and => 2
  | bitOr => 3
  | xor => 4
  | bitAnd => 5
  | eq | ne => 6
  | lt | le | gt | ge => 7
  | shl | shr => 8
  | add | sub => 9
  | mul | div | rem => 10

end BinaryOp

/-- How a capability receives a parameter: as a value on the stack, or as a reference to a member. -/
inductive ParamKind where
  | value
  | target
  deriving DecidableEq

/-- Primitives of the stack machine that may be called in a guard. -/
inductive Capability where
  | load | store | increment | decrement | add | subtract | remainder
  deriving DecidableEq

namespace Capability

def all : List Capability := [load, store, increment, decrement, add, subtract, remainder]

def name : Capability → String
  | load => "load"
  | store => "store"
  | increment => "inc"
  | decrement => "dec"
  | add => "add"
  | subtract => "sub"
  | remainder => "rem"

def ofName? (name : String) : Option Capability :=
  all.find? fun capability => capability.name == name

def params : Capability → List ParamKind
  | load | increment | decrement => [.target]
  | store => [.value, .target]
  | add | subtract | remainder => [.value, .value]

/-- The capabilities that compute a value from two operands of one type. -/
def isArithmetic : Capability → Bool
  | add | subtract | remainder => true
  | _ => false

end Capability

end GuardCode
