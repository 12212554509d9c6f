import GuardCode.Literal
import GuardCode.Operator

/-! Guard expressions. -/
namespace GuardCode

/-- A reference handed to a capability instead of a value. -/
inductive Carried where
  | member (m : Member)
  /-- A host object of the named type, which no instruction can denote. -/
  | foreign (typeName : String)
  deriving DecidableEq

namespace Carried

def type : Carried → Ty
  | member m => m.type
  | foreign _ => .object

def text : Carried → String
  | member m => m.text
  | foreign typeName => "<" ++ typeName ++ ">"

end Carried

inductive Callee where
  | capability (c : Capability)
  | method (m : Method)
  deriving DecidableEq

inductive Expr where
  | binary (op : BinaryOp) (left right : Expr)
  | member (m : Member)
  | literal (l : Literal)
  | carried (c : Carried)
  /-- A call with its declared result type, `void` where it leaves nothing. -/
  | call (callee : Callee) (args : List Expr) (type : Ty)

namespace Expr

/-- The static type: comparisons and logical connectives are `bool`, other operators have the type
of their left operand. -/
def type : Expr → Ty
  | binary op left _ => if op.isComparison || op.isLogical then .bool else left.type
  | member m => m.type
  | literal l => l.type
  | carried c => c.type
  | call _ _ type => type

def isNull : Expr → Bool
  | literal .null => true
  | _ => false

mutual

/-- Equality of expressions. -/
def same : Expr → Expr → Bool
  | binary op l r, binary op' l' r' => op == op' && same l l' && same r r'
  | member m, member m' => m == m'
  | literal l, literal l' => l == l'
  | carried c, carried c' => c == c'
  | call callee args type, call callee' args' type' =>
    callee == callee' && sameAll args args' && type == type'
  | _, _ => false

def sameAll : List Expr → List Expr → Bool
  | [], [] => true
  | e :: es, e' :: es' => same e e' && sameAll es es'
  | _, _ => false

end

mutual

theorem same_iff : ∀ a b : Expr, same a b = true ↔ a = b
  | binary op l r, b => by
    cases b <;> simp [same, same_iff l, same_iff r, and_assoc]
  | member m, b => by cases b <;> simp [same]
  | literal l, b => by cases b <;> simp [same]
  | carried c, b => by cases b <;> simp [same]
  | call callee args type, b => by
    cases b <;> simp [same, sameAll_iff args, and_assoc]

theorem sameAll_iff : ∀ as bs : List Expr, sameAll as bs = true ↔ as = bs
  | [], bs => by cases bs <;> simp [sameAll]
  | a :: as, bs => by
    cases bs <;> simp [sameAll, same_iff a, sameAll_iff as]

end

instance : DecidableEq Expr := fun a b => decidable_of_iff _ (same_iff a b)

end Expr

end GuardCode
