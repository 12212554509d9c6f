import GuardCode.Operator

/-! The named rules of the grammar, and the record of what was tried at the furthest position that
matching has reached, from which a syntax error is reported. -/
namespace GuardCode

inductive Rule where
  | endOfInput
  | main
  | expression
  | operator (op : BinaryOp)
  | grouped
  | capabilityCall
  | methodCall
  | null
  | boolean
  | float
  | integer
  | character
  | string
  | name
  deriving DecidableEq

namespace Rule

/-- Place in the order in which expectations are listed. -/
def rank : Rule → Nat
  | endOfInput => 0
  | main => 1
  | expression => 2
  | operator _ => 3
  | grouped => 4
  | capabilityCall => 5
  | methodCall => 6
  | null => 7
  | boolean => 8
  | float => 9
  | integer => 10
  | character => 11
  | string => 12
  | name => 13

/-- What a reader is told was expected where the rule failed. -/
def expectation : Rule → String
  | endOfInput => "end of input"
  | main | expression | grouped => "expression"
  | operator _ => "operator"
  | capabilityCall | methodCall | name => "identifier"
  | null | boolean | float | integer | character | string => "literal"

/-- The expectations of rules in order, each once. -/
def expectations (rules : List Rule) : List String :=
  ((rules.mergeSort fun a b => a.rank ≤ b.rank).map expectation).eraseDups

/-- `a`, `a or b`, `a, b or c`. -/
def listed : List String → String
  | [] => "a valid guard"
  | [one] => one
  | names => String.intercalate ", " names.dropLast ++ " or " ++ names.getLastD ""

end Rule

/-- The furthest position at which a rule has failed, and the rules that failed there, the latest
first. -/
structure Furthest where
  position : Nat := 0
  rules : List Rule := []
  deriving DecidableEq

namespace Furthest

/-- How many failures are recorded for a position. -/
def count (far : Furthest) (position : Nat) : Nat :=
  if far.position = position then far.rules.length else 0

/-- Records that a rule that began at a position has failed; `before` failures were recorded for the
position when it began. A single failure inside the rule stands for the rule; several are replaced
by it. -/
def fail (far : Furthest) (rule : Rule) (position before : Nat) : Furthest :=
  if far.count position = before + 1 then far
  else if far.position < position then ⟨position, [rule]⟩
  else if far.position = position then
    ⟨position, rule :: far.rules.drop (far.rules.length - before)⟩
  else far

end Furthest

end GuardCode
