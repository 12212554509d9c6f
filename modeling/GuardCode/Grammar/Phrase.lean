import GuardCode.Grammar.Span
import GuardCode.Operator

/-! Parsed guard text. A phrase keeps the spelling and the place of every token; the operators of a
chain are arranged by precedence. -/
namespace GuardCode

inductive LiteralKind where
  | null | boolean | float | integer | character | string
  deriving DecidableEq

/-- A token with its place in the source. -/
structure Lexeme where
  span : Span
  text : List Char
  deriving DecidableEq

inductive Phrase where
  | binary (op : BinaryOp) (left right : Phrase)
  | group (span : Span) (inner : Phrase)
  | name (lexeme : Lexeme)
  | literal (kind : LiteralKind) (lexeme : Lexeme)
  | method (span : Span) (name : Lexeme) (args : List Phrase)
  | capability (span : Span) (name : Lexeme) (args : List Phrase)

namespace Phrase

/-- Adds an operator and its right operand at the end of a phrase. Where the new operator binds
tighter than the last one it takes over the operand on its left, otherwise it takes the whole. -/
def extend : Phrase → BinaryOp → Phrase → Phrase
  | binary last left right, op, operand =>
    if last.precedence < op.precedence then binary last left (right.extend op operand)
    else binary op (binary last left right) operand
  | left, op, operand => binary op left operand

/-- A chain of operands as one phrase. -/
def ofChain (first : Phrase) (rest : List (BinaryOp × Phrase)) : Phrase :=
  rest.foldl (fun phrase (op, operand) => phrase.extend op operand) first

end Phrase

end GuardCode
