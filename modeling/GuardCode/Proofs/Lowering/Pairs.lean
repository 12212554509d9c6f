import GuardCode.Grammar.Matcher

/-! The pairs of a text. A rule that has matched leaves a pair: the rule, the part of the text that it
matched, and the pairs of the rules inside it. Tokens have no pairs inside. Blanks, and the rules that only
name a choice or a list (literals, operands, operators and arguments), leave no pairs of their own. -/
namespace GuardCode

inductive Pair where
  | mk (rule : Rule) (lexeme : Lexeme) (inner : List Pair)

namespace Pair

def rule : Pair → Rule
  | mk rule _ _ => rule

def lexeme : Pair → Lexeme
  | mk _ lexeme _ => lexeme

def inner : Pair → List Pair
  | mk _ _ inner => inner

end Pair

namespace Matcher

def cursor : Matcher Cursor := fun c far => (some (c, c), far)

/-- A named rule, which leaves a pair around those that were found inside it. -/
def paired (r : Rule) (m : Matcher (List Pair)) : Matcher Pair :=
  rule r do
    let start ← cursor
    let inner ← m
    let stop ← cursor
    return .mk r (start.lexeme stop) inner

/-- The pair of a token. -/
def leaf (r : Rule) (scan : List Char → Option (List Char)) : Matcher Pair :=
  paired r ((fun _ => []) <$> token scan)

end Matcher

namespace Pairs

open Matcher

def operator : Matcher Pair :=
  choice (Grammar.operators.map fun op => leaf (.operator op) (Token.word op.symbol.toList))

def name : Matcher Pair := leaf .name Token.name

def literalOf (kind : LiteralKind) : Matcher Pair :=
  leaf (Grammar.literalRule kind) (Grammar.literalScan kind)

def literal : Matcher Pair :=
  choice ([.null, .boolean, .float, .integer, .character, .string].map literalOf)

def grouped (nested : Matcher Pair) : Matcher Pair :=
  paired .grouped do
    let _ ← symbol "("
    skip
    let inner ← nested
    skip
    let _ ← symbol ")"
    return [inner]

def arguments (nested : Matcher Pair) : Matcher (List Pair) := do
  let first ← nested
  let others ← followers do
    let _ ← symbol ","
    skip
    nested
  return first :: others

def argumentList (nested : Matcher Pair) : Matcher (List Pair) := do
  let _ ← symbol "("
  skip
  let args ← optional (arguments nested)
  skip
  let _ ← symbol ")"
  return args.getD []

def capabilityCall (nested : Matcher Pair) : Matcher Pair :=
  paired .capabilityCall do
    let _ ← symbol "@"
    skip
    let callee ← name
    skip
    let args ← argumentList nested
    return callee :: args

def methodCall (nested : Matcher Pair) : Matcher Pair :=
  paired .methodCall do
    let callee ← name
    skip
    let args ← argumentList nested
    return callee :: args

def primary (nested : Matcher Pair) : Matcher Pair :=
  choice [grouped nested, capabilityCall nested, methodCall nested, literal, name]

/-- Operands with operators between them, one pair behind the other. -/
def expressionOver (nested : Matcher Pair) : Matcher Pair :=
  paired .expression do
    let first ← primary nested
    let others ← followers do
      let op ← operator
      skip
      let operand ← primary nested
      return [op, operand]
    return first :: others.flatten

def expression : Nat → Matcher Pair
  | 0 => failure
  | depth + 1 => expressionOver (expression depth)

def endOfInput : Matcher Pair :=
  paired .endOfInput fun c far => if c.rest.isEmpty then (some ([], c), far) else (none, far)

def main (depth : Nat) : Matcher Pair :=
  paired .main do
    skip
    let expression ← expression depth
    skip
    let stop ← endOfInput
    return [expression, stop]

/-- The pairs of a whole text. -/
def ofSource (source : List Char) : Except Furthest (List Pair) :=
  (Grammar.runAt (main (Grammar.depthOf source)) source).map fun found => [found.1]

end Pairs

end GuardCode
