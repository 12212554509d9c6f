import GuardCode.Grammar.Phrase
import GuardCode.Grammar.Rule
import GuardCode.Grammar.Token

/-! Matching guard text against the grammar. Choices are ordered and a choice once made is final;
blanks may stand between the parts of every rule that is not a token. -/
namespace GuardCode

/-- What is left of the input, and the position where it starts. -/
structure Cursor where
  rest : List Char
  position : Nat

namespace Cursor

/-- The cursor at a later rest of the same input. -/
def advance (c : Cursor) (rest : List Char) : Cursor :=
  ⟨rest, c.position + byteLength (c.rest.take (c.rest.length - rest.length))⟩

def skip (c : Cursor) : Cursor := c.advance (c.rest.dropWhile Token.isSpace)

/-- What was passed on the way to a later cursor. -/
def lexeme (c later : Cursor) : Lexeme :=
  ⟨⟨c.position, later.position⟩, c.rest.take (c.rest.length - later.rest.length)⟩

end Cursor

/-- A way to match a part of the input: a result with the cursor after it, if there is one, and in
any case the record of failures. -/
def Matcher (α : Type) := Cursor → Furthest → Option (α × Cursor) × Furthest

namespace Matcher

variable {α β : Type}

instance : Monad Matcher where
  pure a := fun c far => (some (a, c), far)
  bind m k := fun c far =>
    match m c far with
    | (some (a, c'), far') => k a c' far'
    | (none, far') => (none, far')

/-- Tries the second where the first fails. -/
def orElse (m k : Matcher α) : Matcher α := fun c far =>
  match m c far with
  | (some found, far') => (some found, far')
  | (none, far') => k c far'

def failure : Matcher α := fun _ far => (none, far)

def choice (options : List (Matcher α)) : Matcher α := options.foldr orElse failure

/-- A named rule: its failure goes on record. -/
def rule (r : Rule) (m : Matcher α) : Matcher α := fun c far =>
  match m c far with
  | (some found, far') => (some found, far')
  | (none, far') => (none, far'.fail r c.position (far.count c.position))

/-- A token; nothing inside it goes on record. -/
def token (scan : List Char → Option (List Char)) : Matcher Lexeme := fun c far =>
  match scan c.rest with
  | some rest => (some (c.lexeme (c.advance rest), c.advance rest), far)
  | none => (none, far)

def symbol (text : String) : Matcher Lexeme := token (Token.word text.toList)

def skip : Matcher Unit := fun c far => (some ((), c.skip), far)

def position : Matcher Nat := fun c far => (some (c.position, c), far)

/-- A match, or nothing where there is none. -/
def optional (m : Matcher α) : Matcher (Option α) :=
  orElse (some <$> m) (pure none)

/-- As many matches as there are, each with blanks before it, found in at most `bound` attempts. A
match takes at least one character, and the last attempt finds none. -/
def repeated (m : Matcher α) : Nat → Matcher (List α)
  | 0 => pure []
  | bound + 1 =>
    orElse
      (do
        skip
        let first ← m
        let others ← repeated m bound
        return first :: others)
      (pure [])

/-- What may follow the first part of a sequence, any number of times: the blanks after the first
part are passed in any case. -/
def followers (m : Matcher α) : Matcher (List α) := do
  skip
  orElse
    (do
      let first ← m
      let others ← fun c far => repeated m (c.rest.length + 1) c far
      return first :: others)
    (pure [])

end Matcher

namespace Grammar

open Matcher

/-- The operators in the order in which they are tried, longer symbols before their beginnings. -/
def operators : List BinaryOp :=
  [.or, .and, .bitOr, .xor, .bitAnd, .eq, .ne, .shl, .shr, .le, .ge, .lt, .gt, .add, .sub, .mul,
    .div, .rem]

def operator : Matcher BinaryOp :=
  choice (operators.map fun op => rule (.operator op) ((fun _ => op) <$> symbol op.symbol))

def name : Matcher Lexeme := rule .name (token Token.name)

def literalRule : LiteralKind → Rule
  | .null => .null
  | .boolean => .boolean
  | .float => .float
  | .integer => .integer
  | .character => .character
  | .string => .string

def literalScan : LiteralKind → List Char → Option (List Char)
  | .null => Token.null
  | .boolean => Token.boolean
  | .float => Token.float
  | .integer => Token.integer
  | .character => Token.character
  | .string => Token.string

def literalOf (kind : LiteralKind) : Matcher Phrase :=
  rule (literalRule kind) (Phrase.literal kind <$> token (literalScan kind))

def literal : Matcher Phrase :=
  choice ([.null, .boolean, .float, .integer, .character, .string].map literalOf)

/-! The rules below take the matcher of the expressions inside parentheses as a parameter. -/

def grouped (nested : Matcher Phrase) : Matcher Phrase :=
  rule .grouped do
    let start ← position
    let _ ← symbol "("
    skip
    let inner ← nested
    skip
    let _ ← symbol ")"
    return .group ⟨start, ← position⟩ inner

def arguments (nested : Matcher Phrase) : Matcher (List Phrase) := do
  let first ← nested
  let others ← followers do
    let _ ← symbol ","
    skip
    nested
  return first :: others

/-- Parentheses around arguments, or around nothing. -/
def argumentList (nested : Matcher Phrase) : Matcher (List Phrase) := do
  let _ ← symbol "("
  skip
  let args ← optional (arguments nested)
  skip
  let _ ← symbol ")"
  return args.getD []

def capabilityCall (nested : Matcher Phrase) : Matcher Phrase :=
  rule .capabilityCall do
    let start ← position
    let _ ← symbol "@"
    skip
    let callee ← name
    skip
    let args ← argumentList nested
    return .capability ⟨start, ← position⟩ callee args

def methodCall (nested : Matcher Phrase) : Matcher Phrase :=
  rule .methodCall do
    let start ← position
    let callee ← name
    skip
    let args ← argumentList nested
    return .method ⟨start, ← position⟩ callee args

def primary (nested : Matcher Phrase) : Matcher Phrase :=
  choice [grouped nested, capabilityCall nested, methodCall nested, literal, Phrase.name <$> name]

def expressionOver (nested : Matcher Phrase) : Matcher Phrase :=
  rule .expression do
    let first ← primary nested
    let others ← followers do
      let op ← operator
      skip
      let operand ← primary nested
      return (op, operand)
    return .ofChain first others

/-- Expressions with fewer than the given number of parentheses around any part. -/
def expression : Nat → Matcher Phrase
  | 0 => failure
  | depth + 1 => expressionOver (expression depth)

def endOfInput : Matcher Unit :=
  rule .endOfInput fun c far => if c.rest.isEmpty then (some ((), c), far) else (none, far)

def main (depth : Nat) : Matcher Phrase :=
  rule .main do
    skip
    let phrase ← expression depth
    skip
    endOfInput
    return phrase

/-- A depth that no nesting in the text can reach. -/
def depthOf (source : List Char) : Nat := source.count '(' + 1

/-- Runs a matcher at the start of a text. A failure gives the record of what was tried. -/
def runAt {α : Type} (m : Matcher α) (source : List Char) : Except Furthest (α × Cursor) :=
  match m ⟨source, 0⟩ {} with
  | (some found, _) => .ok found
  | (none, far) => .error far

/-- The phrase that a whole text spells. -/
def phrase (source : List Char) : Except Furthest Phrase :=
  (runAt (main (depthOf source)) source).map (·.1)

/-- The matcher of a rule by itself. -/
def ofRule (depth : Nat) : Rule → Matcher Unit
  | .endOfInput => endOfInput
  | .main => (fun _ => ()) <$> main depth
  | .expression => (fun _ => ()) <$> expression depth
  | .operator op => (fun _ => ()) <$> rule (.operator op) (symbol op.symbol)
  | .grouped => (fun _ => ()) <$> grouped (expression depth)
  | .capabilityCall => (fun _ => ()) <$> capabilityCall (expression depth)
  | .methodCall => (fun _ => ()) <$> methodCall (expression depth)
  | .null => (fun _ => ()) <$> literalOf .null
  | .boolean => (fun _ => ()) <$> literalOf .boolean
  | .float => (fun _ => ()) <$> literalOf .float
  | .integer => (fun _ => ()) <$> literalOf .integer
  | .character => (fun _ => ()) <$> literalOf .character
  | .string => (fun _ => ()) <$> literalOf .string
  | .name => (fun _ => ()) <$> name

/-- What a rule matches at the start of a text. -/
def matched (rule : Rule) (source : List Char) : Except Furthest Lexeme :=
  (runAt (ofRule (depthOf source) rule) source).map fun (_, c) => Cursor.lexeme ⟨source, 0⟩ c

end Grammar

end GuardCode
