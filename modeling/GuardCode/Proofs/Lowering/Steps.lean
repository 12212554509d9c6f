import GuardCode.Proofs.Lowering.Pairs
import GuardCode.Proofs.Precedence

/-! The lowering of pairs to expressions, with an answer for every pair there could be: also for one that
has no case of its own, for one without the pairs that should be inside it, and for a climb over operators
and operands that do not alternate. -/
namespace GuardCode

/-- What a lowering can end with but a node. -/
inductive Setback where
  /-- The text is refused. -/
  | refused (e : ParseError)
  /-- A pair that should be inside is not there. -/
  | missingPair (span : Span)
  /-- A pair of this rule has no case. -/
  | unhandled (rule : Rule) (span : Span)
  /-- The climb has no operand to go on with, or meets an operand in the place of an operator. -/
  | stuck

namespace Lowering

/-- The operator that a rule stands for. -/
def operator? : Rule → Option BinaryOp
  | .operator op => some op
  | _ => none

/-- The kind of literals that a rule stands for. -/
def literalKind? : Rule → Option LiteralKind
  | .null => some .null
  | .boolean => some .boolean
  | .float => some .float
  | .integer => some .integer
  | .character => some .character
  | .string => some .string
  | _ => none

def literal (rule : Rule) (lexeme : Lexeme) : Except Setback Node :=
  match literalKind? rule with
  | none => .error (.unhandled rule lexeme.span)
  | some kind =>
    match Reading.literal kind lexeme.text with
    | .ok (value, loose?) => .ok { expr := .literal value, span := lexeme.span, loose? }
    | .error fault =>
      .error (.refused ⟨.invalidLiteral (String.ofList lexeme.text) fault, lexeme.span⟩)

/-- An inner pair and what it is lowered to. -/
abbrev Item := Pair × Except Setback Node

/-- An operator between what its operands were lowered to. -/
def combine (source : List Char) (op : Pair) (left right : Except Setback Node) :
    Except Setback Node :=
  match operator? op.rule with
  | none => .error (.unhandled op.rule op.lexeme.span)
  | some o => do
    let l ← left
    let r ← right
    (Reading.binary source o l r).mapError .refused

/-- The climb from a left operand through the items behind it, in at most so many steps. An operator that
binds tighter than the bound is taken, with what the climb under its own power makes of its right operand;
at any other the climb stops. -/
def climb (source : List Char) :
    (steps bound : Nat) → Except Setback Node → List Item →
      Except Setback (Except Setback Node × List Item)
  | 0, _, _, _ => .error .stuck
  | _ + 1, _, left, [] => .ok (left, [])
  | steps + 1, bound, left, (op, lowered) :: items =>
    match operator? op.rule with
    | none => .error .stuck
    | some o =>
      if bound < o.power then
        match items with
        | [] => .error .stuck
        | (operand, right) :: items =>
          if (operator? operand.rule).isSome then .error .stuck
          else do
            let (right, behind) ← climb source steps o.power right items
            climb source steps bound (combine source op left right) behind
      else .ok (left, (op, lowered) :: items)

/-- The items of an expression, arranged by a climb. -/
def chain (source : List Char) : List Item → Except Setback Node
  | [] => .error .stuck
  | (operand, left) :: items =>
    if (operator? operand.rule).isSome then .error .stuck
    else do
      let (node, _) ← climb source (items.length + 1) 0 left items
      node

/-- The nodes of items, or the first setback among them. -/
def gather : List Item → Except Setback (List Node)
  | [] => .ok []
  | (_, lowered) :: items => do
    let first ← lowered
    let others ← gather items
    return first :: others

mutual

def lower (scope : Scope) (source : List Char) : Pair → Except Setback Node
  | .mk .expression _ inner => chain source (lowerAll scope source inner)
  | .mk .grouped lexeme [] => .error (.missingPair lexeme.span)
  | .mk .grouped lexeme (first :: _) => do
    return { ← lower scope source first with span := lexeme.span }
  | .mk .name lexeme _ =>
    let name := String.ofList lexeme.text
    match scope.resolve? name with
    | some member => .ok { expr := .member member, span := lexeme.span }
    | none => .error (.refused ⟨.unknownName name, lexeme.span⟩)
  | .mk .methodCall lexeme [] => .error (.missingPair lexeme.span)
  | .mk .methodCall lexeme (callee :: args) =>
    let name := String.ofList callee.lexeme.text
    match scope.method? name with
    | some (method, returns) => do
      let nodes ← gather (lowerAll scope source args)
      return { expr := .call (.method method) (nodes.map (·.expr)) returns, span := lexeme.span }
    | none => .error (.refused ⟨.unknownName name, callee.lexeme.span⟩)
  | .mk .capabilityCall lexeme [] => .error (.missingPair lexeme.span)
  | .mk .capabilityCall lexeme (callee :: args) =>
    let name := String.ofList callee.lexeme.text
    match Capability.ofName? name with
    | some c => do
      let nodes ← gather (lowerAll scope source args)
      let nodes ← (Reading.capabilityArgs source c nodes).mapError .refused
      let exprs := Reading.placed c.params (nodes.map (·.expr))
      return { expr := .call (.capability c) exprs (Reading.capabilityType c exprs), span := lexeme.span }
    | none => .error (.refused ⟨.unknownCapability name, callee.lexeme.span⟩)
  | .mk rule lexeme _ =>
    if (literalKind? rule).isSome then literal rule lexeme
    else .error (.unhandled rule lexeme.span)

def lowerAll (scope : Scope) (source : List Char) : List Pair → List Item
  | [] => []
  | pair :: pairs => (pair, lower scope source pair) :: lowerAll scope source pairs

end

/-- The pair of a whole text holds that of its expression. -/
def ofPairs (scope : Scope) (source : List Char) : List Pair → Except Setback Node
  | [] => .error (.missingPair ⟨0, byteLength source⟩)
  | main :: _ =>
    match main.inner with
    | [] => .error (.missingPair main.lexeme.span)
    | expression :: _ => lower scope source expression

/-- Reads guard text by way of its pairs. -/
def parse (scope : Scope) (limit : Nat) (source : String) : Except Setback Expr := do
  let cs := source.toList
  (Nesting.check limit cs).mapError .refused
  match Pairs.ofSource cs with
  | .error far => throw (.refused (.ofFurthest far))
  | .ok pairs => return (← ofPairs scope cs pairs).expr

end Lowering

end GuardCode
