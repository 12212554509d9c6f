import GuardCode.Binary.Decimal
import GuardCode.Expr.Basic
import GuardCode.Grammar.Matcher
import GuardCode.Nesting
import GuardCode.Scope

/-! Reading guard text as a typed expression: names are resolved, literals without a suffix take the
type of the operand they meet, and operands that cannot meet are refused. -/
namespace GuardCode

/-- The value of a literal without a suffix, whose type is still open. -/
inductive Loose where
  | int (value : Int)
  | float (value : Double)
  deriving DecidableEq

/-- What becomes of a loose literal beside an operand of a type. -/
inductive Adoption where
  | unchanged
  | adopted (literal : Literal)
  | misfit

/-- Takes the literal if the value lies in a range. -/
def Adoption.within (least greatest value : Int) (literal : Literal) : Adoption :=
  if least ≤ value ∧ value ≤ greatest then adopted literal else misfit

def Loose.adopt : Loose → Ty → Adoption
  | .int v, .u8 => .within 0 255 v (.u8 (UInt8.ofNat v.toNat))
  | .int v, .i8 => .within (-128) 127 v (.i8 v.toInt8)
  | .int v, .i16 => .within (-32768) 32767 v (.i16 v.toInt16)
  | .int v, .u16 => .within 0 65535 v (.u16 (UInt16.ofNat v.toNat))
  | .int v, .i32 => .within (-2147483648) 2147483647 v (.i32 v.toInt32)
  | .int v, .char =>
    if 0 ≤ v ∧ v.toNat.isValidChar then .adopted (.char (Char.ofNat v.toNat)) else .misfit
  | .int v, .i64 => .adopted (.i64 v.toInt64)
  | .int v, .f32 => .adopted (.f32 (.ofInt v))
  | .int v, .f64 => .adopted (.f64 (.ofInt v))
  | .float x, .f32 => .adopted (.f32 x.convert)
  | _, _ => .unchanged

/-- An expression with its place in the source. -/
structure Node where
  expr : Expr
  span : Span
  loose? : Option Loose := none

namespace Reading

/-- A literal and, where it has no suffix, its loose value. -/
def integer (text : List Char) : Except LiteralFault (Literal × Option Loose) := do
  let suffix? := text.getLast?.filter fun c => c == 'L' || c == 's' || c == 'b'
  let digits := if suffix?.isSome then text.dropLast else text
  match Text.readInt64? digits with
  | none => throw .beyond64Bits
  | some v =>
    match suffix? with
    | some 'L' => return (.i64 v.toInt64, none)
    | some 's' =>
      if -32768 ≤ v ∧ v ≤ 32767 then return (.i16 v.toInt16, none)
      else throw (.beyondSuffix .i16)
    | some 'b' =>
      if 0 ≤ v ∧ v ≤ 255 then return (.u8 (UInt8.ofNat v.toNat), none)
      else throw (.beyondSuffix .u8)
    | _ =>
      if -2147483648 ≤ v ∧ v ≤ 2147483647 then return (.i32 v.toInt32, some (.int v))
      else return (.i64 v.toInt64, some (.int v))

def float (text : List Char) : Except LiteralFault (Literal × Option Loose) :=
  if text.getLast? = some 'f' then
    match (Binary.read? text.dropLast : Option Single) with
    | some x => .ok (.f32 x, none)
    | none => .error .malformedFloat
  else
    match (Binary.read? text : Option Double) with
    | some x => .ok (.f64 x, some (.float x))
    | none => .error .malformedFloat

/-- The text between the quotes, with its escapes read. -/
def body (text : List Char) : Except LiteralFault (List Char) :=
  match Text.unescape (text.drop 1).dropLast with
  | some cs => .ok cs
  | none => .error .badEscape

def literal : LiteralKind → List Char → Except LiteralFault (Literal × Option Loose)
  | .null, _ => .ok (.null, none)
  | .boolean, text => .ok (.bool (text == "true".toList), none)
  | .integer, text => integer text
  | .float, text => float text
  | .character, text => do
    match ← body text with
    | [c] => return (.char c, none)
    | _ => throw .notOneCharacter
  | .string, text => do
    return (.string (String.ofList (← body text)), none)

/-- Gives a loose literal the type of its partner. -/
def coerce (source : List Char) (node : Node) (type : Ty) : Except ParseError Node :=
  match node.loose? with
  | none => .ok node
  | some loose =>
    match loose.adopt type with
    | .unchanged => .ok node
    | .adopted literal => .ok { expr := .literal literal, span := node.span }
    | .misfit =>
      .error ⟨.invalidLiteral (node.span.slice source) (.doesNotFit type), node.span⟩

/-- Where exactly one of two operands is a loose literal, gives it the type of the other. -/
def unify (source : List Char) (left right : Node) : Except ParseError (Node × Node) :=
  match left.loose?, right.loose? with
  | some _, none => do return (← coerce source left right.expr.type, right)
  | none, some _ => do return (left, ← coerce source right left.expr.type)
  | _, _ => .ok (left, right)

def checkOperands (left right : Node) : Except ParseError Unit :=
  if left.expr.type.meets right.expr.type then .ok ()
  else
    .error ⟨.typeMismatch left.expr.type right.expr.type, left.span.combine right.span⟩

/-- Operands of `&&` and `||` are taken as they are; those of a shift are not checked. -/
def binary (source : List Char) (op : BinaryOp) (left right : Node) : Except ParseError Node := do
  let (left, right) ← if op.isLogical then pure (left, right) else unify source left right
  if !op.isLogical && !op.isShift then checkOperands left right
  return { expr := .binary op left.expr right.expr, span := left.span.combine right.span }

/-- A member in the place of a target is carried as a reference; anything else stays for the
compiler to refuse. -/
def asTarget : Expr → Expr
  | .member m => .carried (.member m)
  | e => e

/-- The arguments of a capability, those at target places carried. -/
def placed : List ParamKind → List Expr → List Expr
  | .target :: kinds, e :: es => asTarget e :: placed kinds es
  | .value :: kinds, e :: es => e :: placed kinds es
  | [], es => es
  | _, [] => []

def capabilityType (c : Capability) (args : List Expr) : Ty :=
  match c with
  | .load | .add | .subtract | .remainder => (args.head?.map Expr.type).getD .void
  | .store | .increment | .decrement => .void

/-- The two arguments of a binary capability meet like the operands of an operator. -/
def capabilityArgs (source : List Char) (c : Capability) :
    List Node → Except ParseError (List Node)
  | [first, second] => do
    let (a, b) ← unify source first second
    if c.isArithmetic then checkOperands a b
    return [a, b]
  | nodes => .ok nodes

mutual

def node (scope : Scope) (source : List Char) : Phrase → Except ParseError Node
  | .binary op left right => do
    let l ← node scope source left
    let r ← node scope source right
    binary source op l r
  | .group span inner => do return { ← node scope source inner with span }
  | .name lexeme =>
    let name := String.ofList lexeme.text
    match scope.resolve? name with
    | some member => .ok { expr := .member member, span := lexeme.span }
    | none => .error ⟨.unknownName name, lexeme.span⟩
  | .literal kind lexeme =>
    match literal kind lexeme.text with
    | .ok (value, loose?) => .ok { expr := .literal value, span := lexeme.span, loose? }
    | .error fault => .error ⟨.invalidLiteral (String.ofList lexeme.text) fault, lexeme.span⟩
  | .method span callee args =>
    let name := String.ofList callee.text
    match scope.method? name with
    | some (method, returns) => do
      let nodes ← nodes scope source args
      return { expr := .call (.method method) (nodes.map (·.expr)) returns, span }
    | none => .error ⟨.unknownName name, callee.span⟩
  | .capability span callee args =>
    let name := String.ofList callee.text
    match Capability.ofName? name with
    | some c => do
      let nodes ← capabilityArgs source c (← nodes scope source args)
      let exprs := placed c.params (nodes.map (·.expr))
      return { expr := .call (.capability c) exprs (capabilityType c exprs), span }
    | none => .error ⟨.unknownCapability name, callee.span⟩

def nodes (scope : Scope) (source : List Char) : List Phrase → Except ParseError (List Node)
  | [] => .ok []
  | p :: ps => do
    let first ← node scope source p
    let others ← nodes scope source ps
    return first :: others

end

end Reading

namespace Expr

/-- The nesting limit where none is given. -/
def defaultDepth : Nat := 256

/-- Reads guard text in a scope, with at most `limit` parentheses around any part. -/
def parse (scope : Scope) (limit : Nat) (source : String) : Except ParseError Expr := do
  let cs := source.toList
  Nesting.check limit cs
  match Grammar.phrase cs with
  | .error far => throw (.ofFurthest far)
  | .ok phrase => return (← Reading.node scope cs phrase).expr

end Expr

end GuardCode
