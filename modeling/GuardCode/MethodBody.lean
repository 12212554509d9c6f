import GuardCode.IfBlock
import GuardCode.Reading
import GuardCode.Signature

/-! A method body written call by call. The first failure is kept and freezes the assembly, so that
later calls write nothing and a half-written body never becomes code. -/
namespace GuardCode

/-- How a guard is compiled. -/
structure Options where
  encoding : Encoding := .auto
  /-- Greatest depth of nesting, of parentheses in the text and of the expression. -/
  maxDepth : Nat := Expr.defaultDepth
  deriving DecidableEq

structure MethodBody where
  assembly : Assembly
  signature : Signature
  /-- The names that guards in this body may use. -/
  scope : Scope
  options : Options
  failure? : Option Failure := none

namespace MethodBody

def ofSignature (signature : Signature) (options : Options) : MethodBody where
  assembly := { returnsValue := signature.returnsValue, encoding := options.encoding }
  signature
  scope := .ofArgs signature.params
  options

/-- Keeps a failure if it is the first. -/
def latch (body : MethodBody) (failure : Failure) : MethodBody :=
  match body.failure? with
  | some _ => body
  | none =>
    { body with
      failure? := some failure
      assembly := { body.assembly with frozen := true } }

/-- Carries directives out on the assembly of a body. -/
def perform (ds : List Directive) : EStateM CompileError MethodBody Unit := fun body =>
  match Directive.performAll ds body.assembly with
  | .ok _ assembly => .ok () { body with assembly }
  | .error e assembly => .error e { body with assembly }

/-- A call that carries directives out and keeps their failure. -/
def write (body : MethodBody) (ds : List Directive) : MethodBody :=
  match perform ds body with
  | .ok _ body => body
  | .error e body => body.latch (.compile e)

def emit (body : MethodBody) (is : List Instruction) : MethodBody :=
  body.write (is.map .emit)

def mark (body : MethodBody) (label : Label) : MethodBody := body.write [.mark label]

/-- Creates a label. -/
def label (body : MethodBody) : Label × MethodBody :=
  (body.assembly.labels.size, body.write [.define])

/-- Loads an argument that the signature declares. -/
def loadArg (body : MethodBody) (index : Nat) : MethodBody :=
  if index < body.signature.params.length then body.emit [.loadArg index]
  else body.latch (.noSuchArgument index body.signature.params.length)

/-- Declares a local that guards can name. Its failure goes to the caller and is not kept. -/
def declare (name : String) (type : Ty) : EStateM Failure MethodBody Slot := fun body =>
  match Assembly.declare type body.assembly with
  | .ok slot assembly =>
    .ok slot { body with assembly, scope := body.scope.addNamedLocal name slot }
  | .error e assembly => .error (.compile (.emit e)) { body with assembly }

/-- Lets guards name a field. -/
def addField (body : MethodBody) (field : Field) : MethodBody :=
  { body with scope := body.scope.addField field }

/-- Lets guards call a host method. -/
def addMethod (body : MethodBody) (method : Method) (returns : Ty) : MethodBody :=
  { body with scope := body.scope.addMethod method returns }

/-- Writes an if/else block. What the bodies say besides comes back where they are reached. -/
def ifElse {α β : Type} (body : MethodBody) (guard : Expr) (onTrue : MethodBody → MethodBody × α)
    (onFalse : MethodBody → MethodBody × β) : MethodBody × Option α × Option β :=
  let block := IfBlock.ofGuard body.options.maxDepth guard body.assembly.labels.size
    body.assembly.locals.size
  let asBlockBody {γ : Type} (write : MethodBody → MethodBody × γ) :
      IfBlock.Body MethodBody γ := fun body =>
    let (body, said) := write body
    (.ok () body, said)
  let (result, saidTrue, saidFalse) :=
    block.run perform (asBlockBody onTrue) (asBlockBody onFalse) body
  match result with
  | .ok _ body => (body, saidTrue, saidFalse)
  | .error e body => (body.latch (.compile e), saidTrue, saidFalse)

/-- Reads guard text in the scope of the body and writes an if/else block on it. -/
def ifGuard {α β : Type} (body : MethodBody) (source : String)
    (onTrue : MethodBody → MethodBody × α) (onFalse : MethodBody → MethodBody × β) :
    MethodBody × Option α × Option β :=
  match Expr.parse body.scope body.options.maxDepth source with
  | .ok guard => body.ifElse guard onTrue onFalse
  | .error e => (body.latch (.parse e), none, none)

/-- The finished code, or the first failure. -/
def finish (body : MethodBody) : Except Failure Code :=
  match body.failure? with
  | some failure => .error failure
  | none => body.assembly.finish.mapError fun e => .compile (.emit e)

end MethodBody

end GuardCode
