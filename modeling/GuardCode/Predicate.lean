import GuardCode.Machine.Basic
import GuardCode.MethodBody

/-! Guards as predicates: `if (guard) return 1; else return 0;` over arguments of fixed types. -/
namespace GuardCode

/-- The names that a guard may use besides its arguments. -/
structure Surroundings where
  fields : List Field := []
  methods : List (Method × Ty) := []

structure Predicate where
  code : Code
  signature : Signature
  fields : List Field
  maxSteps? : Option Nat := none

namespace Predicate

/-- The body `return value`. -/
def answer (value : Int32) (body : MethodBody) : MethodBody × Unit :=
  (body.emit [.pushInt value] |>.emit [.ret], ())

/-- The body that answers with the outcome of a guard. -/
def body (source : String) (params : List Ty) (around : Surroundings) (options : Options) :
    MethodBody :=
  let start := MethodBody.ofSignature (.predicate params) options
  let start := around.fields.foldl MethodBody.addField start
  let start := around.methods.foldl (fun b (method, returns) => b.addMethod method returns) start
  (start.ifGuard source (answer 1) (answer 0)).1

def compile (source : String) (params : List Ty) (around : Surroundings) (options : Options) :
    Except Failure Predicate := do
  let code ← (body source params around options).finish
  return { code, signature := .predicate params, fields := around.fields }

variable {σ : Type}

/-- A verdict with the fields and the world that the run leaves. -/
structure Result (σ : Type) where
  verdict : Except Failure Bool
  fields : Array Value
  world : σ

/-- The truth of what a run returned. -/
def verdict : Ending → Except Failure Bool
  | .ok (some v) => .ok v.isTruthy
  | .ok none => .error .noResult
  | .error e => .error (.execution e)

/-- Evaluates a predicate on the caller's fields; nothing if the fuel runs out first. -/
def runWith (p : Predicate) (host : Host σ) (fuel : Nat) (args fields : Array Value) (world : σ) :
    Option (Result σ) :=
  if args.size ≠ p.signature.params.length then
    some ⟨.error (.argumentCount p.signature.params.length args.size), fields, world⟩
  else
    let setting : Setting σ := { code := p.code, host, args, maxSteps? := p.maxSteps? }
    ((Machine.start p.code fields world).run setting fuel).map fun (ending, m) =>
      ⟨verdict ending, m.fields, m.world⟩

/-- The zero values of the declared fields, in the order of declaration. -/
def zeroFields (p : Predicate) : Array Value :=
  (p.fields.map fun field => Value.zero field.type).toArray

/-- Evaluates a predicate with every field at its zero value. -/
def run (p : Predicate) (host : Host σ) (fuel : Nat) (args : Array Value) (world : σ) :
    Option (Result σ) :=
  p.runWith host fuel args p.zeroFields world

/-- Reads one value for each parameter. -/
def readArgs (p : Predicate) (texts : List String) : Except Failure (Array Value) :=
  if texts.length ≠ p.signature.params.length then
    .error (.argumentCount p.signature.params.length texts.length)
  else do
    let values ← (texts.zip p.signature.params).zipIdx.mapM fun ((text, type), index) =>
      match Value.read? type text with
      | some v => Except.ok v
      | none => .error (.invalidArgument index text type)
    return values.toArray

end Predicate

end GuardCode
