import GuardCode.Failure
import GuardCode.Text.Blank

/-! Parameter and result types of a method. -/
namespace GuardCode

structure Signature where
  params : List Ty
  returns : Ty
  deriving DecidableEq

namespace Signature

/-- A predicate over parameters of the given types. -/
def predicate (params : List Ty) : Signature := ⟨params, .bool⟩

def returnsValue (signature : Signature) : Bool := signature.returns ≠ .void

/-- Reads a comma-separated list of type keywords. -/
def readParams (text : String) : Except Failure (List Ty) :=
  (Text.entries text).mapM fun keyword =>
    match Ty.ofKeyword? keyword with
    | some type => .ok type
    | none => .error (.unknownType keyword)

end Signature

end GuardCode
