import GuardCode.CompileError
import GuardCode.ExecutionError
import GuardCode.ParseError

/-! All that can go wrong between guard text and the answer of a run. -/
namespace GuardCode

inductive Failure where
  | parse (error : ParseError)
  | compile (error : CompileError)
  | execution (error : ExecutionError)
  | unknownType (keyword : String)
  /-- The method has no argument of this number. -/
  | noSuchArgument (index count : Nat)
  | argumentCount (expected found : Nat)
  | invalidArgument (index : Nat) (text : String) (type : Ty)
  /-- The method returned without a value. -/
  | noResult
  deriving DecidableEq

def Failure.message : Failure → String
  | parse error => error.message
  | compile error => error.message
  | execution error => error.message
  | unknownType keyword => "unknown type `" ++ keyword ++ "`"
  | noSuchArgument index count =>
    "argument " ++ toString index ++ " is not declared (method takes " ++ toString count ++ ")"
  | argumentCount expected found =>
    "expected " ++ toString expected ++ " arguments, got " ++ toString found
  | invalidArgument index text type =>
    "argument " ++ toString index ++ ": cannot read `" ++ text ++ "` as `" ++ type.name ++ "`"
  | noResult => "guard returned no value"

end GuardCode
