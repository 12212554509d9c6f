import GuardCode.Instruction

/-! Why a run of the stack machine stops without returning. -/
namespace GuardCode

inductive ExecutionError where
  /-- An instruction met operands of these kinds. -/
  | typeMismatch (instruction : Instruction) (found : List String)
  | divideByZero
  | overflow
  | missingHostMethod (name : String)
  /-- A host method returned a value where none was declared, or none where one was. -/
  | badHostReturn (name : String)
  | argumentOutOfRange (index count : Nat)
  | localOutOfRange (index count : Nat)
  | fieldOutOfRange (index count : Nat)
  | stackUnderflow (position : Nat)
  /-- Control ran past the last instruction. -/
  | fellOffEnd
  | stepLimitExceeded (limit : Nat)
  deriving DecidableEq

def ExecutionError.message : ExecutionError → String
  | typeMismatch instruction found =>
    "type mismatch in `" ++ instruction.text ++ "`: " ++ String.intercalate ", " found
  | divideByZero => "division by zero"
  | overflow => "arithmetic overflow"
  | missingHostMethod name => "no host implementation registered for method `" ++ name ++ "`"
  | badHostReturn name => "host method `" ++ name ++ "` returned an unexpected result"
  | argumentOutOfRange index count =>
    "argument " ++ toString index ++ " out of range (method has " ++ toString count ++ ")"
  | localOutOfRange index count =>
    "local " ++ toString index ++ " out of range (method declares " ++ toString count ++ ")"
  | fieldOutOfRange index count =>
    "field " ++ toString index ++ " out of range (object has " ++ toString count ++ ")"
  | stackUnderflow position => "stack underflow at instruction " ++ toString position
  | fellOffEnd => "execution fell off the end of the method"
  | stepLimitExceeded limit => "execution exceeded " ++ toString limit ++ " steps"

end GuardCode
