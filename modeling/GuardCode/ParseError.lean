import GuardCode.Grammar.Phrase
import GuardCode.Grammar.Rule
import GuardCode.Types

/-! Why guard text is refused, and where. -/
namespace GuardCode

/-- What is wrong with a literal. -/
inductive LiteralFault where
  | doesNotFit (type : Ty)
  | beyond64Bits
  | beyondSuffix (type : Ty)
  | malformedFloat
  | badEscape
  | notOneCharacter
  deriving DecidableEq

def LiteralFault.message : LiteralFault → String
  | doesNotFit type => "does not fit in `" ++ type.name ++ "`"
  | beyond64Bits => "out of range for a 64-bit integer"
  | beyondSuffix type => "out of range for `" ++ type.name ++ "`"
  | malformedFloat => "malformed float"
  | badEscape => "bad escape"
  | notOneCharacter => "expected exactly one character"

inductive ParseFault where
  /-- The text does not match the grammar; these rules could have gone on. -/
  | unexpected (expected : List Rule)
  | unknownName (name : String)
  | unknownCapability (name : String)
  | invalidLiteral (text : String) (fault : LiteralFault)
  | tooDeep (limit : Nat)
  | typeMismatch (left right : Ty)
  deriving DecidableEq

namespace ParseFault

def message : ParseFault → String
  | unexpected expected => "expected " ++ Rule.listed (Rule.expectations expected)
  | unknownName name => "unknown name `" ++ name ++ "`"
  | unknownCapability name => "unknown capability `@" ++ name ++ "`"
  | invalidLiteral text fault => "invalid literal `" ++ text ++ "`: " ++ fault.message
  | tooDeep limit => "nesting depth exceeds maximum of " ++ toString limit ++ " levels"
  | typeMismatch left right =>
    "mismatched operand types `" ++ left.name ++ "` and `" ++ right.name ++ "`"

/-- The short code of each kind of fault. -/
def code : ParseFault → String
  | unexpected _ => "P001"
  | unknownName _ => "P002"
  | unknownCapability _ => "P003"
  | invalidLiteral _ _ => "P004"
  | tooDeep _ => "P005"
  | typeMismatch _ _ => "P006"

end ParseFault

structure ParseError where
  fault : ParseFault
  span : Span
  deriving DecidableEq

def ParseError.message (e : ParseError) : String := e.fault.message

/-- The error for a text that no rule matched any further. -/
def ParseError.ofFurthest (far : Furthest) : ParseError :=
  ⟨.unexpected far.rules, ⟨far.position, far.position⟩⟩

end GuardCode
