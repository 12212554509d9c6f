import GuardCode.Binary.Arithmetic
import GuardCode.Binary.Decimal
import GuardCode.Binary.Shortest
import GuardCode.Text.Blank
import GuardCode.Text.Quoted
import GuardCode.Types

/-! Values of the stack machine. -/
namespace GuardCode

inductive Value where
  | null
  | int32 (value : Int32)
  | int64 (value : Int64)
  | float32 (value : Single)
  | float64 (value : Double)
  | string (value : String)
  /-- A host object, known by its number. -/
  | object (id : UInt32)
  deriving DecidableEq

namespace Value

def ofBool (b : Bool) : Value := int32 (if b then 1 else 0)

/-- The value that a local or field of a type starts with. -/
def zero : Ty → Value
  | .i64 => int64 0
  | .f32 => float32 (.zero false)
  | .f64 => float64 (.zero false)
  | .string | .object | .named _ _ => null
  | _ => int32 0

/-- Numbers other than zero and references other than null are truthy. -/
def isTruthy : Value → Bool
  | null => false
  | int32 v => v ≠ 0
  | int64 v => v ≠ 0
  | float32 v => !v.isZero
  | float64 v => !v.isZero
  | string _ => true
  | object _ => true

def isReference : Value → Bool
  | null | string _ | object _ => true
  | _ => false

/-- The name of the kind of stack slot that a value takes. -/
def kind : Value → String
  | null => "null"
  | int32 _ => "int32"
  | int64 _ => "int64"
  | float32 _ => "float32"
  | float64 _ => "float64"
  | string _ => "string"
  | object _ => "object"

def text : Value → String
  | null => "null"
  | int32 v => toString v.toInt
  | int64 v => toString v.toInt ++ "L"
  | float32 v => v.text ++ "f"
  | float64 v => v.text
  | string v => Text.quoted v
  | object id => "<object #" ++ toString id.toNat ++ ">"

/-- An integer of a range, as it is held in an int32 slot. -/
def readInt32? (least greatest : Int) (cs : List Char) : Option Value :=
  (Text.readInt? least greatest cs).map fun v => int32 v.toInt32

/-- Reads text as a value of a type. Blanks around it do not count. -/
def read? (type : Ty) (s : String) : Option Value :=
  let cs := Text.trim s.toList
  let word := String.ofList cs
  match type with
  | .void => none
  | .bool =>
    if word = "true" then some (ofBool true)
    else if word = "false" then some (ofBool false)
    else none
  | .u8 => readInt32? 0 255 cs
  | .i8 => readInt32? (-128) 127 cs
  | .i16 => readInt32? (-32768) 32767 cs
  | .u16 => readInt32? 0 65535 cs
  | .i32 => readInt32? (-2147483648) 2147483647 cs
  | .char =>
    match cs with
    | [c] => some (int32 (Int32.ofNat c.toNat))
    | _ => none
  | .i64 => (Text.readInt64? cs).map fun v => int64 v.toInt64
  | .f32 => (Binary.read? cs).map float32
  | .f64 => (Binary.read? cs).map float64
  | .string => some (if word = "null" then null else string word)
  | .object | .named _ _ =>
    if word = "null" then some null
    else (Text.readInt? 0 4294967295 cs).map fun v => object (UInt32.ofNat v.toNat)

end Value

end GuardCode
