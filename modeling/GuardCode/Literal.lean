import GuardCode.Binary.Shortest
import GuardCode.Text.Quoted
import GuardCode.Types

/-! Literal values and their text. -/
namespace GuardCode

inductive Literal where
  | null
  | bool (value : Bool)
  | u8 (value : UInt8)
  | i8 (value : Int8)
  | i16 (value : Int16)
  | u16 (value : UInt16)
  | i32 (value : Int32)
  | char (value : Char)
  | i64 (value : Int64)
  | f32 (value : Single)
  | f64 (value : Double)
  | string (value : String)
  deriving DecidableEq

namespace Literal

def type : Literal → Ty
  | null => .object
  | bool _ => .bool
  | u8 _ => .u8
  | i8 _ => .i8
  | i16 _ => .i16
  | u16 _ => .u16
  | i32 _ => .i32
  | char _ => .char
  | i64 _ => .i64
  | f32 _ => .f32
  | f64 _ => .f64
  | string _ => .string

/-- A suffix gives the type where the grammar has one; `i8`, `u16` and `i32` have none. -/
def text : Literal → String
  | null => "null"
  | bool value => if value then "true" else "false"
  | u8 value => toString value.toNat ++ "b"
  | i8 value => toString value.toInt
  | i16 value => toString value.toInt ++ "s"
  | u16 value => toString value.toNat
  | i32 value => toString value.toInt
  | char value => Text.quotedChar value
  | i64 value => toString value.toInt ++ "L"
  | f32 value => value.text ++ "f"
  | f64 value => value.text
  | string value => Text.quoted value

end Literal

end GuardCode
