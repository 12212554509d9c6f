/-! Static types and the things that a guard can name: host methods, slots and fields. Every integral
type narrower than 64 bits, `bool` and `char` among them, lives in an int32 slot of the stack. -/
namespace GuardCode

/-- A host method, found by its number when it is called. -/
structure Method where
  id : Nat
  name : String
  arity : Nat
  returnsValue : Bool
  deriving DecidableEq

inductive Ty where
  | void
  | bool
  | u8
  | i8
  | i16
  | u16
  | i32
  | char
  | i64
  | f32
  | f64
  | string
  | object
  /-- A class of host objects, with the method that decides `==` on them if there is one. -/
  | named (name : String) (equality? : Option Method)
  deriving DecidableEq

namespace Ty

def isReference : Ty → Bool
  | string | object | named _ _ => true
  | _ => false

def isFloat : Ty → Bool
  | f32 | f64 => true
  | _ => false

/-- Types whose values live in an int32 slot. -/
def isInt32 : Ty → Bool
  | bool | u8 | i8 | i16 | u16 | i32 | char => true
  | _ => false

def equality? : Ty → Option Method
  | named _ method? => method?
  | _ => none

/-- Two operands can meet in one instruction when their types are equal, share the int32 slot, or
are both references. -/
def meets (left right : Ty) : Bool :=
  left == right || (left.isInt32 && right.isInt32) || (left.isReference && right.isReference)

def name : Ty → String
  | void => "void"
  | bool => "bool"
  | u8 => "u8"
  | i8 => "i8"
  | i16 => "i16"
  | u16 => "u16"
  | i32 => "i32"
  | char => "char"
  | i64 => "i64"
  | f32 => "f32"
  | f64 => "f64"
  | string => "string"
  | object => "object"
  | named name _ => name

/-- The type that a keyword of a parameter list stands for. -/
def ofKeyword? : String → Option Ty
  | "void" => some void
  | "bool" => some bool
  | "u8" | "byte" => some u8
  | "i8" | "sbyte" => some i8
  | "i16" | "short" => some i16
  | "u16" | "ushort" => some u16
  | "i32" | "int" => some i32
  | "char" => some char
  | "i64" | "long" => some i64
  | "f32" | "float" => some f32
  | "f64" | "double" => some f64
  | "string" => some string
  | "object" => some object
  | _ => none

end Ty

/-- A numbered argument or local. -/
structure Slot where
  index : Nat
  type : Ty
  deriving DecidableEq

/-- A field of the object that owns the method. -/
structure Field where
  index : Nat
  name : String
  type : Ty
  deriving DecidableEq

/-- Where a value that has a name is kept. -/
inductive Member where
  | arg (slot : Slot)
  | loc (slot : Slot)
  | field (field : Field)
  deriving DecidableEq

namespace Member

def type : Member → Ty
  | arg slot => slot.type
  | loc slot => slot.type
  | field f => f.type

/-- Arguments and locals are written by number, fields by name. -/
def text : Member → String
  | arg slot => "arg" ++ toString slot.index
  | loc slot => "loc" ++ toString slot.index
  | field f => f.name

end Member

end GuardCode
