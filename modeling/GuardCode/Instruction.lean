import GuardCode.Binary.Shortest
import GuardCode.Literal
import GuardCode.Text.Quoted
import GuardCode.Types

/-! The instructions of the stack machine: their encoded sizes, their effect on the depth of the
stack, their text, and the short sequences that stand for one primitive. -/
namespace GuardCode

/-- A jump target by number. The numbers are counted up without a bound. -/
abbrev Label := Nat

def labelText (label : Label) : String := "L" ++ toString label

/-- The condition of a branch. The unordered forms compare integers unsigned and hold where floats
are not ordered. -/
inductive BranchOp where
  | always | ifTrue | ifFalse
  | eq | neUn | gt | gtUn | ge | geUn | lt | ltUn | le | leUn
  deriving DecidableEq

namespace BranchOp

def all : List BranchOp :=
  [always, ifTrue, ifFalse, eq, neUn, gt, gtUn, ge, geUn, lt, ltUn, le, leUn]

/-- Values taken from the stack. -/
def pops : BranchOp → Nat
  | always => 0
  | ifTrue | ifFalse => 1
  | _ => 2

def isUnconditional : BranchOp → Bool
  | always => true
  | _ => false

def mnemonic : BranchOp → String
  | always => "br"
  | ifTrue => "brtrue"
  | ifFalse => "brfalse"
  | eq => "beq"
  | neUn => "bne.un"
  | gt => "bgt"
  | gtUn => "bgt.un"
  | ge => "bge"
  | geUn => "bge.un"
  | lt => "blt"
  | ltUn => "blt.un"
  | le => "ble"
  | leUn => "ble.un"

end BranchOp

/-- How a branch is encoded: with a displacement of one byte or of four. -/
inductive BranchForm where
  | short
  | long
  deriving DecidableEq

inductive Instruction where
  | nop
  | loadNull
  | loadMinusOne
  /-- A small constant that is part of the opcode. -/
  | loadSmall (value : UInt8)
  | loadInt (value : Int32)
  | loadLong (value : Int64)
  | loadSingle (value : Single)
  | loadDouble (value : Double)
  | loadString (value : String)
  | dup
  | pop
  | loadArg (index : Nat)
  | loadLocal (index : Nat)
  | storeLocal (index : Nat)
  | loadField (field : Field)
  | storeField (field : Field)
  | add
  | sub
  | rem
  /-- Sign-extends the low sixteen bits. -/
  | signed16
  /-- Zero-extends the low sixteen bits. -/
  | unsigned16
  | compareEqual
  | compareGreater
  | compareGreaterUn
  | compareLess
  | compareLessUn
  | branch (op : BranchOp) (label : Label) (form : BranchForm)
  | call (method : Method)
  | ret
  deriving DecidableEq

namespace Instruction

/-- A branch as it is first written; the long form is chosen later where it is needed. -/
def jump (op : BranchOp) (label : Label) : Instruction := branch op label .short

def slotSize (index : Nat) : Nat :=
  if index ≤ 3 then 1 else if index ≤ 255 then 2 else 4

/-- Encoded size in bytes. -/
def size : Instruction → Nat
  | nop | loadNull | loadMinusOne | loadSmall _ | dup | pop | add | sub | rem | signed16
  | unsigned16 | ret => 1
  | loadInt _ | loadSingle _ | loadString _ => 5
  | loadLong _ | loadDouble _ => 9
  | loadArg index | loadLocal index | storeLocal index => slotSize index
  | loadField _ | storeField _ | call _ => 5
  | compareEqual | compareGreater | compareGreaterUn | compareLess | compareLessUn => 2
  | branch _ _ .short => 2
  | branch _ _ .long => 5

/-- Values popped and pushed, in a method that returns a value or does not. -/
def stackEffect (returnsValue : Bool) : Instruction → Nat × Nat
  | nop => (0, 0)
  | loadNull | loadMinusOne | loadSmall _ | loadInt _ | loadLong _ | loadSingle _ | loadDouble _
  | loadString _ | loadArg _ | loadLocal _ | loadField _ => (0, 1)
  | dup => (1, 2)
  | pop | storeLocal _ | storeField _ => (1, 0)
  | add | sub | rem => (2, 1)
  | signed16 | unsigned16 => (1, 1)
  | compareEqual | compareGreater | compareGreaterUn | compareLess | compareLessUn => (2, 1)
  | branch op _ _ => (op.pops, 0)
  | call method => (method.arity, if method.returnsValue then 1 else 0)
  | ret => (if returnsValue then 1 else 0, 0)

/-- Whether control never goes on to the next instruction. -/
def endsBlock : Instruction → Bool
  | ret => true
  | branch op _ _ => op.isUnconditional
  | _ => false

def target? : Instruction → Option Label
  | branch _ label _ => some label
  | _ => none

def slotText (mnemonic : String) (index : Nat) : String :=
  if index ≤ 3 then mnemonic ++ "." ++ toString index
  else if index ≤ 255 then mnemonic ++ ".s " ++ toString index
  else mnemonic ++ " " ++ toString index

def text : Instruction → String
  | nop => "nop"
  | loadNull => "ldnull"
  | loadMinusOne => "ldc.i4.m1"
  | loadSmall value => "ldc.i4." ++ toString value.toNat
  | loadInt value => "ldc.i4 " ++ toString value.toInt
  | loadLong value => "ldc.i8 " ++ toString value.toInt
  | loadSingle value => "ldc.r4 " ++ value.text
  | loadDouble value => "ldc.r8 " ++ value.text
  | loadString value => "ldstr " ++ Text.quoted value
  | dup => "dup"
  | pop => "pop"
  | loadArg index => slotText "ldarg" index
  | loadLocal index => slotText "ldloc" index
  | storeLocal index => slotText "stloc" index
  | loadField field => "ldsfld " ++ field.name
  | storeField field => "stsfld " ++ field.name
  | add => "add"
  | sub => "sub"
  | rem => "rem"
  | signed16 => "conv.i2"
  | unsigned16 => "conv.u2"
  | compareEqual => "ceq"
  | compareGreater => "cgt"
  | compareGreaterUn => "cgt.un"
  | compareLess => "clt"
  | compareLessUn => "clt.un"
  | branch op label .short => op.mnemonic ++ ".s " ++ labelText label
  | branch op label .long => op.mnemonic ++ " " ++ labelText label
  | call method => "call " ++ method.name
  | ret => "ret"

/-! Primitives. -/

/-- Pushes an integer in the most compact way. -/
def pushInt (value : Int32) : Instruction :=
  if value = -1 then loadMinusOne
  else if 0 ≤ value ∧ value ≤ 8 then loadSmall (UInt8.ofNat value.toNatClampNeg)
  else loadInt value

def pushBool (value : Bool) : Instruction := pushInt (if value then 1 else 0)

/-- Brings the low sixteen bits of an int32 back into range. -/
def widen16 (signed : Bool) : Instruction := if signed then signed16 else unsigned16

def greater (unordered : Bool) : Instruction :=
  if unordered then compareGreaterUn else compareGreater

def less (unordered : Bool) : Instruction := if unordered then compareLessUn else compareLess

def load : Member → Instruction
  | .arg slot => loadArg slot.index
  | .loc slot => loadLocal slot.index
  | .field f => loadField f

def pushLiteral : Literal → List Instruction
  | .null => [loadNull]
  | .bool value => [pushBool value]
  | .u8 value => [pushInt (Int32.ofNat value.toNat)]
  | .i8 value => [pushInt value.toInt32]
  | .i16 value => [pushInt value.toInt32, widen16 true]
  | .u16 value => [pushInt (Int32.ofNat value.toNat), widen16 false]
  | .i32 value => [pushInt value]
  | .char value => [pushInt (Int32.ofNat value.toNat)]
  | .i64 value => [loadLong value]
  | .f32 value => [loadSingle value]
  | .f64 value => [loadDouble value]
  | .string value => [loadString value]

/-- One, of the kind that a local of the type holds. -/
def pushOne : Ty → Instruction
  | .i64 => loadLong 1
  | .f32 => loadSingle (.ofInt 1)
  | .f64 => loadDouble (.ofInt 1)
  | _ => pushInt 1

/-- Brings a stepped local of sixteen bits back into its range. -/
def renormalize : Ty → List Instruction
  | .i16 => [widen16 true]
  | .u16 | .char => [widen16 false]
  | _ => []

/-- Replaces a local by its sum or difference with one. -/
def step (op : Instruction) (slot : Slot) : List Instruction :=
  [loadLocal slot.index, pushOne slot.type, op] ++ renormalize slot.type ++
    [storeLocal slot.index]

def increment (slot : Slot) : List Instruction := step add slot
def decrement (slot : Slot) : List Instruction := step sub slot

end Instruction

end GuardCode
