import GuardCode.Expr.Printer
import GuardCode.Instruction

/-! What can go wrong while code is written: faults of the instruction stream, and guards that have
no code. -/
namespace GuardCode

inductive EmitError where
  | unknownLabel (label : Label)
  | labelAlreadyMarked (label : Label)
  /-- Branched to, but never marked. -/
  | unmarkedLabel (label : Label)
  | stackUnderflow (position needed depth : Nat)
  /-- Two paths reach a label with different depths. -/
  | stackMismatch (label : Label) (expected found : Nat)
  /-- A short branch was demanded where its displacement does not fit. -/
  | branchOutOfRange (position : Nat) (label : Label) (displacement : Int)
  | tooManyLocals
  deriving DecidableEq

def EmitError.message : EmitError → String
  | unknownLabel label => "label " ++ labelText label ++ " was not defined by this builder"
  | labelAlreadyMarked label => "label " ++ labelText label ++ " is marked more than once"
  | unmarkedLabel label => "label " ++ labelText label ++ " is branched to but never marked"
  | stackUnderflow position needed depth =>
    "stack underflow at instruction " ++ toString position ++ ": needs " ++ toString needed ++
      ", has " ++ toString depth
  | stackMismatch label expected found =>
    "stack depth mismatch at " ++ labelText label ++ ": expected " ++ toString expected ++
      ", found " ++ toString found
  | branchOutOfRange position label displacement =>
    "branch at instruction " ++ toString position ++ " to " ++ labelText label ++ " needs " ++
      toString displacement ++ " bytes (short form holds -128..=127)"
  | tooManyLocals => "too many local variables (limit: 65536)"

/-- Why a call has no code. -/
inductive CallFault where
  | argumentCount (expected found : Nat)
  /-- The argument at this place, counted from one, is no reference. -/
  | targetRequired (place : Nat) (found : String)
  | targetRefused (operand : String)
  | targetMissing
  deriving DecidableEq

def CallFault.message : CallFault → String
  | argumentCount expected found =>
    "expects " ++ toString expected ++ " arguments, got " ++ toString found
  | targetRequired place found =>
    "argument " ++ toString place ++ " must be a local, field, or argument reference, got `" ++
      found ++ "`"
  | targetRefused operand => "no primitive accepts `" ++ operand ++ "` as its target"
  | targetMissing => "missing target operand"

inductive CompileError where
  | unsupportedOperator (op : BinaryOp)
  | unsupportedOperation (callee : String) (fault : CallFault)
  /-- A value of this type has no instruction. -/
  | unsupportedOperand (typeName : String)
  /-- A reference that no capability took. -/
  | danglingOperand (operand : String)
  | nestingTooDeep (limit : Nat)
  | emit (error : EmitError)
  deriving DecidableEq

def CompileError.message : CompileError → String
  | unsupportedOperator op => "operator `" ++ op.symbol ++ "` is not supported in a guard"
  | unsupportedOperation callee fault => "cannot compile `" ++ callee ++ "`: " ++ fault.message
  | unsupportedOperand typeName =>
    "unsupported operand: value of type `" ++ typeName ++ "` has no instruction form"
  | danglingOperand operand => "operand `" ++ operand ++ "` was staged but never consumed"
  | nestingTooDeep limit => "guard nesting exceeds maximum depth of " ++ toString limit
  | emit error => error.message

end GuardCode
