import GuardCode.Code.Basic
import GuardCode.CompileError

/-! The choice of branch forms. A short branch holds a displacement of one signed byte, counted from
the end of the branch. Making a branch long only moves its target further away from others, so the
branches that do not fit are made long, pass after pass, until all fit. -/
namespace GuardCode

/-- How branches are encoded when the code is finished. -/
inductive Encoding where
  /-- Short where the displacement fits, long elsewhere. -/
  | auto
  /-- Short everywhere; a displacement that does not fit is an error. -/
  | short
  /-- Long everywhere. -/
  | long
  deriving DecidableEq

namespace Relaxation

def lengthen : Instruction → Instruction
  | .branch op label _ => .branch op label .long
  | i => i

/-- The displacement of a short branch at a position, with its label, if it does not fit. -/
def overflow? (offsets targets : Array Nat) (position : Nat) : Instruction → Option (Label × Int)
  | .branch op label .short =>
    let next := offsets.getD position 0 + (Instruction.branch op label .short).size
    let displacement : Int := offsets.getD (targets.getD label 0) 0 - next
    if -128 ≤ displacement ∧ displacement ≤ 127 then none else some (label, displacement)
  | _ => none

/-- Makes every short branch long that does not fit in the layout as it stands. -/
def pass (targets : Array Nat) (instructions : Array Instruction) : Array Instruction :=
  let offsets := byteOffsets instructions
  instructions.mapIdx fun position i =>
    if (overflow? offsets targets position i).isSome then lengthen i else i

/-- Repeats passes until one changes nothing; each earlier one makes a branch long, so there are no
more of them than instructions. -/
def settle (targets : Array Nat) : Nat → Array Instruction → Array Instruction
  | 0, instructions => instructions
  | passes + 1, instructions =>
    let next := pass targets instructions
    if next = instructions then instructions else settle targets passes next

/-- The first branch that does not fit in the layout as it stands. -/
def firstOverflow? (targets : Array Nat) (instructions : Array Instruction) : Option EmitError :=
  let offsets := byteOffsets instructions
  instructions.toList.zipIdx.findSome? fun (i, position) =>
    (overflow? offsets targets position i).map fun (label, displacement) =>
      .branchOutOfRange position label displacement

/-- The instructions with their final branch forms. -/
def relax (encoding : Encoding) (targets : Array Nat) (instructions : Array Instruction) :
    Except EmitError (Array Instruction) :=
  match encoding with
  | .long => .ok (instructions.map lengthen)
  | .auto => .ok (settle targets instructions.size instructions)
  | .short =>
    match firstOverflow? targets instructions with
    | some error => .error error
    | none => .ok instructions

end Relaxation

end GuardCode
