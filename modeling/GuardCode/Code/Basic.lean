import GuardCode.Instruction

/-! A finished method body and the byte offsets of its instructions. -/
namespace GuardCode

structure Code where
  instructions : Array Instruction
  /-- The instruction that each label stands before. -/
  labels : Array Nat
  locals : Array Ty
  maxStack : Nat
  returnsValue : Bool
  deriving DecidableEq

/-- The offset of each instruction, and at the end the size of them all. -/
def byteOffsets (instructions : Array Instruction) : Array Nat :=
  (instructions.foldl (fun (offsets, offset) i => (offsets.push offset, offset + i.size))
    ((#[] : Array Nat), 0)) |> fun (offsets, total) => offsets.push total

namespace Code

/-- Encoded size of the body in bytes. -/
def size (code : Code) : Nat := code.instructions.foldl (fun total i => total + i.size) 0

/-- The instruction that a label stands before. In finished code every label of a branch has an entry
in `labels`. Code can be put together by hand, too, and a label without an entry is then an index out of
range, at which the program panics; here it stands at the end. -/
def target (code : Code) (label : Label) : Nat :=
  code.labels.getD label code.instructions.size

end Code

end GuardCode
