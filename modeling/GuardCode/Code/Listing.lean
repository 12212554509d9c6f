import GuardCode.Code.Basic
import GuardCode.Text.Numeral

/-! The listing of a method body. A label that some branch goes to has a line of its own before the
instruction it stands for. -/
namespace GuardCode.Code

/-- The labels that branches go to, in increasing order, each once. -/
def targeted (code : Code) : List Label :=
  ((code.instructions.toList.filterMap Instruction.target?).mergeSort (· ≤ ·)).eraseDups

/-- The lines of those of the labels that stand at a position. -/
def labelLines (code : Code) (labels : List Label) (position : Nat) : List String :=
  (labels.filter fun label => code.target label == position).map fun label =>
    "  " ++ labelText label ++ ":\n"

def instructionLine (offset : Nat) (i : Instruction) : String :=
  "    IL_" ++ Text.padded 16 4 offset ++ "  " ++ i.text ++ "\n"

/-- Label and instruction lines from a position on. -/
def linesFrom (code : Code) (labels : List Label) :
    List Instruction → (position offset : Nat) → List String
  | [], position, _ => code.labelLines labels position
  | i :: is, position, offset =>
    code.labelLines labels position ++
      instructionLine offset i :: linesFrom code labels is (position + 1) (offset + i.size)

def listing (code : Code) : String :=
  "Code \x7b\n" ++
    "  locals: [" ++ String.intercalate ", " (code.locals.toList.map Ty.name) ++ "]\n" ++
    "  max_stack_size: " ++ toString code.maxStack ++ "\n" ++
    "  instructions:\n" ++
    String.join (code.linesFrom code.targeted code.instructions.toList 0 0) ++ "\x7d"

end GuardCode.Code
