import GuardCode.Code.Relaxation

/-! A method body under assembly. The depth of the operand stack is followed instruction by
instruction: an instruction that would pop more than there is is refused, and so is a path that
reaches a label with another depth than an earlier one. Behind an unconditional transfer the stack
counts as empty until a label that was reached with some depth is marked. -/
namespace GuardCode

/-- What is known of a label: where it was marked, and the depth of the first path to it. -/
structure LabelState where
  position? : Option Nat := none
  depth? : Option Nat := none
  deriving DecidableEq

structure Assembly where
  instructions : Array Instruction := #[]
  labels : Array LabelState := #[]
  locals : Array Ty := #[]
  /-- Depth of the stack before the next instruction. -/
  depth : Nat := 0
  maxDepth : Nat := 0
  /-- Whether control can come from the instruction before. -/
  reachable : Bool := true
  /-- Whether the method returns a value. -/
  returnsValue : Bool
  encoding : Encoding := .auto
  /-- A frozen assembly still hands out labels and locals, but records no instruction and no
  mark. -/
  frozen : Bool := false
  deriving DecidableEq

namespace Assembly

/-- An operation on an assembly. One that fails leaves the assembly as it stood at the failure. -/
abbrev Operation := EStateM EmitError Assembly

/-- Sets what is known of a label. -/
def setLabel (a : Assembly) (label : Label) (state : LabelState) : Assembly :=
  { a with labels := a.labels.setIfInBounds label state }

/-- The first path to a label sets its depth; later ones must agree. -/
def recordDepth (label : Label) : Operation Unit := fun a =>
  match a.labels[label]? with
  | none => .error (.unknownLabel label) a
  | some state =>
    match state.depth? with
    | none => .ok () (a.setLabel label { state with depth? := some a.depth })
    | some expected =>
      if expected = a.depth then .ok () a
      else .error (.stackMismatch label expected a.depth) a

/-- Takes an instruction's operands from the stack. -/
def popOperands (i : Instruction) : Operation Unit := fun a =>
  let needed := (i.stackEffect a.returnsValue).1
  if a.depth < needed then .error (.stackUnderflow a.instructions.size needed a.depth) a
  else .ok () { a with depth := a.depth - needed }

/-- Puts an instruction's results on the stack and the instruction at the end of the code. -/
def append (i : Instruction) (a : Assembly) : Assembly :=
  let depth := a.depth + (i.stackEffect a.returnsValue).2
  { a with
    instructions := a.instructions.push i
    depth := if i.endsBlock then 0 else depth
    maxDepth := max a.maxDepth depth
    reachable := !i.endsBlock }

/-- Appends one instruction. The depth in which a branch reaches its label is that without its
operands. -/
def emit (i : Instruction) : Operation Unit := fun a =>
  if a.frozen then .ok () a
  else
    match i.target? with
    | none => (do popOperands i; modify (append i)) a
    | some label =>
      if a.labels.size ≤ label then .error (.unknownLabel label) a
      else (do popOperands i; recordDepth label; modify (append i)) a

/-- Creates the next label. -/
def define : Operation Label := fun a =>
  .ok a.labels.size { a with labels := a.labels.push {} }

/-- Binds a label to the position of the next instruction. -/
def mark (label : Label) : Operation Unit := fun a =>
  if a.frozen then .ok () a
  else
    match a.labels[label]? with
    | none => .error (.unknownLabel label) a
    | some state =>
      if state.position?.isSome then .error (.labelAlreadyMarked label) a
      else if a.reachable then
        match recordDepth label a with
        | .error e a => .error e a
        | .ok _ a =>
          .ok () (a.setLabel label ⟨some a.instructions.size, some a.depth⟩)
      else
        let depth := state.depth?.getD 0
        .ok ()
          { a.setLabel label ⟨some a.instructions.size, some depth⟩ with
            depth, reachable := true }

/-- Declares a local; there is room for 65536. -/
def declare (type : Ty) : Operation Slot := fun a =>
  if 65536 ≤ a.locals.size then .error .tooManyLocals a
  else .ok ⟨a.locals.size, type⟩ { a with locals := a.locals.push type }

/-- The instruction that each label stands before; a label that was never marked stands at the
end. -/
def targets (a : Assembly) : Array Nat :=
  a.labels.map fun state => state.position?.getD a.instructions.size

/-- The first label that is branched to without being marked. -/
def unmarked? (a : Assembly) : Option Label :=
  let branched := a.instructions.toList.filterMap Instruction.target?
  (a.labels.toList.zipIdx.find? fun (state, label) =>
    state.position?.isNone && branched.contains label).map (·.2)

/-- Resolves the labels and chooses the branch forms. -/
def finish (a : Assembly) : Except EmitError Code := do
  match a.unmarked? with
  | some label => throw (.unmarkedLabel label)
  | none =>
    let instructions ← Relaxation.relax a.encoding a.targets a.instructions
    return {
      instructions
      labels := a.targets
      locals := a.locals
      maxStack := a.maxDepth
      returnsValue := a.returnsValue }

end Assembly

end GuardCode
