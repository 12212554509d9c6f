import GuardCode.Assembly

/-! Directives: what a compiler tells an assembly to do, as data. A list of directives is carried out
up to the first that fails. -/
namespace GuardCode

inductive Directive where
  | emit (i : Instruction)
  /-- Create the next label. -/
  | define
  | mark (label : Label)
  | declare (type : Ty)
  /-- Give up: what is being compiled has no code. -/
  | abort (error : CompileError)
  deriving DecidableEq

namespace Directive

/-- An action on an assembly that may also fail for want of code. -/
abbrev Action := EStateM CompileError Assembly

/-- A fault of the instruction stream as a compile error. -/
def lift {α : Type} (op : Assembly.Operation α) : Action α := fun a =>
  match op a with
  | .ok result a => .ok result a
  | .error e a => .error (.emit e) a

def perform : Directive → Action Unit
  | emit i => lift (Assembly.emit i)
  | define => do let _ ← lift Assembly.define
  | mark label => lift (Assembly.mark label)
  | declare type => do let _ ← lift (Assembly.declare type)
  | abort error => throw error

/-- Carries directives out in order, up to the first that fails. -/
def performAll : List Directive → Action Unit
  | [] => pure ()
  | d :: ds => do
    perform d
    performAll ds

/-- How many labels directives create. -/
def labelCount (ds : List Directive) : Nat := ds.countP (· matches .define)

/-- Whether an emitted branch goes to a label. -/
def targets (label : Label) (ds : List Directive) : Bool :=
  ds.any fun
    | emit i => i.target? == some label
    | _ => false

end Directive

/-- Directives that are fixed once the number of the next label is known. -/
def Draft := Label → List Directive

namespace Draft

/-- Directives that create and need no label. -/
def write (ds : List Directive) : Draft := fun _ => ds

def emit (is : List Instruction) : Draft := write (is.map .emit)

def abort (error : CompileError) : Draft := write [.abort error]

/-- One draft after another; the second goes on with the labels where the first stopped. -/
def append (first second : Draft) : Draft := fun next =>
  let written := first next
  written ++ second (next + Directive.labelCount written)

instance : Append Draft := ⟨append⟩

/-- Creates a label for a draft to use. -/
def fresh (use : Label → Draft) : Draft := fun next => .define :: use next (next + 1)

end Draft

end GuardCode
