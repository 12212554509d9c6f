import GuardCode.Machine.Basic

/-! Builds of the machine. Code declares how many values its run has on the stack at most. A debug build
asserts at every push that there is room for the value and panics where there is none; a release build
leaves the assertion out. What an earlier run has left on the stack takes up room like any other value. -/
namespace GuardCode

inductive Build where
  | release
  | debug
  deriving DecidableEq

/-- Whether the assertion failed when an instruction pushed that has led to this machine. What it pushed
last is on top now, so the value found no room if there are more values than the code declares. -/
def Build.panics {σ : Type} (build : Build) (code : Code) (i : Instruction) (m : Machine σ) : Bool :=
  match build with
  | .release => false
  | .debug => 0 < (i.stackEffect code.returnsValue).2 && code.maxStack < m.stack.length

namespace Machine

variable {σ : Type}

/-- What a run comes to in a build. -/
inductive Completion (σ : Type) where
  | stopped (last : Ending × Machine σ)
  | panicked

/-- Goes on from a position as `resume` does, up to the first push without room. -/
def resumeIn (build : Build) (s : Setting σ) :
    (fuel steps position : Nat) → Machine σ → Option (Completion σ)
  | 0, _, _, _ => none
  | fuel + 1, steps, position, m =>
    match s.code.instructions[position]? with
    | none => some (.stopped (.error .fellOffEnd, m))
    | some i =>
      match limitReached? s steps with
      | some e => some (.stopped (.error e, m))
      | none =>
        match step s position i m with
        | .stop ending m => some (.stopped (ending, m))
        | .goto next m =>
          if build.panics s.code i m then some .panicked
          else resumeIn build s fuel (steps + 1) next m

/-- Runs the method from its first instruction in a build. -/
def runIn (build : Build) (s : Setting σ) (fuel : Nat) (m : Machine σ) : Option (Completion σ) :=
  resumeIn build s fuel 0 0 m

end Machine

end GuardCode
