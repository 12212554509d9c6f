import GuardCode.CommandLine

/-! The program. A run that is not over in time is tried again with twice the fuel. -/
namespace GuardCode

/-- The outcome of a command line, whatever fuel it takes. -/
partial def complete (words : List String) (fuel : Nat) : IO CommandLine.Outcome :=
  match CommandLine.outcome words fuel with
  | some outcome => return outcome
  | none => complete words (2 * fuel)

end GuardCode

def main (words : List String) : IO UInt32 := do
  let outcome ← GuardCode.complete words 4096
  IO.print outcome.output
  IO.eprint outcome.errors
  return UInt32.ofNat outcome.status
