import GuardCode.Machine.Build
import GuardCode.Proofs.Machine.Likeness

/-! The calls of the host that a run makes. -/
namespace GuardCode.Machine

variable {σ : Type}

/-- The call of the host that an instruction makes, with its arguments. One without a method or
without enough operands makes none. -/
def called (s : Setting σ) (i : Instruction) (m : Machine σ) : List (Method × List Value) :=
  match i with
  | .call method =>
    if (s.host.find? method.id).isSome ∧ method.arity ≤ m.stack.length then
      [(method, (m.stack.take method.arity).reverse)]
    else []
  | _ => []

/-- The calls of the host that a run makes, in order. -/
def calls (s : Setting σ) :
    (fuel steps position : Nat) → Machine σ → List (Method × List Value)
  | 0, _, _, _ => []
  | fuel + 1, steps, position, m =>
    match s.code.instructions[position]? with
    | none => []
    | some i =>
      match limitReached? s steps with
      | some _ => []
      | none =>
        match step s position i m with
        | .stop _ _ => called s i m
        | .goto next m' => called s i m ++ calls s fuel (steps + 1) next m'

/-- The calls that a run of a build makes. A method has been called by the time its result is pushed. -/
def callsIn (build : Build) (s : Setting σ) :
    (fuel steps position : Nat) → Machine σ → List (Method × List Value)
  | 0, _, _, _ => []
  | fuel + 1, steps, position, m =>
    match s.code.instructions[position]? with
    | none => []
    | some i =>
      match limitReached? s steps with
      | some _ => []
      | none =>
        match step s position i m with
        | .stop _ _ => called s i m
        | .goto next m' =>
          if build.panics s.code i m' then called s i m
          else called s i m ++ callsIn build s fuel (steps + 1) next m'

variable {s : Setting σ} {position : Nat} {m m' : Machine σ}

end GuardCode.Machine
