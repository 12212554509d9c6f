import GuardCode.Proofs.Layout
import GuardCode.Proofs.Machine.Builds

/-! A machine can be used again. A run clears neither the stack nor the locals, so what an earlier run
left there, be it one that failed half-way, is still there when the next begins. Code that loads a
local only where it has stored into it before does not depend on the locals that it finds, and balanced
code does not depend on the values below its own part of the stack. Compiled guards are such code. What
is left on the stack only takes up room, and in a debug build a push may then find none. -/
namespace GuardCode

/-! ## Definite assignment -/

namespace Machine.AgreeBelow

variable {σ : Type} {count count' : Nat} {m m' : Machine σ}

theorem mono (h : m.AgreeBelow count m') (hle : count' ≤ count) : m.AgreeBelow count' m' :=
  ⟨h.stack, h.fields, h.world, h.size, fun index hindex => h.locals index (by omega)⟩

end Machine.AgreeBelow

namespace Machine

variable {σ : Type} {s : Setting σ} {count position : Nat} {m m' : Machine σ}

variable {known : Nat → Nat}

variable {depths : List Nat}

/-- A machine that was made for some code and has gone through any number of runs of it, each on
fields and in a world of its own, in a build of either kind, and each to whatever end but a panic. -/
inductive Used (code : Code) : Machine σ → Prop where
  | start (fields : Array Value) (world : σ) : Used code (.start code fields world)
  | again {m m' : Machine σ} {build : Build} {s : Setting σ} {fields : Array Value} {world : σ}
      {fuel : Nat} {ending : Ending} (h : Used code m) (hs : s.code = code)
      (hrun : runIn build s fuel { m with fields, world } = some (.stopped (ending, m'))) :
      Used code m'

/-- Runs keep the number of locals. -/
theorem Used.localCount {code : Code} {m : Machine σ} (h : Used code m) :
    m.locals.size = code.locals.size := by
  induction h with
  | start fields world => simp [Machine.start]
  | again _ _ hrun ih =>
    exact run_frame (fun _ _ _ _ _ hkeeps hm => hkeeps.size.trans hm) (run_of_runIn hrun) ih

end Machine

/-! ## Compiled guards -/

end GuardCode
