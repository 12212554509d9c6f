import GuardCode.Proofs.Code.Placed
import GuardCode.Proofs.Machine.Agreement

/-! Runs that carry an evaluation out. Where the evaluation gives a value, the run comes to a place
that has to do with it; where the evaluation fails, the run fails in the same way. Either way the host
has been called just as the evaluation calls it, since both leave the same world. -/
namespace GuardCode

open Machine (Place)

namespace Environment

section

variable {σ α : Type} (env : Environment σ) (code : Code)

/-- Runs of the code without a limit on their steps. -/
def setting : Setting σ := { code, host := env.host, args := env.args }

/-- A machine with the locals and fields of the environment. -/
def machine (stack : List Value) (world : σ) : Machine σ :=
  { stack, locals := env.locals, fields := env.fields, world }

/-- A run comes from one place to another. -/
def Goes (c d : Place σ) : Prop := ∃ n, Machine.Reaches (env.setting code) c n d

/-- A run from a place fails with the error, whatever instruction it blames. -/
def Fails (c : Place σ) (e : ExecutionError) (world : σ) : Prop :=
  ∃ d i e' m, env.Goes code c d ∧ code.instructions[d.1]? = some i ∧
    Machine.step (env.setting code) d.1 i d.2 = .stop (.error e') m ∧
    e'.plain = e.plain ∧ m.world = world ∧ m.fields = env.fields ∧ m.locals = env.locals

/-- A run from a place does what an evaluation comes to. -/
def Delivers (c : Place σ) (result : EStateM.Result ExecutionError σ α)
    (post : α → σ → Place σ → Prop) : Prop :=
  match result with
  | .ok v world => ∃ d, env.Goes code c d ∧ post v world d
  | .error e world => env.Fails code c e world

/-- The run is at a position, with the value on top of the stack. -/
def Pushes (position : Nat) (stack : List Value) (v : Value) (world : σ) (d : Place σ) : Prop :=
  d = (position, env.machine (v :: stack) world)

end

variable {σ α β : Type} {env : Environment σ} {code : Code} {c d : Place σ}

theorem Goes.refl (c : Place σ) : env.Goes code c c := ⟨0, .refl c⟩

theorem Goes.trans {e : Place σ} (h : env.Goes code c d) (h' : env.Goes code d e) :
    env.Goes code c e := by
  obtain ⟨n, h⟩ := h
  obtain ⟨k, h'⟩ := h'
  exact ⟨n + k, h.trans h'⟩

theorem Goes.delivers {result : EStateM.Result ExecutionError σ α}
    {post : α → σ → Place σ → Prop} (h : env.Goes code c d)
    (h' : env.Delivers code d result post) : env.Delivers code c result post := by
  cases result with
  | ok v world =>
    obtain ⟨e, he, hpost⟩ := h'
    exact ⟨e, h.trans he, hpost⟩
  | error e world =>
    obtain ⟨d', i, e', m, hd', hrest⟩ := h'
    exact ⟨d', i, e', m, h.trans hd', hrest⟩

/-- The run goes on from the place to which it came. -/
theorem Delivers.onward {result : EStateM.Result ExecutionError σ α}
    {post post' : α → σ → Place σ → Prop} (h : env.Delivers code c result post)
    (hpost : ∀ v world d, result = .ok v world → post v world d →
      ∃ e, env.Goes code d e ∧ post' v world e) :
    env.Delivers code c result post' := by
  cases result with
  | ok v world =>
    obtain ⟨d, hd, h⟩ := h
    obtain ⟨e, he, h'⟩ := hpost v world d rfl h
    exact ⟨e, hd.trans he, h'⟩
  | error e world => exact h

theorem Delivers.mono {result : EStateM.Result ExecutionError σ α}
    {post post' : α → σ → Place σ → Prop} (h : env.Delivers code c result post)
    (hpost : ∀ v world d, post v world d → post' v world d) :
    env.Delivers code c result post' :=
  h.onward fun v world d _ h => ⟨d, .refl d, hpost v world d h⟩

/-- Evaluations one after another are carried out one after another. -/
theorem Delivers.bind {x : Evaluation σ α} {f : α → Evaluation σ β} {world : σ}
    {post : α → σ → Place σ → Prop} {post' : β → σ → Place σ → Prop}
    (h : env.Delivers code c (x world) post)
    (hf : ∀ v after d, x world = .ok v after → post v after d →
      env.Delivers code d (f v after) post') :
    env.Delivers code c ((x >>= f) world) post' := by
  cases hx : x world with
  | ok v after =>
    rw [show (x >>= f) world = f v after by simp only [Bind.bind, EStateM.bind, hx]]
    rw [hx] at h
    obtain ⟨d, hd, hpost⟩ := h
    exact hd.delivers (hf v after d hx hpost)
  | error e after =>
    rw [show (x >>= f) world = .error e after by simp only [Bind.bind, EStateM.bind, hx]]
    rw [hx] at h
    exact h

/-! ## Single instructions -/

variable {position : Nat} {i : Instruction} {stack : List Value} {world : σ} {a b : Value}

theorem Goes.step {next : Nat} {m m' : Machine σ} (hi : code.Holds position i)
    (ht : i.target? = none)
    (hs : Machine.step (env.setting code) position i m = .goto next m') :
    env.Goes code (position, m) (next, m') :=
  ⟨1, .single (hi.eq_some ht) hs⟩

theorem Goes.jump {label : Label} {m : Machine σ}
    (hi : code.Holds position (.jump .always label)) :
    env.Goes code (position, m) (code.target label, m) := by
  obtain ⟨form, hj⟩ := hi.eq_branch
  exact ⟨1, .single hj rfl⟩

/-- A branch on the truth of the value on top. -/
theorem Goes.ifTrue {label : Label} {v : Value} (hi : code.Holds position (.jump .ifTrue label)) :
    env.Goes code (position, env.machine (v :: stack) world)
      (if v.isTruthy then code.target label else position + 1, env.machine stack world) := by
  obtain ⟨form, hj⟩ := hi.eq_branch
  refine ⟨1, .single hj ?_⟩
  cases hv : v.isTruthy <;> simp [Machine.step, Machine.withTop, machine, Machine.branched, hv,
    setting]

theorem Goes.ifFalse {label : Label} {v : Value} (hi : code.Holds position (.jump .ifFalse label)) :
    env.Goes code (position, env.machine (v :: stack) world)
      (if v.isTruthy then position + 1 else code.target label, env.machine stack world) := by
  obtain ⟨form, hj⟩ := hi.eq_branch
  refine ⟨1, .single hj ?_⟩
  cases hv : v.isTruthy <;> simp [Machine.step, Machine.withTop, machine, Machine.branched, hv,
    setting]

/-- An instruction that stops the run with an error. -/
theorem Fails.step {m m' : Machine σ} {j : Instruction} {e e' : ExecutionError}
    (hj : code.instructions[position]? = some j)
    (hs : Machine.step (env.setting code) position j m = m'.fail e') (he : e'.plain = e.plain)
    (hfields : m'.fields = env.fields) (hlocals : m'.locals = env.locals) :
    env.Fails code (position, m) e m'.world :=
  ⟨(position, m), j, e', m', .refl _, hj, hs, he, rfl, hfields, hlocals⟩

/-- An instruction that pushes the outcome of an operation. -/
theorem Delivers.result {m : Machine σ} {outcome expected : Except ExecutionError Value}
    (hi : code.Holds position i) (ht : i.target? = none)
    (hs : Machine.step (env.setting code) position i m =
      (env.machine stack world).pushResult position outcome)
    (h : Operation.Agree Eq outcome expected) :
    env.Delivers code (position, m) ((MonadExcept.ofExcept expected : Evaluation σ Value) world)
      (env.Pushes (position + 1) stack) := by
  cases outcome with
  | ok v =>
    cases expected with
    | ok v' =>
      obtain rfl : v = v' := h
      exact ⟨_, .step hi ht hs, rfl⟩
    | error e => cases h
  | error e =>
    cases expected with
    | ok v => cases h
    | error e' => exact Fails.step (hi.eq_some ht) hs h rfl rfl

/-- An instruction that pushes a value that may be missing. -/
theorem Delivers.slot {error : ExecutionError} {held : Option Value} (hi : code.Holds position i)
    (ht : i.target? = none)
    (hs : Machine.step (env.setting code) position i (env.machine stack world) =
      (env.machine stack world).pushSlot position error held) :
    env.Delivers code (position, env.machine stack world)
      ((fetch error held : Evaluation σ Value) world) (env.Pushes (position + 1) stack) := by
  cases held with
  | some v => exact ⟨_, .step hi ht hs, rfl⟩
  | none => exact Fails.step (hi.eq_some ht) hs rfl rfl rfl

theorem Delivers.load {m : Member} (hi : code.Holds position (.load m)) :
    env.Delivers code (position, env.machine stack world) (env.load m world)
      (env.Pushes (position + 1) stack) := by
  cases m with
  | arg slot | loc slot | field slot => exact .slot hi rfl rfl

/-- A branch on two values, taken where the outcome of the operation says so. -/
theorem Delivers.branch {op : BranchOp} {label : Label} {rel : Bool → Value → Prop}
    {expected : Except ExecutionError Value} (hi : code.Holds position (.jump op label))
    (hop : op.pops = 2)
    (h : ∀ j, Operation.Agree rel (Operation.holds j a b op) expected) :
    env.Delivers code (position, env.machine (b :: a :: stack) world)
      ((MonadExcept.ofExcept expected : Evaluation σ Value) world)
      fun v after d => ∃ taken, rel taken v ∧
        d = (if taken then code.target label else position + 1, env.machine stack after) := by
  obtain ⟨form, hj⟩ := hi.eq_branch
  have hs : Machine.step (env.setting code) position (.branch op label form)
      (env.machine (b :: a :: stack) world) =
      (env.machine stack world).branched position (code.target label)
        (Operation.holds (.branch op label form) a b op) := by
    cases op <;> first | rfl | cases hop
  have h := h (.branch op label form)
  cases ho : Operation.holds (.branch op label form) a b op with
  | ok taken =>
    rw [ho] at h hs
    cases expected with
    | ok v =>
      refine ⟨_, ⟨1, .single hj ?_⟩, taken, h, rfl⟩
      rw [hs]
      cases taken <;> rfl
    | error e => cases h
  | error e =>
    rw [ho] at h hs
    cases expected with
    | ok v => cases h
    | error e' => exact Fails.step hj hs h rfl rfl

/-- Arguments that lie on a stack, the last one on top. -/
theorem take_args {method : Method} {args : List Value} (harity : args.length = method.arity) :
    ((args.reverse ++ stack).take method.arity).reverse = args := by
  rw [← harity, ← List.length_reverse, List.take_left, List.reverse_reverse]

/-- A call takes its arguments from the stack and goes by what the method does with them. -/
theorem step_call {method : Method} {implementation : HostMethod σ} (args : List Value)
    (hfind : env.host.find? method.id = some implementation)
    (hreturns : method.returnsValue = true) (harity : args.length = method.arity) :
    Machine.step (env.setting code) position (.call method)
        (env.machine (args.reverse ++ stack) world) =
      match implementation args world with
      | .error e after => (env.machine stack after).fail e
      | .ok (some v) after => .goto (position + 1) (env.machine (v :: stack) after)
      | .ok none after => (env.machine stack after).fail (.badHostReturn method.name) := by
  have hlt : ¬ (args.reverse ++ stack).length < method.arity := by
    simp only [List.length_append, List.length_reverse]
    omega
  have hdrop : (args.reverse ++ stack).drop method.arity = stack := by
    rw [← harity, ← List.length_reverse, List.drop_left]
  simp only [Machine.step, setting, Machine.call, hfind, machine, if_neg hlt, take_args harity, hdrop,
    hreturns]
  rcases implementation args world with ⟨_ | v, after⟩ | ⟨e, after⟩ <;> rfl

/-- A call of a host method that returns a value. -/
theorem Delivers.call {method : Method} (args : List Value)
    (hi : code.Holds position (.call method)) (hreturns : method.returnsValue = true)
    (harity : args.length = method.arity) :
    env.Delivers code (position, env.machine (args.reverse ++ stack) world)
      (env.call method args world) (env.Pushes (position + 1) stack) := by
  have hj := hi.eq_some rfl
  unfold Environment.call
  cases hfind : env.host.find? method.id with
  | none =>
    have hs : Machine.step (env.setting code) position (.call method)
        (env.machine (args.reverse ++ stack) world) =
        (env.machine (args.reverse ++ stack) world).fail (.missingHostMethod method.name) := by
      simp only [Machine.step, setting, Machine.call, hfind]
    exact Fails.step hj hs rfl rfl rfl
  | some implementation =>
    have hs : Machine.step (env.setting code) position (.call method)
        (env.machine (args.reverse ++ stack) world) = _ := step_call args hfind hreturns harity
    rcases hcall : implementation args world with ⟨_ | v, after⟩ | ⟨e, after⟩ <;>
      simp only [hcall] at hs <;> simp only [Bind.bind, EStateM.bind, hcall]
    · exact Fails.step hj hs rfl rfl rfl
    · exact ⟨_, .step hi rfl hs, rfl⟩
    · exact Fails.step hj hs rfl rfl rfl

end Environment

end GuardCode
