import GuardCode.Proofs.Emission.Simulation
import GuardCode.Proofs.Expr.Typing

/-! Typed code never goes wrong. Whatever becomes of the outcome of a typed expression, its code comes
out behind itself with a value of the type of the expression, or by one of the labels of its purpose,
or is stopped by a division, an overflow or the host. Unlike the simulation this does not ask what the
values are, so it also holds of chains that leave other values than 0 and 1. -/
namespace GuardCode

open Machine (Place)

open Directive

/-- An error of an instruction that is not about the kinds of its operands, nor about what is
missing: a division by zero, an overflow, or what a method reports that is called. -/
def Machine.Excuses {σ : Type} (host : Host σ) (calls : Method → Ty → Prop) (i : Instruction)
    (m : Machine σ) (e : ExecutionError) (after : σ) : Prop :=
  e = .divideByZero ∨ e = .overflow ∨
    ∃ method type implementation, i = .call method ∧ calls method type ∧
      host.find? method.id = some implementation ∧
      implementation (m.stack.take method.arity).reverse m.world = .error e after

namespace Environment

section

variable {σ : Type} (env : Environment σ) (known : Vocabulary) (code : Code)

/-- A run from a place is stopped by an error that has an excuse. -/
def Breaks (c : Place σ) : Prop :=
  ∃ d i e m, env.Goes code c d ∧ code.instructions[d.1]? = some i ∧
    Machine.step (env.setting code) d.1 i d.2 = .stop (.error e) m ∧
    Machine.Excuses env.host known.calls i d.2 e m.world

/-- A run from a place comes to a place of some kind, unless it is stopped with an excuse. -/
def Proceeds (c : Place σ) (post : Place σ → Prop) : Prop :=
  (∃ d, env.Goes code c d ∧ post d) ∨ env.Breaks known code c

/-- The run is behind the code, with a value of the type on the stack if the outcome stays there. -/
def Offers (outlet : Outlet) (type : Ty) (final : Nat) (stack : List Value) (d : Place σ) : Prop :=
  match outlet with
  | .stack => ∃ v world, v.IsOf type ∧ env.Pushes final stack v world d
  | .jumpIfFalse _ | .jumpIfTrue _ => ∃ world, d = (final, env.machine stack world)

/-- The run has come out of the code of an expression: behind it, or by a label of its purpose. -/
def Lands (purpose : Purpose) (type : Ty) (ds : List Directive) (final : Nat) (stack : List Value)
    (d : Place σ) : Prop :=
  env.Offers purpose.outlet type final stack d ∨
    ∃ label ∈ purpose.labels, targets label ds = true ∧
      ∃ world, d = (code.target label, env.machine stack world)

/-- The code of an expression goes through, wherever it stands. -/
def Safe (limit : Nat) (e : Expr) : Prop :=
  ∀ purpose room next position stack world,
    Placed code position (Emission.expr limit e purpose room next) →
      env.Proceeds known code (position, env.machine stack world)
        (env.Lands code purpose e.type (Emission.expr limit e purpose room next)
          (position + length (Emission.expr limit e purpose room next)) stack)

end

variable {σ : Type} {env : Environment σ} {known : Vocabulary} {code : Code} {c d : Place σ}
  {post post' : Place σ → Prop}

theorem Goes.proceeds (h : env.Goes code c d) (h' : env.Proceeds known code d post) :
    env.Proceeds known code c post := by
  rcases h' with ⟨d', hd', hpost⟩ | ⟨d', i, e, m, hd', hrest⟩
  · exact .inl ⟨d', h.trans hd', hpost⟩
  · exact .inr ⟨d', i, e, m, h.trans hd', hrest⟩

theorem Proceeds.bind (h : env.Proceeds known code c post)
    (hpost : ∀ d, post d → env.Proceeds known code d post') : env.Proceeds known code c post' := by
  rcases h with ⟨d, hd, h⟩ | h
  · exact hd.proceeds (hpost d h)
  · exact .inr h

theorem Proceeds.mono (h : env.Proceeds known code c post) (hpost : ∀ d, post d → post' d) :
    env.Proceeds known code c post' :=
  h.bind fun d hd => .inl ⟨d, .refl d, hpost d hd⟩

/-- What carries out an evaluation that fails with an excuse only. -/
theorem Delivers.proceeds {α : Type} {result : EStateM.Result ExecutionError σ α}
    {rel : α → σ → Place σ → Prop} (h : env.Delivers code c result rel)
    (hok : ∀ v world d, result = .ok v world → rel v world d → post d)
    (herror : ∀ e world, result = .error e world → e = .divideByZero ∨ e = .overflow) :
    env.Proceeds known code c post := by
  cases result with
  | ok v world =>
    obtain ⟨d, hd, h⟩ := h
    exact .inl ⟨d, hd, hok v world d rfl h⟩
  | error e world =>
    obtain ⟨d, i, e', m, hd, hi, hs, hplain, -⟩ := h
    refine .inr ⟨d, i, e', m, hd, hi, hs, ?_⟩
    rcases herror e world rfl with rfl | rfl
    · cases e' <;> cases hplain
      exact .inl rfl
    · cases e' <;> cases hplain
      exact .inr (.inl rfl)

variable {position limit room final : Nat} {next : Label} {stack : List Value} {world : σ}
  {purpose : Purpose} {type : Ty} {ds : List Directive} {e : Expr} {a b v : Value}

/-! ## Single instructions -/

/-- Arithmetic leaves a value of its type. -/
theorem Proceeds.computed {kind : StackKind} {result : Except ExecutionError Value}
    (h : env.Delivers code c ((MonadExcept.ofExcept result : Evaluation σ Value) world)
      (env.Pushes final stack))
    (hresult : Operation.Computes kind result) (htype : type.stackKind? = some kind) :
    env.Proceeds known code c (env.Offers .stack type final stack) := by
  cases result with
  | ok v =>
    refine h.proceeds (fun u after d hu hd => ?_) (fun e after he => by cases he)
    cases hu
    exact ⟨v, world, htype.trans (congrArg some (Eq.symm hresult)), hd⟩
  | error e =>
    refine h.proceeds (fun u after d hu => by cases hu) (fun e' after he => ?_)
    cases he
    exact hresult

theorem Proceeds.load {m : Member} (henv : env.Serves known) (hm : known.members m)
    (hi : code.Holds position (.load m)) :
    env.Proceeds known code (position, env.machine stack world)
      (env.Offers .stack m.type (position + 1) stack) := by
  obtain ⟨v, hv, htype⟩ := henv.members m hm
  have hload : env.Delivers code (position, env.machine stack world) (env.load m world)
      (env.Pushes (position + 1) stack) := .load hi
  rw [hv] at hload
  obtain ⟨d, hd, hpushes⟩ := hload
  exact .inl ⟨d, hd, v, world, htype, hpushes⟩

/-- A method that is honoured leaves a value of the type that it declares, or reports an error. -/
theorem Proceeds.call {method : Method} (args : List Value) (henv : env.Serves known)
    (hcalls : known.calls method type) (hi : code.Holds position (.call method))
    (hreturns : method.returnsValue = true) (harity : args.length = method.arity) :
    env.Proceeds known code (position, env.machine (args.reverse ++ stack) world)
      (env.Offers .stack type (position + 1) stack) := by
  obtain ⟨implementation, hfind, hhonours⟩ := henv.calls method type hcalls
  have hs : Machine.step (env.setting code) position (.call method)
      (env.machine (args.reverse ++ stack) world) = _ := step_call args hfind hreturns harity
  have hresult := hhonours args world harity
  rcases hcall : implementation args world with ⟨result?, after⟩ | ⟨e, after⟩
  · rw [hcall] at hresult
    obtain ⟨v, rfl, hv⟩ := hresult
    simp only [hcall] at hs
    exact .inl ⟨_, .step hi rfl hs, v, after, hv, rfl⟩
  · simp only [hcall] at hs
    refine .inr ⟨_, _, e, _, .refl _, hi.eq_some rfl, hs, .inr (.inr ?_)⟩
    refine ⟨method, type, implementation, rfl, hcalls, hfind, ?_⟩
    exact (congrArg (implementation · world) (take_args harity)).trans hcall

/-! ## Outcomes -/

theorem Settles.lands (h : env.Settles code purpose.outlet final stack v world d)
    (hv : v.IsOf type) (htargets : ∀ label ∈ purpose.outlet.labels, targets label ds = true) :
    env.Lands code purpose type ds final stack d := by
  cases purpose with
  | value => exact .inl ⟨v, world, hv, h⟩
  | condition outlet exits =>
    cases outlet with
    | stack => exact .inl ⟨v, world, hv, h⟩
    | jumpIfFalse label | jumpIfTrue label =>
      have hlabel := htargets label (List.mem_singleton_self label)
      simp only [Purpose.outlet, Settles] at h
      cases ht : v.isTruthy <;> rw [ht] at h <;> first
        | exact .inl ⟨world, h⟩
        | exact .inr ⟨label, List.mem_singleton_self label, hlabel, world, h⟩

theorem Lands.mono {type' : Ty} {ds' : List Directive}
    (h : env.Lands code purpose type ds final stack d) (htype : ∀ v : Value, v.IsOf type → v.IsOf type')
    (htargets : ∀ label, targets label ds = true → targets label ds' = true) :
    env.Lands code purpose type' ds' final stack d := by
  refine h.imp (fun h => ?_) fun ⟨label, hlabel, hds, hd⟩ => ⟨label, hlabel, htargets label hds, hd⟩
  cases houtlet : purpose.outlet with
  | stack =>
    rw [houtlet] at h
    obtain ⟨v, world, hv, hd⟩ := h
    exact ⟨v, world, htype v hv, hd⟩
  | jumpIfFalse label | jumpIfTrue label =>
    rw [houtlet] at h
    exact h

theorem Safe.value (h : env.Safe known code limit e)
    (hp : Placed code position (Emission.expr limit e .value room next)) :
    env.Proceeds known code (position, env.machine stack world)
      (env.Offers .stack e.type (position + length (Emission.expr limit e .value room next)) stack) := by
  refine (h .value room next position stack world hp).mono fun d hd => ?_
  rcases hd with hd | ⟨label, hlabel, -⟩
  · exact hd
  · cases hlabel

/-- The code of an expression other than a chain or a comparison. -/
theorem Proceeds.asValue {draft : Nat → Draft}
    (hp : Placed code position (Emission.asValue limit purpose room draft next))
    (h : ∀ room, Placed code position (draft room next) →
      env.Proceeds known code (position, env.machine stack world)
        (env.Offers .stack type (position + length (draft room next)) stack)) :
    env.Proceeds known code (position, env.machine stack world)
      (env.Lands code purpose type (Emission.asValue limit purpose room draft next)
        (position + length (Emission.asValue limit purpose room draft next)) stack) := by
  cases purpose with
  | value =>
    obtain ⟨less, rfl, hinside⟩ := Emission.placed_enter.mp hp
    exact (h less hinside).mono fun d hd => .inl hd
  | condition outlet exits =>
    obtain ⟨less, hdraft, htest, hlength⟩ := Emission.placed_asValue hp
    rw [hlength]
    refine (h less hdraft).bind ?_
    rintro d ⟨v, after, hv, rfl⟩
    obtain ⟨d, hd, hsettles⟩ := Goes.test outlet htest
    exact .inl ⟨d, hd, hsettles.lands hv fun label h => Emission.targets_asValue hp.unaborted h⟩

/-- Two operands, one after the other. -/
theorem Safe.operands {left right : Expr} (hleft : env.Safe known code limit left)
    (hright : env.Safe known code limit right)
    (hp : Placed code position ((Emission.expr limit left .value room ++
      Emission.expr limit right .value room) next))
    (hf : ∀ a b after, a.IsOf left.type → b.IsOf right.type →
      env.Proceeds known code (position + length ((Emission.expr limit left .value room ++
        Emission.expr limit right .value room) next), env.machine (b :: a :: stack) after) post) :
    env.Proceeds known code (position, env.machine stack world) post := by
  rw [Draft.append_apply] at hp hf
  obtain ⟨hpl, hpr⟩ := placed_append.mp hp
  refine (hleft.value hpl).bind ?_
  rintro d ⟨a, middle, ha, rfl⟩
  refine (hright.value hpr).bind ?_
  rintro d ⟨b, after, hb, rfl⟩
  rw [Nat.add_assoc, ← length_append]
  exact hf a b after ha hb

variable {op : BinaryOp} {left right : Expr}

/-- A comparison of two values of types that meet. -/
theorem Proceeds.compare {outlet : Outlet} (henv : env.Serves known) (hop : op.isComparison)
    (ha : a.IsOf left.type) (hb : b.IsOf right.type) (hmeet : left.type.meets right.type = true)
    (hnumber : op.isOrdering → left.type.isReference = false)
    (hequality : ∀ method, (op = .eq ∨ op = .ne) →
      (Emission.comparisonType left right).equality? = some method →
        known.calls method .i32 ∧ method.arity = 2 ∧ method.returnsValue)
    (hp : Placed code position (Emission.compare op (Emission.comparisonType left right) outlet
      next)) :
    env.Proceeds known code (position, env.machine (b :: a :: stack) world) fun d =>
      ∃ v after, v.IsOf .bool ∧ env.Settles code outlet (position +
        length (Emission.compare op (Emission.comparisonType left right) outlet next)) stack v after
        d := by
  have hcall : ∀ method, (op = .eq ∨ op = .ne) →
      (Emission.comparisonType left right).equality? = some method →
        code.Holds position (.call method) → env.Proceeds known code
          (position, env.machine (b :: a :: stack) world)
          (env.Offers .stack .i32 (position + 1) stack) := by
    intro method hcase hm hi
    obtain ⟨hcalls, harity, hreturns⟩ := hequality method hcase hm
    exact .call [a, b] henv hcalls hi hreturns harity.symm
  rcases Emission.compare_cases hop (Emission.comparisonType left right) outlet with
    ⟨method, rfl, hm, h⟩ | ⟨method, rfl, hm, h⟩ | ⟨-, is, his, h⟩
  · rw [h] at hp ⊢
    rw [Draft.emit, Draft.write, length_map_emit, List.length_cons, Nat.add_comm _ 1,
      ← Nat.add_assoc]
    refine (hcall method (.inl rfl) hm hp.1).bind ?_
    rintro d ⟨v, after, hv, rfl⟩
    obtain ⟨d, hd, hsettles⟩ := Goes.test outlet hp.2
    exact .inl ⟨d, hd, v, after, hv.bool rfl, hsettles⟩
  · rw [h] at hp ⊢
    rw [Draft.emit, Draft.write, length_map_emit, List.length_cons, Nat.add_comm _ 1,
      ← Nat.add_assoc]
    refine (hcall method (.inr rfl) hm hp.1).bind ?_
    rintro d ⟨v, after, hv, rfl⟩
    obtain ⟨d, hd, hsettles⟩ := Goes.testNot outlet (hv.int32 rfl) hp.2
    exact .inl ⟨d, hd, _, after, Value.isOf_ofBool _, hsettles⟩
  · rw [h] at hp ⊢
    obtain ⟨t, ht⟩ := BinaryOp.holds_ok hop (ha.meet hb hmeet) fun h => ha.number (hnumber h)
    have hfused : env.Delivers code (position, env.machine (b :: a :: stack) world)
        ((MonadExcept.ofExcept ((op.holds a b).map .ofBool) : Evaluation σ Value) world)
        (env.Settles code outlet (position + is.length) stack) :=
      .fused hop his (fits_comparisonType ha.fits hb.fits) hp
    rw [ht] at hfused
    obtain ⟨d, hd, hsettles⟩ := hfused
    rw [Draft.emit, Draft.write, length_map_emit]
    exact .inl ⟨d, hd, _, world, Value.isOf_ofBool t, hsettles⟩

theorem safe_comparison (henv : env.Serves known) (hop : op.isComparison)
    (hleft : env.Safe known code limit left) (hright : env.Safe known code limit right)
    (hmeet : left.type.meets right.type = true)
    (hnumber : op.isOrdering → left.type.isReference = false)
    (hequality : ∀ method, (op = .eq ∨ op = .ne) →
      (Emission.comparisonType left right).equality? = some method →
        known.calls method .i32 ∧ method.arity = 2 ∧ method.returnsValue) :
    env.Safe known code limit (.binary op left right) := by
  intro purpose room next position stack world hp
  have htype : (Expr.binary op left right).type = .bool := by
    cases op <;> first | rfl | cases hop
  rw [Emission.expr_comparison limit left right purpose room hop] at hp ⊢
  obtain ⟨less, rfl, hinside⟩ := Emission.placed_enter.mp hp
  obtain ⟨hoperands, hcompare⟩ := placed_append.mp hinside
  have htargets : ∀ label ∈ purpose.outlet.labels, targets label (Emission.enter limit (less + 1)
      (fun room => Emission.expr limit left .value room ++ Emission.expr limit right .value room ++
        Emission.compare op (Emission.comparisonType left right) purpose.outlet) next) = true := by
    intro label hlabel
    rw [Emission.enter, Draft.append_apply, targets_append,
      Emission.targets_compare hop _ hlabel, Bool.or_true]
  refine hleft.operands hright hoperands fun a b middle ha hb => ?_
  refine (Proceeds.compare henv hop ha hb hmeet hnumber hequality hcompare).mono ?_
  rintro d ⟨v, after, hv, hsettles⟩
  rw [Nat.add_assoc, ← length_append] at hsettles
  exact hsettles.lands (htype ▸ hv) htargets

theorem safe_rem (hleft : env.Safe known code limit left) (hright : env.Safe known code limit right)
    (hmeet : left.type.meets right.type = true) (hnumber : left.type.isReference = false) :
    env.Safe known code limit (.binary .rem left right) := by
  intro purpose room next position stack world hp
  rw [Emission.expr_rem limit left right purpose room] at hp ⊢
  refine .asValue hp fun room hinside => ?_
  obtain ⟨hoperands, hrem⟩ := placed_append.mp hinside
  rw [Draft.append_apply, length_append, ← Nat.add_assoc]
  refine hleft.operands hright hoperands fun a b after ha hb => ?_
  exact .computed (.result hrem.1 rfl rfl (Operation.Agree.refl _))
    (Operation.rem_computes (ha.meet hb hmeet) (ha.number hnumber)) ha

/-! ## Chains -/

/-- A condition that jumps leaves nothing on the stack, wherever it comes out. -/
theorem Lands.jumping {outlet : Outlet} {exits : Exits} {label : Label}
    (h : env.Lands code (.condition outlet exits) type ds final stack d)
    (houtlet : outlet.labels = [label]) :
    ∃ world, d = (final, env.machine stack world) ∨
      targets label ds = true ∧ d = (code.target label, env.machine stack world) := by
  cases outlet with
  | stack => cases houtlet
  | jumpIfFalse l | jumpIfTrue l =>
    cases houtlet
    rcases h with ⟨world, hd⟩ | ⟨label', hlabel, htargets, world, hd⟩
    · exact ⟨world, .inl hd⟩
    · obtain rfl := List.mem_singleton.mp hlabel
      exact ⟨world, .inr ⟨htargets, hd⟩⟩

theorem offers_of_jumps {outlet : Outlet} (h : outlet ≠ .stack) :
    env.Offers outlet type final stack (final, env.machine stack world) := by
  cases outlet with
  | stack => exact absurd rfl h
  | jumpIfFalse label | jumpIfTrue label => exact ⟨world, rfl⟩

/-- Two conditions joined, the outcome of the right one being an int32 where it stays. -/
theorem Proceeds.joined {outlet : Outlet} {exits : Exits} (hleft : env.Safe known code limit left)
    (hright : env.Safe known code limit right) (hint : right.type.isInt32 = true)
    (hp : Placed code position (Emission.joined limit left right op room outlet exits next)) :
    env.Proceeds known code (position, env.machine stack world)
      (env.Lands code (.condition outlet exits) .bool
        (Emission.joined limit left right op room outlet exits next)
        (position + length (Emission.joined limit left right op room outlet exits next)) stack) := by
  obtain ⟨less, rfl, hchain⟩ := Emission.placed_enter.mp hp
  clear hp
  rw [Emission.joined, Emission.enter]
  have hbool : ∀ v : Value, v.IsOf right.type → v.IsOf .bool := fun v hv => hv.bool hint
  rcases Emission.chain_cases outlet exits with ⟨o, label, ho, hlabel, h⟩ | ⟨o, ho, hjumps, h⟩
  · rw [h] at hchain ⊢
    obtain ⟨hpl, hpr⟩ := placed_append.mp hchain
    rw [Draft.append_apply, length_append, ← Nat.add_assoc]
    refine (hleft _ _ _ _ stack world hpl).bind fun d hd => ?_
    obtain ⟨middle, rfl | ⟨htargets, rfl⟩⟩ := hd.jumping ho
    · refine (hright _ _ _ _ stack middle hpr).mono fun d hd => hd.mono hbool fun l hl => ?_
      rw [targets_append, hl, Bool.or_true]
    · refine .inl ⟨_, .refl _, .inr ⟨label, hlabel, ?_, middle, rfl⟩⟩
      rw [targets_append, htargets, Bool.true_or]
  · rw [h] at hchain ⊢
    obtain ⟨hboth, hmark, -⟩ := placed_append.mp hchain
    obtain ⟨hpl, hpr⟩ := placed_append.mp hboth
    have hlength : ∀ lds rds : List Directive,
        length (.define :: (lds ++ rds ++ [.mark next])) = length lds + length rds := by simp
    rw [Draft.fresh, Draft.append_apply, Draft.append_apply, Draft.write, hlength, ← Nat.add_assoc]
    refine (hleft _ _ _ _ stack world hpl).bind fun d hd => ?_
    obtain ⟨middle, rfl | ⟨-, rfl⟩⟩ := hd.jumping (ho next)
    · refine (hright _ _ _ _ stack middle hpr).mono fun d hd => hd.mono hbool fun l hl => ?_
      obtain ⟨i, hi, hlabel⟩ := targets_iff.mp hl
      exact targets_iff.mpr ⟨i, by simp [hi], hlabel⟩
    · -- Behind the right operand nothing is on the stack, since the whole jumps.
      refine .inl ⟨_, .refl _, .inl ?_⟩
      rw [hmark, Draft.append_apply, length_append, ← Nat.add_assoc]
      exact offers_of_jumps hjumps

/-- The paths of a condition whose outcome stays on the stack. -/
theorem Lands.gathers {exits : Exits}
    (h : env.Lands code (.condition .stack exits) type ds final stack d) :
    ∃ v world, (v.IsOf type ∨ v.IsOf .bool) ∧ env.Gathers code (targets exits.onTrue ds)
      (targets exits.onFalse ds) exits final stack v world d := by
  rcases h with ⟨v, world, hv, hd⟩ | ⟨label, hlabel, htargets, world, hd⟩
  · exact ⟨v, world, .inl hv, .inl hd⟩
  · simp only [Purpose.labels, List.mem_cons, List.not_mem_nil, or_false] at hlabel
    rcases hlabel with rfl | rfl
    · exact ⟨_, world, .inr (Value.isOf_ofBool true), .inr (.inl ⟨rfl, htargets, hd⟩)⟩
    · exact ⟨_, world, .inr (Value.isOf_ofBool false), .inr (.inr ⟨rfl, htargets, hd⟩)⟩

theorem safe_logical (hop : op.isLogical) (hleft : env.Safe known code limit left)
    (hright : env.Safe known code limit right) (hint : right.type.isInt32 = true) :
    env.Safe known code limit (.binary op left right) := by
  have htype : (Expr.binary op left right).type = .bool := by
    cases op <;> first | rfl | cases hop
  intro purpose room next position stack world hp
  rw [htype]
  cases purpose with
  | value =>
    rw [Emission.expr_logical_value limit left right room hop] at hp ⊢
    obtain ⟨less, rfl, hinside⟩ := Emission.placed_enter.mp hp
    obtain ⟨hcondition, hlanding⟩ := placed_append.mp hinside
    refine (Proceeds.joined hleft hright hint hcondition).bind fun d hd => ?_
    obtain ⟨v, after, hv, hgathers⟩ := hd.gathers
    refine .inl ⟨_, Goes.meeting hlanding hgathers, .inl ⟨v, after, hv.elim id id, ?_⟩⟩
    show (_, _) = (position + length (.define :: .define :: .define :: (_ ++ _)), _)
    rw [length_define, length_define, length_define, length_append, ← Nat.add_assoc]
    rfl
  | condition outlet exits =>
    rw [Emission.expr_logical_condition limit left right room hop] at hp ⊢
    exact .joined hleft hright hint hp

/-! ## Calls -/

/-- The values of arguments end up on the stack, the last one on top, each of the type of its
argument. -/
theorem Proceeds.values (name : String) (place : Nat) {args : List Expr}
    (h : ∀ a ∈ args, env.Safe known code limit a)
    (hp : Placed code position (Emission.operands limit name place
      (List.replicate args.length .value) args room next)) :
    env.Proceeds known code (position, env.machine stack world) fun d =>
      ∃ vs after, Value.AreOf vs (args.map Expr.type) ∧
        d = (position + length (Emission.operands limit name place
          (List.replicate args.length .value) args room next),
          env.machine (vs.reverse ++ stack) after) := by
  induction args generalizing position stack world next place with
  | nil => exact .inl ⟨_, .refl _, [], world, rfl, by simp [Emission.operands, Draft.write]⟩
  | cons a args ih =>
    rw [List.length_cons, List.replicate_succ, Emission.operands] at hp ⊢
    obtain ⟨hpa, hpargs⟩ := placed_append.mp hp
    refine ((h a (by simp)).value hpa).bind ?_
    rintro d ⟨v, middle, hv, rfl⟩
    refine (ih (place + 1) (fun b hb => h b (by simp [hb])) hpargs).mono ?_
    rintro d ⟨vs, after, hvs, rfl⟩
    refine ⟨v :: vs, after, Value.areOf_cons.mpr ⟨hv, hvs⟩, ?_⟩
    rw [Draft.append_apply, length_append, ← Nat.add_assoc, List.reverse_cons, List.append_assoc]
    rfl

/-- The code of a call whose arguments are all values. -/
theorem Proceeds.invoked {callee : Callee} {args : List Expr} (type' : Ty)
    (hlength : args.length = callee.arity)
    (hparams : callee.params = List.replicate args.length .value)
    (hargs : ∀ a ∈ args, env.Safe known code limit a)
    (hp : Placed code position (Emission.expr limit (.call callee args type') purpose room next))
    (h : ∀ vs next position after, Value.AreOf vs (args.map Expr.type) →
      Placed code position (Emission.invocation callee args next) →
        env.Proceeds known code (position, env.machine (vs.reverse ++ stack) after)
          (env.Offers .stack type (position + length (Emission.invocation callee args next))
            stack)) :
    env.Proceeds known code (position, env.machine stack world)
      (env.Lands code purpose type (Emission.expr limit (.call callee args type') purpose room next)
        (position + length (Emission.expr limit (.call callee args type') purpose room next))
        stack) := by
  obtain ⟨name, error, hexpr⟩ := Emission.expr_call limit callee args type' purpose room
  rw [hexpr] at hp ⊢
  refine .asValue hp fun room hinside => ?_
  rw [if_neg (Classical.not_not.mpr hlength), hparams] at hinside ⊢
  obtain ⟨hvalues, hinvocation⟩ := placed_append.mp hinside
  rw [Draft.append_apply, length_append, ← Nat.add_assoc]
  refine (Proceeds.values name 1 hargs hvalues).bind ?_
  rintro d ⟨vs, after, hvs, rfl⟩
  exact h vs _ _ after hvs hinvocation

theorem safe_arithmetic {c : Capability} (hc : c.isArithmetic)
    (hleft : env.Safe known code limit left) (hright : env.Safe known code limit right)
    (hmeet : left.type.meets right.type = true) (hnumber : left.type.isReference = false) :
    env.Safe known code limit (.call (.capability c) [left, right] left.type) := by
  intro purpose room next position stack world hp
  have hparams : c.params = [.value, .value] := by
    cases c <;> first | rfl | cases hc
  refine .invoked left.type (congrArg List.length hparams).symm hparams ?_ hp ?_
  · intro a ha
    simp only [List.mem_cons, List.not_mem_nil, or_false] at ha
    rcases ha with rfl | rfl
    · exact hleft
    · exact hright
  · intro vs next position after hvs hinvocation
    obtain ⟨a, b, rfl⟩ := Expr.two_of_length hvs.length_eq
    obtain ⟨ha, hvs⟩ := Value.areOf_cons.mp hvs
    obtain ⟨hb, -⟩ := Value.areOf_cons.mp hvs
    have hkinds := ha.meet hb hmeet
    have hkind := ha.number hnumber
    cases c with
    | add =>
      exact .computed (.result hinvocation.1 rfl rfl (.refl _))
        (Operation.add_computes hkinds hkind) ha
    | subtract =>
      exact .computed (.result hinvocation.1 rfl rfl (.refl _))
        (Operation.sub_computes hkinds hkind) ha
    | remainder =>
      exact .computed (.result hinvocation.1 rfl rfl (.refl _))
        (Operation.rem_computes hkinds hkind) ha
    | _ => cases hc

/-- The code of a typed expression goes through. -/
theorem safe_of_typed (henv : env.Serves known) (h : e.Typed known) :
    env.Safe known code limit e := by
  -- Each rule gives its operands as safe; only what is loaded or called rests on the environment.
  induction h with
  | @member m hm =>
    intro purpose room next position stack world hp
    rw [Emission.expr] at hp ⊢
    exact .asValue hp fun room hinside => .load henv hm hinside.1
  | literal l =>
    intro purpose room next position stack world hp
    rw [Emission.expr] at hp ⊢
    refine .asValue hp fun room hinside => ?_
    rw [Draft.emit, Draft.write, length_map_emit]
    exact .inl ⟨_, .pushLiteral hinside, l.value, world, l.isOf_value, rfl⟩
  | chain hop _ _ hint hleft hright => exact safe_logical hop hleft hright hint
  | comparison hop _ _ hmeet hnumber hequality hleft hright =>
    exact safe_comparison henv hop hleft hright hmeet hnumber hequality
  | remainder _ _ hmeet hnumber hleft hright => exact safe_rem hleft hright hmeet hnumber
  | @load m hm =>
    intro purpose room next position stack world hp
    obtain ⟨name, error, hexpr⟩ := Emission.expr_call limit (.capability .load)
      [.carried (.member m)] m.type purpose room
    rw [hexpr] at hp ⊢
    refine .asValue hp fun room hinside => ?_
    rw [if_neg (by simp [Callee.arity, Capability.params]), Emission.operands_load] at hinside ⊢
    exact .load henv hm hinside.1
  | arithmetic hc _ _ hmeet hnumber hleft hright =>
    exact safe_arithmetic hc hleft hright hmeet hnumber
  | @method m args type _ harity hreturns hcalls hargs =>
    intro purpose room next position stack world hp
    refine .invoked type harity (by rw [harity]; rfl) hargs hp ?_
    intro vs next position after hvs hinvocation
    exact .call vs henv hcalls hinvocation.1 hreturns (by simpa [harity] using hvs.length_eq)

end Environment

end GuardCode
