import GuardCode.Proofs.Emission.Comparisons
import GuardCode.Proofs.Emission.Success

/-! The code of an expression carries its evaluation out, whatever its purpose: it leaves the value
on the stack, or jumps as the outcome says. By induction over the expression, at any position, on top
of any stack and in any world. -/
namespace GuardCode

open Machine (Place)

open Directive

namespace Emission

variable {code : Code} {position limit room : Nat} {next : Label} {label : Label}

theorem not_placed_abort {error : CompileError} :
    ¬ Placed code position (Draft.abort error next) := id

/-- Where code was written there was room for it. -/
theorem placed_enter {inside : Nat → Draft} :
    Placed code position (enter limit room inside next) ↔
      ∃ less, room = less + 1 ∧ Placed code position (inside less next) := by
  cases room with
  | zero => simp [enter, not_placed_abort]
  | succ room => simp [enter]

theorem unaborted_enter {inside : Nat → Draft} :
    Unaborted (enter limit room inside next) ↔
      ∃ less, room = less + 1 ∧ Unaborted (inside less next) := by
  cases room with
  | zero => simp [enter, Draft.abort, Draft.write, Unaborted]
  | succ room => simp [enter]

/-- A value that is tested stands in front of its test. -/
theorem placed_asValue {draft : Nat → Draft} {outlet : Outlet} {exits : Exits}
    (hp : Placed code position (asValue limit (.condition outlet exits) room draft next)) :
    ∃ less, Placed code position (draft less next) ∧
      Placed code (position + length (draft less next)) ((test outlet).map .emit) ∧
      position + length (asValue limit (.condition outlet exits) room draft next) =
        position + length (draft less next) + (test outlet).length := by
  obtain ⟨less, rfl, hinside⟩ := placed_enter.mp hp
  obtain ⟨hvalue, htest⟩ := placed_append.mp hinside
  obtain ⟨less, rfl, hdraft⟩ := placed_enter.mp hvalue
  refine ⟨less, hdraft, htest, ?_⟩
  simp [asValue, enter, Draft.append_apply, Draft.emit, Draft.write, Nat.add_assoc]

/-! ## Branches of a condition -/

theorem targets_test {outlet : Outlet} (h : label ∈ outlet.labels) :
    targets label ((test outlet).map .emit) = true ∧
      targets label ((testNot outlet).map .emit) = true := by
  cases outlet with
  | stack => simp [Outlet.labels] at h
  | jumpIfFalse l | jumpIfTrue l =>
    obtain rfl : label = l := by simpa [Outlet.labels] using h
    simp [test, testNot, targets]

theorem targets_compare {op : BinaryOp} (hop : op.isComparison) (type : Ty) {outlet : Outlet}
    (h : label ∈ outlet.labels) : targets label (compare op type outlet next) = true := by
  have hjump : ∀ branch : BranchOp,
      targets label (Draft.emit [.jump branch label] next) = true := by
    simp [Draft.emit, Draft.write, targets]
  rcases compare_cases hop type outlet with ⟨method, -, -, hcompare⟩ | ⟨method, -, -, hcompare⟩ |
    ⟨-, is, his, hcompare⟩
  · rw [hcompare]
    simpa [Draft.emit, Draft.write, targets, Instruction.target?] using (targets_test h).1
  · rw [hcompare]
    simpa [Draft.emit, Draft.write, targets, Instruction.target?] using (targets_test h).2
  · rw [hcompare]
    cases outlet with
    | stack => simp [Outlet.labels] at h
    | jumpIfFalse l =>
      obtain rfl : label = l := by simpa [Outlet.labels] using h
      obtain ⟨branch, hb, -⟩ := failing?_conditional hop type.isFloat
      obtain rfl : [.jump branch label] = is := by simpa [fused?, hb] using his
      exact hjump branch
    | jumpIfTrue l =>
      obtain rfl : label = l := by simpa [Outlet.labels] using h
      obtain ⟨branch, hb, -⟩ := holding?_conditional hop
      obtain rfl : [.jump branch label] = is := by simpa [fused?, hb] using his
      exact hjump branch

/-- A value that is tested is tested by a branch. -/
theorem targets_asValue {outlet : Outlet} {exits : Exits} {draft : Nat → Draft}
    (hp : Unaborted (asValue limit (.condition outlet exits) room draft next))
    (h : label ∈ outlet.labels) :
    targets label (asValue limit (.condition outlet exits) room draft next) = true := by
  obtain ⟨less, rfl, -⟩ := unaborted_enter.mp hp
  simp only [asValue, enter, Draft.append_apply, targets_append]
  rw [Bool.or_eq_true]
  exact .inr (targets_test h).1

/-- The right operand of a chain that jumps has the outlet of the whole. -/
theorem targets_chain {isAnd : Bool} {left right : Outlet → Draft} {outlet : Outlet} {exits : Exits}
    (hright : ∀ {next}, Unaborted (right outlet next) →
      targets label (right outlet next) = true)
    (hp : Unaborted (chain isAnd left right outlet exits next))
    (h : label ∈ outlet.labels) :
    targets label (chain isAnd left right outlet exits next) = true := by
  have happend : ∀ {f : Draft} {next}, Unaborted ((f ++ right outlet) next) →
      targets label ((f ++ right outlet) next) = true := by
    intro f next hp
    rw [Draft.append_apply] at hp ⊢
    rw [targets_append, hright (unaborted_append.mp hp).2, Bool.or_true]
  have hskip : ∀ f : Label → Draft, Unaborted
        (Draft.fresh (fun skip => f skip ++ right outlet ++ .write [.mark skip]) next) →
      targets label
        (Draft.fresh (fun skip => f skip ++ right outlet ++ .write [.mark skip]) next) = true := by
    intro f hp
    have hbranch := happend (unaborted_append.mp (unaborted_cons.mp hp).2).1
    obtain ⟨i, hi, hlabel⟩ := targets_iff.mp hbranch
    refine targets_iff.mpr ⟨i, List.mem_cons_of_mem _ ?_, hlabel⟩
    exact List.mem_append_left _ hi
  cases isAnd with
  | true =>
    cases outlet with
    | stack => simp [Outlet.labels] at h
    | jumpIfFalse l => exact happend hp
    | jumpIfTrue l => exact hskip (fun skip => left (.jumpIfFalse skip)) hp
  | false =>
    cases outlet with
    | stack => simp [Outlet.labels] at h
    | jumpIfFalse l => exact hskip (fun skip => left (.jumpIfTrue skip)) hp
    | jumpIfTrue l => exact happend hp

/-- A condition that jumps branches to its label. -/
theorem targets_outlet (limit : Nat) (e : Expr) {outlet : Outlet} {exits : Exits}
    (hp : Unaborted (expr limit e (.condition outlet exits) room next))
    (h : label ∈ outlet.labels) :
    targets label (expr limit e (.condition outlet exits) room next) = true := by
  induction e generalizing outlet room next with
  | binary op left right _ ihright =>
    by_cases hlogical : op.isLogical
    · rw [expr_logical_condition limit left right room hlogical] at hp ⊢
      obtain ⟨less, rfl, hchain⟩ := unaborted_enter.mp hp
      exact targets_chain (fun hp => ihright hp h) hchain h
    · by_cases hcomparison : op.isComparison
      · rw [expr_comparison limit left right _ room hcomparison] at hp ⊢
        obtain ⟨less, rfl, hp⟩ := unaborted_enter.mp hp
        simp only [enter, Draft.append_apply, targets_append, Bool.or_eq_true]
        exact .inr (targets_compare hcomparison _ h)
      · have hasValue : ∃ draft, expr limit (.binary op left right) (.condition outlet exits) room =
            asValue limit (.condition outlet exits) room draft := by
          by_cases hsupported : Expr.supported op
          · obtain rfl : op = .rem := hsupported.resolve_left hcomparison |>.resolve_left hlogical
            exact ⟨_, expr_rem limit left right _ room⟩
          · exact ⟨_, expr_unsupported limit left right _ room hsupported⟩
        obtain ⟨draft, hdraft⟩ := hasValue
        rw [hdraft] at hp ⊢
        exact targets_asValue hp h
  | member m => exact targets_asValue hp h
  | literal l => exact targets_asValue hp h
  | carried c => exact targets_asValue hp h
  | call callee args type _ =>
    obtain ⟨name, error, hcall⟩ := expr_call limit callee args type (.condition outlet exits) room
    rw [hcall] at hp ⊢
    exact targets_asValue hp h

end Emission

namespace Environment

section

variable {σ : Type} (env : Environment σ) (code : Code)

/-- What the code of an expression has done with its value. A condition whose outcome stays on the
stack leaves its last operand there, or has jumped to the exit for its outcome. -/
def Leaves (purpose : Purpose) (e : Expr) (ds : List Directive) (final : Nat) (stack : List Value)
    (v : Value) (world : σ) (d : Place σ) : Prop :=
  match purpose with
  | .condition .stack exits =>
    (∃ u, u.isTruthy = v.isTruthy ∧ e.lastOperand.Yields env u ∧
        env.Pushes final stack u world d) ∨
      (v.isTruthy = true ∧ targets exits.onTrue ds = true ∧
        d = (code.target exits.onTrue, env.machine stack world)) ∨
      (v.isTruthy = false ∧ targets exits.onFalse ds = true ∧
        d = (code.target exits.onFalse, env.machine stack world))
  | purpose => env.Settles code purpose.outlet final stack v world d

/-- Where the paths of a condition come from: with a value in front of the code in which they meet,
or by one of the exits that are marked in it. -/
def Gathers (onTrue onFalse : Bool) (exits : Exits) (position : Nat) (stack : List Value)
    (v : Value) (world : σ) (d : Place σ) : Prop :=
  env.Pushes position stack v world d ∨
    (v = .ofBool true ∧ onTrue = true ∧
      d = (code.target exits.onTrue, env.machine stack world)) ∨
    (v = .ofBool false ∧ onFalse = true ∧
      d = (code.target exits.onFalse, env.machine stack world))

/-- A chain of `&&` and `||` whose last operand is 0 or 1. -/
def Normal (e : Expr) : Prop :=
  e.isLogical = true → ∀ v, e.lastOperand.Yields env v → v = .ofBool v.isTruthy

/-- The code of an expression carries its evaluation out, wherever it stands. -/
def Simulates (limit : Nat) (e : Expr) : Prop :=
  ∀ purpose room next position stack world, (purpose = .value → env.Normal e) →
    Placed code position (Emission.expr limit e purpose room next) →
      env.Delivers code (position, env.machine stack world) (e.eval env world)
        (env.Leaves code purpose e (Emission.expr limit e purpose room next)
          (position + length (Emission.expr limit e purpose room next)) stack)

end

variable {σ : Type} {env : Environment σ} {code : Code} {position limit room : Nat} {next : Label}
  {stack : List Value} {world : σ} {purpose : Purpose} {e : Expr}

theorem lastOperand_of_not_logical (h : e.isLogical = false) : e.lastOperand = e := by
  cases e with
  | binary op left right =>
    rw [Expr.isLogical] at h
    rw [Expr.lastOperand, h]
    rfl
  | _ => rfl

/-- An expression other than a chain leaves its value itself. -/
theorem Delivers.leaves {c : Place σ} {ds : List Directive} {final : Nat}
    (hlogical : e.isLogical = false)
    (h : env.Delivers code c (e.eval env world) (env.Settles code purpose.outlet final stack)) :
    env.Delivers code c (e.eval env world) (env.Leaves code purpose e ds final stack) := by
  refine h.onward fun v after d hv hd => ⟨d, .refl d, ?_⟩
  have hlast : e.lastOperand.Yields env v := by
    rw [lastOperand_of_not_logical hlogical]
    exact ⟨_, _, hv⟩
  cases purpose with
  | value => exact hd
  | condition outlet exits =>
    cases outlet with
    | stack => exact .inl ⟨v, rfl, hlast, hd⟩
    | jumpIfFalse label | jumpIfTrue label => exact hd

/-- The paths of a condition meet behind it, with its outcome on the stack. -/
theorem Goes.meeting {onTrue onFalse : Bool} {exits : Exits} {join : Label} {v : Value}
    {d : Place σ} (hp : Placed code position (Emission.meeting onTrue onFalse exits join))
    (hd : env.Gathers code onTrue onFalse exits position stack v world d) :
    env.Goes code d (position + length (Emission.meeting onTrue onFalse exits join),
      env.machine (v :: stack) world) := by
  rw [Emission.meeting, List.append_assoc, List.cons_append] at hp ⊢
  obtain ⟨hjump, hp⟩ := hp
  obtain ⟨htrue, hp⟩ := placed_append.mp hp
  obtain ⟨hfalse, hjoin, -⟩ := placed_append.mp hp
  have hfinal : code.target join = position + length (.emit (.jump .always join) ::
      ((if onTrue then [.mark exits.onTrue, .emit (.pushInt 1), .emit (.jump .always join)]
        else []) ++ ((if onFalse then [.mark exits.onFalse, .emit (.pushInt 0)] else []) ++
        [.mark join]))) := by
    rw [hjoin]
    simp only [length_emit, length_append, length_mark, length_nil]
    omega
  rw [← hfinal]
  rcases hd with rfl | ⟨rfl, rfl, rfl⟩ | ⟨rfl, rfl, rfl⟩
  · exact .jump hjump
  · obtain ⟨hmark, hpush, hagain, -⟩ := htrue
    rw [hmark]
    exact (Goes.pushInt hpush).trans (.jump hagain)
  · obtain ⟨hmark, hpush, -⟩ := hfalse
    rw [hmark, hjoin]
    exact Goes.pushInt hpush

/-- What a condition leaves stands for its outcome, and is 0 or 1 if its last operand is. -/
theorem Leaves.gathers {exits : Exits} {ds : List Directive} {final : Nat} {v : Value} {d : Place σ}
    (h : env.Leaves code (.condition .stack exits) e ds final stack v world d) :
    ∃ u, u.isTruthy = v.isTruthy ∧ (e.lastOperand.Yields env u ∨ u = .ofBool u.isTruthy) ∧
      env.Gathers code (targets exits.onTrue ds) (targets exits.onFalse ds) exits final stack u
        world d := by
  rcases h with ⟨u, hu, hlast, hd⟩ | ⟨ht, htargets, hd⟩ | ⟨ht, htargets, hd⟩
  · exact ⟨u, hu, .inl hlast, .inl hd⟩
  · exact ⟨.ofBool true, ht.symm, .inr rfl, .inr (.inl ⟨rfl, htargets, hd⟩)⟩
  · exact ⟨.ofBool false, ht.symm, .inr rfl, .inr (.inr ⟨rfl, htargets, hd⟩)⟩

/-! ## Values -/

theorem Simulates.value (h : env.Simulates code limit e) (hnormal : env.Normal e)
    (hp : Placed code position (Emission.expr limit e .value room next)) :
    env.Delivers code (position, env.machine stack world) (e.eval env world)
      (env.Pushes (position + length (Emission.expr limit e .value room next)) stack) :=
  h .value room next position stack world (fun _ => hnormal) hp

/-- The value of an expression other than a chain, which is tested where it is a condition. -/
theorem Delivers.asValue {draft : Nat → Draft} (hlogical : e.isLogical = false)
    (hp : Placed code position (Emission.asValue limit purpose room draft next))
    (h : ∀ room, Placed code position (draft room next) →
      env.Delivers code (position, env.machine stack world) (e.eval env world)
        (env.Pushes (position + length (draft room next)) stack)) :
    env.Delivers code (position, env.machine stack world) (e.eval env world)
      (env.Leaves code purpose e (Emission.asValue limit purpose room draft next)
        (position + length (Emission.asValue limit purpose room draft next)) stack) := by
  cases purpose with
  | value =>
    obtain ⟨less, rfl, hinside⟩ := Emission.placed_enter.mp hp
    exact h less hinside
  | condition outlet exits =>
    obtain ⟨less, hdraft, htest, hlength⟩ := Emission.placed_asValue hp
    rw [hlength]
    refine .leaves hlogical ((h less hdraft).onward ?_)
    rintro v after d - rfl
    exact Goes.test outlet htest

/-- An operator other than of a chain, on the values of its operands. -/
theorem eval_plain {op : BinaryOp} (h : op.isLogical = false) (left right : Expr) :
    (Expr.binary op left right).eval env = left.eval env >>= fun a => right.eval env >>= fun b =>
      env.operate op (Emission.comparisonType left right) a b := by
  rw [Expr.eval]
  congr 1
  funext a
  have hdecided : op.decided? a = none := by
    cases op <;> first | rfl | cases h
  rw [hdecided]

/-- Two operands, one after the other. -/
theorem Simulates.operands {left right : Expr} {f : Value → Value → Evaluation σ Value}
    {post : Value → σ → Place σ → Prop} (hleft : env.Simulates code limit left)
    (hright : env.Simulates code limit right) (hnormal : env.Normal left ∧ env.Normal right)
    (hp : Placed code position ((Emission.expr limit left .value room ++
      Emission.expr limit right .value room) next))
    (hf : ∀ a b after, left.Yields env a → right.Yields env b →
      env.Delivers code (position + length ((Emission.expr limit left .value room ++
        Emission.expr limit right .value room) next), env.machine (b :: a :: stack) after)
        (f a b after) post) :
    env.Delivers code (position, env.machine stack world)
      ((left.eval env >>= fun a => right.eval env >>= fun b => f a b) world) post := by
  rw [Draft.append_apply] at hp hf
  obtain ⟨hpl, hpr⟩ := placed_append.mp hp
  refine (hleft.value hnormal.1 hpl).bind ?_
  rintro a middle d ha rfl
  refine (hright.value hnormal.2 hpr).bind ?_
  rintro b after d hb rfl
  rw [Nat.add_assoc, ← length_append]
  exact hf a b after ⟨_, _, ha⟩ ⟨_, _, hb⟩

/-- The type on which two values are compared is the type of one of them. -/
theorem fits_comparisonType {left right : Expr} {a b : Value} (ha : a.Fits left.type)
    (hb : b.Fits right.type) :
    a.Fits (Emission.comparisonType left right) ∨ b.Fits (Emission.comparisonType left right) := by
  rcases Expr.comparisonType_eq left right with h | h
  · exact .inl (h ▸ ha)
  · exact .inr (h ▸ hb)

variable {op : BinaryOp} {left right : Expr}

/-- The operands of an operator other than of a chain are wanted as values. -/
theorem normal_operands (hkinds : (Expr.binary op left right).WellKinded env)
    (hlogical : op.isLogical = false) : env.Normal left ∧ env.Normal right :=
  ⟨fun h v => hkinds.chains _ left v .self hlogical (by simp [Expr.children]) h,
    fun h v => hkinds.chains _ right v .self hlogical (by simp [Expr.children]) h⟩

theorem simulates_comparison (hop : op.isComparison)
    (hkinds : (Expr.binary op left right).WellKinded env)
    (heq : (Expr.binary op left right).EqualitiesProper)
    (hleft : env.Simulates code limit left) (hright : env.Simulates code limit right) :
    env.Simulates code limit (.binary op left right) := by
  have hlogical : op.isLogical = false := by cases op <;> first | rfl | cases hop
  intro purpose room next position stack world _ hp
  rw [Emission.expr_comparison limit left right purpose room hop] at hp ⊢
  obtain ⟨less, rfl, hinside⟩ := Emission.placed_enter.mp hp
  obtain ⟨hoperands, hcompare⟩ := placed_append.mp hinside
  have hfits := hkinds.operands op left right .self hop
  refine .leaves hlogical ?_
  rw [eval_plain hlogical, Emission.enter, Draft.append_apply, length_append, ← Nat.add_assoc]
  refine hleft.operands hright (normal_operands hkinds hlogical) hoperands ?_
  intro a b after ha hb
  refine .compare hop (fits_comparisonType (hfits.1 a ha) (hfits.2 b hb))
    (fun method => heq op left right method .self) ?_ hcompare
  rintro method rfl hm before v after hv
  exact hkinds.differences left right method .self hm a b before v after hv

theorem simulates_rem (hkinds : (Expr.binary .rem left right).WellKinded env)
    (hleft : env.Simulates code limit left) (hright : env.Simulates code limit right) :
    env.Simulates code limit (.binary .rem left right) := by
  intro purpose room next position stack world _ hp
  rw [Emission.expr_rem limit left right purpose room] at hp ⊢
  refine .asValue rfl hp fun room hinside => ?_
  obtain ⟨hoperands, hrem⟩ := placed_append.mp hinside
  rw [eval_plain rfl, Draft.append_apply, length_append, ← Nat.add_assoc]
  refine hleft.operands hright (normal_operands hkinds rfl) hoperands ?_
  intro a b after _ _
  exact .result hrem.1 rfl rfl (Operation.rem_agree _ _ a b)

/-! ## Chains -/

/-- The right operand counts where the left one does not decide. -/
theorem eval_logical (hop : op.isLogical) (left right : Expr) :
    (Expr.binary op left right).eval env = left.eval env >>= fun a =>
      if a.isTruthy = (op == .and) then right.eval env >>= fun b => pure (.ofBool b.isTruthy)
      else pure (.ofBool a.isTruthy) := by
  rw [Expr.eval]
  congr 1
  funext a
  have hboth : ∀ b, env.operate .and (Emission.comparisonType left right) a b =
      pure (.ofBool (a.isTruthy && b.isTruthy)) := fun _ => rfl
  have heither : ∀ b, env.operate .or (Emission.comparisonType left right) a b =
      pure (.ofBool (a.isTruthy || b.isTruthy)) := fun _ => rfl
  cases op with
  | and => cases ht : a.isTruthy <;> simp [BinaryOp.decided?, ht, hboth]
  | or => cases ht : a.isTruthy <;> simp [BinaryOp.decided?, ht, heither]
  | _ => cases hop

section

variable {outlet : Outlet} {exits : Exits} {post : Value → σ → Place σ → Prop}

/-- A chain goes on with its right operand, or is over because the left one decides. -/
theorem Delivers.chain (middle skip : Nat) {rightPost : Value → σ → Place σ → Prop}
    (hop : op.isLogical)
    (hleft : env.Delivers code (position, env.machine stack world) (left.eval env world)
      fun a after d => d =
        (if a.isTruthy = (op == .and) then middle else skip, env.machine stack after))
    (hright : ∀ after, env.Delivers code (middle, env.machine stack after) (right.eval env after)
      rightPost)
    (hgoesOn : ∀ b after d, rightPost b after d → post (.ofBool b.isTruthy) after d)
    (hdecided : ∀ after, post (.ofBool !(op == .and)) after (skip, env.machine stack after)) :
    env.Delivers code (position, env.machine stack world)
      ((Expr.binary op left right).eval env world) post := by
  rw [eval_logical hop]
  refine hleft.bind ?_
  rintro a after d - rfl
  by_cases ht : a.isTruthy = (op == .and)
  · rw [if_pos ht, if_pos ht]
    refine (hright after).bind ?_
    intro b final d _ hd
    exact ⟨d, .refl d, hgoesOn b final d hd⟩
  · rw [if_neg ht, if_neg ht]
    have hnot : a.isTruthy = !(op == .and) := by
      cases hv : a.isTruthy <;> cases hand : op == .and <;> simp_all
    rw [hnot]
    exact ⟨_, .refl _, hdecided after⟩

/-- What the right operand leaves, the whole chain leaves. -/
theorem Leaves.of_right {ds rds : List Directive} {final : Nat} {b : Value} {d : Place σ}
    (hop : op.isLogical) (hds : ∀ label, targets label rds = true → targets label ds = true)
    (h : env.Leaves code (.condition outlet exits) right rds final stack b world d) :
    env.Leaves code (.condition outlet exits) (.binary op left right) ds final stack
      (.ofBool b.isTruthy) world d := by
  have hlast : (Expr.binary op left right).lastOperand = right.lastOperand := by
    rw [Expr.lastOperand, if_pos hop]
  cases outlet with
  | stack =>
    rw [Leaves, isTruthy_ofBool, hlast]
    rcases h with h | ⟨ht, htargets, rfl⟩ | ⟨ht, htargets, rfl⟩
    · exact .inl h
    · exact .inr (.inl ⟨ht, hds _ htargets, rfl⟩)
    · exact .inr (.inr ⟨ht, hds _ htargets, rfl⟩)
  | jumpIfFalse label | jumpIfTrue label =>
    show d = (if (Value.ofBool b.isTruthy).isTruthy then _ else _, _)
    rw [isTruthy_ofBool]
    exact h

/-- A chain of two pieces of code, whose left operand jumps away where it decides. -/
theorem Delivers.jumping {lds rds : List Directive} (label : Label) (hop : op.isLogical)
    (hleft : env.Delivers code (position, env.machine stack world) (left.eval env world)
      fun a after d => d = (if a.isTruthy = (op == .and) then position + length lds
        else code.target label, env.machine stack after))
    (hright : ∀ after, env.Delivers code (position + length lds, env.machine stack after)
      (right.eval env after) (env.Leaves code (.condition outlet exits) right rds
        (position + length lds + length rds) stack))
    (hdecided : ∀ after, env.Leaves code (.condition outlet exits) (.binary op left right)
      (lds ++ rds) (position + length (lds ++ rds)) stack (.ofBool !(op == .and)) after
      (code.target label, env.machine stack after)) :
    env.Delivers code (position, env.machine stack world)
      ((Expr.binary op left right).eval env world)
      (env.Leaves code (.condition outlet exits) (.binary op left right) (lds ++ rds)
        (position + length (lds ++ rds)) stack) := by
  refine .chain _ _ hop hleft hright (fun b after d hd => ?_) hdecided
  rw [length_append, ← Nat.add_assoc]
  refine hd.of_right hop fun label h => ?_
  rw [targets_append, h, Bool.or_true]

/-- A chain whose left operand skips the right one where it decides. -/
theorem Delivers.skipping {lds rds : List Directive} (skip : Label) (hop : op.isLogical)
    (hmark : code.target skip = position + length (lds ++ rds))
    (hleft : env.Delivers code (position, env.machine stack world) (left.eval env world)
      fun a after d => d = (if a.isTruthy = (op == .and) then position + length lds
        else code.target skip, env.machine stack after))
    (hright : ∀ after, env.Delivers code (position + length lds, env.machine stack after)
      (right.eval env after) (env.Leaves code (.condition outlet exits) right rds
        (position + length lds + length rds) stack))
    (hdecided : ∀ ds final after, env.Leaves code (.condition outlet exits)
      (.binary op left right) ds final stack (.ofBool !(op == .and)) after
      (final, env.machine stack after)) :
    env.Delivers code (position, env.machine stack world)
      ((Expr.binary op left right).eval env world)
      (env.Leaves code (.condition outlet exits) (.binary op left right)
        (.define :: (lds ++ rds ++ [.mark skip]))
        (position + length (.define :: (lds ++ rds ++ [.mark skip]))) stack) := by
  have hlength : length (.define :: (lds ++ rds ++ [.mark skip])) = length (lds ++ rds) := by
    simp
  rw [hlength]
  refine .chain _ _ hop hleft hright (fun b after d hd => ?_) fun after => ?_
  · rw [length_append, ← Nat.add_assoc]
    refine hd.of_right hop fun label h => ?_
    obtain ⟨i, hi, hlabel⟩ := targets_iff.mp h
    exact targets_iff.mpr ⟨i, by simp [hi], hlabel⟩
  · rw [hmark]
    exact hdecided _ _ after

/-- Two conditions joined carry out the evaluation of the chain. -/
theorem Delivers.joined (hop : op.isLogical) (hleft : env.Simulates code limit left)
    (hright : env.Simulates code limit right)
    (hp : Placed code position
      (Emission.joined limit left right op room outlet exits next)) :
    env.Delivers code (position, env.machine stack world)
      ((Expr.binary op left right).eval env world)
      (env.Leaves code (.condition outlet exits) (.binary op left right)
        (Emission.joined limit left right op room outlet exits next)
        (position + length (Emission.joined limit left right op room outlet exits next))
        stack) := by
  obtain ⟨less, rfl, hchain⟩ := Emission.placed_enter.mp hp
  clear hp
  have hl := fun outlet next position world hp =>
    hleft (.condition outlet exits) less next position stack world nofun hp
  have hr := fun outlet next position world hp =>
    hright (.condition outlet exits) less next position stack world nofun hp
  -- An `||` goes on where its left operand fails, and jumps where it holds.
  have hor : ∀ label next position world, Placed code position
        (Emission.expr limit left (.condition (.jumpIfTrue label) exits) less next) →
      env.Delivers code (position, env.machine stack world) (left.eval env world)
        fun a after d => d = (if a.isTruthy = (BinaryOp.or == .and) then position +
          length (Emission.expr limit left (.condition (.jumpIfTrue label) exits) less next)
          else code.target label, env.machine stack after) := by
    intro label next position world hp
    refine (hl (.jumpIfTrue label) next position world hp).mono ?_
    rintro a after d rfl
    cases a.isTruthy <;> rfl
  cases op with
  | and =>
    cases outlet with
    | stack =>
      obtain ⟨hpl, hpr⟩ := placed_append.mp hchain
      refine .jumping exits.onFalse rfl (hl _ _ _ _ hpl) (fun after => hr _ _ _ _ hpr)
        fun after => .inr (.inr ⟨rfl, ?_, rfl⟩)
      rw [targets_append, Emission.targets_outlet limit left hpl.unaborted (by simp [Outlet.labels]),
        Bool.true_or]
    | jumpIfFalse label =>
      obtain ⟨hpl, hpr⟩ := placed_append.mp hchain
      exact .jumping label rfl (hl _ _ _ _ hpl) (fun after => hr _ _ _ _ hpr) fun after => rfl
    | jumpIfTrue label =>
      obtain ⟨hboth, hmark, -⟩ := placed_append.mp hchain
      obtain ⟨hpl, hpr⟩ := placed_append.mp hboth
      exact .skipping next rfl hmark (hl _ _ _ _ hpl) (fun after => hr _ _ _ _ hpr)
        fun _ _ _ => rfl
  | or =>
    cases outlet with
    | stack =>
      obtain ⟨hpl, hpr⟩ := placed_append.mp hchain
      refine .jumping exits.onTrue rfl (hor _ _ _ _ hpl) (fun after => hr _ _ _ _ hpr)
        fun after => .inr (.inl ⟨rfl, ?_, rfl⟩)
      rw [targets_append, Emission.targets_outlet limit left hpl.unaborted (by simp [Outlet.labels]),
        Bool.true_or]
    | jumpIfTrue label =>
      obtain ⟨hpl, hpr⟩ := placed_append.mp hchain
      exact .jumping label rfl (hor _ _ _ _ hpl) (fun after => hr _ _ _ _ hpr) fun after => rfl
    | jumpIfFalse label =>
      obtain ⟨hboth, hmark, -⟩ := placed_append.mp hchain
      obtain ⟨hpl, hpr⟩ := placed_append.mp hboth
      exact .skipping next rfl hmark (hor _ _ _ _ hpl) (fun after => hr _ _ _ _ hpr)
        fun _ _ _ => rfl
  | _ => cases hop

end

theorem bind_eq_ok {α β : Type} {x : Evaluation σ α} {f : α → Evaluation σ β} {b : β}
    {before after : σ} (h : (x >>= f) before = .ok b after) :
    ∃ a middle, x before = .ok a middle ∧ f a middle = .ok b after := by
  simp only [Bind.bind, EStateM.bind] at h
  cases hx : x before with
  | ok a middle =>
    rw [hx] at h
    exact ⟨a, middle, rfl, h⟩
  | error e middle =>
    rw [hx] at h
    cases h

/-- The value of a chain is 0 or 1. -/
theorem eq_ofBool_of_logical {v : Value} {before after : σ} (hop : op.isLogical)
    (h : (Expr.binary op left right).eval env before = .ok v after) :
    v = .ofBool v.isTruthy := by
  rw [eval_logical hop] at h
  obtain ⟨a, middle, -, h⟩ := bind_eq_ok h
  split at h
  · obtain ⟨b, _, -, hb⟩ := bind_eq_ok h
    cases hb
    rw [isTruthy_ofBool]
  · cases h
    rw [isTruthy_ofBool]

/-- A chain whose value is wanted, with exits of its own. It leaves a value of the same truth, which
is 0 or 1 unless it is that of the last operand. -/
theorem Delivers.meet (hop : op.isLogical) (hleft : env.Simulates code limit left)
    (hright : env.Simulates code limit right)
    (hp : Placed code position ((Emission.materialize fun exits =>
      Emission.joined limit left right op room .stack exits) next)) :
    env.Delivers code (position, env.machine stack world)
      ((Expr.binary op left right).eval env world) fun v after d =>
        ∃ u, u.isTruthy = v.isTruthy ∧
          ((Expr.binary op left right).lastOperand.Yields env u ∨ u = .ofBool u.isTruthy) ∧
          env.Pushes (position + length ((Emission.materialize fun exits =>
            Emission.joined limit left right op room .stack exits) next)) stack u after d := by
  obtain ⟨hcondition, hlanding⟩ := placed_append.mp hp
  refine (Delivers.joined hop hleft hright hcondition).onward ?_
  intro v after d _ hd
  obtain ⟨u, hu, hbool, hgathers⟩ := hd.gathers
  refine ⟨_, Goes.meeting hlanding hgathers, u, hu, hbool, ?_⟩
  show (_, _) = (position + length (.define :: .define :: .define :: (_ ++ _)), _)
  rw [length_define, length_define, length_define, length_append, ← Nat.add_assoc]
  rfl

/-- A chain that ends in 0 or 1 leaves its own value. -/
theorem Delivers.materialize (hop : op.isLogical) (hleft : env.Simulates code limit left)
    (hright : env.Simulates code limit right) (hnormal : env.Normal (.binary op left right))
    (hp : Placed code position ((Emission.materialize fun exits =>
      Emission.joined limit left right op room .stack exits) next)) :
    env.Delivers code (position, env.machine stack world)
      ((Expr.binary op left right).eval env world)
      (env.Pushes (position + length ((Emission.materialize fun exits =>
        Emission.joined limit left right op room .stack exits) next)) stack) := by
  refine (Delivers.meet hop hleft hright hp).onward ?_
  rintro v after d hvalue ⟨u, hu, hbool, hpushes⟩
  have hbool : u = .ofBool u.isTruthy := hbool.elim (hnormal hop u) id
  obtain rfl : u = v := by rw [hbool, hu, ← eq_ofBool_of_logical hop hvalue]
  exact ⟨d, .refl d, hpushes⟩

theorem simulates_logical (hop : op.isLogical) (hleft : env.Simulates code limit left)
    (hright : env.Simulates code limit right) :
    env.Simulates code limit (.binary op left right) := by
  intro purpose room next position stack world hnormal hp
  cases purpose with
  | value =>
    rw [Emission.expr_logical_value limit left right room hop] at hp ⊢
    obtain ⟨less, rfl, hinside⟩ := Emission.placed_enter.mp hp
    exact .materialize hop hleft hright (hnormal rfl) hinside
  | condition outlet exits =>
    rw [Emission.expr_logical_condition limit left right room hop] at hp ⊢
    exact .joined hop hleft hright hp

/-! ## Calls -/

/-- The values of arguments end up on the stack, the last one on top. -/
theorem Delivers.values (name : String) (place : Nat) {args : List Expr}
    (h : ∀ a ∈ args, env.Simulates code limit a ∧ env.Normal a)
    (hp : Placed code position (Emission.operands limit name place
      (List.replicate args.length .value) args room next)) :
    env.Delivers code (position, env.machine stack world) (Expr.evalAll env args world)
      fun vs after d => vs.length = args.length ∧
        d = (position + length (Emission.operands limit name place
          (List.replicate args.length .value) args room next),
          env.machine (vs.reverse ++ stack) after) := by
  induction args generalizing position stack world next place with
  | nil =>
    rw [Expr.evalAll]
    exact ⟨_, .refl _, rfl, by simp [Emission.operands, Draft.write]⟩
  | cons a args ih =>
    rw [List.length_cons, List.replicate_succ, Emission.operands] at hp ⊢
    obtain ⟨hpa, hpargs⟩ := placed_append.mp hp
    obtain ⟨hsim, hnormal⟩ := h a (by simp)
    rw [Expr.evalAll]
    refine (hsim.value hnormal hpa).bind ?_
    rintro v middle d - rfl
    refine (ih (place + 1) (fun b hb => h b (by simp [hb])) hpargs).bind ?_
    rintro vs after d - ⟨hlength, rfl⟩
    refine ⟨_, .refl _, by simp [hlength], ?_⟩
    rw [Draft.append_apply, length_append, ← Nat.add_assoc, List.reverse_cons, List.append_assoc]
    rfl

theorem Delivers.invocation {callee : Callee} {args : List Expr} {vs : List Value}
    (hload : callee ≠ .capability .load) (hleaves : callee.leavesValue)
    (hlength : args.length = callee.arity) (hvs : vs.length = args.length)
    (hp : Placed code position (Emission.invocation callee args next)) :
    env.Delivers code (position, env.machine (vs.reverse ++ stack) world)
      (env.invoke callee vs world)
      (env.Pushes (position + length (Emission.invocation callee args next)) stack) := by
  cases callee with
  | method m => exact .call vs hp.1 hleaves (hvs.trans hlength)
  | capability c =>
    cases c with
    | add =>
      obtain ⟨x, y, rfl⟩ := Expr.two_of_length hlength
      obtain ⟨a, b, rfl⟩ := Expr.two_of_length hvs
      exact .result hp.1 rfl rfl (Operation.add_agree _ _ a b)
    | subtract =>
      obtain ⟨x, y, rfl⟩ := Expr.two_of_length hlength
      obtain ⟨a, b, rfl⟩ := Expr.two_of_length hvs
      exact .result hp.1 rfl rfl (Operation.sub_agree _ _ a b)
    | remainder =>
      obtain ⟨x, y, rfl⟩ := Expr.two_of_length hlength
      obtain ⟨a, b, rfl⟩ := Expr.two_of_length hvs
      exact .result hp.1 rfl rfl (Operation.rem_agree _ _ a b)
    | load => exact absurd rfl hload
    | store | increment | decrement => simp [Callee.leavesValue] at hleaves

theorem loaded?_eq_none {callee : Callee} (args : List Expr) (h : callee ≠ .capability .load) :
    Expr.loaded? callee args = none := by
  unfold Expr.loaded?
  split
  · exact absurd rfl h
  · rfl

theorem simulates_call {callee : Callee} {args : List Expr} {type : Ty}
    (hadmissible : (Expr.call callee args type).Admissible)
    (hkinds : (Expr.call callee args type).WellKinded env)
    (h : ∀ a ∈ args, a.Admissible → env.Simulates code limit a) :
    env.Simulates code limit (.call callee args type) := by
  intro purpose room next position stack world _ hp
  obtain ⟨name, error, hexpr⟩ := Emission.expr_call limit callee args type purpose room
  rw [hexpr] at hp ⊢
  refine .asValue rfl hp fun room hinside => ?_
  by_cases hlength : args.length = callee.arity
  · rw [if_neg (Classical.not_not.mpr hlength)] at hinside ⊢
    rcases hadmissible.call_cases with ⟨m, rfl, rfl⟩ | ⟨hload, hleaves, -, hparams, hall⟩
    · rw [Emission.operands_load] at hinside ⊢
      rw [Expr.eval]
      exact .load hinside.1
    · rw [hparams] at hinside ⊢
      obtain ⟨hvalues, hinvocation⟩ := placed_append.mp hinside
      rw [Expr.eval, loaded?_eq_none args hload, Draft.append_apply, length_append,
        ← Nat.add_assoc]
      refine (Delivers.values name 1 (fun a ha => ⟨h a ha (hall a ha), ?_⟩) hvalues).bind ?_
      · exact fun hlogical v => hkinds.chains _ a v .self rfl ha hlogical
      · rintro vs after d - ⟨hvs, rfl⟩
        exact .invocation hload hleaves hlength hvs hinvocation
  · rw [if_pos hlength] at hinside
    exact absurd hinside Emission.not_placed_abort

/-- The code of every expression carries its evaluation out. -/
theorem simulates_expr (e : Expr) (hadmissible : e.Admissible) (heq : e.EqualitiesProper)
    (hkinds : e.WellKinded env) : env.Simulates code limit e := by
  induction e with
  | binary op left right ihleft ihright =>
    obtain ⟨hsupported, hleft, hright⟩ := Expr.admissible_binary.mp hadmissible
    have hl := ihleft hleft (heq.child (by simp [Expr.children]))
      (hkinds.child (by simp [Expr.children]))
    have hr := ihright hright (heq.child (by simp [Expr.children]))
      (hkinds.child (by simp [Expr.children]))
    rcases hsupported with hcomparison | hlogical | rfl
    · exact simulates_comparison hcomparison hkinds heq hl hr
    · exact simulates_logical hlogical hl hr
    · exact simulates_rem hkinds hl hr
  | member m =>
    intro purpose room next position stack world _ hp
    rw [Emission.expr] at hp ⊢
    refine .asValue rfl hp fun room hinside => ?_
    rw [Expr.eval]
    exact .load hinside.1
  | literal l =>
    intro purpose room next position stack world _ hp
    rw [Emission.expr] at hp ⊢
    refine .asValue rfl hp fun room hinside => ?_
    rw [Expr.eval, Draft.emit, Draft.write, length_map_emit]
    exact ⟨_, .pushLiteral hinside, rfl⟩
  | carried c => exact absurd rfl (hadmissible.notCarried c)
  | call callee args type ih =>
    exact simulates_call hadmissible hkinds fun a ha hadm =>
      ih a ha hadm (heq.child ha) (hkinds.child ha)

end Environment

end GuardCode
