import GuardCode.Proofs.Purity
import GuardCode.Proofs.Reading.Kinds

/-! Chains of `&&` and `||` that are used as values. Three ways lead behind the code of such a chain:
by its exit for a true outcome, by the one for a false outcome, or from its last operand. The exits
push 0 or 1, whereas the last operand leaves its own value, which stands for the outcome but is the
outcome only if it is 0 or 1 itself. -/
namespace GuardCode

open Machine (Place)

open Directive

/-! ## The code of parts -/

/-- The code that leaves the value of an expression stands between two positions. -/
def Code.Values (code : Code) (limit : Nat) (e : Expr) (start final : Nat) : Prop :=
  ∃ room next, Placed code start (Emission.expr limit e .value room next) ∧
    final = start + length (Emission.expr limit e .value room next)

namespace Emission

variable {code : Code} {position limit room : Nat} {next : Label} {purpose : Purpose} {e c : Expr}

theorem placed_of_asValue {draft : Nat → Draft}
    (hp : Placed code position (asValue limit purpose room draft next)) :
    ∃ less, Placed code position (draft less next) := by
  cases purpose with
  | value =>
    obtain ⟨less, -, hinside⟩ := placed_enter.mp hp
    exact ⟨less, hinside⟩
  | condition outlet exits =>
    obtain ⟨less, hdraft, -⟩ := placed_asValue hp
    exact ⟨less, hdraft⟩

theorem placed_of_operands {name : String} {place : Nat} {args : List Expr}
    (hp : Placed code position
      (operands limit name place (List.replicate args.length .value) args room next))
    (hc : c ∈ args) :
    ∃ start next, Placed code start (expr limit c .value room next) := by
  induction args generalizing position place next with
  | nil => cases hc
  | cons a args ih =>
    rw [List.length_cons, List.replicate_succ, operands] at hp
    obtain ⟨ha, hargs⟩ := placed_append.mp hp
    rcases List.mem_cons.mp hc with rfl | hc
    · exact ⟨position, next, ha⟩
    · exact ih hargs hc

/-- Both operands of a chain are conditions. -/
theorem placed_of_joined {op : BinaryOp} {left right : Expr} {outlet : Outlet} {exits : Exits}
    (hp : Placed code position (joined limit left right op room outlet exits next))
    (hc : c = left ∨ c = right) :
    ∃ start purpose room next, Placed code start (expr limit c purpose room next) := by
  obtain ⟨less, -, hchain⟩ := placed_enter.mp hp
  have hboth : ∃ outlet', ∃ position next, Placed code position
      ((expr limit left (.condition outlet' exits) less ++
        expr limit right (.condition outlet exits) less) next) := by
    rcases chain_cases outlet exits with ⟨o, -, -, -, heq⟩ | ⟨o, -, -, heq⟩
    · rw [heq] at hchain
      exact ⟨o, position, next, hchain⟩
    · rw [heq] at hchain
      exact ⟨o next, position, next + 1, (placed_append.mp hchain).1⟩
  obtain ⟨o, _, _, hboth⟩ := hboth
  obtain ⟨hleft, hright⟩ := placed_append.mp hboth
  rcases hc with rfl | rfl
  · exact ⟨_, _, _, _, hleft⟩
  · exact ⟨_, _, _, _, hright⟩

/-- The code of a child is part of the code of an expression, and leaves the value of the child
where the expression is no chain. -/
theorem placed_child (hadmissible : e.Admissible)
    (hp : Placed code position (expr limit e purpose room next)) (hc : c ∈ e.children)
    (hcarried : ∀ m, c ≠ .carried m) :
    ∃ start purpose room next, Placed code start (expr limit c purpose room next) ∧
      (e.isLogical = false → purpose = .value) := by
  cases e with
  | binary op left right =>
    have hcases : c = left ∨ c = right := by simpa [Expr.children] using hc
    have hvalues : ∀ {room next}, Placed code position
          ((expr limit left .value room ++ expr limit right .value room) next) →
        ∃ start purpose room next, Placed code start (expr limit c purpose room next) ∧
          ((Expr.binary op left right).isLogical = false → purpose = .value) := by
      intro room next hp
      obtain ⟨hleft, hright⟩ := placed_append.mp hp
      rcases hcases with rfl | rfl
      · exact ⟨_, .value, _, _, hleft, fun _ => rfl⟩
      · exact ⟨_, .value, _, _, hright, fun _ => rfl⟩
    rcases (Expr.admissible_binary.mp hadmissible).1 with hcomparison | hlogical | rfl
    · rw [expr_comparison limit left right purpose room hcomparison] at hp
      obtain ⟨less, -, hp⟩ := placed_enter.mp hp
      exact hvalues (placed_append.mp hp).1
    · have hjoined : ∃ outlet exits room next,
          Placed code position (joined limit left right op room outlet exits next) := by
        cases purpose with
        | value =>
          rw [expr_logical_value limit left right room hlogical] at hp
          obtain ⟨less, -, hp⟩ := placed_enter.mp hp
          exact ⟨_, _, _, _, (placed_append.mp hp).1⟩
        | condition outlet exits =>
          rw [expr_logical_condition limit left right room hlogical] at hp
          exact ⟨_, _, _, _, hp⟩
      obtain ⟨_, _, _, _, hjoined⟩ := hjoined
      obtain ⟨start, purpose, room, next, hplaced⟩ := placed_of_joined hjoined hcases
      refine ⟨start, purpose, room, next, hplaced, fun hnot => ?_⟩
      rw [Expr.isLogical, hlogical] at hnot
      cases hnot
    · rw [expr_rem limit left right purpose room] at hp
      obtain ⟨less, hp⟩ := placed_of_asValue hp
      exact hvalues (placed_append.mp hp).1
  | call callee args type =>
    rcases hadmissible.call_cases with ⟨m, -, rfl⟩ | ⟨-, -, hlength, hparams, -⟩
    · exact absurd (List.mem_singleton.mp hc) (hcarried _)
    · obtain ⟨name, error, hexpr⟩ := expr_call limit callee args type purpose room
      rw [hexpr] at hp
      obtain ⟨less, hp⟩ := placed_of_asValue hp
      rw [if_neg (Classical.not_not.mpr hlength), hparams] at hp
      obtain ⟨start, next, hplaced⟩ := placed_of_operands (placed_append.mp hp).1 hc
      exact ⟨start, .value, less, next, hplaced, fun _ => rfl⟩
  | member | literal | carried => cases hc

/-- The code of every part of an expression is part of its code. -/
theorem placed_part {q : Expr} (hadmissible : e.Admissible)
    (hp : Placed code position (expr limit e purpose room next)) (hq : Expr.Part q e)
    (hcarried : ∀ m, q ≠ .carried m) :
    ∃ start purpose room next, Placed code start (expr limit q purpose room next) := by
  induction hq generalizing position purpose room next with
  | self => exact ⟨_, _, _, _, hp⟩
  | @child e c hc hpart ih =>
    have hnot : ∀ m, c ≠ .carried m := by
      rintro m rfl
      exact hcarried m (Expr.part_carried.mp hpart)
    obtain ⟨_, _, _, _, hplaced, -⟩ := placed_child hadmissible hp hc hnot
    exact ih (hadmissible.part (.child hc .self) hnot) hplaced

end Emission

/-! ## The outcome of a chain -/

/-- `&&` and `||` on truth values. -/
def BinaryOp.connect : BinaryOp → Bool → Bool → Bool
  | and, a, b => a && b
  | or, a, b => a || b
  | _, _, _ => false

namespace BinaryOp

variable {op : BinaryOp} {a : Bool}

theorem connect_undecided (hop : op.isLogical) (h : a = (op == .and)) (b : Bool) :
    op.connect a b = b := by
  subst h
  cases op <;> first | rfl | cases hop

theorem connect_decided (hop : op.isLogical) (h : a ≠ (op == .and)) (b : Bool) :
    op.connect a b = a := by
  cases op <;> cases a <;> first | rfl | exact absurd rfl h | cases hop

end BinaryOp

namespace Environment

variable {σ : Type}

/-- The outcome of `left op right`: the connective of the truths of its operands, of which the right
one is evaluated where the left one does not decide. -/
inductive Joins (env : Environment σ) (op : BinaryOp) (left right : Expr) (before : σ) :
    Bool → σ → Prop where
  | decided {a : Value} {after : σ} (ha : left.eval env before = .ok a after)
      (h : op.connect a.isTruthy true = op.connect a.isTruthy false) :
      Joins env op left right before (op.connect a.isTruthy false) after
  | both {a b : Value} {middle after : σ} (ha : left.eval env before = .ok a middle)
      (h : op.connect a.isTruthy true ≠ op.connect a.isTruthy false)
      (hb : right.eval env middle = .ok b after) :
      Joins env op left right before (op.connect a.isTruthy b.isTruthy) after

variable {env : Environment σ} {op : BinaryOp} {left right : Expr} {before after : σ} {v : Value}

/-- The value of a chain is its outcome. -/
theorem joins_of_eval (hop : op.isLogical)
    (h : (Expr.binary op left right).eval env before = .ok v after) :
    env.Joins op left right before v.isTruthy after := by
  rw [eval_logical hop] at h
  obtain ⟨a, middle, ha, h⟩ := bind_eq_ok h
  split at h
  · next ht =>
    obtain ⟨b, last, hb, h⟩ := bind_eq_ok h
    cases h
    have hconnect := BinaryOp.connect_undecided hop ht
    rw [isTruthy_ofBool, ← hconnect b.isTruthy]
    exact .both ha (by simp [hconnect]) hb
  · next ht =>
    cases h
    have hconnect := BinaryOp.connect_decided hop ht
    rw [isTruthy_ofBool, ← hconnect false]
    exact .decided ha (by simp [hconnect])

/-- The code that leaves the value of a chain leaves a value of the same truth. -/
theorem Delivers.ofChain {code : Code} {position limit room : Nat} {next : Label}
    (stack : List Value) (world : σ) (hop : op.isLogical)
    (hadmissible : (Expr.binary op left right).Admissible)
    (heq : (Expr.binary op left right).EqualitiesProper)
    (hleft : left.WellKinded env) (hright : right.WellKinded env)
    (hp : Placed code position (Emission.expr limit (.binary op left right) .value room next)) :
    env.Delivers code (position, env.machine stack world)
      ((Expr.binary op left right).eval env world) fun v after d =>
        ∃ u, u.isTruthy = v.isTruthy ∧
          ((Expr.binary op left right).lastOperand.Yields env u ∨ u = .ofBool u.isTruthy) ∧
          env.Pushes (position + length (Emission.expr limit (.binary op left right) .value room
            next)) stack u after d := by
  obtain ⟨-, hadmleft, hadmright⟩ := Expr.admissible_binary.mp hadmissible
  have hl : env.Simulates code limit left :=
    simulates_expr left hadmleft (heq.child (by simp [Expr.children])) hleft
  have hr : env.Simulates code limit right :=
    simulates_expr right hadmright (heq.child (by simp [Expr.children])) hright
  rw [Emission.expr_logical_value limit left right room hop] at hp ⊢
  obtain ⟨less, rfl, hinside⟩ := Emission.placed_enter.mp hp
  exact .meet hop hl hr hinside

/-- A chain that ends in a comparison that no method decides ends in 0 or 1. -/
theorem normal_of_comparison {e : Expr} (hlast : e.lastOperand = .binary op left right)
    (hop : op.isComparison)
    (hplain : op = .eq ∨ op = .ne → (Emission.comparisonType left right).equality? = none) :
    env.Normal e := by
  rintro - v ⟨before, after, hv⟩
  rw [hlast, eval_plain (by cases op <;> first | rfl | cases hop)] at hv
  obtain ⟨a, _, -, hv⟩ := bind_eq_ok hv
  obtain ⟨b, _, -, hv⟩ := bind_eq_ok hv
  rw [operate_fused hop hplain] at hv
  obtain ⟨t, rfl⟩ := Operation.eq_of_map_eq_ok (eq_ok_of_ofExcept hv)
  rw [isTruthy_ofBool]

theorem eq_some_of_fetch {error : ExecutionError} {held : Option Value}
    (h : (fetch error held : Evaluation σ Value) before = .ok v after) : held = some v := by
  cases held with
  | some u =>
    cases h
    rfl
  | none => cases h

end Environment

/-! ## Compiled guards -/

theorem Surroundings.respects {σ : Type} {around : Surroundings} {params : List Ty} {guard : Expr}
    {env : Environment σ} (hargs : Value.AreOf env.args.toList params)
    (hfields : ∀ field ∈ around.fields, ∀ v, env.fields[field.index]? = some v →
      v.IsOf field.type)
    (hhost : ∀ method type, guard.Calls method type → env.host.Returns method type) :
    env.Respects (around.vocabulary params guard) := by
  refine ⟨?_, hhost⟩
  rintro m ⟨name, hresolve⟩ v before after hload
  rcases resolve?_cases hresolve with ⟨i, type, hi, rfl⟩ | ⟨field, hfield, rfl⟩
  · obtain ⟨u, hu, htype⟩ := hargs.get hi
    rw [Array.getElem?_toList] at hu
    have hv := Environment.eq_some_of_fetch hload
    rw [hu] at hv
    cases hv
    exact htype
  · exact hfields field hfield v (Environment.eq_some_of_fetch hload)

/-- The environment of a place of a run: what the run started with, and the locals that it left. -/
def Machine.environment {σ : Type} (m : Machine σ) (host : Host σ) (args : Array Value) :
    Environment σ :=
  { host, args, locals := m.locals, fields := m.fields }

/-- A run of a compiled guard leaves the fields, and all that the guard can read. -/
theorem Predicate.agreeBelow_of_reaches {σ : Type} {source : String} {params : List Ty}
    {around : Surroundings} {options : Options} {p : Predicate}
    (hcompile : compile source params around options = .ok p)
    (hequality : around.EqualitiesProper params) {host : Host σ} {args fields : Array Value}
    {world : σ} {n position : Nat} {m : Machine σ}
    (hreach : Machine.Reaches { code := p.code, host, args } (0, .start p.code fields world) n
      (position, m)) :
    (p.environment host args fields).AgreeBelow 0 (m.environment host args) where
  host := rfl
  args := rfl
  fields := by
    obtain ⟨front, hlaid⟩ := stores_of_compile hcompile hequality
    have hsame := (Machine.sameBut_of_storesOnly fun position i hi => (hlaid.stores hi).1).1 n
      position hreach
    exact hsame.fields
  size := hreach.localCount
  locals index hindex := absurd hindex (Nat.not_lt_zero index)

/-- A chain of a compiled guard whose value is used leaves a value of the truth of its outcome: 0 or
1, unless it is a value of its last operand. Where that operand is 0 or 1, it is the outcome. Chains
that are used as values inside of it are to end in 0 or 1, since its operands depend on them. -/
theorem chain_value_stands_for_outcome {σ : Type} {source : String} {params : List Ty}
    {around : Surroundings} {options : Options} {p : Predicate} {guard : Expr}
    (hcompile : Predicate.compile source params around options = .ok p)
    (hparse : Expr.parse (around.scope params) options.maxDepth source = .ok guard)
    (hequality : around.EqualitiesProper params)
    (host : Host σ) (hhost : ∀ method type, guard.Calls method type → host.Returns method type)
    (args fields : Array Value) (hargs : Value.AreOf args.toList params)
    (hfields : ∀ field ∈ around.fields, ∀ v, fields[field.index]? = some v → v.IsOf field.type)
    {user left right : Expr} {op : BinaryOp} (huser : user.Part guard)
    (hused : user.isLogical = false) (hchain : .binary op left right ∈ user.children)
    (hop : op.isLogical)
    (hinner : ∀ q c : Expr, q.Part (.binary op left right) → q.isLogical = false → c ∈ q.children →
      (p.environment host args fields).Normal c) :
    (∃ start final, p.code.Values options.maxDepth (.binary op left right) start final) ∧
    ∀ start final, p.code.Values options.maxDepth (.binary op left right) start final →
      ∀ world n m, Machine.Reaches { code := p.code, host, args }
          (0, .start p.code fields world) n (start, m) →
        (∃ outcome u after steps,
          (p.environment host args fields).Joins op left right m.world outcome after ∧
          Machine.Reaches { code := p.code, host, args } (start, m) steps
            (final, { m with stack := u :: m.stack, world := after }) ∧
          u.isTruthy = outcome ∧
          (u = .ofBool outcome ∨
            (Expr.binary op left right).lastOperand.Yields (p.environment host args fields) u) ∧
          ((p.environment host args fields).Normal (.binary op left right) →
            u = .ofBool outcome)) ∨
        ∃ e after, (Expr.binary op left right).eval (p.environment host args fields) m.world =
            .error e after ∧
          (m.environment host args).Fails p.code (start, m) e after := by
  obtain ⟨guard', b, hparse', hb, hfinish⟩ := Predicate.assembled_of_compile hcompile
  obtain rfl : guard = guard' := Except.ok.inj (hparse.symm.trans hparse')
  have hchecked := Expr.checked_of_parse hparse
  have heq := hequality.of_checked hchecked
  have hadmissible := (admissible_of_accepted #[] heq hb).2
  have hpart : Expr.Part (.binary op left right) guard := Expr.Part.trans (.child hchain .self) huser
  refine ⟨?_, ?_⟩
  · have hplaced := (placed_append.mp (Environment.placed_answering (hb.placed rfl hfinish))).1
    have hcarried : ∀ m, user ≠ .carried m := by
      rintro m rfl
      cases hchain
    obtain ⟨_, _, _, _, hplaced⟩ := Emission.placed_part hadmissible hplaced huser hcarried
    obtain ⟨start, purpose, room, next, hplaced, hvalue⟩ :=
      Emission.placed_child (hadmissible.part huser hcarried) hplaced hchain (by simp)
    obtain rfl := hvalue hused
    exact ⟨start, _, room, next, hplaced, rfl⟩
  · rintro start _ ⟨room, next, hp, rfl⟩ world n m hreach
    have hagree := Predicate.agreeBelow_of_reaches hcompile hequality hreach
    have hreads := Predicate.readsBelow_of_checked hchecked
    have hkinds : ∀ c, c ∈ (Expr.binary op left right).children → c.Admissible →
        c.WellKinded (m.environment host args) := by
      intro c hc hadm
      have hpart' : Expr.Part c guard := Expr.Part.trans (.child hc .self) hpart
      refine hagree.wellKinded (hreads.part hpart') ?_
      refine (hchecked.part hpart').wellKinded hadm (heq.part hpart')
        (Surroundings.respects hargs hfields hhost) (fun name m h => ⟨name, h⟩)
        (fun method type h => h.of_part hpart') fun q d hq => hinner q d (.child hc hq)
    have hadm := hadmissible.part hpart (by simp)
    obtain ⟨-, hadmleft, hadmright⟩ := Expr.admissible_binary.mp hadm
    have hdelivers := Environment.Delivers.ofChain m.stack m.world hop hadm
      (heq.part hpart) (hkinds left (by simp [Expr.children]) hadmleft)
      (hkinds right (by simp [Expr.children]) hadmright) hp
    rw [hagree.eval (hreads.part hpart)] at hdelivers
    cases heval : (Expr.binary op left right).eval (p.environment host args fields) m.world with
    | error e after =>
      rw [heval] at hdelivers
      exact .inr ⟨e, after, rfl, hdelivers⟩
    | ok v after =>
      rw [heval] at hdelivers
      obtain ⟨d, ⟨steps, hsteps⟩, u, hu, hsource, rfl⟩ := hdelivers
      have hlast : (Expr.binary op left right).lastOperand.ReadsBelow 0 :=
        (hreads.part hpart).part (Expr.part_lastOperand _)
      refine .inl ⟨v.isTruthy, u, after, steps, Environment.joins_of_eval hop heval, hsteps, hu, ?_, ?_⟩
      · rw [← hu]
        exact hsource.symm.imp_right (hagree.yields hlast)
      · intro hnormal
        rw [← hu]
        exact hsource.elim (fun h => hnormal hop u (hagree.yields hlast h)) id

/-- The chain `ask(arg1 == 0 || arg0 < arg1) && arg0 < 3`, in which a chain is an argument. -/
def askingChain : Expr :=
  let arg0 : Expr := .member (.arg ⟨0, .i32⟩)
  let arg1 : Expr := .member (.arg ⟨1, .i32⟩)
  .binary .and
    (.call (.method ⟨1, "ask", 1, true⟩)
      [.binary .or (.binary .eq arg1 (.literal (.i32 0))) (.binary .lt arg0 arg1)] .bool)
    (.binary .lt arg0 (.literal (.i32 3)))

/-- The guard `(ask(arg1 == 0 || arg0 < arg1) && arg0 < 3) == (arg1 % 2 == 1)`. -/
def comparingGuard : Expr :=
  .binary .eq askingChain
    (.binary .eq (.binary .rem (.member (.arg ⟨1, .i32⟩)) (.literal (.i32 2))) (.literal (.i32 1)))

theorem recordingHost_returns {method : Method} {type : Ty} (h : comparingGuard.Calls method type) :
    recordingHost.Returns method type := by
  intro implementation args before v after hfind _ hv
  rcases h with ⟨args', hp⟩ | ⟨rfl, op, left, right, hp, -, hm⟩
  · simp only [comparingGuard, askingChain, Expr.part_binary, Expr.part_member, Expr.part_call,
      Expr.part_literal, List.mem_cons, List.not_mem_nil, or_false, exists_eq_left, reduceCtorEq,
      Expr.call.injEq, Callee.method.injEq, false_or] at hp
    obtain ⟨rfl, -, rfl⟩ := hp
    cases hfind
    cases hv
    rfl
  · simp only [comparingGuard, askingChain, Expr.part_binary, Expr.part_member, Expr.part_call,
      Expr.part_literal, List.mem_cons, List.not_mem_nil, or_false, exists_eq_left, reduceCtorEq,
      Expr.binary.injEq, false_or] at hp
    rcases hp with ⟨-, rfl, rfl⟩ | (⟨-, rfl, rfl⟩ | (⟨-, rfl, rfl⟩ | ⟨-, rfl, rfl⟩ | ⟨-, rfl, rfl⟩) |
      ⟨-, rfl, rfl⟩) | ⟨-, rfl, rfl⟩ | ⟨-, rfl, rfl⟩ <;> cases hm

/-- Both chains of the guard end in comparisons of numbers, so the one that is compared is 0 or 1. -/
theorem askingChain_stands_for_outcome :
    ∃ p, Predicate.compile "(ask(arg1 == 0 || arg0 < arg1) && arg0 < 3) == (arg1 % 2 == 1)"
        [.i32, .i32] { methods := [(⟨1, "ask", 1, true⟩, .bool)] } {} = .ok p ∧
      (∃ start final, p.code.Values Expr.defaultDepth askingChain start final) ∧
      ∀ start final, p.code.Values Expr.defaultDepth askingChain start final → ∀ n m,
        Machine.Reaches { code := p.code, host := recordingHost, args := #[.int32 1, .int32 4] }
            (0, .start p.code #[] []) n (start, m) →
          (∃ outcome after steps, Machine.Reaches
            { code := p.code, host := recordingHost, args := #[.int32 1, .int32 4] } (start, m)
            steps (final, { m with stack := .ofBool outcome :: m.stack, world := after })) ∨
          ∃ e after, (m.environment recordingHost #[.int32 1, .int32 4]).Fails p.code (start, m) e
            after := by
  have hcompiles : (Predicate.compile
      "(ask(arg1 == 0 || arg0 < arg1) && arg0 < 3) == (arg1 % 2 == 1)" [.i32, .i32]
      { methods := [(⟨1, "ask", 1, true⟩, .bool)] } {}).toOption.isSome = true := by decide +kernel
  have hparse : Expr.parse (Surroundings.scope { methods := [(⟨1, "ask", 1, true⟩, .bool)] }
      [.i32, .i32]) Expr.defaultDepth
      "(ask(arg1 == 0 || arg0 < arg1) && arg0 < 3) == (arg1 % 2 == 1)" = .ok comparingGuard :=
    Expr.ok_of_toOption (by decide +kernel)
  obtain ⟨p, hcompile⟩ := Predicate.exists_of_isSome hcompiles
  have hequality : Surroundings.EqualitiesProper { methods := [(⟨1, "ask", 1, true⟩, .bool)] }
      [.i32, .i32] := by
    intro type htype method hm
    simp only [Surroundings.types, List.map_cons, List.map_nil, List.cons_append, List.nil_append,
      List.mem_cons, List.not_mem_nil, or_false] at htype
    rcases htype with rfl | rfl | rfl <;> cases hm
  have hchain : askingChain ∈ comparingGuard.children := List.mem_cons_self ..
  have hinner : ∀ q ∈ askingChain.parts, q.isLogical = false → ∀ c ∈ q.children,
      c.isLogical = true → c.lastOperand = .binary .lt (.member (.arg ⟨0, .i32⟩))
        (.member (.arg ⟨1, .i32⟩)) := by decide
  obtain ⟨hplaced, hruns⟩ := chain_value_stands_for_outcome hcompile hparse hequality recordingHost
    (fun _ _ => recordingHost_returns) #[.int32 1, .int32 4] #[] (by decide) (by simp) .self rfl
    hchain rfl
    (fun q c hq hvalue hc hlogical => Environment.normal_of_comparison
      (hinner q (Expr.mem_parts.mpr hq) hvalue c hc hlogical) rfl (by simp) hlogical)
  refine ⟨p, hcompile, hplaced, fun start final hvalues n m hreach => ?_⟩
  rcases hruns start final hvalues [] n m hreach with ⟨outcome, u, after, steps, -, hsteps, -, -, hu⟩ |
    ⟨e, after, -, hfails⟩
  · rw [hu (Environment.normal_of_comparison rfl rfl (by simp))] at hsteps
    exact .inl ⟨outcome, after, steps, hsteps⟩
  · exact .inr ⟨e, after, hfails⟩

/-- The chain `1 && 5` leaves 5 where it holds, so that `(1 && 5) == 1` fails. -/
theorem chain_leaves_five :
    ∃ p, Predicate.compile "(1 && 5) == 1" [] {} {} = .ok p ∧
      p.code.Values Expr.defaultDepth (.binary .and (.literal (.i32 1)) (.literal (.i32 5))) 0 5 ∧
      (p.environment ({} : Host Unit) #[] #[]).Joins .and (.literal (.i32 1)) (.literal (.i32 5)) ()
        true () ∧
      Machine.Reaches { code := p.code, host := ({} : Host Unit), args := #[] }
        (0, .start p.code #[] ()) 4 (5, (Machine.start p.code #[] ()).push (.int32 5)) ∧
      Value.int32 5 ≠ .ofBool true ∧
      (p.runWith ({} : Host Unit) 50 #[] #[] ()).any (·.verdict matches .ok false) := by
  have hcompiles : (Predicate.compile "(1 && 5) == 1" [] {} {}).toOption.any (fun p =>
      decide (p.code.instructions.toList.take 5 = [.loadSmall 1, .branch .ifFalse 7 .short,
        .loadSmall 5, .branch .always 8 .short, .loadSmall 0]) &&
      decide (p.code.target 7 = 4) && decide (p.code.target 8 = 5) &&
      (p.runWith ({} : Host Unit) 50 #[] #[] ()).any (·.verdict matches .ok false)) = true := by
    decide +kernel
  obtain ⟨p, hp, hruns⟩ := (Option.any_eq_true _ _).mp hcompiles
  simp only [Bool.and_eq_true, decide_eq_true_eq] at hruns
  obtain ⟨⟨⟨hfirst, hfalse⟩, hjoin⟩, hverdict⟩ := hruns
  have hcode : ∀ k, k < 5 → p.code.instructions[k]? = [.loadSmall 1, .branch .ifFalse 7 .short,
      .loadSmall 5, .branch .always 8 .short, .loadSmall 0][k]? := by
    intro k hk
    rw [← hfirst, List.getElem?_take_of_lt hk, Array.getElem?_toList]
  refine ⟨p, Expr.ok_of_toOption hp, ⟨Expr.defaultDepth, 6, ?_, rfl⟩, ?_, ?_, by decide, hverdict⟩
  · exact ⟨⟨_, hcode 0 (by decide), rfl⟩, ⟨_, hcode 1 (by decide), rfl⟩,
      ⟨_, hcode 2 (by decide), rfl⟩, ⟨_, hcode 3 (by decide), rfl⟩, hfalse,
      ⟨_, hcode 4 (by decide), rfl⟩, hjoin, trivial⟩
  · exact Environment.joins_of_eval rfl (v := .ofBool true) rfl
  · refine .next (hcode 0 (by decide)) rfl (.next (hcode 1 (by decide)) rfl
      (.next (hcode 2 (by decide)) rfl (.single (hcode 3 (by decide)) ?_)))
    rw [← hjoin]
    rfl

end GuardCode
