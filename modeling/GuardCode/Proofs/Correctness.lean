import GuardCode.Proofs.Acceptance
import GuardCode.Proofs.Emission.Simulation

/-! Compiled guards answer what they mean. A run of the code of `if (guard) return 1; else return 0;`
returns 1 where the guard is truthy, 0 where it is not, and fails as the guard fails. -/
namespace GuardCode

open Machine (Place)

open Directive

/-- A body of a method that returns a value, in which nothing has been written yet. Locals may have
been declared. -/
structure MethodBody.Fresh (body : MethodBody) : Prop where
  assembly : ∃ encoding, body.assembly = .fresh body.assembly.locals encoding
  unfailed : body.failure? = none

namespace MethodBody

theorem fresh_ofSignature {signature : Signature} (h : signature.returnsValue = true)
    (options : Options) : (ofSignature signature options).Fresh where
  assembly := ⟨options.encoding, by simp [ofSignature, Assembly.fresh, h]⟩
  unfailed := rfl

/-- Declaring a local leaves a body fresh. -/
theorem Fresh.declare {body after : MethodBody} {name : String} {type : Ty} {slot : Slot}
    (h : body.Fresh) (hd : declare name type body = .ok slot after) : after.Fresh := by
  obtain ⟨encoding, hassembly⟩ := h.assembly
  unfold MethodBody.declare Assembly.declare at hd
  split at hd
  · rename_i hok
    split at hok
    · cases hok
    · cases hok
      cases hd
      exact ⟨⟨encoding, by rw [hassembly]; rfl⟩, h.unfailed⟩
  · cases hd

end MethodBody

/-- The end of a run answers with the outcome of an evaluation: it returns 1 or 0, or fails with the
same error, whatever instruction that blames. Both leave the same world, so the host has been called
by both alike. -/
def Answers {σ : Type} : EStateM.Result ExecutionError σ Value → Ending → σ → Prop
  | .ok v after, .ok returned, world =>
    returned = some (.int32 (if v.isTruthy then 1 else 0)) ∧ world = after
  | .error e after, .error e', world => e'.plain = e.plain ∧ world = after
  | _, _, _ => False

instance {σ : Type} [DecidableEq σ] (result : EStateM.Result ExecutionError σ Value)
    (ending : Ending) (world : σ) : Decidable (Answers result ending world) :=
  match result, ending with
  | .ok _ _, .ok _ => inferInstanceAs (Decidable (_ ∧ _))
  | .error _ _, .error _ => inferInstanceAs (Decidable (_ ∧ _))
  | .ok _ _, .error _ => .isFalse id
  | .error _ _, .ok _ => .isFalse id

namespace Environment

section

variable {σ : Type} (env : Environment σ) (code : Code)

/-- A run from a place returns the value. -/
def Returns (c : Place σ) (v : Value) (world : σ) : Prop :=
  ∃ d i m, env.Goes code c d ∧ code.instructions[d.1]? = some i ∧
    Machine.step (env.setting code) d.1 i d.2 = .stop (.ok (some v)) m ∧
    m.world = world ∧ m.fields = env.fields

end

variable {σ : Type} {env : Environment σ} {code : Code} {position : Nat} {stack : List Value}
  {world : σ}

/-- A body that answers with a constant. -/
theorem Returns.answering {value : Int32} (hreturns : code.returnsValue = true)
    (hp : Placed code position (Predicate.answering value)) :
    env.Returns code (position, env.machine stack world) (.int32 value) world := by
  obtain ⟨hpush, hret, -⟩ := hp
  refine ⟨_, .ret, env.machine stack world, .pushInt hpush, hret.eq_some rfl, ?_, rfl, rfl⟩
  simp [Machine.step, setting, hreturns, Machine.withTop, machine]

theorem Goes.returns {c d : Place σ} {v : Value} (h : env.Goes code c d)
    (h' : env.Returns code d v world) : env.Returns code c v world := by
  obtain ⟨d', i, m, hd', hrest⟩ := h'
  exact ⟨d', i, m, h.trans hd', hrest⟩

/-- The outcome goes through the local of the block to the body that answers. -/
theorem Returns.ending {result : Nat} {v : Value} (hreturns : code.returnsValue = true)
    (hresult : result < env.locals.size) (hp : Placed code position (IfBlock.ending result)) :
    env.Returns code (position, env.machine (v :: stack) world)
      (.int32 (if v.isTruthy then 1 else 0)) world := by
  obtain ⟨⟨hstore, hload, hjump, -⟩, -, hp⟩ := placed_append.mp hp
  obtain ⟨htrue, -, hmark, hp⟩ := placed_append.mp hp
  obtain ⟨hfalse, -⟩ := placed_append.mp hp
  -- The local is the only one that changes, and the bodies do not read it.
  let after : Environment σ := { env with locals := env.locals.setIfInBounds result v }
  have hstored : env.Goes code (position, env.machine (v :: stack) world)
      (position + 1, after.machine stack world) := by
    refine .step hstore rfl ?_
    simp [Machine.step, Machine.withTop, machine, hresult, after]
  have hloaded : env.Goes code (position + 1, after.machine stack world)
      (position + 2, after.machine (v :: stack) world) := by
    refine .step hload rfl ?_
    simp [Machine.step, machine, hresult, after, Machine.pushSlot, Machine.push]
  have htested : after.Goes code (position + 2, after.machine (v :: stack) world)
      (if v.isTruthy then position + 2 + 1 else code.target 4, after.machine stack world) :=
    .ifFalse hjump
  refine (hstored.trans (hloaded.trans htested)).returns ?_
  cases v.isTruthy with
  | true =>
    have hanswer : after.Returns code (position + 3, after.machine stack world) (.int32 1) world :=
      .answering hreturns htrue
    exact hanswer
  | false =>
    have hanswer : after.Returns code (code.target 4, after.machine stack world) (.int32 0)
        world := by
      rw [hmark]
      exact .answering hreturns hfalse
    exact hanswer

theorem Gathers.mono {onTrue onFalse : Bool} {exits : Exits} {v : Value} {d : Place σ}
    (h : env.Gathers code onTrue onFalse exits position stack v world d) :
    env.Gathers code true true exits position stack v world d :=
  h.imp_right (Or.imp (fun h => ⟨h.1, rfl, h.2.2⟩) fun h => ⟨h.1, rfl, h.2.2⟩)

/-- The code of a guard leaves its outcome on the stack, whichever way it came about. -/
theorem Delivers.gathered {guard : Expr} {limit : Nat} {first : Label} {rest : List Directive}
    (stack : List Value) (world : σ)
    (hguard : guard.Admissible) (heq : guard.EqualitiesProper) (hkinds : guard.WellKinded env)
    (hp : Placed code position (Emission.guard limit guard ⟨first, first + 1⟩ (first + 6) ++
      (Emission.meeting true true ⟨first, first + 1⟩ (first + 2) ++ rest))) :
    ∃ final, Placed code final rest ∧
      final + length rest = position +
        length (Emission.guard limit guard ⟨first, first + 1⟩ (first + 6) ++
          (Emission.meeting true true ⟨first, first + 1⟩ (first + 2) ++ rest)) ∧
      env.Delivers code (position, env.machine stack world) (guard.eval env world)
        fun v after d => ∃ u, u.isTruthy = v.isTruthy ∧ env.Pushes final stack u after d := by
  obtain ⟨hcondition, hp⟩ := placed_append.mp hp
  obtain ⟨hmeeting, hrest⟩ := placed_append.mp hp
  refine ⟨_, hrest, by simp only [length_append]; omega, ?_⟩
  refine (simulates_expr guard hguard heq hkinds (.condition .stack ⟨first, first + 1⟩) limit
    (first + 6) position stack world nofun hcondition).onward ?_
  intro v after d _ hd
  obtain ⟨u, hu, -, hgathers⟩ := hd.gathers
  exact ⟨_, .meeting hmeeting hgathers.mono, u, hu, rfl⟩

theorem placed_answering {limit localCount : Nat} {guard : Expr}
    (hp : Placed code 0 (IfBlock.ofGuard limit guard 0 localCount).answering) :
    Placed code 0 (Emission.guard limit guard ⟨0, 1⟩ 6 ++
      (Emission.meeting true true ⟨0, 1⟩ 2 ++ IfBlock.ending localCount)) := by
  rw [answering_eq] at hp
  exact (placed_append.mp hp).2

/-- The code of a block that answers with the outcome of its guard, from its first instruction on. -/
theorem Delivers.guard {limit localCount : Nat} {guard : Expr} (stack : List Value) (world : σ)
    (hguard : guard.Admissible) (heq : guard.EqualitiesProper) (hkinds : guard.WellKinded env)
    (hp : Placed code 0 (IfBlock.ofGuard limit guard 0 localCount).answering) :
    ∃ final, Placed code final (IfBlock.ending localCount) ∧
      env.Delivers code (0, env.machine stack world) (guard.eval env world)
        fun v after d => ∃ u, u.isTruthy = v.isTruthy ∧ env.Pushes final stack u after d := by
  obtain ⟨final, hending, -, hdelivers⟩ := Delivers.gathered stack world hguard heq hkinds
    (placed_answering hp)
  exact ⟨final, hending, hdelivers⟩

end Environment

/-- The code of a block has a local for the outcome and returns a value. -/
theorem finished_block {locals : Array Ty} {encoding : Encoding} {limit : Nat} {guard : Expr}
    {b : Assembly} {code : Code}
    (hb : Performs (IfBlock.ofGuard limit guard 0 locals.size).answering (.fresh locals encoding) b)
    (hfinish : b.finish = .ok code) :
    locals.size < code.locals.size ∧ code.returnsValue = true := by
  obtain ⟨-, -, -, hlocals, -, hreturns⟩ := Assembly.finish_eq_ok hfinish
  refine ⟨?_, hreturns.trans (hb.returnsValue rfl)⟩
  rw [answering_eq] at hb
  obtain ⟨c, hc, hb⟩ := Directive.performs_append.mp hb
  obtain ⟨-, rfl⟩ := performs_labelling.mp hc
  have hle := hb.localCount_le rfl
  rw [hlocals]
  exact Nat.lt_of_lt_of_le (by simp [Assembly.labelled]) hle

/-- A run of a compiled guard answers with the outcome of the guard. -/
theorem guard_code_answers {σ : Type} {body : MethodBody} (hbody : body.Fresh) {guard : Expr}
    (heq : guard.EqualitiesProper) {code : Code}
    (hcode : (body.ifElse guard (Predicate.answer 1) (Predicate.answer 0)).1.finish = .ok code)
    (env : Environment σ) (hlocals : env.locals.size = code.locals.size)
    (hkinds : guard.WellKinded env) (stack : List Value) (world : σ) :
    ∃ steps ending m, Answers (guard.eval env world) ending m.world ∧ m.fields = env.fields ∧
      ∀ fuel, steps ≤ fuel →
        Machine.run (env.setting code) fuel (env.machine stack world) = some (ending, m) := by
  obtain ⟨encoding, hassembly⟩ := hbody.assembly
  obtain ⟨b, hb, hfinish⟩ := (MethodBody.ifElse_finish_iff guard hbody.unfailed).mp hcode
  unfold MethodBody.block at hb
  generalize body.assembly.locals = locals at hassembly hb
  rw [hassembly] at hb
  obtain ⟨hresult, hreturns⟩ := finished_block hb hfinish
  obtain ⟨final, hending, hdelivers⟩ := Environment.Delivers.guard stack world
    (admissible_of_accepted locals heq hb).2 heq hkinds (hb.placed rfl hfinish)
  cases hr : guard.eval env world with
  | ok v after =>
    rw [hr] at hdelivers
    obtain ⟨d, hgoes, u, hu, rfl⟩ := hdelivers
    obtain ⟨⟨position, m₁⟩, i, m, ⟨n, hreach⟩, hi, hs, hworld, hfields⟩ :=
      hgoes.returns (.ending hreturns (hlocals ▸ hresult) hending)
    rw [hu] at hs
    refine ⟨n + 1, .ok (some _), m, ⟨rfl, hworld⟩, hfields, fun fuel hfuel => ?_⟩
    exact Machine.run_of_reaches rfl hreach hi hs hfuel
  | error e after =>
    rw [hr] at hdelivers
    obtain ⟨⟨position, m₁⟩, i, e', m, ⟨n, hreach⟩, hi, hs, he, hworld, hfields, -⟩ := hdelivers
    refine ⟨n + 1, .error e', m, ⟨he, hworld⟩, hfields, fun fuel hfuel => ?_⟩
    exact Machine.run_of_reaches rfl hreach hi hs hfuel

/-- The guard `(arg0 != arg1 || arg2 >= arg3) == ask(loc0)`, in which `arg0` and `arg1` are of a class
that decides equality by a method. -/
def askingGuard : Expr :=
  let node : Ty := .named "Node" (some ⟨0, "same", 2, true⟩)
  .binary .eq
    (.binary .or (.binary .ne (.member (.arg ⟨0, node⟩)) (.member (.arg ⟨1, node⟩)))
      (.binary .ge (.member (.arg ⟨2, .f64⟩)) (.member (.arg ⟨3, .f64⟩))))
    (.call (.method ⟨1, "ask", 1, true⟩) [.member (.loc ⟨0, .i32⟩)] .bool)

/-- A host whose world is the list of the calls that were made. -/
def recordingHost : Host (List (Nat × List Value)) :=
  Host.register (Host.register {} 0 fun args calls =>
      .ok (some (.ofBool (args.take 1 == args.drop 1))) (calls ++ [(0, args)]))
    1 fun args calls => .ok (some (.ofBool false)) (calls ++ [(1, args)])

/-- Two equal nodes and floats that are not ordered. -/
def askingEnvironment : Environment (List (Nat × List Value)) where
  host := recordingHost
  args := #[.object 1, .object 1, .float64 .nan, .float64 (.zero false)]
  locals := #[.int32 5, .int32 0]
  fields := #[]

theorem askingGuard_equalitiesProper : askingGuard.EqualitiesProper := by
  intro op left right method hp hop hm
  simp only [askingGuard, Expr.part_binary, Expr.part_member, Expr.part_call, List.mem_cons,
    List.not_mem_nil, or_false, exists_eq_left, Expr.binary.injEq, reduceCtorEq] at hp
  rcases hp with ⟨rfl, rfl, rfl⟩ | ⟨rfl, rfl, rfl⟩ | ⟨rfl, rfl, rfl⟩ | ⟨rfl, rfl, rfl⟩
  · cases hm
  · simp at hop
  · cases hm
    exact ⟨rfl, rfl⟩
  · simp at hop

theorem askingGuard_wellKinded : askingGuard.WellKinded askingEnvironment where
  operands op left right hp hop := by
    simp only [askingGuard, Expr.part_binary, Expr.part_member, Expr.part_call, List.mem_cons,
      List.not_mem_nil, or_false, exists_eq_left, Expr.binary.injEq, reduceCtorEq] at hp
    rcases hp with ⟨rfl, rfl, rfl⟩ | ⟨rfl, rfl, rfl⟩ | ⟨rfl, rfl, rfl⟩ | ⟨rfl, rfl, rfl⟩
    · constructor <;> rintro v ⟨before, after, h⟩ <;> cases h <;> exact ⟨rfl, rfl⟩
    · cases hop
    · constructor <;> rintro v ⟨before, after, h⟩ <;> cases h <;> exact ⟨rfl, rfl⟩
    · constructor <;> rintro v ⟨before, after, h⟩ <;> cases h <;> exact ⟨rfl, rfl⟩
  differences left right method hp hm a b before v after h := by
    simp only [askingGuard, Expr.part_binary, Expr.part_member, Expr.part_call, List.mem_cons,
      List.not_mem_nil, or_false, exists_eq_left, Expr.binary.injEq, reduceCtorEq, false_and,
      false_or, true_and] at hp
    obtain ⟨rfl, rfl⟩ := hp
    cases hm
    cases h
    exact ⟨_, rfl⟩
  chains p c v hp hlogical hc hchain hv := by
    simp only [askingGuard, Expr.part_binary, Expr.part_member, Expr.part_call, List.mem_cons,
      List.not_mem_nil, or_false, exists_eq_left] at hp
    rcases hp with rfl | (rfl | (rfl | rfl | rfl) | (rfl | rfl | rfl)) | rfl | rfl <;>
      simp only [Expr.children, List.mem_cons, List.not_mem_nil, or_false] at hc
    · rcases hc with rfl | rfl
      · obtain ⟨before, after, h⟩ := hv
        cases h
        rfl
      · cases hchain
    · cases hlogical
    · rcases hc with rfl | rfl <;> cases hchain
    · rcases hc with rfl | rfl <;> cases hchain
    · cases hc
      cases hchain

/-- A body in which a local was declared. -/
def askingBody : MethodBody :=
  let start := MethodBody.ofSignature (.predicate []) {}
  { start with
    assembly := .fresh #[.i32] .auto
    scope := start.scope.addNamedLocal "n" ⟨0, .i32⟩ }

/-- The run asks whether the nodes are the same, then asks about the local, and returns 1. -/
theorem askingGuard_answers :
    ∃ code, (askingBody.ifElse askingGuard (Predicate.answer 1) (Predicate.answer 0)).1.finish =
        .ok code ∧
      ∃ steps m, m.world = [(0, [.object 1, .object 1]), (1, [.int32 5])] ∧ ∀ fuel, steps ≤ fuel →
        Machine.run (askingEnvironment.setting code) fuel (askingEnvironment.machine [] []) =
          some (.ok (some (.int32 1)), m) := by
  have hdeclared : MethodBody.declare "n" .i32 (.ofSignature (.predicate []) {}) =
      .ok ⟨0, .i32⟩ askingBody := rfl
  have hlocals : (askingBody.ifElse askingGuard (Predicate.answer 1)
      (Predicate.answer 0)).1.finish.toOption.map (·.locals.size) = some 2 := by decide +kernel
  cases hcode : (askingBody.ifElse askingGuard (Predicate.answer 1) (Predicate.answer 0)).1.finish with
  | error e =>
    rw [hcode] at hlocals
    cases hlocals
  | ok code =>
    rw [hcode] at hlocals
    obtain ⟨steps, ending, m, hanswers, -, hrun⟩ := guard_code_answers
      ((MethodBody.fresh_ofSignature rfl {}).declare hdeclared) askingGuard_equalitiesProper hcode
      askingEnvironment (Option.some.inj hlocals).symm askingGuard_wellKinded [] []
    cases ending with
    | ok returned =>
      obtain ⟨rfl, hworld⟩ := hanswers
      exact ⟨code, rfl, steps, m, hworld, hrun⟩
    | error e => exact hanswers.elim
/-! ## Values of other kinds -/

/-- Some run of a compiled guard does not answer with the outcome of the guard. -/
def AnsweredOtherwise {σ : Type} (guard : Expr) (env : Environment σ) (world : σ) : Prop :=
  ∃ code fuel ending m, ((MethodBody.ofSignature (.predicate []) {}).ifElse guard
      (Predicate.answer 1) (Predicate.answer 0)).1.finish = .ok code ∧
    Machine.run (env.setting code) fuel (env.machine [] world) = some (ending, m) ∧
    ¬ Answers (guard.eval env world) ending m.world

theorem answeredOtherwise_of_run {σ : Type} [DecidableEq σ] {guard : Expr} {env : Environment σ}
    {world : σ} (fuel : Nat)
    (h : (((MethodBody.ofSignature (.predicate []) {}).ifElse guard (Predicate.answer 1)
      (Predicate.answer 0)).1.finish.toOption.bind fun code =>
        Machine.run (env.setting code) fuel (env.machine [] world)).any
          (fun last => !decide (Answers (guard.eval env world) last.1 last.2.world)) = true) :
    AnsweredOtherwise guard env world := by
  obtain ⟨⟨ending, m⟩, hlast, hanswers⟩ := (Option.any_eq_true _ _).mp h
  obtain ⟨code, hcode, hrun⟩ := Option.bind_eq_some_iff.mp hlast
  refine ⟨code, fuel, ending, m, ?_, hrun, by simpa using hanswers⟩
  cases hfinish : ((MethodBody.ofSignature (.predicate []) {}).ifElse guard (Predicate.answer 1)
      (Predicate.answer 0)).1.finish with
  | ok code' =>
    rw [hfinish] at hcode
    cases hcode
    rfl
  | error e =>
    rw [hfinish] at hcode
    cases hcode

/-- Where a guard is evaluated with nothing but arguments and a host. -/
def plainEnvironment (host : Host (List (Nat × List Value))) (args : Array Value) :
    Environment (List (Nat × List Value)) where
  host := host
  args := args
  locals := #[.int32 0]
  fields := #[]

/-- A method that records its call and returns a constant. -/
def recording (id : Nat) (result : Value) : HostMethod (List (Nat × List Value)) := fun args calls =>
  .ok (some result) (calls ++ [(id, args)])

/-- Guards are answered otherwise where they compare values of other kinds than their types say, use
a chain as a value that does not end in 0 or 1, or have equality methods that return no int32 or take
other than two objects: `arg0 >= arg1` of integers that are declared as floats, `(1 && 5) == 1`,
`arg0 != arg1` by a method that returns an int64, and `arg2 == (arg0 == arg1)` by methods of three
and of one parameter. -/
theorem unkinded_guards_answered_otherwise :
    AnsweredOtherwise (.binary .ge (.member (.arg ⟨0, .f64⟩)) (.member (.arg ⟨1, .f64⟩)))
        (plainEnvironment {} #[.int32 (-1), .int32 0]) [] ∧
      AnsweredOtherwise (.binary .eq (.binary .and (.literal (.i32 1)) (.literal (.i32 5)))
        (.literal (.i32 1))) (plainEnvironment {} #[]) [] ∧
      AnsweredOtherwise (.binary .ne
          (.member (.arg ⟨0, .named "Node" (some ⟨0, "same", 2, true⟩)⟩))
          (.member (.arg ⟨1, .named "Node" (some ⟨0, "same", 2, true⟩)⟩)))
        (plainEnvironment (Host.register {} 0 (recording 0 (.int64 1))) #[.object 1, .object 2]) [] ∧
      AnsweredOtherwise (.binary .eq
          (.member (.arg ⟨2, .named "Tree" (some ⟨1, "alike", 3, true⟩)⟩))
          (.binary .eq (.member (.arg ⟨0, .named "Node" (some ⟨0, "same", 1, true⟩)⟩))
            (.member (.arg ⟨1, .named "Node" (some ⟨0, "same", 1, true⟩)⟩))))
        (plainEnvironment (Host.register (Host.register {} 0 (recording 0 (.int32 1))) 1
          (recording 1 (.int32 1))) #[.object 1, .object 2, .object 3]) [] :=
  ⟨answeredOtherwise_of_run 20 (by decide +kernel), answeredOtherwise_of_run 20 (by decide +kernel),
    answeredOtherwise_of_run 20 (by decide +kernel), answeredOtherwise_of_run 20 (by decide +kernel)⟩

end GuardCode
