import GuardCode.Proofs.Correctness
import GuardCode.Proofs.Emission.Safety
import GuardCode.Proofs.Reading.Checked

/-! Guards that were compiled from text are sound. Where the values that a guard is given are of the
kinds that their types say, no run finds operands of the wrong kinds or lacks anything: it gives a
verdict, unless it divides by zero, overflows, is failed by the host or is stopped by a limit. -/
namespace GuardCode

open Machine (Place)

open Directive

/-! ## The names around a guard -/

namespace Surroundings

variable {around : Surroundings} {params : List Ty} {name : String} {m : Member}

/-- The scope in which a guard is read; what was added last is found first. -/
def scope (around : Surroundings) (params : List Ty) : Scope where
  args := params
  names := around.fields.reverse.map fun field => (field.name, .field field)
  methods := around.methods.reverse

/-- The types of all that a guard can name. -/
def types (around : Surroundings) (params : List Ty) : List Ty :=
  params ++ around.fields.map Field.type ++ around.methods.map Prod.snd

/-- The methods by which classes decide equality compare two objects and return the outcome. -/
def EqualitiesProper (around : Surroundings) (params : List Ty) : Prop :=
  ∀ type ∈ around.types params, ∀ method, type.equality? = some method →
    method.arity = 2 ∧ method.returnsValue

/-- A name stands for an argument or for a field. -/
theorem resolve?_cases (h : (around.scope params).resolve? name = some m) :
    (∃ i type, params[i]? = some type ∧ m = .arg ⟨i, type⟩) ∨
      ∃ field ∈ around.fields, m = .field field := by
  simp only [Scope.resolve?] at h
  split at h
  · next member hlookup =>
    cases h
    obtain ⟨before, after, hnames, -⟩ := List.lookup_eq_some_iff.mp hlookup
    have hmem : (name, m) ∈ (around.scope params).names := by simp [hnames]
    obtain ⟨field, hfield, heq⟩ := List.mem_map.mp hmem
    cases heq
    exact .inr ⟨field, List.mem_reverse.mp hfield, rfl⟩
  · split at h
    · next index _ =>
      obtain ⟨type, htype, rfl⟩ := Option.map_eq_some_iff.mp h
      exact .inl ⟨index, type, htype, rfl⟩
    · split at h <;> cases h

theorem mem_of_method? {method : Method} {type : Ty}
    (h : (around.scope params).method? name = some (method, type)) :
    (method, type) ∈ around.methods :=
  List.mem_reverse.mp (List.mem_of_find?_eq_some h)

/-- The classes on which a guard compares are among the types that it can name. -/
theorem EqualitiesProper.of_checked {guard : Expr} (h : around.EqualitiesProper params)
    (hguard : guard.Checked (around.scope params)) : guard.EqualitiesProper := by
  have htype : ∀ {e : Expr} {method}, e.Checked (around.scope params) →
      e.type.equality? = some method → method.arity = 2 ∧ method.returnsValue := by
    intro e method he hm
    refine h e.type ?_ method hm
    rw [types, List.append_assoc]
    rcases he.declared hm with ⟨name, m, hresolve, hmtype⟩ | ⟨name, m, hmethod⟩
    · rw [← hmtype]
      rcases resolve?_cases hresolve with ⟨i, type, hi, rfl⟩ | ⟨field, hfield, rfl⟩
      · exact List.mem_append_left _ (List.mem_of_getElem? hi)
      · exact List.mem_append_right _ (List.mem_append_left _ (List.mem_map_of_mem hfield))
    · exact List.mem_append_right _ (List.mem_append_right _
        (List.mem_map_of_mem (mem_of_method? hmethod)))
  intro op left right method hp _ hm
  have hbinary := hguard.part hp
  rcases Expr.comparisonType_eq left right with heq | heq
  · exact htype (hbinary.child (by simp [Expr.children])) (heq ▸ hm)
  · exact htype (hbinary.child (by simp [Expr.children])) (heq ▸ hm)

end Surroundings

/-! ## Compilation -/

namespace MethodBody

theorem foldl_addField (fields : List Field) (body : MethodBody) :
    fields.foldl addField body = { body with scope := { body.scope with
      names := fields.reverse.map (fun field => (field.name, .field field)) ++
        body.scope.names } } := by
  induction fields generalizing body with
  | nil => rfl
  | cons field fields ih =>
    rw [List.foldl_cons, ih]
    simp [addField, Scope.addField]

theorem foldl_addMethod (methods : List (Method × Ty)) (body : MethodBody) :
    methods.foldl (fun b (method, returns) => b.addMethod method returns) body =
      { body with scope := { body.scope with
        methods := methods.reverse ++ body.scope.methods } } := by
  induction methods generalizing body with
  | nil => rfl
  | cons method methods ih =>
    rw [List.foldl_cons, ih]
    simp [addMethod, Scope.addMethod]

end MethodBody

namespace Predicate

variable {source : String} {params : List Ty} {around : Surroundings} {options : Options}
  {p : Predicate} {guard : Expr}

/-- The body of a predicate before its guard is written. -/
def opening (params : List Ty) (around : Surroundings) (options : Options) : MethodBody :=
  { MethodBody.ofSignature (.predicate params) options with scope := around.scope params }

theorem fresh_opening : (opening params around options).Fresh :=
  have h : (MethodBody.ofSignature (.predicate params) options).Fresh :=
    MethodBody.fresh_ofSignature rfl options
  ⟨h.assembly, h.unfailed⟩

theorem body_eq_ifGuard (source : String) (params : List Ty) (around : Surroundings)
    (options : Options) :
    body source params around options =
      ((opening params around options).ifGuard source (answer 1) (answer 0)).1 := by
  have hopening : around.methods.foldl (fun b (method, returns) => b.addMethod method returns)
      (around.fields.foldl MethodBody.addField
        (MethodBody.ofSignature (.predicate params) options)) = opening params around options := by
    rw [MethodBody.foldl_addField, MethodBody.foldl_addMethod]
    simp [opening, Surroundings.scope, MethodBody.ofSignature, Scope.ofArgs, Signature.predicate]
  simp only [body, hopening]

theorem body_eq (h : Expr.parse (around.scope params) options.maxDepth source = .ok guard) :
    body source params around options =
      ((opening params around options).ifElse guard (answer 1) (answer 0)).1 := by
  have hparse : Expr.parse (opening params around options).scope
      (opening params around options).options.maxDepth source = .ok guard := h
  rw [body_eq_ifGuard, MethodBody.ifGuard, hparse]

theorem compile_eq_ok (h : compile source params around options = .ok p) :
    (body source params around options).finish = .ok p.code ∧
      p.signature = .predicate params := by
  obtain ⟨code, hcode, h⟩ := Reading.bind_ok h
  cases h
  exact ⟨hcode, rfl⟩

end Predicate

/-! ## Arguments -/

/-- Text is read as a value of the kind of its type. -/
theorem Value.isOf_of_read? {type : Ty} {text : String} {v : Value} (h : read? type text = some v) :
    v.IsOf type := by
  have hint : ∀ {least greatest cs}, readInt32? least greatest cs = some v →
      StackKind.int32 = v.stackKind := by
    intro least greatest cs h
    obtain ⟨n, -, rfl⟩ := Option.map_eq_some_iff.mp h
    rfl
  unfold IsOf
  cases type with
  | void => cases h
  | u8 | i8 | i16 | u16 | i32 => exact congrArg some (hint h)
  | bool =>
    simp only [read?] at h
    split at h
    · cases h
      rfl
    · split at h
      · cases h
        rfl
      · cases h
  | char =>
    simp only [read?] at h
    split at h
    · cases h
      rfl
    · cases h
  | i64 | f32 | f64 =>
    simp only [read?] at h
    obtain ⟨n, -, rfl⟩ := Option.map_eq_some_iff.mp h
    rfl
  | string =>
    simp only [read?, Option.some.injEq] at h
    split at h <;> subst h <;> rfl
  | object | named =>
    simp only [read?] at h
    split at h
    · cases h
      rfl
    · obtain ⟨n, -, rfl⟩ := Option.map_eq_some_iff.mp h
      rfl

/-- Values that are read one by one are of the kinds of the types with which they are read. -/
theorem Value.areOf_mapM {ε α : Type} {f : α → Except ε Value} {type : α → Ty}
    (hf : ∀ a v, f a = .ok v → v.IsOf (type a)) {entries : List α} {values : List Value}
    (h : entries.mapM f = .ok values) : AreOf values (entries.map type) := by
  induction entries generalizing values with
  | nil =>
    cases h
    rfl
  | cons a entries ih =>
    rw [List.mapM_cons] at h
    obtain ⟨v, hv, h⟩ := Reading.bind_ok h
    obtain ⟨vs, hvs, h⟩ := Reading.bind_ok h
    cases h
    exact areOf_cons.mpr ⟨hf a v hv, ih hvs⟩

theorem Predicate.areOf_readArgs {p : Predicate} {texts : List String} {args : Array Value}
    (h : p.readArgs texts = .ok args) : Value.AreOf args.toList p.signature.params := by
  unfold readArgs at h
  split at h
  · cases h
  · next hlength =>
    obtain ⟨values, hvalues, h⟩ := Reading.bind_ok h
    cases h
    have hread : Value.AreOf values ((texts.zip p.signature.params).zipIdx.map (·.1.2)) := by
      refine Value.areOf_mapM (fun entry v hv => ?_) hvalues
      obtain ⟨⟨text, type⟩, index⟩ := entry
      cases hvalue : Value.read? type text with
      | some u =>
        simp only [hvalue] at hv
        cases hv
        exact Value.isOf_of_read? hvalue
      | none =>
        simp only [hvalue] at hv
        cases hv
    have htypes : (texts.zip p.signature.params).zipIdx.map (·.1.2) = p.signature.params := by
      have hzip : (texts.zip p.signature.params).map Prod.snd = p.signature.params :=
        List.map_snd_zip (Nat.le_of_eq (Classical.not_not.mp hlength).symm)
      rw [← List.zipIdx_map_fst 0 (texts.zip p.signature.params), List.map_map] at hzip
      exact hzip
    exact htypes ▸ hread

/-! ## Runs -/

namespace Environment

variable {σ : Type} {env : Environment σ} {known : Vocabulary} {code : Code}

/-- The outcome of a typed guard comes to where it is answered. -/
theorem Proceeds.guard {limit localCount : Nat} {guard : Expr} (stack : List Value) (world : σ)
    (henv : env.Serves known) (hguard : guard.Typed known)
    (hp : Placed code 0 (IfBlock.ofGuard limit guard 0 localCount).answering) :
    ∃ final, Placed code final (IfBlock.ending localCount) ∧
      env.Proceeds known code (0, env.machine stack world)
        fun d => ∃ v after, env.Pushes final stack v after d := by
  obtain ⟨hcondition, hp⟩ := placed_append.mp (placed_answering hp)
  obtain ⟨hmeeting, hending⟩ := placed_append.mp hp
  refine ⟨_, hending, ?_⟩
  refine (safe_of_typed henv hguard (.condition .stack ⟨0, 1⟩) limit 6 0 stack world
    hcondition).bind fun d hd => ?_
  obtain ⟨v, after, -, hgathers⟩ := hd.gathers
  exact .inl ⟨_, Goes.meeting hmeeting hgathers.mono, v, after, rfl⟩

/-- A run ends with a value, or with an error that has an excuse. -/
def Concludes (env : Environment σ) (known : Vocabulary) (code : Code) (c : Place σ) : Prop :=
  ∃ d i ending m, env.Goes code c d ∧ code.instructions[d.1]? = some i ∧
    Machine.step (env.setting code) d.1 i d.2 = .stop ending m ∧
    ((∃ v, ending = .ok (some v)) ∨
      ∃ e, ending = .error e ∧ Machine.Excuses env.host known.calls i d.2 e m.world)

/-- The code of a typed guard concludes. -/
theorem concludes_of_typed {body : MethodBody} (hbody : body.Fresh) {guard : Expr}
    (heq : guard.EqualitiesProper)
    (hcode : (body.ifElse guard (Predicate.answer 1) (Predicate.answer 0)).1.finish = .ok code)
    (hlocals : env.locals.size = code.locals.size) (henv : env.Serves known)
    (hguard : guard.Admissible → guard.Typed known) (stack : List Value) (world : σ) :
    env.Concludes known code (0, env.machine stack world) := by
  obtain ⟨encoding, hassembly⟩ := hbody.assembly
  obtain ⟨b, hb, hfinish⟩ := (MethodBody.ifElse_finish_iff guard hbody.unfailed).mp hcode
  unfold MethodBody.block at hb
  generalize body.assembly.locals = locals at hassembly hb
  rw [hassembly] at hb
  obtain ⟨hresult, hreturns⟩ := finished_block hb hfinish
  obtain ⟨final, hending, hproceeds⟩ := Proceeds.guard stack world henv
    (hguard (admissible_of_accepted locals heq hb).2) (hb.placed rfl hfinish)
  rcases hproceeds with ⟨d, hd, v, after, rfl⟩ | ⟨d, i, e, m, hd, hi, hs, hexcuse⟩
  · obtain ⟨d, i, m, hd, hi, hs, -⟩ :=
      hd.returns (.ending hreturns (hlocals ▸ hresult) hending)
    exact ⟨d, i, _, m, hd, hi, hs, .inl ⟨_, rfl⟩⟩
  · exact ⟨d, i, _, m, hd, hi, hs, .inr ⟨e, rfl, hexcuse⟩⟩

end Environment

namespace Predicate

section

variable {σ : Type} (p : Predicate) (host : Host σ) (args fields : Array Value)

/-- The predicate with a limit on the steps of its runs, or with none. -/
def limited (limit? : Option Nat) : Predicate := { p with maxSteps? := limit? }

/-- What a run of a predicate can reach: its locals start at the zero values of their types. -/
def environment : Environment σ :=
  { host, args, locals := p.code.locals.map Value.zero, fields }

/-- What a run may come to: a verdict, an error with an excuse of an instruction that the run has
come to, or that the limit on its steps is used up. -/
def Sound (calls : Method → Ty → Prop) (world : σ) (result : Result σ) : Prop :=
  (∃ holds, result.verdict = .ok holds) ∨
    (∃ e n position m i, result.verdict = .error (.execution e) ∧
      Machine.Reaches { code := p.code, host, args } (0, .start p.code fields world) n
        (position, m) ∧
      p.code.instructions[position]? = some i ∧
      Machine.Excuses host calls i m e result.world) ∨
    ∃ limit, p.maxSteps? = some limit ∧
      result.verdict = .error (.execution (.stepLimitExceeded limit))

end

variable {σ : Type} {p : Predicate} {host : Host σ} {args fields : Array Value}

/-- A run of code that concludes, with or without a limit on its steps. -/
theorem sound_of_concludes {known : Vocabulary} {world : σ}
    (hsize : args.size = p.signature.params.length)
    (h : (p.environment host args fields).Concludes known p.code
      (0, (p.environment host args fields).machine [] world)) :
    ∃ steps result, p.Sound host args fields known.calls world result ∧ ∀ fuel, steps ≤ fuel →
      p.runWith host fuel args fields world = some result := by
  obtain ⟨⟨position, m₁⟩, i, ending, m, ⟨n, hreach⟩, hi, hs, hending⟩ := h
  let setting : Setting σ := { code := p.code, host, args, maxSteps? := p.maxSteps? }
  have hrun : ∃ last : Ending × Machine σ, (last = (ending, m) ∨ ∃ limit,
        p.maxSteps? = some limit ∧ last.1 = .error (.stepLimitExceeded limit)) ∧
      ∀ fuel, n < fuel → (Machine.start p.code fields world).run setting fuel = some last :=
    Machine.resume_under_limit (hreach.limited p.maxSteps?) hi hs
  obtain ⟨last, hlast, hrun⟩ := hrun
  refine ⟨n + 1, ⟨verdict last.1, last.2.fields, last.2.world⟩, ?_, fun fuel hfuel => ?_⟩
  · rcases hlast with rfl | ⟨limit, hlimit, hlast⟩
    · rcases hending with ⟨v, rfl⟩ | ⟨e, rfl, hexcuse⟩
      · exact .inl ⟨_, rfl⟩
      · exact .inr (.inl ⟨e, n, position, m₁, i, rfl, hreach, hi, hexcuse⟩)
    · exact .inr (.inr ⟨limit, hlimit, congrArg verdict hlast⟩)
  · rw [runWith, if_neg (Classical.not_not.mpr hsize)]
    exact (congrArg (Option.map _) (hrun fuel hfuel)).trans rfl

end Predicate

/-- What a guard can read and call. -/
def Surroundings.vocabulary (around : Surroundings) (params : List Ty) (guard : Expr) :
    Vocabulary where
  members m := ∃ name, (around.scope params).resolve? name = some m
  calls := guard.Calls

theorem Surroundings.serves {σ : Type} {around : Surroundings} {params : List Ty} {guard : Expr}
    {env : Environment σ} (hargs : Value.AreOf env.args.toList params)
    (hfields : ∀ field ∈ around.fields, ∃ v, env.fields[field.index]? = some v ∧
      v.IsOf field.type)
    (hhost : ∀ method type, guard.Calls method type → env.host.Honours method type) :
    env.Serves (around.vocabulary params guard) := by
  refine ⟨?_, hhost⟩
  rintro m ⟨name, hresolve⟩
  rcases resolve?_cases hresolve with ⟨i, type, hi, rfl⟩ | ⟨field, hfield, rfl⟩
  · obtain ⟨v, hv, htype⟩ := hargs.get hi
    refine ⟨v, ?_, htype⟩
    rw [Array.getElem?_toList] at hv
    simp only [Environment.load, hv, Environment.fetch]
  · obtain ⟨v, hv, htype⟩ := hfields field hfield
    refine ⟨v, ?_, htype⟩
    simp only [Environment.load, hv, Environment.fetch]

/-- A guard that was compiled from text is sound on values of the kinds that their types say. -/
theorem compiled_guard_sound {σ : Type} {source : String} {params : List Ty}
    {around : Surroundings} {options : Options} {p : Predicate} {guard : Expr}
    (hcompile : Predicate.compile source params around options = .ok p)
    (hparse : Expr.parse (around.scope params) options.maxDepth source = .ok guard)
    (hequality : around.EqualitiesProper params) (hrestrained : guard.Restrained)
    (host : Host σ) (hhost : ∀ method type, guard.Calls method type → host.Honours method type)
    (args fields : Array Value)
    (hargs : (∃ texts, p.readArgs texts = .ok args) ∨ Value.AreOf args.toList params)
    (hfields : ∀ field ∈ around.fields, ∃ v, fields[field.index]? = some v ∧ v.IsOf field.type)
    (limit? : Option Nat) (world : σ) :
    ∃ steps result, (p.limited limit?).Sound host args fields guard.Calls world result ∧
      ∀ fuel, steps ≤ fuel →
        (p.limited limit?).runWith host fuel args fields world = some result := by
  obtain ⟨hcode, hsignature⟩ := Predicate.compile_eq_ok hcompile
  rw [Predicate.body_eq hparse] at hcode
  have hkinds : Value.AreOf args.toList params := by
    rcases hargs with ⟨texts, hread⟩ | hkinds
    · have hkinds := Predicate.areOf_readArgs hread
      rwa [hsignature] at hkinds
    · exact hkinds
  have hsize : args.size = (p.limited limit?).signature.params.length := by
    rw [Predicate.limited, hsignature, ← Array.length_toList]
    exact hkinds.length_eq
  obtain ⟨-, _, n, -, hnode, rfl⟩ := Expr.parse_eq_ok.mp hparse
  have hchecked := Reading.checked_node hnode
  have heq := hequality.of_checked hchecked
  have htyped : n.expr.Admissible → n.expr.Typed (around.vocabulary params n.expr) :=
    fun hadmissible => hchecked.typed hadmissible heq hrestrained (fun name m h => ⟨name, h⟩)
      fun _ _ h => h
  have hconcludes : ((p.limited limit?).environment host args fields).Concludes
      (around.vocabulary params n.expr) (p.limited limit?).code
      (0, ((p.limited limit?).environment host args fields).machine [] world) :=
    Environment.concludes_of_typed Predicate.fresh_opening heq hcode
      (by simp [Predicate.environment, Predicate.limited])
      (Surroundings.serves hkinds hfields hhost) htyped [] world
  exact Predicate.sound_of_concludes hsize hconcludes

/-- The class of nodes, which are compared by the method `same`. -/
def nodeType : Ty := .named "Node" (some ⟨0, "same", 2, true⟩)

/-- A field `root` that holds a node, and a method `ask`. -/
def rootedSurroundings : Surroundings where
  fields := [⟨0, "root", nodeType⟩]
  methods := [(⟨1, "ask", 1, true⟩, .bool)]

/-- The guard `(arg2 != root || ask(arg0)) == (arg0 % arg1 < @add(arg1, 2))`. -/
def rootedGuard : Expr :=
  let arg0 : Expr := .member (.arg ⟨0, .i32⟩)
  let arg1 : Expr := .member (.arg ⟨1, .i32⟩)
  .binary .eq
    (.binary .or
      (.binary .ne (.member (.arg ⟨2, nodeType⟩)) (.member (.field ⟨0, "root", nodeType⟩)))
      (.call (.method ⟨1, "ask", 1, true⟩) [arg0] .bool))
    (.binary .lt (.binary .rem arg0 arg1)
      (.call (.capability .add) [arg1, .literal (.i32 2)] .i32))

/-- A host that counts its calls. It answers with 5, and not at all about numbers below zero. -/
def countingHost : Host Nat :=
  Host.register (Host.register {} 0 fun args calls =>
      .ok (some (.ofBool (args.take 1 == args.drop 1))) (calls + 1))
    1 fun args calls =>
      match args with
      | [.int32 n] => if n < 0 then .error .overflow calls else .ok (some (.int32 5)) (calls + 1)
      | _ => .error (.badHostReturn "ask") calls

theorem countingHost_honours {method : Method} {type : Ty} (h : rootedGuard.Calls method type) :
    countingHost.Honours method type := by
  rcases h with ⟨args, hp⟩ | ⟨rfl, op, left, right, hp, hop, hm⟩
  · simp only [rootedGuard, Expr.part_binary, Expr.part_member, Expr.part_call, Expr.part_literal,
      List.mem_cons, List.not_mem_nil, or_false, exists_eq_left, exists_eq_or_imp, reduceCtorEq,
      Expr.call.injEq, Callee.method.injEq, false_and, false_or] at hp
    obtain ⟨rfl, -, rfl⟩ := hp
    refine ⟨_, rfl, fun args before _ => ?_⟩
    split
    · next result? after hresult =>
      split at hresult
      · split at hresult
        · cases hresult
        · cases hresult
          exact ⟨_, rfl, rfl⟩
      · cases hresult
    · trivial
  · simp only [rootedGuard, Expr.part_binary, Expr.part_member, Expr.part_call, Expr.part_literal,
      List.mem_cons, List.not_mem_nil, or_false, exists_eq_left, exists_eq_or_imp, reduceCtorEq,
      Expr.binary.injEq] at hp
    rcases hp with ⟨rfl, rfl, rfl⟩ | (⟨rfl, -⟩ | ⟨rfl, rfl, rfl⟩) | ⟨rfl, -⟩ | ⟨rfl, -⟩
    · cases hm
    · simp at hop
    · cases hm
      exact ⟨_, rfl, fun args before _ => ⟨_, rfl, Value.isOf_ofBool _⟩⟩
    · simp at hop
    · simp at hop

/-- The guard is sound on nodes and numbers, by which it may divide by zero. -/
theorem rootedGuard_sound :
    ∃ p, Predicate.compile "(arg2 != root || ask(arg0)) == (arg0 % arg1 < @add(arg1, 2))"
        [.i32, .i32, nodeType] rootedSurroundings {} = .ok p ∧
      ∃ steps result,
        (p.limited (some 100)).Sound countingHost #[.int32 7, .int32 0, .object 3] #[.object 3]
          rootedGuard.Calls 0 result ∧
        ∀ fuel, steps ≤ fuel → (p.limited (some 100)).runWith countingHost fuel
          #[.int32 7, .int32 0, .object 3] #[.object 3] 0 = some result := by
  have hcompiles : (Predicate.compile
      "(arg2 != root || ask(arg0)) == (arg0 % arg1 < @add(arg1, 2))" [.i32, .i32, nodeType]
      rootedSurroundings {}).toOption.isSome = true := by decide +kernel
  have hparse : Expr.parse (rootedSurroundings.scope [.i32, .i32, nodeType]) Expr.defaultDepth
      "(arg2 != root || ask(arg0)) == (arg0 % arg1 < @add(arg1, 2))" = .ok rootedGuard :=
    Expr.ok_of_toOption (by decide +kernel)
  cases hcompile : Predicate.compile "(arg2 != root || ask(arg0)) == (arg0 % arg1 < @add(arg1, 2))"
      [.i32, .i32, nodeType] rootedSurroundings {} with
  | error e =>
    rw [hcompile] at hcompiles
    cases hcompiles
  | ok p =>
    refine ⟨p, rfl, ?_⟩
    refine compiled_guard_sound hcompile hparse ?_ (by decide) countingHost
      (fun _ _ => countingHost_honours) _ _ (.inr (by decide)) ?_ (some 100) 0
    · intro type htype method hm
      simp only [rootedSurroundings, Surroundings.types, List.map_cons, List.map_nil,
        List.cons_append, List.nil_append, List.mem_cons, List.not_mem_nil, or_false] at htype
      rcases htype with rfl | rfl | rfl | rfl | rfl <;> cases hm <;> exact ⟨rfl, rfl⟩
    · intro field hfield
      obtain rfl := List.mem_singleton.mp hfield
      exact ⟨.object 3, rfl, rfl⟩

end GuardCode
