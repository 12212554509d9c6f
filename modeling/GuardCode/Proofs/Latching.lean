import GuardCode.Proofs.Answering

/-! The first failure of a body is kept. A body is written by calls, and blocks are written by calls
inside calls. Once one of them has failed, no later call changes the instructions, the labels of
before, the depth or the greatest depth, although blocks that are half written go on, hand out labels
and locals and may fail themselves; and finishing the body reports that failure. -/
namespace GuardCode

/-! ## Frozen assemblies -/

/-- The instructions, the labels so far with their positions and depths, the depth and the greatest
depth are still the same. -/
structure Assembly.Stands (a b : Assembly) : Prop where
  instructions : b.instructions = a.instructions
  labels : ∀ (label : Label) (state : LabelState),
    a.labels[label]? = some state → b.labels[label]? = some state
  depth : b.depth = a.depth
  maxDepth : b.maxDepth = a.maxDepth

namespace Assembly

variable {a b c : Assembly}

theorem Stands.refl (a : Assembly) : a.Stands a := ⟨rfl, fun _ _ h => h, rfl, rfl⟩

theorem Stands.trans (h : a.Stands b) (h' : b.Stands c) : a.Stands c :=
  ⟨h'.instructions.trans h.instructions, fun label state hl => h'.labels label state
    (h.labels label state hl), h'.depth.trans h.depth, h'.maxDepth.trans h.maxDepth⟩

/-- What becomes of an assembly by an operation that is carried out or fails: it stays frozen or not
frozen, and a frozen one stands. -/
structure Continues (a b : Assembly) : Prop where
  frozen : b.frozen = a.frozen
  stands : a.frozen = true → a.Stands b

theorem Continues.refl (a : Assembly) : a.Continues a := ⟨rfl, fun _ => .refl a⟩

theorem Continues.trans (h : a.Continues b) (h' : b.Continues c) : a.Continues c :=
  ⟨h'.frozen.trans h.frozen, fun hf => (h.stands hf).trans (h'.stands (h.frozen.trans hf))⟩

theorem Continues.of_unfrozen (hf : a.frozen = false) (h : b.frozen = a.frozen) :
    a.Continues b :=
  ⟨h, fun hf' => by rw [hf] at hf'; cases hf'⟩

/-- The assembly in which an operation ends, carried out or not. -/
def ending {ε α : Type} : EStateM.Result ε Assembly α → Assembly
  | .ok _ a | .error _ a => a

/-- An operation relates the assembly before it to the one in which it ends. -/
def Moves {ε α : Type} (R : Assembly → Assembly → Prop) (op : EStateM ε Assembly α) : Prop :=
  ∀ a, R a (ending (op a))

theorem Moves.bind {ε α β : Type} {R : Assembly → Assembly → Prop} {op : EStateM ε Assembly α}
    {next : α → EStateM ε Assembly β} (hR : ∀ {a b c}, R a b → R b c → R a c) (h : Moves R op)
    (h' : ∀ result, Moves R (next result)) : Moves R (op >>= next) := by
  intro a
  have ha := h a
  show R a (ending (EStateM.bind op next a))
  unfold EStateM.bind
  cases hop : op a with
  | ok result b =>
    rw [hop] at ha
    exact hR ha (h' result b)
  | error e b =>
    rw [hop] at ha
    exact ha

/-- Both assemblies are frozen, or neither is. -/
def Alike (a b : Assembly) : Prop := b.frozen = a.frozen

theorem Alike.trans (h : a.Alike b) (h' : b.Alike c) : a.Alike c := Eq.trans h' h

theorem moves_recordDepth (label : Label) : Moves Alike (recordDepth label) := by
  intro a
  unfold recordDepth
  split
  · rfl
  · split
    · rfl
    · split <;> rfl

theorem moves_popOperands (i : Instruction) : Moves Alike (popOperands i) := by
  intro a
  unfold popOperands
  simp only
  split <;> rfl

theorem moves_append (i : Instruction) : Moves Alike (modify (append i) : Operation PUnit) :=
  fun _ => rfl

theorem moves_emit (i : Instruction) : Moves Continues (emit i) := by
  intro a
  unfold emit
  cases hf : a.frozen with
  | true => exact .refl a
  | false =>
    apply Continues.of_unfrozen hf
    simp only [Bool.false_eq_true, if_false]
    split
    · exact (moves_popOperands i).bind .trans (fun _ => moves_append i) a
    · split
      · rfl
      · exact (moves_popOperands i).bind .trans
          (fun _ => (moves_recordDepth _).bind .trans fun _ => moves_append i) a

theorem moves_mark (label : Label) : Moves Continues (mark label) := by
  intro a
  unfold mark
  cases hf : a.frozen with
  | true => exact .refl a
  | false =>
    apply Continues.of_unfrozen hf
    have hrecord := moves_recordDepth label a
    simp only [Bool.false_eq_true, if_false]
    split
    · rfl
    · split
      · rfl
      · split
        · cases hr : recordDepth label a <;> rw [hr] at hrecord <;> exact hrecord
        · rfl

/-- A new label leaves those of before as they are. -/
theorem moves_define : Moves Continues define := by
  intro a
  refine ⟨rfl, fun _ => ⟨rfl, fun label state hl => ?_, rfl, rfl⟩⟩
  obtain ⟨hlt, -⟩ := Array.getElem?_eq_some_iff.mp hl
  show (a.labels.push {})[label]? = some state
  rw [Array.getElem?_push_lt hlt, ← Array.getElem?_eq_getElem hlt, hl]

theorem moves_declare (type : Ty) : Moves Continues (declare type) := by
  intro a
  unfold declare
  split
  · exact .refl a
  · exact ⟨rfl, fun _ => ⟨rfl, fun _ _ hl => hl, rfl, rfl⟩⟩

end Assembly

namespace Directive

open Assembly

theorem ending_lift {α : Type} (op : Operation α) (a : Assembly) :
    ending (lift op a) = ending (op a) := by
  unfold lift
  cases op a <;> rfl

theorem moves_lift {α : Type} {op : Operation α} (h : Moves Continues op) :
    Moves Continues (lift op) := by
  intro a
  rw [ending_lift]
  exact h a

theorem moves_perform (d : Directive) : Moves Continues (perform d) := by
  have hpure (u : Unit) : Moves Continues (pure u : Action Unit) := fun a => .refl a
  cases d with
  | emit i => exact moves_lift (moves_emit i)
  | mark label => exact moves_lift (moves_mark label)
  | define => exact (moves_lift moves_define).bind .trans fun _ => hpure _
  | declare type => exact (moves_lift (moves_declare type)).bind .trans fun _ => hpure _
  | abort error => exact fun a => .refl a

theorem moves_performAll (ds : List Directive) : Moves Continues (performAll ds) := by
  induction ds with
  | nil => exact fun a => .refl a
  | cons d ds ih => exact (moves_perform d).bind .trans fun _ => ih

end Directive

/-! ## One call -/

namespace MethodBody

variable {body after final : MethodBody}

/-- The assembly is frozen exactly if a failure was kept. -/
def Latched (body : MethodBody) : Prop := body.assembly.frozen = body.failure?.isSome

/-- What becomes of a body by a call that raises a failure or none: the failure is kept if it is the
first, and behind the first the assembly stands. -/
structure Follows (raised? : Option Failure) (body after : MethodBody) : Prop where
  latched : after.Latched
  failure : after.failure? = body.failure?.or raised?
  stands : body.failure?.isSome → body.assembly.Stands after.assembly

theorem Latched.follows (h : body.Latched) (after : MethodBody)
    (hfailure : after.failure? = body.failure?)
    (hc : body.assembly.Continues after.assembly) : Follows none body after where
  latched := by
    unfold Latched
    rw [hc.frozen, hfailure]
    exact h
  failure := by rw [hfailure, Option.or_none]
  stands hf := hc.stands (Eq.trans h hf)

theorem Follows.latch (h : Follows none body after) (failure : Failure) :
    Follows (some failure) body (after.latch failure) := by
  have hkept : body.failure? = after.failure? := by rw [h.failure, Option.or_none]
  unfold MethodBody.latch
  cases hf : after.failure? with
  | some failure' =>
    refine ⟨h.latched, ?_, h.stands⟩
    rw [hkept, hf]
    rfl
  | none =>
    -- Nothing has to stand: the body before had not failed either.
    rw [hf] at hkept
    refine ⟨rfl, ?_, fun hsome => ?_⟩
    · rw [hkept]
      rfl
    · rw [hkept] at hsome
      cases hsome

/-- The body in which directives or a block end, carried out or not. -/
def ending : EStateM.Result CompileError MethodBody Unit → MethodBody
  | .ok _ body | .error _ body => body

/-- The failure of directives or of a block. -/
def raised? : EStateM.Result CompileError MethodBody Unit → Option Failure
  | .ok _ _ => none
  | .error e _ => some (.compile e)

/-- The body behind a call that keeps the failure of its directives or its block. -/
def settle : EStateM.Result CompileError MethodBody Unit → MethodBody
  | .ok _ body => body
  | .error e body => body.latch (.compile e)

theorem ending_perform (ds : List Directive) (body : MethodBody) :
    ending (perform ds body) =
      { body with assembly := Assembly.ending (Directive.performAll ds body.assembly) } := by
  unfold perform
  cases Directive.performAll ds body.assembly <;> rfl

theorem follows_perform (h : body.Latched) (ds : List Directive) :
    Follows none body (ending (perform ds body)) := by
  rw [ending_perform]
  exact h.follows _ rfl (Directive.moves_performAll ds body.assembly)

theorem follows_settle (h : body.Latched) (ds : List Directive) :
    Follows (raised? (perform ds body)) body (settle (perform ds body)) := by
  have hp := follows_perform h ds
  cases hr : perform ds body with
  | ok u after =>
    rw [hr] at hp
    exact hp
  | error e after =>
    rw [hr] at hp
    exact hp.latch (.compile e)

/-! ## Calls inside calls -/

/-- A call of a body. The bodies of a block are written by calls too. -/
inductive Call where
  | emit (is : List Instruction)
  | loadArg (index : Nat)
  | mark (label : Label)
  | newLabel
  | declare (name : String) (type : Ty)
  | addField (field : Field)
  | addMethod (method : Method) (returns : Ty)
  | ifElse (guard : Expr) (onTrue onFalse : List Call)
  | ifGuard (source : String) (onTrue onFalse : List Call)

/-- The body behind a call, or where a block gives way to one of its bodies, and the failure that the
call itself raised. -/
structure Moment where
  raised? : Option Failure
  body : MethodBody

/-- The run of a block on its bodies. -/
def runBlock {α β : Type} (body : MethodBody) (guard : Expr)
    (onTrue : MethodBody → MethodBody × α) (onFalse : MethodBody → MethodBody × β) :
    EStateM.Result CompileError MethodBody Unit × Option α × Option β :=
  (block guard body).run perform (fun body => (.ok () (onTrue body).1, (onTrue body).2))
    (fun body => (.ok () (onFalse body).1, (onFalse body).2)) body

theorem ifElse_eq_settle {α β : Type} (body : MethodBody) (guard : Expr)
    (onTrue : MethodBody → MethodBody × α) (onFalse : MethodBody → MethodBody × β) :
    body.ifElse guard onTrue onFalse =
      (settle (body.runBlock guard onTrue onFalse).1, (body.runBlock guard onTrue onFalse).2) := by
  unfold ifElse runBlock block
  simp only
  split <;> next hresult => simp only [hresult, settle]

/-- The failure that a block itself raises. -/
def ifElseRaises {α β : Type} (body : MethodBody) (guard : Expr)
    (onTrue : MethodBody → MethodBody × α) (onFalse : MethodBody → MethodBody × β) :
    Option Failure :=
  raised? (body.runBlock guard onTrue onFalse).1

/-- The failure that guard text or its block raises. -/
def ifGuardRaises {α β : Type} (body : MethodBody) (source : String)
    (onTrue : MethodBody → MethodBody × α) (onFalse : MethodBody → MethodBody × β) :
    Option Failure :=
  match Expr.parse body.scope body.options.maxDepth source with
  | .ok guard => body.ifElseRaises guard onTrue onFalse
  | .error e => some (.parse e)

/-- A call that has no calls inside. -/
def single (raised? : Option Failure) (after : MethodBody) : MethodBody × List Moment :=
  (after, [⟨raised?, after⟩])

/-- The body of a block, with the moment in which it is reached. -/
def entering (write : MethodBody → MethodBody × List Moment) (body : MethodBody) :
    MethodBody × List Moment :=
  ((write body).1, ⟨none, body⟩ :: (write body).2)

/-- A block with the moments of those of its bodies that are reached. -/
def around (raised? : Option Failure)
    (written : MethodBody × Option (List Moment) × Option (List Moment)) :
    MethodBody × List Moment :=
  (written.1, written.2.1.getD [] ++ written.2.2.getD [] ++ [⟨raised?, written.1⟩])

mutual

/-- Makes a call, with all its moments in the order of time. A new label raises nothing, and the
failure of a declaration goes to the caller. -/
def Call.play : Call → MethodBody → MethodBody × List Moment
  | .emit is, body => single (MethodBody.raised? (perform (is.map .emit) body)) (body.emit is)
  | .loadArg index, body =>
    let raised? :=
      if index < body.signature.params.length then
        MethodBody.raised? (perform [.emit (.loadArg index)] body)
      else some (.noSuchArgument index body.signature.params.length)
    single raised? (body.loadArg index)
  | .mark label, body => single (MethodBody.raised? (perform [.mark label] body)) (body.mark label)
  | .newLabel, body => single none body.label.2
  | .declare name type, body =>
    match MethodBody.declare name type body with
    | .ok _ after | .error _ after => single none after
  | .addField field, body => single none (body.addField field)
  | .addMethod method returns, body => single none (body.addMethod method returns)
  | .ifElse guard onTrue onFalse, body =>
    let onTrue := entering (Call.playAll onTrue)
    let onFalse := entering (Call.playAll onFalse)
    around (body.ifElseRaises guard onTrue onFalse) (body.ifElse guard onTrue onFalse)
  | .ifGuard source onTrue onFalse, body =>
    let onTrue := entering (Call.playAll onTrue)
    let onFalse := entering (Call.playAll onFalse)
    around (body.ifGuardRaises source onTrue onFalse) (body.ifGuard source onTrue onFalse)

/-- Makes calls one after another. -/
def Call.playAll : List Call → MethodBody → MethodBody × List Moment
  | [], body => (body, [])
  | call :: calls, body =>
    let (after, moments) := Call.play call body
    let (final, later) := Call.playAll calls after
    (final, moments ++ later)

end

/-- Moment by moment a body becomes another. -/
def Leads (body : MethodBody) : List Moment → MethodBody → Prop
  | [], final => final = body
  | moment :: moments, final => Follows moment.raised? body moment.body ∧
    Leads moment.body moments final

theorem Leads.append {moments later : List Moment} (h : Leads body moments after)
    (h' : Leads after later final) : Leads body (moments ++ later) final := by
  induction moments generalizing body with
  | nil =>
    cases h
    exact h'
  | cons moment moments ih => exact ⟨h.1, ih h.2⟩

theorem Leads.latched {moments : List Moment} (h : Leads body moments final) (hl : body.Latched) :
    final.Latched := by
  induction moments generalizing body with
  | nil =>
    cases h
    exact hl
  | cons moment moments ih => exact ih h.2 h.1.latched

theorem Follows.leads {raised? : Option Failure} (h : Follows raised? body after) :
    Leads body (single raised? after).2 after :=
  ⟨h, rfl⟩

/-- The moments that calls tell of lead from a body to the one behind the calls. -/
def Tells (write : MethodBody → MethodBody × List Moment) : Prop :=
  ∀ body, body.Latched → Leads body (write body).2 (write body).1

section

variable {onTrue onFalse : MethodBody → MethodBody × List Moment}

/-- The moments of the bodies lead to where the block carries out its last directives. -/
theorem leads_runBlock (hl : body.Latched) (htrue : Tells onTrue) (hfalse : Tells onFalse)
    (guard : Expr) :
    ∃ (last : MethodBody) (ds : List Directive) (saidTrue saidFalse : Option (List Moment)),
      body.runBlock guard (entering onTrue) (entering onFalse) =
        (perform ds last, saidTrue, saidFalse) ∧
      Leads body (saidTrue.getD [] ++ saidFalse.getD []) last ∧ last.Latched := by
  -- What is carried out last is the first of the three lists that fails, or the closing one.
  have hopen := follows_perform hl (block guard body).opening
  unfold runBlock IfBlock.run
  cases h₁ : perform (block guard body).opening body with
  | error e after => exact ⟨body, (block guard body).opening, none, none, by rw [h₁], rfl, hl⟩
  | ok u after =>
    rw [h₁] at hopen
    have hfirst : Leads body ((entering onTrue after).2) (onTrue after).1 :=
      ⟨hopen, htrue after hopen.latched⟩
    have hmiddle := follows_perform (hfirst.latched hl) (block guard body).middle
    simp only [entering]
    cases h₂ : perform (block guard body).middle (onTrue after).1 with
    | error e after₂ =>
      refine ⟨(onTrue after).1, (block guard body).middle, _, _, by rw [h₂], ?_, hfirst.latched hl⟩
      rw [Option.getD_some, Option.getD_none, List.append_nil]
      exact hfirst
    | ok u after₂ =>
      rw [h₂] at hmiddle
      have hsecond : Leads (onTrue after).1 (entering onFalse after₂).2 (onFalse after₂).1 :=
        ⟨hmiddle, hfalse after₂ hmiddle.latched⟩
      have hboth := hfirst.append hsecond
      exact ⟨(onFalse after₂).1, (block guard body).closing, _, _, rfl, hboth, hboth.latched hl⟩

theorem leads_ifElse (hl : body.Latched) (htrue : Tells onTrue) (hfalse : Tells onFalse)
    (guard : Expr) :
    Leads body
      (around (body.ifElseRaises guard (entering onTrue) (entering onFalse))
        (body.ifElse guard (entering onTrue) (entering onFalse))).2
      (body.ifElse guard (entering onTrue) (entering onFalse)).1 := by
  obtain ⟨last, ds, saidTrue, saidFalse, hrun, hleads, hlast⟩ :=
    leads_runBlock hl htrue hfalse guard
  rw [ifElse_eq_settle, ifElseRaises, hrun]
  exact hleads.append (follows_settle hlast ds).leads

theorem leads_ifGuard (hl : body.Latched) (htrue : Tells onTrue) (hfalse : Tells onFalse)
    (source : String) :
    Leads body
      (around (body.ifGuardRaises source (entering onTrue) (entering onFalse))
        (body.ifGuard source (entering onTrue) (entering onFalse))).2
      (body.ifGuard source (entering onTrue) (entering onFalse)).1 := by
  unfold ifGuardRaises ifGuard
  cases Expr.parse body.scope body.options.maxDepth source with
  | ok guard => exact leads_ifElse hl htrue hfalse guard
  | error e => exact ((hl.follows body rfl (.refl _)).latch (.parse e)).leads

end

theorem leads_loadArg (hl : body.Latched) (index : Nat) :
    Leads body ((Call.loadArg index).play body).2 ((Call.loadArg index).play body).1 := by
  unfold Call.play loadArg
  split
  · exact (follows_settle hl [.emit (.loadArg index)]).leads
  · exact ((hl.follows body rfl (.refl _)).latch _).leads

theorem leads_declare (hl : body.Latched) (name : String) (type : Ty) :
    Leads body ((Call.declare name type).play body).2 ((Call.declare name type).play body).1 := by
  have hc := Assembly.moves_declare type body.assembly
  unfold Call.play declare
  cases hd : Assembly.declare type body.assembly with
  | ok slot a =>
    rw [hd] at hc
    exact (hl.follows { body with
      assembly := a, scope := body.scope.addNamedLocal name slot } rfl hc).leads
  | error e a =>
    rw [hd] at hc
    exact (hl.follows { body with assembly := a } rfl hc).leads

mutual

theorem tells_play (call : Call) : Tells call.play := by
  intro body hl
  match call with
  | .emit is => exact (follows_settle hl _).leads
  | .loadArg index => exact leads_loadArg hl index
  | .mark label => exact (follows_settle hl _).leads
  | .newLabel => exact (follows_settle hl [.define]).leads
  | .declare name type => exact leads_declare hl name type
  | .addField field => exact (hl.follows (body.addField field) rfl (.refl _)).leads
  | .addMethod method returns =>
    exact (hl.follows (body.addMethod method returns) rfl (.refl _)).leads
  | .ifElse guard onTrue onFalse =>
    exact leads_ifElse hl (tells_playAll onTrue) (tells_playAll onFalse) guard
  | .ifGuard source onTrue onFalse =>
    exact leads_ifGuard hl (tells_playAll onTrue) (tells_playAll onFalse) source

theorem tells_playAll (calls : List Call) : Tells (Call.playAll calls) := by
  intro body hl
  match calls with
  | [] => rfl
  | call :: calls =>
    have hfirst := tells_play call body hl
    exact hfirst.append (tells_playAll calls _ (hfirst.latched hl))

end

/-! ## The first failure -/

/-- The failure that is kept is the first that was raised. -/
theorem Leads.failure {moments : List Moment} (h : Leads body moments final) :
    final.failure? = body.failure?.or (moments.findSome? Moment.raised?) := by
  induction moments generalizing body with
  | nil =>
    cases h
    exact Option.or_none.symm
  | cons moment moments ih =>
    rw [ih h.2, h.1.failure, Option.or_assoc, List.findSome?_cons]
    cases moment.raised? <;> rfl

/-- Behind a failure the assembly stands at every moment. -/
theorem Leads.stands {moments : List Moment} (h : Leads body moments final)
    (hf : body.failure?.isSome) : body.assembly.Stands final.assembly ∧
      ∀ moment ∈ moments, body.assembly.Stands moment.body.assembly := by
  induction moments generalizing body with
  | nil =>
    cases h
    exact ⟨.refl _, List.forall_mem_nil _⟩
  | cons moment moments ih =>
    have hnext := h.1.stands hf
    have hfailed : moment.body.failure?.isSome := by
      rw [h.1.failure, Option.isSome_or, hf]
      rfl
    obtain ⟨hfinal, hlater⟩ := ih h.2 hfailed
    refine ⟨hnext.trans hfinal, fun m hm => ?_⟩
    rcases List.mem_cons.mp hm with rfl | hm
    · exact hnext
    · exact hnext.trans (hlater m hm)

/-- Behind a moment that raised a failure the assembly stands. -/
theorem Leads.stands_behind {moments : List Moment} (h : Leads body moments final) :
    (∀ moment ∈ moments, moment.raised?.isSome →
      moment.body.assembly.Stands final.assembly) ∧
    moments.Pairwise fun moment later =>
      moment.raised?.isSome → moment.body.assembly.Stands later.body.assembly := by
  induction moments generalizing body with
  | nil => exact ⟨List.forall_mem_nil _, .nil⟩
  | cons moment moments ih =>
    have hfailed (hr : moment.raised?.isSome) : moment.body.failure?.isSome := by
      rw [h.1.failure, Option.isSome_or, hr, Bool.or_true]
    obtain ⟨hfinal, hpairs⟩ := ih h.2
    constructor
    · intro m hm hr
      rcases List.mem_cons.mp hm with rfl | hm
      · exact (h.2.stands (hfailed hr)).1
      · exact hfinal m hm hr
    · exact .cons (fun later hlater hr => (h.2.stands (hfailed hr)).2 later hlater) hpairs

theorem latched_ofSignature (signature : Signature) (options : Options) :
    (ofSignature signature options).Latched := rfl

end MethodBody

open MethodBody

/-- A body reports the first failure that any of its calls raised, at any depth of blocks, and from
that moment on its instructions, labels and depths stand, whatever is called and whatever fails
afterwards. Without a failure it is finished as its assembly is. -/
theorem first_failure_is_kept (signature : Signature) (options : Options) (calls : List Call)
    {body : MethodBody} {moments : List Moment}
    (h : Call.playAll calls (.ofSignature signature options) = (body, moments)) :
    (∀ failure, moments.findSome? Moment.raised? = some failure →
      body.finish = .error failure) ∧
    ((∀ moment ∈ moments, moment.raised? = none) →
      body.finish = body.assembly.finish.mapError fun e => .compile (.emit e)) ∧
    (∀ moment ∈ moments, moment.raised?.isSome →
      moment.body.assembly.Stands body.assembly) ∧
    moments.Pairwise fun moment later =>
      moment.raised?.isSome → moment.body.assembly.Stands later.body.assembly := by
  have hleads := tells_playAll calls _ (latched_ofSignature signature options)
  rw [h] at hleads
  have hfailure : body.failure? = moments.findSome? Moment.raised? := hleads.failure
  refine ⟨fun failure hfirst => ?_, fun hnone => ?_, hleads.stands_behind⟩
  · rw [hfirst] at hfailure
    simp only [finish, hfailure]
  · rw [List.findSome?_eq_none_iff.mpr hnone] at hfailure
    simp only [finish, hfailure]

/-- Two blocks, of which the inner fails in its first body. What follows would fail as well. -/
def failingCalls : List Call :=
  [.ifElse (.literal (.bool true))
    [.ifElse (.literal (.bool false)) [.emit [.pushInt 1], .emit [.add], .newLabel, .mark 99] []]
    [.ifGuard "missing" [] [], .declare "count" .i32],
    .loadArg 3]

/-- The underflow in the inner block is what is reported, and the assembly stands as it left it,
although the guard and the argument behind it are wrong as well. -/
theorem failingCalls_report_underflow :
    ∃ body moments,
      Call.playAll failingCalls (.ofSignature (.predicate []) {}) = (body, moments) ∧
      moments.filterMap Moment.raised? =
        [.compile (.emit (.stackUnderflow 17 2 1)),
          .parse ⟨.unknownName "missing", ⟨0, 7⟩⟩, .noSuchArgument 3 0] ∧
      body.finish = .error (.compile (.emit (.stackUnderflow 17 2 1))) ∧
      ∃ moment ∈ moments, moment.raised? = some (.compile (.emit (.stackUnderflow 17 2 1))) ∧
        moment.body.assembly.Stands body.assembly := by
  have hraised : (Call.playAll failingCalls (.ofSignature (.predicate []) {})).2.filterMap
      Moment.raised? = [.compile (.emit (.stackUnderflow 17 2 1)),
        .parse ⟨.unknownName "missing", ⟨0, 7⟩⟩, .noSuchArgument 3 0] := by decide +kernel
  obtain ⟨body, moments, hplay⟩ : ∃ body moments,
      Call.playAll failingCalls (.ofSignature (.predicate []) {}) = (body, moments) := ⟨_, _, rfl⟩
  rw [hplay] at hraised
  have hfirst : moments.findSome? Moment.raised? =
      some (.compile (.emit (.stackUnderflow 17 2 1))) := by
    rw [← List.head?_filterMap, hraised]
    rfl
  obtain ⟨hreports, -, hstands, -⟩ := first_failure_is_kept (.predicate []) {} failingCalls hplay
  obtain ⟨moment, hm, hr⟩ := List.exists_of_findSome?_eq_some hfirst
  exact ⟨body, moments, hplay, hraised, hreports _ hfirst, moment, hm, hr,
    hstands moment hm (by rw [hr]; rfl)⟩

end GuardCode
