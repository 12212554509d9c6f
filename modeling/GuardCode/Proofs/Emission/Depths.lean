import GuardCode.Proofs.Emission.Drafts

/-! What accepted code says about its expression. A call that leaves nothing where a value is wanted
is refused nowhere by itself: the stack is one value short from there on. `Gains` follows that along
the code of an expression: the stack is never higher than it should be, and as high as it should be
only where the expression is admissible. -/
namespace GuardCode.Emission

open Directive

/-- Between two states of an assembly the stack grows by at most so many values, and by just as many
only under a condition. -/
structure Gains (results : Nat) (levels whole : Prop) (a b : Assembly) : Prop where
  reachable : b.reachable = true
  atMost : b.depth ≤ a.depth + results
  levels : levels
  whole : b.depth = a.depth + results → whole

namespace Gains

variable {a b c : Assembly} {m n : Nat} {L L' P P' : Prop}

theorem trans (h : Gains m L P a b) (h' : Gains n L' P' b c) :
    Gains (m + n) (L ∧ L') (P ∧ P') a c := by
  have := h.atMost
  have := h'.atMost
  refine ⟨h'.reachable, by omega, ⟨h.levels, h'.levels⟩, fun hc => ?_⟩
  exact ⟨h.whole (by omega), h'.whole (by omega)⟩

theorem mono (h : Gains m L P a b) (hL : L → L') (hP : P → P') : Gains m L' P' a b :=
  ⟨h.reachable, h.atMost, hL h.levels, fun hb => hP (h.whole hb)⟩

/-- Straight-line code behind the values that it takes. -/
theorem straight {labels : List Label} {is : List Instruction} (h : Gains m L P a b)
    (hs : Instruction.Straight labels m n is) (hf : b.frozen = false)
    (hc : Performs (is.map .emit) b c) : Gains n L P a c := by
  obtain ⟨hdepth, hr⟩ := hc.straight hf h.reachable hs.onward
  have := hs.net _ _ _ hdepth
  have := h.atMost
  exact ⟨hr, by omega, h.levels, fun hc => h.whole (by omega)⟩

end Gains

/-- Code that leaves at most so many values. -/
def Measured (results : Nat) (levels whole : Prop) (draft : Draft) : Prop :=
  ∀ next a b, a.frozen = false → a.reachable = true → Performs (draft next) a b →
    Gains results levels whole a b

section

variable {f g : Draft} {m n limit room : Nat} {L L' P P' : Prop} {labels : List Label}
  {is : List Instruction}

theorem Measured.append (hf : Measured m L P f) (hg : Measured n L' P' g) :
    Measured (m + n) (L ∧ L') (P ∧ P') (f ++ g) := by
  intro next a b hfrozen hr h
  obtain ⟨c, hc, hb⟩ := Draft.performs_append.mp h
  have hgains := hf next a c hfrozen hr hc
  exact hgains.trans (hg _ c b (hc.frozen hfrozen) hgains.reachable hb)

theorem Measured.straight (hf : Measured m L P f) (hs : Instruction.Straight labels m n is) :
    Measured n L P (f ++ .emit is) := by
  intro next a b hfrozen hr h
  obtain ⟨c, hc, hb⟩ := Draft.performs_append.mp h
  exact (hf next a c hfrozen hr hc).straight hs (hc.frozen hfrozen) hb

theorem Measured.mono (hf : Measured m L P f) (hL : L → L') (hP : P → P') :
    Measured m L' P' f :=
  fun next a b hfrozen hr h => (hf next a b hfrozen hr h).mono hL hP

theorem measured_nil : Measured 0 True True (.write []) := by
  intro next a b _ hr h
  obtain rfl := performs_nil.mp h
  exact ⟨hr, by simp, trivial, fun _ => trivial⟩

theorem measured_emit (hs : Instruction.Straight labels 0 n is) :
    Measured n True True (.emit is) := by
  intro next a b hfrozen hr h
  exact (measured_nil 0 a a hfrozen hr (performs_nil.mpr rfl)).straight hs hfrozen h

theorem measured_abort {error : CompileError} : Measured n False False (.abort error) :=
  fun _ _ _ _ _ h => absurd h Draft.performs_abort

/-- One value short. -/
theorem Measured.short (h : Measured n L P f) : Measured (n + 1) L P' f := by
  intro next a b hfrozen hr hb
  obtain ⟨hreach, hmost, hlevels, -⟩ := h next a b hfrozen hr hb
  exact ⟨hreach, by omega, hlevels, by omega⟩

/-- Nothing is said of what stands behind code that is never accepted. -/
theorem Measured.refused (h : Measured m L P f) (hL : ¬ L) : Measured n L' P' (f ++ g) := by
  intro next a b hfrozen hr hb
  obtain ⟨c, hc, -⟩ := Draft.performs_append.mp hb
  exact absurd (h next a c hfrozen hr hc).levels hL

theorem measured_enter {inside : Nat → Draft} {levels : Nat}
    (h : ∀ room, Measured n (levels ≤ room) P (inside room)) :
    Measured n (1 + levels ≤ room) P (enter limit room inside) := by
  intro next a b hfrozen hr hb
  obtain ⟨less, rfl, hb⟩ := Draft.performs_enter.mp hb
  exact (h less next a b hfrozen hr hb).mono (by omega) id

theorem measured_asValue {purpose : Purpose} {code : Nat → Draft} (levels : Nat)
    (h : ∀ room, Measured 1 (levels ≤ room) P (code room)) :
    Measured purpose.results (purpose.levels ⟨1 + (1 + levels), 1 + levels⟩ ≤ room) P
      (asValue limit purpose room code) := by
  cases purpose with
  | value => exact measured_enter h
  | condition outlet exits =>
    exact measured_enter fun room => (measured_enter h).straight (straight_test outlet)

theorem measured_fresh {use : Label → Draft} (h : ∀ label, Measured n L P (use label)) :
    Measured n L P (.fresh use) := by
  intro next a b hfrozen hr hb
  obtain ⟨c, hc, hb⟩ := performs_cons.mp hb
  obtain rfl := perform_define.mp hc
  obtain ⟨hreach, hmost, hlevels, hwhole⟩ :=
    h next (next + 1) { a with labels := a.labels.push {} } b hfrozen hr hb
  exact ⟨hreach, hmost, hlevels, hwhole⟩

theorem measured_skip {label : Label} (hf : Measured n L P f) :
    Measured n L P (f ++ .write [.mark label]) := by
  intro next a b hfrozen hr h
  obtain ⟨c, hc, hb⟩ := Draft.performs_append.mp h
  have hgains := hf next a c hfrozen hr hc
  have hmark := performs_mark (hc.frozen hfrozen) hb
  obtain ⟨state, -, -, -, hdepth⟩ := hmark.state
  rw [hgains.reachable, if_pos rfl] at hdepth
  exact ⟨hmark.reachable, hdepth ▸ hgains.atMost, hgains.levels, fun h => hgains.whole (hdepth ▸ h)⟩

theorem measured_chain (isAnd : Bool) (left right : Outlet → Draft) (outlet : Outlet)
    (exits : Exits) (hleft : ∀ outlet, Measured outlet.results L P (left outlet))
    (hright : ∀ outlet, Measured outlet.results L' P' (right outlet)) :
    Measured outlet.results (L ∧ L') (P ∧ P') (chain isAnd left right outlet exits) := by
  have hjump : ∀ {jump : Outlet}, jump.results = 0 →
      Measured outlet.results (L ∧ L') (P ∧ P') (left jump ++ right outlet) := by
    intro jump hzero
    have := (hleft jump).append (hright outlet)
    rwa [hzero, Nat.zero_add] at this
  cases isAnd with
  | true =>
    cases outlet with
    | stack | jumpIfFalse => exact hjump rfl
    | jumpIfTrue => exact measured_fresh fun _ => measured_skip (hjump rfl)
  | false =>
    cases outlet with
    | stack | jumpIfTrue => exact hjump rfl
    | jumpIfFalse => exact measured_fresh fun _ => measured_skip (hjump rfl)

/-- All paths of a landing meet in the depth in which it began. -/
theorem landing_depth {exits : Exits} {join : Label} {condition : List Directive}
    {a b : Assembly} (hf : a.frozen = false)
    (h : Performs (landing exits join condition) a b) :
    b.reachable = true ∧ b.depth = a.depth := by
  obtain ⟨d, hd, h⟩ := Directive.performs_append.mp h
  rw [List.cons_append] at hd
  obtain ⟨c, hc, hd⟩ := performs_cons.mp hd
  have hjump := Assembly.emit_eq_ok hf (perform_emit.mp hc)
  have hfc := hjump.frozen.trans hf
  -- The jump to the joint sets the depth there, which later paths cannot change.
  obtain ⟨_, -, -, hjoin⟩ := hjump.target join rfl
  obtain ⟨state, hl, hdepth⟩ := hd.depth hfc ⟨_, hjoin, rfl⟩
  have hmark := performs_mark (hd.frozen hfc) h
  exact ⟨hmark.reachable, hmark.depth_eq hl hdepth⟩

theorem measured_materialize {condition : Exits → Draft}
    (h : ∀ exits, Measured 1 L P (condition exits)) :
    Measured 1 L P (materialize condition) := by
  refine measured_fresh fun onTrue => measured_fresh fun onFalse => measured_fresh fun join => ?_
  intro next a b hfrozen hr hb
  obtain ⟨c, hc, hb⟩ := Directive.performs_append.mp hb
  have hgains := h ⟨onTrue, onFalse⟩ next a c hfrozen hr hc
  obtain ⟨hreach, hdepth⟩ := landing_depth (hc.frozen hfrozen) hb
  exact ⟨hreach, hdepth ▸ hgains.atMost, hgains.levels, fun h => hgains.whole (hdepth ▸ h)⟩

end

/-- What an argument is where nothing is missing: a value, or a reference that can be named. -/
def Received : ParamKind → Expr → Prop
  | .value, e => e.Admissible
  | .target, e => ∃ m, e = .carried (.member m)

theorem measured_takeTarget (callee : String) (place : Nat) (e : Expr) :
    Measured 0 (Received .target e) True (takeTarget callee place e) := by
  cases e with
  | carried c =>
    cases c with
    | member m => exact measured_nil.mono (fun _ => ⟨m, rfl⟩) id
    | foreign typeName => exact measured_abort.mono False.elim False.elim
  | _ => exact measured_abort.mono False.elim False.elim

theorem measured_operands {limit room : Nat} (callee : String) (place : Nat)
    (kinds : List ParamKind) {args : List Expr} (hlength : args.length = kinds.length)
    (h : ∀ e ∈ args, Measured 1 (e.need.value ≤ room) e.Admissible (expr limit e .value room)) :
    Measured (kinds.count .value)
      (Expr.argumentNeed kinds args ≤ room ∧ ∀ e, (.target, e) ∈ kinds.zip args → Received .target e)
      (∀ e, (.value, e) ∈ kinds.zip args → Received .value e)
      (operands limit callee place kinds args room) := by
  induction kinds generalizing args place with
  | nil =>
    obtain rfl := List.length_eq_zero_iff.mp hlength
    simpa [operands, Expr.argumentNeed] using measured_nil
  | cons kind kinds ih =>
    rcases args with _ | ⟨e, es⟩
    · cases hlength
    · have htail := ih (place + 1) (Nat.succ.inj hlength) (fun a ha => h a (by simp [ha]))
      cases kind with
      | value =>
        have hhead := (h e (by simp)).append htail
        rw [operands, List.count_cons_self, Nat.add_comm]
        refine hhead.mono ?_ ?_
        · rintro ⟨hneed, hneeds, htargets⟩
          refine ⟨by rw [Expr.argumentNeed]; omega, fun a ha => htargets a ?_⟩
          simpa using ha
        · rintro ⟨he, hes⟩ a ha
          simp only [List.zip_cons_cons, List.mem_cons, Prod.mk.injEq, true_and] at ha
          rcases ha with rfl | ha
          · exact he
          · exact hes a ha
      | target =>
        have hhead := (measured_takeTarget callee place e).append htail
        rw [operands, List.count_cons_of_ne (by decide), ← Nat.zero_add (kinds.count .value)]
        refine hhead.mono ?_ ?_
        · rintro ⟨he, hneeds, htargets⟩
          refine ⟨by rwa [Expr.argumentNeed], fun a ha => ?_⟩
          simp only [List.zip_cons_cons, List.mem_cons, Prod.mk.injEq, true_and] at ha
          rcases ha with rfl | ha
          · exact he
          · exact htargets a ha
        · rintro ⟨-, hes⟩ a ha
          exact hes a (by simpa using ha)

section

variable {limit room : Nat} {callee : Callee} {args : List Expr}

theorem mem_zip_replicate {kind : ParamKind} {a : Expr} (ha : a ∈ args) :
    (kind, a) ∈ (List.replicate args.length kind).zip args := by
  induction args with
  | nil => simp at ha
  | cons e es ih =>
    simp only [List.length_cons, List.replicate_succ, List.zip_cons_cons, List.mem_cons,
      Prod.mk.injEq, true_and]
    exact (List.mem_cons.mp ha).imp_right ih

/-- A call that takes values only and is one instruction. -/
theorem measured_value_call {i : Instruction} {type : Ty} (name : String)
    (hload : callee ≠ .capability .load)
    (hparams : callee.params = List.replicate args.length .value)
    (hlength : args.length = callee.arity)
    (hi : Instruction.Straight [] args.length (if callee.leavesValue then 1 else 0) [i])
    (h : ∀ e ∈ args, Measured 1 (e.need.value ≤ room) e.Admissible (expr limit e .value room)) :
    Measured 1 (Expr.argumentNeed callee.params args ≤ room)
      (Expr.Admissible (.call callee args type))
      (operands limit name 1 callee.params args room ++ .emit [i]) := by
  have hoperands := measured_operands name 1 callee.params (by simp [hparams]) h
  have hcount : callee.params.count .value = args.length := by simp [hparams]
  rw [hcount] at hoperands
  have hmeasured := hoperands.straight hi
  cases hleaves : callee.leavesValue with
  | false =>
    rw [hleaves] at hmeasured
    exact (hmeasured.mono And.left id).short
  | true =>
    rw [hleaves] at hmeasured
    refine hmeasured.mono And.left fun hvalues => ?_
    refine (Expr.admissible_call hload).mpr ⟨hleaves, hlength, fun a ha => hvalues a ?_⟩
    rw [hparams]
    exact mem_zip_replicate ha

/-- A call whose operands are of no matter unless one of them is a reference. -/
theorem measured_reference {name : String} {kinds : List ParamKind} {e : Expr} {g : Draft}
    {P : Prop} (hlength : args.length = kinds.length)
    (h : ∀ e ∈ args, Measured 1 (e.need.value ≤ room) e.Admissible (expr limit e .value room))
    (he : (.target, e) ∈ kinds.zip args)
    (hmember : ∀ m, e = .carried (.member m) →
      Measured 1 (Expr.argumentNeed kinds args ≤ room) P
        (operands limit name 1 kinds args room ++ g)) :
    Measured 1 (Expr.argumentNeed kinds args ≤ room) P
      (operands limit name 1 kinds args room ++ g) := by
  by_cases hm : ∃ m, e = .carried (.member m)
  · obtain ⟨m, rfl⟩ := hm
    exact hmember m rfl
  · exact (measured_operands name 1 kinds hlength h).refused fun hL => hm (hL.2 e he)

theorem measured_load {type : Ty} (name : String) (e : Expr)
    (h : ∀ a ∈ [e], Measured 1 (a.need.value ≤ room) a.Admissible (expr limit a .value room)) :
    Measured 1 (Expr.argumentNeed [.target] [e] ≤ room)
      (Expr.Admissible (.call (.capability .load) [e] type))
      (operands limit name 1 [.target] [e] room ++ primitive .load (target? [.target] [e])) := by
  refine measured_reference (e := e) rfl h (by simp) fun m he => ?_
  subst he
  exact ((measured_operands name 1 [.target] rfl h).append (measured_emit (straight_load m))).mono
    (fun hL => hL.1.1) fun _ => Expr.admissible_load.mpr ⟨m, rfl⟩

/-- Storing leaves nothing on the stack. -/
theorem measured_store {P : Prop} (name : String) (v e : Expr)
    (h : ∀ a ∈ [v, e], Measured 1 (a.need.value ≤ room) a.Admissible (expr limit a .value room)) :
    Measured 1 (Expr.argumentNeed [.value, .target] [v, e] ≤ room) P
      (operands limit name 1 [.value, .target] [v, e] room ++
        primitive .store (target? [.value, .target] [v, e])) := by
  refine measured_reference (e := e) rfl h (by simp) fun m he => ?_
  subst he
  have hoperands := measured_operands name 1 [.value, .target] rfl h
  have hstored : ∀ {i : Instruction}, Instruction.Straight [] 1 0 [i] →
      Measured 1 (Expr.argumentNeed [.value, .target] [v, .carried (.member m)] ≤ room) P
        (operands limit name 1 [.value, .target] [v, .carried (.member m)] room ++ .emit [i]) :=
    fun hi => ((hoperands.straight hi).mono And.left id).short
  cases m with
  | arg slot =>
    exact (hoperands.append (measured_abort (n := 0))).mono (fun hL => hL.1.1) (fun hP => hP.2.elim)
  | loc slot => exact hstored (straight_plain rfl rfl (fun _ => rfl) (fun _ => rfl))
  | field f => exact hstored (straight_plain rfl rfl (fun _ => rfl) (fun _ => rfl))

/-- Stepping a local leaves nothing on the stack. -/
theorem measured_step {c : Capability} {P : Prop} (hc : c = .increment ∨ c = .decrement)
    (name : String) (e : Expr)
    (h : ∀ a ∈ [e], Measured 1 (a.need.value ≤ room) a.Admissible (expr limit a .value room)) :
    Measured 1 (Expr.argumentNeed [.target] [e] ≤ room) P
      (operands limit name 1 [.target] [e] room ++ primitive c (target? [.target] [e])) := by
  refine measured_reference (e := e) rfl h (by simp) fun m he => ?_
  subst he
  have hoperands := measured_operands name 1 [.target] rfl h
  have hstepped : ∀ {is : List Instruction}, Instruction.Straight [] 0 0 is →
      Measured 1 (Expr.argumentNeed [.target] [.carried (.member m)] ≤ room) P
        (operands limit name 1 [.target] [.carried (.member m)] room ++ .emit is) :=
    fun his => ((hoperands.append (measured_emit his)).mono (fun hL => hL.1.1) id).short
  have hrefused : ∀ {error : CompileError},
      Measured 1 (Expr.argumentNeed [.target] [.carried (.member m)] ≤ room) P
        (operands limit name 1 [.target] [.carried (.member m)] room ++ .abort error) :=
    (hoperands.append (measured_abort (n := 1))).mono (fun hL => hL.1.1) (fun hP => hP.2.elim)
  rcases hc with rfl | rfl
  · cases m with
    | loc slot => exact hstepped (straight_step (.inl rfl) slot)
    | arg | field => exact hrefused
  · cases m with
    | loc slot => exact hstepped (straight_step (.inr rfl) slot)
    | arg | field => exact hrefused

theorem measured_call {type : Ty} (name : String) (hlength : args.length = callee.arity)
    (h : ∀ e ∈ args, Measured 1 (e.need.value ≤ room) e.Admissible (expr limit e .value room)) :
    Measured 1 (Expr.argumentNeed callee.params args ≤ room)
      (Expr.Admissible (.call callee args type))
      (operands limit name 1 callee.params args room ++ invocation callee args) := by
  cases callee with
  | method m =>
    have hlength' : args.length = m.arity := hlength
    refine measured_value_call name (by simp) (by rw [hlength']; rfl) hlength ?_ h
    exact straight_plain rfl rfl (fun _ => hlength'.symm) (fun _ => rfl)
  | capability c =>
    cases c with
    | add | subtract | remainder =>
      obtain ⟨x, y, rfl⟩ := Expr.two_of_length hlength
      exact measured_value_call name (by simp) rfl rfl
        (straight_plain rfl rfl (fun _ => rfl) (fun _ => rfl)) h
    | load =>
      obtain ⟨e, rfl⟩ := List.length_eq_one_iff.mp hlength
      exact measured_load name e h
    | store =>
      obtain ⟨v, e, rfl⟩ := Expr.two_of_length hlength
      exact measured_store name v e h
    | increment =>
      obtain ⟨e, rfl⟩ := List.length_eq_one_iff.mp hlength
      exact measured_step (.inl rfl) name e h
    | decrement =>
      obtain ⟨e, rfl⟩ := List.length_eq_one_iff.mp hlength
      exact measured_step (.inr rfl) name e h

end

/-- The code of an expression leaves at most its value, or what its outlet says, and that only if the
expression is admissible. -/
theorem measured_expr (limit : Nat) (e : Expr) (heq : e.EqualitiesProper) (purpose : Purpose)
    (room : Nat) :
    Measured purpose.results (purpose.levels e.need ≤ room) e.Admissible
      (expr limit e purpose room) := by
  induction e generalizing purpose room with
  | member m =>
    rw [expr]
    exact (measured_asValue 0 fun _ => (measured_emit (straight_load m)).mono
      (fun _ => Nat.zero_le _) fun _ => Expr.admissible_member m).mono
      (by rw [Expr.need]; exact id) id
  | literal l =>
    rw [expr]
    exact (measured_asValue 0 fun _ => (measured_emit (straight_literal l)).mono
      (fun _ => Nat.zero_le _) fun _ => Expr.admissible_literal l).mono
      (by rw [Expr.need]; exact id) id
  | carried c =>
    rw [expr]
    have hstray : ∃ error, strayReference c = .abort error := by cases c <;> exact ⟨_, rfl⟩
    obtain ⟨error, hstray⟩ := hstray
    rw [hstray]
    exact (measured_asValue 0 fun _ => measured_abort.mono False.elim False.elim).mono
      (by rw [Expr.need]; exact id) id
  | call callee args type ih =>
    obtain ⟨name, error, hexpr⟩ := expr_call limit callee args type purpose room
    rw [hexpr, Expr.need]
    refine measured_asValue _ fun room => ?_
    split
    · exact measured_abort.mono False.elim False.elim
    · rename_i hlength
      exact measured_call name (Classical.not_not.mp hlength) fun e he =>
        ih e he (heq.child he) .value room
  | binary op left right ihl ihr =>
    have hl := ihl (heq.child (by simp [Expr.children]))
    have hr := ihr (heq.child (by simp [Expr.children]))
    -- Both operands as values, and both as conditions.
    have hvalues : ∀ room, Measured 2
        (max left.need.value right.need.value ≤ room) (left.Admissible ∧ right.Admissible)
        (expr limit left .value room ++ expr limit right .value room) := fun room =>
      ((hl .value room).append (hr .value room)).mono
        (fun hL => Nat.max_le.mpr hL) id
    have hjoined : ∀ (room : Nat) (outlet : Outlet) (exits : Exits), Measured outlet.results
        (1 + max left.need.condition right.need.condition ≤ room)
        (left.Admissible ∧ right.Admissible)
        (joined limit left right op room outlet exits) := by
      intro room outlet exits
      refine measured_enter fun room => ?_
      have hleft : ∀ outlet : Outlet, Measured outlet.results (left.need.condition ≤ room)
          left.Admissible (expr limit left (.condition outlet exits) room) :=
        fun outlet => hl (.condition outlet exits) room
      have hright : ∀ outlet : Outlet, Measured outlet.results (right.need.condition ≤ room)
          right.Admissible (expr limit right (.condition outlet exits) room) :=
        fun outlet => hr (.condition outlet exits) room
      exact (measured_chain _ _ _ outlet exits hleft hright).mono
        (fun hL => Nat.max_le.mpr hL) id
    by_cases hlogical : op.isLogical
    · have hadmissible : left.Admissible ∧ right.Admissible →
          (Expr.binary op left right).Admissible := fun h =>
        Expr.admissible_binary.mpr ⟨.inr (.inl hlogical), h⟩
      rw [Expr.need_logical hlogical]
      cases purpose with
      | value =>
        rw [expr_logical_value limit left right room hlogical]
        exact (measured_enter fun room =>
          measured_materialize fun exits => hjoined room .stack exits).mono id hadmissible
      | condition outlet exits =>
        rw [expr_logical_condition limit left right room hlogical]
        exact (hjoined room outlet exits).mono id hadmissible
    · by_cases hcomparison : op.isComparison
      · rw [expr_comparison limit left right purpose room hcomparison,
          Expr.need_comparison hcomparison]
        obtain ⟨is, his, hstraight⟩ := compare_straight hcomparison
          (comparisonType left right) purpose.outlet
          (fun method hcase hm => heq op left right method .self hcase hm)
        rw [his]
        refine (measured_enter fun room => (hvalues room).straight hstraight).mono ?_ ?_
        · cases purpose <;> exact id
        · exact fun h => Expr.admissible_binary.mpr ⟨.inl hcomparison, h⟩
      · rw [Expr.need_other hlogical hcomparison]
        by_cases hrem : op = .rem
        · subst hrem
          rw [expr_rem]
          have hstraight : Instruction.Straight [] 2 1 [.rem] :=
            straight_plain rfl rfl (fun _ => rfl) (fun _ => rfl)
          exact (measured_asValue _ fun room => (hvalues room).straight hstraight).mono id fun h =>
            Expr.admissible_binary.mpr ⟨.inr (.inr rfl), h⟩
        · rw [expr_unsupported limit left right purpose room
            (by simp [Expr.supported, hlogical, hcomparison, hrem])]
          exact measured_asValue _ fun _ => measured_abort.mono False.elim False.elim

end GuardCode.Emission
