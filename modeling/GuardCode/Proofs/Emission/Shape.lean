import GuardCode.Proofs.Emission.Success
import GuardCode.Proofs.Locals

/-! The shape of the code of an expression, be the expression a guard that is refused later or not.
Every branch goes forward, to a label that is marked behind it or that belongs to the surroundings;
nothing is declared; and the instructions are neutral, but for the loads of the members that the
expression names and for what its capabilities do. -/
namespace GuardCode

/-- An instruction that uses no local and no field. -/
def Instruction.neutral : Instruction → Bool
  | loadLocal _ | storeLocal _ | loadField _ | storeField _ => false
  | _ => true

namespace Instruction

variable {i : Instruction}

@[simp] theorem neutral_pushInt (v : Int32) : (pushInt v).neutral = true := by
  unfold pushInt
  split
  · rfl
  · split <;> rfl

@[simp] theorem neutral_jump (op : BranchOp) (label : Label) : (jump op label).neutral = true := rfl

@[simp] theorem neutral_compareEqual : compareEqual.neutral = true := rfl

@[simp] theorem neutral_greater (unordered : Bool) : (greater unordered).neutral = true := by
  cases unordered <;> rfl

@[simp] theorem neutral_less (unordered : Bool) : (less unordered).neutral = true := by
  cases unordered <;> rfl

@[simp] theorem neutral_widen16 (signed : Bool) : (widen16 signed).neutral = true := by
  cases signed <;> rfl

theorem neutral_pushLiteral (l : Literal) : ∀ i ∈ pushLiteral l, i.neutral := by
  cases l with
  | bool | u8 | i8 | i16 | u16 | i32 | char => simp [pushLiteral, pushBool]
  | null | i64 | f32 | f64 | string => simp [pushLiteral, neutral]

/-- Stepping a local uses no other local. -/
theorem mem_step {op : Instruction} {slot : Slot} (hop : op.neutral) (hi : i ∈ step op slot) :
    i.neutral ∨ i.local? = some slot.index := by
  have hone : (pushOne slot.type).neutral := by
    unfold pushOne
    split
    · rfl
    · rfl
    · rfl
    · exact neutral_pushInt 1
  have hrange : ∀ j ∈ renormalize slot.type, j.neutral := by
    unfold renormalize
    split <;> simp
  simp only [step, List.mem_append, List.mem_cons, List.not_mem_nil, or_false] at hi
  rcases hi with ((rfl | rfl | rfl) | hi) | rfl
  · exact .inr rfl
  · exact .inl hone
  · exact .inl hop
  · exact .inl (hrange i hi)
  · exact .inr rfl

theorem local?_of_neutral (h : i.neutral) : i.local? = none := by
  cases i <;> first | rfl | cases h

theorem Straight.mem_of_target {labels : List Label} {taken left : Nat} {is : List Instruction}
    (h : Straight labels taken left is) (hi : i ∈ is) {label : Label}
    (ht : i.target? = some label) : label ∈ labels := by
  obtain ⟨is₁, is₂, rfl⟩ := List.append_of_mem hi
  exact (h.branches i is₁ is₂ label rfl ht).2

end Instruction

/-! ## Directives -/

namespace Directive

/-- The instructions are of a given kind, nothing is declared, and every branch goes to one of the
labels or to one that is marked behind it. -/
structure Shaped (P : Instruction → Prop) (labels : List Label) (ds : List Directive) : Prop where
  instructions : ∀ i, .emit i ∈ ds → P i
  undeclared : ∀ type, .declare type ∉ ds
  branches : ∀ before i after label, ds = before ++ .emit i :: after → i.target? = some label →
    label ∈ labels ∨ .mark label ∈ after

variable {P : Instruction → Prop} {labels labels' : List Label} {ds es : List Directive}

theorem Shaped.mono (h : Shaped P labels ds) (hlabels : labels ⊆ labels') :
    Shaped P labels' ds :=
  ⟨h.instructions, h.undeclared, fun before i after label hds ht =>
    (h.branches before i after label hds ht).imp_left (@hlabels label)⟩

/-- Behind directives, the labels that they branch to are marked or go on belonging to the
surroundings. -/
theorem Shaped.append (h : Shaped P labels ds) (h' : Shaped P labels' es)
    (hlabels : ∀ label ∈ labels, targets label ds → label ∈ labels' ∨ .mark label ∈ es) :
    Shaped P labels' (ds ++ es) where
  instructions i hi := (List.mem_append.mp hi).elim (h.instructions i) (h'.instructions i)
  undeclared type hmem := (List.mem_append.mp hmem).elim (h.undeclared type) (h'.undeclared type)
  branches before i after label hsplit ht := by
    rcases List.append_eq_append_iff.mp hsplit with ⟨rest, rfl, hes⟩ | ⟨rest, hds, hafter⟩
    · exact h'.branches rest i after label hes ht
    · cases rest with
      | nil => exact h'.branches [] i after label hafter.symm ht
      | cons d rest =>
        -- The branch stands in the first part, and what is behind it there goes on in the second.
        obtain ⟨rfl, rfl⟩ := List.cons_eq_cons.mp hafter
        rcases h.branches before i rest label hds ht with hin | hmark
        · have htargets : targets label ds = true := targets_iff.mpr ⟨i, by simp [hds], ht⟩
          exact (hlabels label hin htargets).imp_right (List.mem_append_right rest)
        · exact .inr (List.mem_append_left es hmark)

/-- Directives other than branches and declarations add nothing to the shape. -/
theorem Shaped.cons {d : Directive} (h : Shaped P labels ds)
    (hd : (∀ i, d ≠ .emit i) ∧ ∀ type, d ≠ .declare type) : Shaped P labels (d :: ds) where
  instructions i hi := h.instructions i ((List.mem_cons.mp hi).resolve_left (hd.1 i).symm)
  undeclared type hmem :=
    h.undeclared type ((List.mem_cons.mp hmem).resolve_left (hd.2 type).symm)
  branches before i after label hsplit ht := by
    cases before with
    | nil => exact absurd (List.cons_eq_cons.mp hsplit).1 (hd.1 i)
    | cons d' before =>
      exact h.branches before i after label (List.cons_eq_cons.mp hsplit).2 ht

theorem shaped_nil : Shaped P labels [] := by
  refine ⟨nofun, nofun, fun before i after label hsplit => ?_⟩
  simp at hsplit

theorem shaped_mark (label : Label) : Shaped P labels [.mark label] :=
  shaped_nil.cons ⟨nofun, nofun⟩

theorem shaped_emits {is : List Instruction} (hP : ∀ i ∈ is, P i)
    (hlabels : ∀ i ∈ is, ∀ label, i.target? = some label → label ∈ labels) :
    Shaped P labels (is.map .emit) where
  instructions i hi := hP i (by simpa using hi)
  undeclared type hmem := by simp at hmem
  branches before i after label hsplit ht := by
    have hi : .emit i ∈ is.map Directive.emit := by simp [hsplit]
    exact .inl (hlabels i (by simpa using hi) label ht)

end Directive

/-! ## Drafts -/

namespace Emission

open Directive (Shaped shaped_nil shaped_mark shaped_emits)

/-- The directives of a draft have a shape, whatever labels it begins with. -/
def Shapes (P : Instruction → Prop) (labels : List Label) (f : Draft) : Prop :=
  ∀ next, Shaped P labels (f next)

variable {P : Instruction → Prop} {labels labels' : List Label} {f g : Draft} {limit room : Nat}

theorem Shapes.mono (h : Shapes P labels f) (hlabels : labels ⊆ labels') : Shapes P labels' f :=
  fun next => (h next).mono hlabels

theorem Shapes.append (h : Shapes P labels f) (h' : Shapes P labels' g) (hlabels : labels ⊆ labels') :
    Shapes P labels' (f ++ g) :=
  fun next => (h next).append (h' _) fun _ hlabel _ => .inl (hlabels hlabel)

theorem shapes_nil : Shapes P labels (.write []) := fun _ => shaped_nil

theorem shapes_abort (error : CompileError) : Shapes P labels (.abort error) :=
  fun _ => shaped_nil.cons ⟨nofun, nofun⟩

theorem shapes_emit {is : List Instruction} (hP : ∀ i ∈ is, P i)
    (hlabels : ∀ i ∈ is, ∀ label, i.target? = some label → label ∈ labels) :
    Shapes P labels (.emit is) := fun _ => shaped_emits hP hlabels

theorem shapes_enter {inside : Nat → Draft} (h : ∀ room, Shapes P labels (inside room)) :
    Shapes P labels (enter limit room inside) := by
  cases room with
  | zero => exact shapes_abort _
  | succ room => exact h room

/-- A label behind a condition, to which the first part of the condition may go. -/
theorem shapes_skip {condition : Label → Draft}
    (h : ∀ skip, Shapes P (skip :: labels) (condition skip)) :
    Shapes P labels (.fresh fun skip => condition skip ++ .write [.mark skip]) := by
  intro next
  refine Shaped.cons (((h next _).append (shaped_mark next)) fun label hlabel _ => ?_)
    ⟨nofun, nofun⟩
  rcases List.mem_cons.mp hlabel with rfl | hlabel
  · exact .inr List.mem_cons_self
  · exact .inl hlabel

theorem shapes_chain {isAnd : Bool} {left right : Outlet → Draft} (outlet : Outlet) (exits : Exits)
    (hleft : ∀ outlet, Shapes P (Purpose.condition outlet exits).labels (left outlet))
    (hright : ∀ outlet, Shapes P (Purpose.condition outlet exits).labels (right outlet)) :
    Shapes P (Purpose.condition outlet exits).labels (chain isAnd left right outlet exits) := by
  have hjumps : ∀ {o : Outlet} {label}, o.labels = [label] →
      (Purpose.condition o exits).labels = [label] := by
    intro o label ho
    cases o with
    | stack => cases ho
    | jumpIfFalse | jumpIfTrue => exact ho
  rcases @chain_cases isAnd left right outlet exits with
    ⟨o, label, ho, hin, hchain⟩ | ⟨o, ho, -, hchain⟩
  · rw [hchain]
    have hfirst := hleft o
    rw [hjumps ho] at hfirst
    exact hfirst.append (hright outlet) (List.cons_subset.mpr ⟨hin, List.nil_subset _⟩)
  · rw [hchain]
    refine shapes_skip fun skip => ?_
    have hfirst := hleft (o skip)
    rw [hjumps (ho skip)] at hfirst
    exact hfirst.append ((hright outlet).mono (List.subset_cons_self skip _))
      (List.cons_subset.mpr ⟨List.mem_cons_self, List.nil_subset _⟩)

/-- Where the paths of a condition meet, each exit that is branched to is marked. -/
theorem shaped_meeting (hP : ∀ i : Instruction, i.neutral → P i) (onTrue onFalse : Bool)
    (exits : Exits) (join : Label) : Shaped P [] (meeting onTrue onFalse exits join) := by
  have hjump : Shaped P [join] [.emit (.jump .always join)] :=
    @shaped_emits P [join] [.jump .always join] (by simpa using hP _ rfl) (by simp)
  have hpush : ∀ v, Shaped P [join] [.emit (.pushInt v)] := fun v =>
    @shaped_emits P [join] [.pushInt v] (by simpa using hP _ (by simp)) (by simp)
  have htrue : Shaped P [join] (if onTrue then
      [.mark exits.onTrue, .emit (.pushInt 1), .emit (.jump .always join)] else []) := by
    split
    · exact ((hpush 1).append hjump fun _ h _ => .inl h).cons ⟨nofun, nofun⟩
    · exact shaped_nil
  have hfalse : Shaped P [join]
      (if onFalse then [.mark exits.onFalse, .emit (.pushInt 0)] else []) := by
    split
    · exact (hpush 0).cons ⟨nofun, nofun⟩
    · exact shaped_nil
  have hpaths := (hjump.append htrue fun _ h _ => .inl h).append hfalse fun _ h _ => .inl h
  refine hpaths.append (shaped_mark join) fun label hlabel _ => .inr ?_
  obtain rfl := List.mem_singleton.mp hlabel
  exact List.mem_cons_self

theorem mark_mem_meeting {onTrue onFalse : Bool} {exits : Exits} {join : Label} :
    (onTrue = true → .mark exits.onTrue ∈ meeting onTrue onFalse exits join) ∧
      (onFalse = true → .mark exits.onFalse ∈ meeting onTrue onFalse exits join) := by
  constructor <;> rintro rfl <;> simp [meeting]

theorem shapes_materialize (hP : ∀ i : Instruction, i.neutral → P i) {condition : Exits → Draft}
    (h : ∀ exits, Shapes P [exits.onTrue, exits.onFalse] (condition exits)) :
    Shapes P [] (materialize condition) := by
  intro next
  refine Shaped.cons (Shaped.cons (Shaped.cons ?_ ⟨nofun, nofun⟩) ⟨nofun, nofun⟩) ⟨nofun, nofun⟩
  have hcondition := h ⟨next, next + 1⟩ (next + 1 + 1 + 1)
  refine hcondition.append (landing_eq .. ▸ shaped_meeting hP _ _ _ _) fun label hlabel ht => ?_
  rw [landing_eq]
  simp only [List.mem_cons, List.not_mem_nil, or_false] at hlabel
  rcases hlabel with rfl | rfl
  · exact .inr (mark_mem_meeting.1 ht)
  · exact .inr (mark_mem_meeting.2 ht)

/-! ## Expressions -/

theorem neutral_test (outlet : Outlet) : ∀ i ∈ test outlet, i.neutral := by
  cases outlet <;> simp [test]

theorem neutral_testNot (outlet : Outlet) : ∀ i ∈ testNot outlet, i.neutral := by
  cases outlet <;> simp [testNot, negate]

theorem neutral_compared? {op : BinaryOp} {type : Ty} {is : List Instruction}
    (h : compared? type op = some is) : ∀ i ∈ is, i.neutral := by
  cases op <;> cases h
  case ne => split <;> simp [negate]
  all_goals simp [negate]

theorem neutral_fused? {op : BinaryOp} {type : Ty} {outlet : Outlet} {is : List Instruction}
    (h : fused? op type outlet = some is) : ∀ i ∈ is, i.neutral := by
  cases outlet with
  | stack => exact neutral_compared? h
  | jumpIfFalse label | jumpIfTrue label =>
    obtain ⟨branch, -, rfl⟩ := Option.map_eq_some_iff.mp h
    simp

theorem shapes_compare (hP : ∀ i : Instruction, i.neutral → P i) {op : BinaryOp}
    (hop : op.isComparison) (type : Ty) (outlet : Outlet) :
    Shapes P outlet.labels (compare op type outlet) := by
  have hcall : ∀ (method : Method) {is : List Instruction} {taken left : Nat},
      (∀ i ∈ is, i.neutral) → Instruction.Straight outlet.labels taken left is →
        Shapes P outlet.labels (.emit (.call method :: is)) := by
    intro method is taken left his hstraight
    refine shapes_emit (List.forall_mem_cons.mpr ⟨hP _ rfl, fun i hi => hP i (his i hi)⟩) ?_
    exact List.forall_mem_cons.mpr ⟨nofun, fun i hi label => hstraight.mem_of_target hi⟩
  rcases compare_cases hop type outlet with ⟨method, -, -, h⟩ | ⟨method, -, -, h⟩ |
    ⟨-, is, his, h⟩
  · rw [h]
    exact hcall method (neutral_test outlet) (straight_test outlet)
  · rw [h]
    exact hcall method (neutral_testNot outlet) (straight_testNot outlet)
  · obtain ⟨is', his', hstraight⟩ := fused?_straight hop type outlet
    rw [his] at his'
    cases his'
    rw [h]
    exact shapes_emit (fun i hi => hP i (neutral_fused? his i hi))
      fun i hi label => hstraight.mem_of_target hi

theorem shapes_asValue (hP : ∀ i : Instruction, i.neutral → P i) {purpose : Purpose}
    {code : Nat → Draft} (h : ∀ room, Shapes P [] (code room)) :
    Shapes P purpose.labels (asValue limit purpose room code) := by
  cases purpose with
  | value => exact shapes_enter h
  | condition outlet exits =>
    refine shapes_enter fun room => (shapes_enter h).append ?_ (List.nil_subset _)
    have htest : Shapes P outlet.labels (.emit (test outlet)) :=
      shapes_emit (fun i hi => hP i (neutral_test outlet i hi))
        fun i hi label => (straight_test outlet).mem_of_target hi
    exact htest.mono (outlet_labels_subset outlet exits)

/-- A primitive is straight-line code, or there is none. -/
theorem primitive_cases (c : Capability) (target? : Option Member) :
    (∃ error, primitive c target? = .abort error) ∨
      ∃ is taken left, primitive c target? = .emit is ∧ Instruction.Straight [] taken left is := by
  have hplain : ∀ i : Instruction, i.endsBlock = false → i.target? = none →
      (∀ r, i.pops r = i.pops true) → (∀ r, i.pushes r = i.pushes true) →
        Instruction.Straight [] (i.pops true) (i.pushes true) [i] :=
    fun i => straight_plain
  unfold primitive
  split
  case h_1 | h_2 | h_3 | h_5 | h_6 =>
    exact .inr ⟨_, _, _, rfl, hplain _ rfl rfl (fun _ => rfl) fun _ => rfl⟩
  case h_4 m => exact .inr ⟨_, _, _, rfl, straight_load m⟩
  case h_7 slot => exact .inr ⟨_, _, _, rfl, straight_step (.inl rfl) slot⟩
  case h_8 slot => exact .inr ⟨_, _, _, rfl, straight_step (.inr rfl) slot⟩
  case h_9 | h_10 => exact .inl ⟨_, rfl⟩

/-- What a primitive does besides is to its target: it loads it, stores into a field, or steps or
stores into a local. -/
theorem mem_primitive {c : Capability} {target? : Option Member} {next : Label} {i : Instruction}
    (h : .emit i ∈ primitive c target? next) :
    i.neutral ∨ (∃ m, target? = some m ∧ i = .load m) ∨
      (∃ slot : Slot, target? = some (.loc slot) ∧ i.local? = some slot.index) ∨
      c = .store ∧ ∃ field, target? = some (.field field) ∧ i = .storeField field := by
  have hone : ∀ {j : Instruction}, .emit i ∈ Draft.emit [j] next → i = j := by
    intro j h
    simpa [Draft.emit, Draft.write] using h
  have hstep : ∀ {op : Instruction} {slot : Slot}, op.neutral →
      .emit i ∈ Draft.emit (op.step slot) next → i.neutral ∨ i.local? = some slot.index := by
    intro op slot hop h
    exact Instruction.mem_step hop (by simpa [Draft.emit, Draft.write] using h)
  have habort : ∀ {error}, .emit i ∉ Draft.abort error next := by simp [Draft.abort, Draft.write]
  unfold primitive at h
  split at h
  case h_1 | h_2 | h_3 => exact .inl (hone h ▸ rfl)
  case h_4 m => exact .inr (.inl ⟨m, rfl, hone h⟩)
  case h_5 slot => exact .inr (.inr (.inl ⟨slot, rfl, hone h ▸ rfl⟩))
  case h_6 field => exact .inr (.inr (.inr ⟨rfl, field, rfl, hone h⟩))
  case h_7 slot | h_8 slot =>
    exact (hstep rfl h).imp_right fun hlocal => .inr (.inl ⟨slot, rfl, hlocal⟩)
  case h_9 | h_10 => exact absurd h habort

theorem shapes_primitive {c : Capability} {target? : Option Member}
    (h : ∀ next i, .emit i ∈ primitive c target? next → P i) :
    Shapes P [] (primitive c target?) := by
  rcases primitive_cases c target? with ⟨error, hc⟩ | ⟨is, taken, left, hc, hstraight⟩
  · rw [hc]
    exact shapes_abort error
  · rw [hc] at h ⊢
    exact shapes_emit (fun i hi => h 0 i (List.mem_map_of_mem hi))
      fun i hi label => hstraight.mem_of_target hi

theorem shapes_takeTarget (callee : String) (place : Nat) (e : Expr) :
    Shapes P [] (takeTarget callee place e) := by
  unfold takeTarget
  split
  · split
    · exact shapes_nil
    · exact shapes_abort _
  · exact shapes_abort _

theorem shapes_strayReference (c : Carried) : Shapes P [] (strayReference c) := by
  unfold strayReference
  split
  · exact shapes_nil
  · exact shapes_abort _

theorem shapes_operands (callee : String) (place : Nat) (kinds : List ParamKind) {args : List Expr}
    (h : ∀ a ∈ args, Shapes P [] (expr limit a .value room)) :
    Shapes P [] (operands limit callee place kinds args room) := by
  induction args generalizing place kinds with
  | nil =>
    cases kinds with
    | nil => simpa [operands] using shapes_nil
    | cons kind kinds => cases kind <;> simpa [operands] using shapes_nil
  | cons a args ih =>
    have htail := fun kinds => ih (place + 1) kinds fun a ha => h a (List.mem_cons_of_mem _ ha)
    rcases kinds with _ | ⟨_ | _, kinds⟩
    · simpa [operands] using shapes_nil
    · rw [operands]
      exact (h a List.mem_cons_self).append (htail kinds) (List.nil_subset _)
    · rw [operands]
      exact (shapes_takeTarget callee place a).append (htail kinds) (List.nil_subset _)

end Emission

namespace Expr

open Emission

/-- All instructions that the code of an expression may consist of are of a given kind. -/
structure Permits (P : Instruction → Prop) (e : Expr) : Prop where
  neutral : ∀ i : Instruction, i.neutral → P i
  members : ∀ m, Part (.member m) e → P (.load m)
  primitives : ∀ c args type next i, Part (.call (.capability c) args type) e →
    .emit i ∈ primitive c (target? c.params args) next → P i

variable {P : Instruction → Prop} {e : Expr}

theorem Permits.child {c : Expr} (h : e.Permits P) (hc : c ∈ e.children) : c.Permits P :=
  ⟨h.neutral, fun m hp => h.members m (.child hc hp),
    fun c' args type next i hp => h.primitives c' args type next i (.child hc hp)⟩

theorem Permits.mono {Q : Instruction → Prop} (h : e.Permits P) (hPQ : ∀ i, P i → Q i) :
    e.Permits Q :=
  ⟨fun i hi => hPQ i (h.neutral i hi), fun m hp => hPQ _ (h.members m hp),
    fun c args type next i hp hi => hPQ i (h.primitives c args type next i hp hi)⟩

theorem Permits.and {Q : Instruction → Prop} (h : e.Permits P) (h' : e.Permits Q) :
    e.Permits fun i => P i ∧ Q i :=
  ⟨fun i hi => ⟨h.neutral i hi, h'.neutral i hi⟩, fun m hp => ⟨h.members m hp, h'.members m hp⟩,
    fun c args type next i hp hi =>
      ⟨h.primitives c args type next i hp hi, h'.primitives c args type next i hp hi⟩⟩

/-- The code of an expression has the shape that its purpose says. -/
theorem Permits.shapes (limit : Nat) (h : e.Permits P) (purpose : Purpose) (room : Nat) :
    Shapes P purpose.labels (expr limit e purpose room) := by
  induction e generalizing purpose room with
  | member m =>
    rw [expr]
    refine shapes_asValue h.neutral fun _ => shapes_emit (by simpa using h.members m .self) ?_
    exact fun i hi label => (straight_load m).mem_of_target hi
  | literal l =>
    rw [expr]
    refine shapes_asValue h.neutral fun _ => shapes_emit ?_ ?_
    · exact fun i hi => h.neutral i (Instruction.neutral_pushLiteral l i hi)
    · exact fun i hi label => (straight_literal l).mem_of_target hi
  | carried c =>
    rw [expr]
    exact shapes_asValue h.neutral fun _ => shapes_strayReference c
  | call callee args type ih =>
    obtain ⟨name, error, hexpr⟩ := expr_call limit callee args type purpose room
    rw [hexpr]
    refine shapes_asValue h.neutral fun room => ?_
    split
    · exact shapes_abort error
    · refine (shapes_operands name 1 callee.params fun a ha =>
        ih a ha (h.child ha) .value room).append ?_ (List.nil_subset _)
      cases callee with
      | method m => exact shapes_emit (by simpa using h.neutral _ rfl) (by simp [Instruction.target?])
      | capability c => exact shapes_primitive fun next i => h.primitives c args type next i .self
  | binary op left right ihl ihr =>
    have hl := ihl (h.child (by simp [children]))
    have hr := ihr (h.child (by simp [children]))
    have hjoined : ∀ (room : Nat) (outlet : Outlet) (exits : Exits),
        Shapes P (Purpose.condition outlet exits).labels
          (joined limit left right op room outlet exits) :=
      fun room outlet exits => shapes_enter fun room => shapes_chain outlet exits
        (fun outlet => hl (.condition outlet exits) room)
        fun outlet => hr (.condition outlet exits) room
    have hvalues : ∀ room,
        Shapes P [] (expr limit left .value room ++ expr limit right .value room) :=
      fun room => (hl .value room).append (hr .value room) (List.nil_subset _)
    by_cases hlogical : op.isLogical
    · cases purpose with
      | value =>
        rw [expr_logical_value limit left right room hlogical]
        exact shapes_enter fun room => shapes_materialize h.neutral fun exits =>
          hjoined room .stack exits
      | condition outlet exits =>
        rw [expr_logical_condition limit left right room hlogical]
        exact hjoined room outlet exits
    · by_cases hcomparison : op.isComparison
      · rw [expr_comparison limit left right purpose room hcomparison]
        have hsubset : purpose.outlet.labels ⊆ purpose.labels := by
          cases purpose with
          | value => exact List.nil_subset _
          | condition outlet exits => exact outlet_labels_subset outlet exits
        exact shapes_enter fun room => (hvalues room).append
          ((shapes_compare h.neutral hcomparison _ _).mono hsubset) (List.nil_subset _)
      · by_cases hrem : op = .rem
        · subst hrem
          rw [expr_rem]
          refine shapes_asValue h.neutral fun room => (hvalues room).append ?_ (List.nil_subset _)
          exact shapes_emit (by simpa using h.neutral _ rfl) (by simp [Instruction.target?])
        · rw [expr_unsupported limit left right purpose room
            (by simp [supported, hlogical, hcomparison, hrem])]
          exact shapes_asValue h.neutral fun _ => shapes_abort _

/-- The target of a capability is one of the references that it is given. -/
theorem mem_of_target? {kinds : List ParamKind} {args : List Expr} {m : Member}
    (h : target? kinds args = some m) : .carried (.member m) ∈ args := by
  induction kinds, args using target?.induct with
  | case1 kinds m' args ih =>
    rw [target?] at h
    cases hrest : target? kinds args with
    | none =>
      rw [hrest] at h
      cases h
      exact List.mem_cons_self
    | some m'' =>
      rw [hrest] at h
      cases h
      exact List.mem_cons_of_mem _ (ih hrest)
  | case2 kind kinds a args hother ih =>
    rw [target?] at h
    · exact List.mem_cons_of_mem _ (ih h)
    · exact hother
  | case3 kinds args hother hother' =>
    rw [target?] at h
    · cases h
    · exact hother
    · exact hother'

/-- The code of an expression uses the locals that the expression names. -/
theorem ReadsBelow.permits {count : Nat} (h : e.ReadsBelow count) :
    e.Permits fun i => ∀ index, i.local? = some index → index < count where
  neutral i hi index hindex := by
    rw [Instruction.local?_of_neutral hi] at hindex
    cases hindex
  members m hp index hindex := by
    cases m with
    | loc slot =>
      cases hindex
      exact h slot (.inl hp)
    | arg | field => cases hindex
  primitives c args type next i hp hi index hindex := by
    have hslot : ∀ slot, target? c.params args = some (.loc slot) → slot.index < count :=
      fun slot htarget => h slot (.inr (Part.trans (.child (mem_of_target? htarget) .self) hp))
    rcases mem_primitive hi with hneutral | ⟨m, hm, rfl⟩ | ⟨slot, hm, hlocal⟩ | ⟨-, field, -, rfl⟩
    · rw [Instruction.local?_of_neutral hneutral] at hindex
      cases hindex
    · cases m with
      | loc slot =>
        cases hindex
        exact hslot slot hm
      | arg | field => cases hindex
    · rw [hlocal] at hindex
      cases hindex
      exact hslot slot hm
    · cases hindex

/-- The code of an admissible expression stores into no field. -/
theorem Admissible.permits (h : e.Admissible) : e.Permits fun i => ∀ field, i ≠ .storeField field where
  neutral i hi field hfield := by
    subst hfield
    cases hi
  members m hp field := by cases m <;> exact nofun
  primitives c args type next i hp hi field hfield := by
    subst hfield
    rcases mem_primitive hi with hneutral | ⟨m, -, hload⟩ | ⟨slot, -, hlocal⟩ | ⟨rfl, -⟩
    · cases hneutral
    · cases m <;> cases hload
    · cases hlocal
    · exact absurd (h.parts _ hp).1 (by simp [Callee.leavesValue])

end Expr

end GuardCode
