import GuardCode.Proofs.Blocks.Opening
import GuardCode.Proofs.Emission.Simulation
import GuardCode.Proofs.StackSafety

/-! Blocks above values that lie on the stack already. Both exits of a block are marked whether or
not its guard branches to them, and an exit that nothing branches to counts as reached on an empty
stack. So a block fits above other values only if its guard can be decided early both ways. -/
namespace GuardCode

/-- Whether the outcome of a guard can be known before its last operand: an `&&` on the way to that
operand can fail early, an `||` can hold early. -/
def Expr.decidesEarly (outcome : Bool) : Expr → Bool
  | binary .and _ right => !outcome || right.decidesEarly outcome
  | binary .or _ right => outcome || right.decidesEarly outcome
  | _ => false

open Directive Emission Assembly

namespace Directive

variable {a b : Assembly} {ds : List Directive} {label : Label}

/-- A label changes only by branches to it and by its mark. -/
theorem Performs.untargeted (hf : a.frozen = false) (h : Performs ds a b)
    (htargets : targets label ds = false) {before after : LabelState}
    (ha : a.labels[label]? = some before) (hb : b.labels[label]? = some after)
    (hposition : after.position? = none) : after = before := by
  induction ds generalizing a before with
  | nil =>
    obtain rfl := performs_nil.mp h
    rw [ha] at hb
    exact (Option.some.inj hb).symm
  | cons d ds ih =>
    obtain ⟨c, hc, htail⟩ := performs_cons.mp h
    have hp := performed_of_perform hf hc
    have hfc := hp.frozen.trans hf
    have htail' : targets label ds = false := by
      simp only [targets, List.any_cons, Bool.or_eq_false_iff] at htargets
      exact htargets.2
    have hkept : c.labels[label]? = some before := by
      cases hp with
      | @emit i _ _ he =>
        refine (he.others label fun ht => ?_).trans ha
        exact Bool.false_ne_true (htargets.symm.trans (targets_iff.mpr ⟨i, by simp, ht⟩))
      | @mark other _ _ hm =>
        refine (hm.others label ?_).trans ha
        rintro rfl
        obtain ⟨state, hl, hmarked⟩ := htail.position hfc ⟨_, hm.here, rfl⟩
        rw [hb] at hl
        cases hl
        rw [hposition] at hmarked
        cases hmarked
      | define =>
        have hlt := (Array.getElem?_eq_some_iff.mp ha).1
        rw [Array.getElem?_push_lt hlt, ← Array.getElem?_eq_getElem hlt, ha]
      | declare => exact ha
    exact ih hfc htail htail' hkept

end Directive

namespace Emission

variable {a b : Assembly} {ds : List Directive} {labels : List Label} {results : Nat}

/-- A label of the surroundings that is not marked is branched to only if it is given. -/
theorem Accepts.mem_of_targets (h : Accepts ds labels results a b) {label : Label}
    {state : LabelState} (hl : a.labels[label]? = some state) (hposition : state.position? = none)
    (ht : targets label ds = true) : label ∈ labels := by
  refine (h.closed label ht).resolve_right ?_
  rintro ⟨after, hafter, position, hmarked⟩
  obtain ⟨before, after', hbefore, hafter', hp, -⟩ :=
    h.kept label (Array.getElem?_eq_some_iff.mp hl).1
  rw [hl] at hbefore
  rw [hafter] at hafter'
  cases hbefore
  cases hafter'
  rw [hmarked, hposition] at hp
  cases hp

/-- Only chains use the exits where the outcome stays on the stack. -/
theorem expr_stack_exits {e : Expr} (h : e.isLogical = false) (limit room : Nat)
    (exits exits' : Exits) :
    expr limit e (.condition .stack exits) room = expr limit e (.condition .stack exits') room := by
  cases e with
  | binary op left right =>
    by_cases hcomparison : op.isComparison
    · rw [expr_comparison limit left right _ room hcomparison,
        expr_comparison limit left right _ room hcomparison]
      rfl
    · by_cases hrem : op = .rem
      · subst hrem
        rw [expr_rem, expr_rem]
        rfl
      · have hunsupported : ¬ Expr.supported op := by
          simp [Expr.supported, hcomparison, hrem, show op.isLogical = false from h]
        rw [expr_unsupported limit left right _ room hunsupported,
          expr_unsupported limit left right _ room hunsupported]
        rfl
  | member m => rfl
  | literal l => rfl
  | carried c => rfl
  | call callee args type =>
    cases callee <;> simp only [expr] <;> rfl

/-- A label that is not marked yet and admits the depth. -/
def Awaits (a : Assembly) (label : Label) : Prop :=
  ∃ state, a.labels[label]? = some state ∧ state.position? = none ∧
    (state.depth? = none ∨ state.depth? = some a.depth)

theorem Awaits.admits {label : Label} (h : Awaits a label) : a.Admits label a.depth := by
  obtain ⟨state, hl, -, hd⟩ := h
  exact ⟨state, hl, hd⟩

/-- Code that leaves nothing on the stack and marks no label of its surroundings. -/
theorem Awaits.accepts {label : Label} (h : Awaits a label) (hb : Accepts ds labels 0 a b) :
    Awaits b label := by
  obtain ⟨state, hl, hposition, hd⟩ := h
  obtain ⟨before, after, hbefore, hafter, hp, hdepth⟩ :=
    hb.kept label (Array.getElem?_eq_some_iff.mp hl).1
  rw [hl] at hbefore
  cases hbefore
  refine ⟨after, hafter, hp.trans hposition, ?_⟩
  have hsame : b.depth = a.depth := hb.depth
  rw [hsame]
  rcases hdepth with hdepth | ⟨-, hdepth⟩
  · rwa [hdepth]
  · exact .inr hdepth

theorem Awaits.mem_of_targets {label : Label} (h : Awaits a label)
    (hb : Accepts ds labels results a b) (ht : targets label ds = true) : label ∈ labels := by
  obtain ⟨state, hl, hposition, -⟩ := h
  exact hb.mem_of_targets hl hposition ht

section

variable {limit room : Nat} {exits : Exits} {e : Expr}

/-- A condition that jumps to one label does not jump to another one of its surroundings. -/
theorem targets_jumping (hguard : e.Admissible) (heq : e.EqualitiesProper)
    (hroom : e.need.condition ≤ room) (hf : a.frozen = false) (hr : a.reachable = true)
    {label other : Label} (hlabel : Awaits a label) (hother : Awaits a other) (outlet : Outlet)
    (houtlet : outlet = .jumpIfFalse other ∨ outlet = .jumpIfTrue other) :
    (targets label (expr limit e (.condition outlet exits) room a.labels.size) = true ↔
        label = other) ∧
      ∃ b, Accepts (expr limit e (.condition outlet exits) room a.labels.size) [other] 0 a b := by
  have hlabels : (Purpose.condition outlet exits).labels = [other] ∧ outlet.labels = [other] ∧
      (Purpose.condition outlet exits).results = 0 := by
    rcases houtlet with rfl | rfl <;> exact ⟨rfl, rfl, rfl⟩
  obtain ⟨hpurpose, houtlet, hresults⟩ := hlabels
  obtain ⟨b, hb⟩ := accepted_expr limit e hguard heq (.condition outlet exits) room hroom a hf hr
    (by simpa [hpurpose] using hother.admits)
  rw [hpurpose, hresults] at hb
  refine ⟨⟨fun ht => by simpa using hlabel.mem_of_targets hb ht, ?_⟩, b, hb⟩
  rintro rfl
  exact targets_outlet limit e hb.performs.unaborted (by simp [houtlet])

theorem awaits_at (htrue : Awaits a exits.onTrue) (hfalse : Awaits a exits.onFalse)
    (outcome : Bool) : Awaits a (exits.at outcome) := by
  cases outcome
  · exact hfalse
  · exact htrue

theorem exits_at_inj (hdistinct : exits.onTrue ≠ exits.onFalse) {outcome other : Bool} :
    exits.at outcome = exits.at other ↔ outcome = other := by
  cases outcome <;> cases other <;> simp [Exits.at, hdistinct, hdistinct.symm]

/-- Any other expression jumps nowhere where its outcome stays on the stack. -/
theorem targets_at_of_not_logical (h : e.isLogical = false) (hguard : e.Admissible)
    (heq : e.EqualitiesProper) (hroom : e.need.condition ≤ room)
    (hdistinct : exits.onTrue ≠ exits.onFalse) (hf : a.frozen = false) (hr : a.reachable = true)
    (htrue : Awaits a exits.onTrue) (hfalse : Awaits a exits.onFalse) (outcome : Bool) :
    targets (exits.at outcome) (expr limit e (.condition .stack exits) room a.labels.size) =
      false := by
  -- The exits do not matter, so let both be the other one.
  let other := exits.at !outcome
  rw [expr_stack_exits h limit room exits ⟨other, other⟩]
  obtain ⟨b, hb⟩ := accepted_expr limit e hguard heq (.condition .stack ⟨other, other⟩) room hroom a
    hf hr (by simpa [Purpose.labels] using (awaits_at htrue hfalse _).admits)
  refine Bool.eq_false_iff.mpr fun ht => ?_
  have hmem := (awaits_at htrue hfalse outcome).mem_of_targets hb ht
  have hsame : exits.at outcome = exits.at !outcome := by simpa [Purpose.labels] using hmem
  have := (exits_at_inj hdistinct).mp hsame
  simp at this

/-- The code of a guard branches to an exit exactly if the guard can be decided early that way. -/
theorem targets_exit (hguard : e.Admissible) (heq : e.EqualitiesProper)
    (hroom : e.need.condition ≤ room) (hdistinct : exits.onTrue ≠ exits.onFalse)
    (hf : a.frozen = false) (hr : a.reachable = true) (htrue : Awaits a exits.onTrue)
    (hfalse : Awaits a exits.onFalse) (outcome : Bool) :
    targets (exits.at outcome) (expr limit e (.condition .stack exits) room a.labels.size) =
      e.decidesEarly outcome := by
  induction e generalizing a room with
  | binary op left right _ ih =>
    by_cases hop : op.isLogical
    · obtain ⟨-, hleft, hright⟩ := Expr.admissible_binary.mp hguard
      rw [Expr.need_logical hop] at hroom
      obtain ⟨less, rfl⟩ : ∃ less, room = less + 1 := ⟨room - 1, by simp only at hroom; omega⟩
      have hneed : left.need.condition ≤ less ∧ right.need.condition ≤ less := by
        simp only at hroom
        omega
      -- The left operand jumps to the exit of the outcome that it can decide.
      have hchain : ∀ (jump : Outlet) (early : Bool),
          jump = .jumpIfFalse (exits.at early) ∨ jump = .jumpIfTrue (exits.at early) →
          targets (exits.at outcome) ((expr limit left (.condition jump exits) less ++
            expr limit right (.condition .stack exits) less) a.labels.size) =
              (outcome == early || right.decidesEarly outcome) := by
        intro jump early hjump
        have heql : left.EqualitiesProper := heq.child (by simp [Expr.children])
        obtain ⟨hiff, b, hb⟩ : _ ∧ ∃ b,
            Accepts (expr limit left (.condition jump exits) less a.labels.size) _ _ a b :=
          targets_jumping hleft heql hneed.1 hf hr (awaits_at htrue hfalse outcome)
            (awaits_at htrue hfalse early) jump hjump
        have hrest := ih hright (heq.child (by simp [Expr.children])) hneed.2 (hb.performs.frozen hf)
          hb.reachable (htrue.accepts hb) (hfalse.accepts hb)
        rw [Draft.append_apply, ← hb.performs.labelCount hf, targets_append, hrest]
        congr 1
        rw [Bool.eq_iff_iff, hiff, exits_at_inj hdistinct, beq_iff_eq]
      rw [expr_logical_condition limit left right _ hop]
      cases op with
      | and => exact (hchain _ false (.inl rfl)).trans (by cases outcome <;> rfl)
      | or => exact (hchain _ true (.inr rfl)).trans (by cases outcome <;> rfl)
      | _ => cases hop
    · have hlogical : (Expr.binary op left right).isLogical = false := by
        simpa [Expr.isLogical] using hop
      rw [targets_at_of_not_logical hlogical hguard heq hroom hdistinct hf hr htrue hfalse]
      cases op with
      | and | or => exact absurd rfl hop
      | _ => rfl
  | member | literal | carried | call =>
    rw [targets_at_of_not_logical rfl hguard heq hroom hdistinct hf hr htrue hfalse]
    rfl

end

end Emission

section

variable {a b : Assembly} {limit : Nat} {guard : Expr}

theorem need_of_opening (hf : a.frozen = false) (hr : a.reachable = true)
    (heq : guard.EqualitiesProper)
    (h : Performs (IfBlock.ofGuard limit guard a.labels.size a.locals.size).opening a b) :
    guard.need.condition ≤ limit := by
  rw [IfBlock.opening_eq] at h
  obtain ⟨c, hc, h⟩ := Directive.performs_append.mp h
  obtain ⟨-, rfl⟩ := performs_opened.mp hc
  obtain ⟨c, hc, h⟩ := Directive.performs_append.mp h
  exact (measured_expr limit guard heq _ limit _ _ _ (show a.opened.frozen = false from hf) hr
    hc).levels

/-- Above other values a block opens only if its guard can be decided early both ways. -/
theorem exits_of_opening (hf : a.frozen = false) (hr : a.reachable = true)
    (heq : guard.EqualitiesProper) (hguard : guard.Admissible)
    (h : Performs (IfBlock.ofGuard limit guard a.labels.size a.locals.size).opening a b)
    (outcome : Bool) : a.depth = 0 ∨ guard.decidesEarly outcome = true := by
  have hneed := need_of_opening hf hr heq h
  rw [IfBlock.opening_eq] at h
  obtain ⟨c, hc, h⟩ := Directive.performs_append.mp h
  obtain ⟨-, rfl⟩ := performs_opened.mp hc
  obtain ⟨c, hc, h⟩ := Directive.performs_append.mp h
  obtain ⟨d, hd, -⟩ := Directive.performs_append.mp h
  have hfo : a.opened.frozen = false := hf
  obtain ⟨c', hc'⟩ := accepts_guard hf hr heq hguard hneed
  obtain rfl := hc.unique hc'.performs
  obtain ⟨state, hl, hdepth⟩ := depths_of_meeting (hc.frozen hfo) (by simp) hd outcome
  have htrue : Awaits a.opened a.labels.size := ⟨{}, opened_new a (show 0 < 6 by omega), rfl, .inl rfl⟩
  have hfalse : Awaits a.opened (a.labels.size + 1) :=
    ⟨{}, opened_new a (show 1 < 6 by omega), rfl, .inl rfl⟩
  have hexit : targets (Exits.at ⟨a.labels.size, a.labels.size + 1⟩ outcome)
      (expr limit guard (.condition .stack ⟨a.labels.size, a.labels.size + 1⟩) limit
        a.opened.labels.size) = guard.decidesEarly outcome :=
    targets_exit hguard heq hneed (by simp) hfo hr htrue hfalse outcome
  rw [opened_labelCount] at hexit
  cases hearly : guard.decidesEarly outcome with
  | true => exact .inr rfl
  | false =>
    -- An exit that nothing branches to is still as it was created.
    rw [hearly] at hexit
    have hfresh : a.opened.labels[Exits.at ⟨a.labels.size, a.labels.size + 1⟩ outcome]? = some {} := by
      cases outcome
      · exact opened_new a (show 1 < 6 by omega)
      · exact opened_new a (show 0 < 6 by omega)
    have hposition : state.position? = none := by
      obtain ⟨before, after, hbefore, hafter, hp, -⟩ :=
        hc'.kept _ (Array.getElem?_eq_some_iff.mp hfresh).1
      rw [hfresh] at hbefore
      rw [hl] at hafter
      cases hbefore
      cases hafter
      exact hp
    obtain rfl := hc.untargeted hfo hexit hfresh hl hposition
    left
    have hgained : c'.depth = a.depth + 1 := hc'.depth
    simp only [Option.getD_none] at hdepth
    omega

/-- A block is written exactly if each of its pieces is. -/
theorem IfBlock.run_eq_ok {σ α β : Type} {perform : List Directive → EStateM CompileError σ Unit}
    {block : IfBlock} {onTrue : Body σ α} {onFalse : Body σ β} {s t : σ} :
    (block.run perform onTrue onFalse s).1 = .ok () t ↔
      ∃ s₁ s₂ s₃ s₄, perform block.opening s = .ok () s₁ ∧ (onTrue s₁).1 = .ok () s₂ ∧
        perform block.middle s₂ = .ok () s₃ ∧ (onFalse s₃).1 = .ok () s₄ ∧
        perform block.closing s₄ = .ok () t := by
  unfold run
  cases h₁ : perform block.opening s with
  | error e s₁ => simp
  | ok u s₁ =>
    rcases h₂ : onTrue s₁ with ⟨⟨u, s₂⟩ | ⟨e, s₂⟩, said⟩
    · cases h₃ : perform block.middle s₂ with
      | error e s₃ => simp [h₂, h₃]
      | ok u s₃ => cases h₄ : (onFalse s₃).1 <;> simp [h₂, h₃, h₄]
    · simp [h₂]

theorem Assembly.ifElse_eq_ok {α β : Type} {onTrue : IfBlock.Body Assembly α}
    {onFalse : IfBlock.Body Assembly β} {labels : IfLabels} :
    (a.ifElse limit guard onTrue onFalse).1 = .ok labels b ↔
      labels = .startingAt a.labels.size ∧
        ((IfBlock.ofGuard limit guard a.labels.size a.locals.size).run performAll onTrue onFalse
          a).1 = .ok () b := by
  unfold Assembly.ifElse
  simp only
  cases ((IfBlock.ofGuard limit guard a.labels.size a.locals.size).run performAll onTrue onFalse
    a).1 with
  | error e c => simp
  | ok u c => simp [IfBlock.ofGuard, eq_comm]

/-- A body that leaves the depth of the stack unchanged. Wherever there is room for its locals it can
be written; it takes nothing from the stack that it has not put there, and leaves the labels of its
surroundings as they are. -/
def IfBlock.Body.KeepsDepth {α : Type} (room : Nat) (body : IfBlock.Body Assembly α) : Prop :=
  ∀ a, a.frozen = false → a.reachable = true → a.locals.size + room ≤ 65536 →
    ∃ ds b said, body a = (.ok () b, said) ∧ Performs ds a b ∧ b.reachable = true ∧
      b.depth = a.depth ∧ b.locals.size = a.locals.size + room ∧
      (∀ label < a.labels.size, b.labels[label]? = a.labels[label]?) ∧ Above a.depth ds a

/-- A block that opens can be written as a whole. -/
theorem block_ok {α β : Type} {onTrue : IfBlock.Body Assembly α} {onFalse : IfBlock.Body Assembly β}
    {room room' : Nat} (htrue : onTrue.KeepsDepth room) (hfalse : onFalse.KeepsDepth room')
    (hf : a.frozen = false) (hroom : a.locals.size + 1 + room + room' ≤ 65536)
    {a₁ : Assembly}
    (h : Performs (IfBlock.ofGuard limit guard a.labels.size a.locals.size).opening a a₁)
    (hopens : Opens a a₁)
    (habove : Above a.depth (IfBlock.ofGuard limit guard a.labels.size a.locals.size).opening a) :
    ∃ ds b, (a.ifElse limit guard onTrue onFalse).1 = .ok (.startingAt a.labels.size) b ∧
      Performs ds a b ∧ b.depth = a.depth ∧ Above a.depth ds a := by
  have hf₁ := h.frozen hf
  have hlocals₁ : a₁.locals.size = a.locals.size + 1 := by simp [hopens.locals]
  have hfive : a.labels.size + 5 < a₁.labels.size := (Array.getElem?_eq_some_iff.mp hopens.endIf).1
  obtain ⟨ts, a₂, said, hbody₂, h₂, hr₂, hdepth₂, hlocals₂, hkept₂, habove₂⟩ :=
    htrue a₁ hf₁ hopens.reachable (by omega)
  have hf₂ := h₂.frozen hf₁
  -- Behind the first body the end is reached, and the second body goes on in the same depth.
  have hend₂ : a₂.labels[a.labels.size + 5]? = some {} := (hkept₂ _ hfive).trans hopens.endIf
  obtain ⟨c, hc, hrc, -, ⟨state, hstate, hend⟩, helse⟩ :=
    performs_jump hf₂ (show a₂.Admits (a.labels.size + 5) _ from ⟨{}, hend₂, .inl rfl⟩)
  rw [hend₂] at hstate
  cases hstate
  have hfc := hc.frozen hf₂
  have hwaits : Waits c (a.labels.size + 4) a.depth := by
    refine ⟨⟨none, some a.depth⟩, (helse _ (by simp)).trans ?_, rfl, rfl⟩
    exact (hkept₂ _ (by omega)).trans hopens.elseBody
  obtain ⟨a₃, h₃, hr₃, hdepth₃, -, helse₃⟩ := performs_waiting hfc hrc hwaits
  have hf₃ := h₃.frozen hfc
  have hmiddle : Performs (IfBlock.ofGuard limit guard a.labels.size a.locals.size).middle a₂ a₃ :=
    Directive.performs_append.mpr ⟨c, hc, h₃⟩
  have hlocals₃ : a₃.locals.size = a₂.locals.size := by
    rw [hmiddle.locals hf₂ (by simp [IfBlock.ofGuard])]
  obtain ⟨fs, a₄, said', hbody₄, h₄, hr₄, hdepth₄, -, hkept₄, habove₄⟩ :=
    hfalse a₃ hf₃ hr₃ (by omega)
  have hf₄ := h₄.frozen hf₃
  -- Both bodies come to the end in one depth.
  have hend₃ : a₃.labels[a.labels.size + 5]? = some ⟨none, some a₂.depth⟩ :=
    (helse₃ _ (by simp)).trans hend
  have hend₄ : a₄.labels[a.labels.size + 5]? = some ⟨none, some a₂.depth⟩ :=
    (hkept₄ _ (Array.getElem?_eq_some_iff.mp hend₃).1).trans hend₃
  have hsame : a₂.depth = a.depth := hdepth₂.trans hopens.depth
  obtain ⟨b, hb⟩ := mark_ok hf₄ hend₄ rfl fun _ => .inr (by rw [hdepth₄, hdepth₃, hsame])
  have hmark := mark_eq_ok hf₄ hb
  have hclosing : Performs (IfBlock.ofGuard limit guard a.labels.size a.locals.size).closing a₄ b :=
    performs_cons.mpr ⟨b, perform_mark.mpr hb, performs_nil.mpr rfl⟩
  refine ⟨(IfBlock.ofGuard limit guard a.labels.size a.locals.size).opening ++ (ts ++
    ((IfBlock.ofGuard limit guard a.labels.size a.locals.size).middle ++ (fs ++
      (IfBlock.ofGuard limit guard a.labels.size a.locals.size).closing))), b, ?_, ?_, ?_, ?_⟩
  · refine Assembly.ifElse_eq_ok.mpr ⟨rfl, IfBlock.run_eq_ok.mpr ⟨a₁, a₂, a₃, a₄, h, ?_, hmiddle, ?_,
      hclosing⟩⟩
    · rw [hbody₂]
    · rw [hbody₄]
  · exact Directive.performs_append.mpr ⟨a₁, h, Directive.performs_append.mpr ⟨a₂, h₂,
      Directive.performs_append.mpr ⟨a₃, hmiddle, Directive.performs_append.mpr ⟨a₄, h₄, hclosing⟩⟩⟩⟩
  · exact (hmark.depth_eq hend₄ rfl).trans hsame
  · have hmiddleAbove : Above a.depth
        (IfBlock.ofGuard limit guard a.labels.size a.locals.size).middle a₂ :=
      (above_emit rfl (by omega)).append hc (above_mark _)
    refine habove.append h (((habove₂.mono ?_).append h₂) (hmiddleAbove.append hmiddle
      ((habove₄.mono ?_).append h₄ (above_mark _))))
    · exact Nat.le_of_eq hopens.depth.symm
    · exact Nat.le_of_eq hdepth₃.symm

end

/-! ## Runs -/

namespace Directive

variable {a b : Assembly} {ds es : List Directive}

theorem Above.at {base : Nat} {i : Instruction} (h : Above base (ds ++ .emit i :: es) a)
    (hb : Performs ds a b) : base + i.pops b.returnsValue ≤ b.depth :=
  ((above_append.mp h).2 b hb).1 i rfl

end Directive

namespace Machine

variable {σ : Type}

/-- The instructions between two positions neither take nor read the lowest `count` values above the
initial stack, in any run. -/
def LeavesAlone (s : Setting σ) (m : Machine σ) (first last count : Nat) : Prop :=
  ∀ n position m' i, Reaches s (0, m) n (position, m') → first ≤ position → position < last →
    s.code.instructions[position]? = some i →
      ∃ top base, m'.stack = top ++ base ∧ base.length = count + m.stack.length ∧
        step s position i m' = (step s position i { m' with stack := top }).under base

/-- What holds while code is assembled holds in its runs. -/
theorem leavesAlone_of_above {pre ds post : List Directive} {returnsValue : Bool}
    {encoding : Encoding} {a b final : Assembly} {base : Nat} {code : Code}
    (hpre : Performs pre { returnsValue, encoding } a) (hds : Performs ds a b)
    (hpost : Performs post b final) (hcode : final.finish = .ok code) (habove : Above base ds a)
    (s : Setting σ) (hs : s.code = code) (m : Machine σ) :
    LeavesAlone s m a.instructions.size b.instructions.size base := by
  subst hs
  have hfa : a.frozen = false := hpre.frozen rfl
  have hfb := hds.frozen hfa
  have htracked := hpre.tracked rfl (Assembly.tracked_start returnsValue encoding)
  rw [List.nil_append] at htracked
  have htracked' := hds.tracked hfa htracked
  have hbalanced := (hpost.tracked hfb htracked').balanced hcode
  have hsize := htracked.length
  have hsize' := htracked'.length
  rw [List.length_append] at hsize'
  generalize depths pre { returnsValue, encoding } = earlier at htracked htracked' hbalanced hsize hsize'
  intro n position m' i hreach hfirst hlast hi
  obtain ⟨m₁, rfl, hlevel⟩ := level_reaches (m := { m with stack := [] }) hbalanced hreach rfl
  obtain ⟨hdepth, -, -⟩ := level_operands hbalanced hi hlevel
  -- The depth in front of the instruction is one of those of the directives in question.
  rw [List.append_assoc, List.getElem?_append_right (by omega), List.getElem?_append_left (by omega)]
    at hdepth
  obtain ⟨before, j, after, c, rfl, hbefore, hposition, hcdepth, hj⟩ := hds.emitted_at hfa hdepth
  rw [hsize, Nat.add_sub_cancel' hfirst] at hposition hj
  have hfloor := habove.at hbefore
  obtain ⟨-, hrelax, -, -, -, hreturns⟩ := Assembly.finish_eq_ok hcode
  obtain ⟨j', hj', hij⟩ := (Relaxation.relax_allAlike hrelax).2 position i hi
  rw [hpost.instructions hfb hj] at hj'
  cases hj'
  have hpops : base + i.pops s.code.returnsValue ≤ m₁.stack.length := by
    rw [hij.pops_eq, hreturns, hpost.returnsValue hfb, hds.returnsValue hfa,
      ← hbefore.returnsValue hfa, ← hcdepth]
    exact hfloor
  let count := m₁.stack.length - base
  let m₂ : Machine σ := { m₁ with stack := m₁.stack.take count }
  have hsplit : m₁.stack ++ m.stack = m₁.stack.take count ++ (m₁.stack.drop count ++ m.stack) := by
    rw [← List.append_assoc, List.take_append_drop]
  have hunder : m₁.under m.stack = m₂.under (m₁.stack.drop count ++ m.stack) := by
    simp only [under, m₂, hsplit]
  refine ⟨m₁.stack.take count, m₁.stack.drop count ++ m.stack, ?_, ?_, ?_⟩
  · exact hsplit
  · simp only [List.length_append, List.length_drop, count]
    omega
  · show step s position i (m₁.under m.stack) = _
    rw [hunder]
    refine step_under i ?_
    simp only [m₂, List.length_take, count]
    omega

end Machine

section

variable {a : Assembly} {limit room room' : Nat} {guard : Expr} {α β : Type}
  {onTrue : IfBlock.Body Assembly α} {onFalse : IfBlock.Body Assembly β}

/-- Above other values a block opens if its guard can be decided early both ways. -/
theorem waits_of_exits (hf : a.frozen = false) (hr : a.reachable = true)
    (heq : guard.EqualitiesProper) (hguard : guard.Admissible)
    (hneed : guard.need.condition ≤ limit)
    (hexits : ∀ outcome, a.depth = 0 ∨ guard.decidesEarly outcome = true) {c : Assembly}
    (hc : Accepts (Emission.guard limit guard ⟨a.labels.size, a.labels.size + 1⟩ (a.labels.size + 6))
      [a.labels.size, a.labels.size + 1] 1 a.opened c) :
    Waits c a.labels.size a.depth ∧ Waits c (a.labels.size + 1) a.depth := by
  have hfo : a.opened.frozen = false := hf
  have hzero := opened_new a (show 0 < 6 by omega)
  have hone := opened_new a (show 1 < 6 by omega)
  have hwaits : ∀ outcome, a.opened.labels[Exits.at ⟨a.labels.size, a.labels.size + 1⟩ outcome]? =
      some {} → Waits c (Exits.at ⟨a.labels.size, a.labels.size + 1⟩ outcome) a.depth := by
    intro outcome hfresh
    rcases hexits outcome with hdepth | hearly
    · have hkept := hc.kept
      rw [show a.opened.depth = 0 from hdepth] at hkept
      rw [hdepth]
      exact waits_of_kept hkept hfresh
    · have hexit : targets (Exits.at ⟨a.labels.size, a.labels.size + 1⟩ outcome)
          (expr limit guard (.condition .stack ⟨a.labels.size, a.labels.size + 1⟩) limit
            a.opened.labels.size) = guard.decidesEarly outcome :=
        targets_exit hguard heq hneed (by simp) hfo hr ⟨{}, hzero, rfl, .inl rfl⟩
          ⟨{}, hone, rfl, .inl rfl⟩ outcome
      rw [opened_labelCount, hearly] at hexit
      exact hc.waits hfo hfresh hexit
  exact ⟨hwaits true hzero, hwaits false hone⟩

/-- A block above values that lie on the stack already. On an empty stack it can be written exactly
for the guards that are accepted at all; above other values the guard has to branch to both exits.
Whenever the block can be written, it leaves the depth as it was and the values below it alone. -/
theorem block_fits_iff {σ : Type} (hf : a.frozen = false) (hr : a.reachable = true)
    (heq : guard.EqualitiesProper) (hguard : a.depth = 0 ∨ guard.Admissible)
    (htrue : onTrue.KeepsDepth room) (hfalse : onFalse.KeepsDepth room')
    (hroom : a.locals.size + 1 + room + room' ≤ 65536) :
    ((∃ labels b, (a.ifElse limit guard onTrue onFalse).1 = .ok labels b) ↔
      guard.need.condition ≤ limit ∧ guard.Admissible ∧
        (a.depth = 0 ∨ guard.decidesEarly true = true ∧ guard.decidesEarly false = true)) ∧
    ∀ labels b, (a.ifElse limit guard onTrue onFalse).1 = .ok labels b →
      b.depth = a.depth ∧
      ∀ pre post returnsValue encoding final code,
        Performs pre { returnsValue, encoding } a → Performs post b final →
        final.finish = .ok code → ∀ (s : Setting σ) (m : Machine σ), s.code = code →
          Machine.LeavesAlone s m a.instructions.size b.instructions.size a.depth := by
  have hwritten : guard.need.condition ≤ limit → guard.Admissible →
      (a.depth = 0 ∨ guard.decidesEarly true = true ∧ guard.decidesEarly false = true) →
      ∃ ds b, (a.ifElse limit guard onTrue onFalse).1 = .ok (.startingAt a.labels.size) b ∧
        Performs ds a b ∧ b.depth = a.depth ∧ Above a.depth ds a := by
    intro hneed hguard hexits
    obtain ⟨a₁, h, hopens, habove⟩ := opening_ok hf hr heq hguard hneed (by omega)
      fun c hc => waits_of_exits hf hr heq hguard hneed (fun outcome =>
        hexits.imp_right fun hboth => by cases outcome <;> simp [hboth]) hc
    exact block_ok htrue hfalse hf hroom h hopens habove
  have honly : ∀ labels b, (a.ifElse limit guard onTrue onFalse).1 = .ok labels b →
      guard.need.condition ≤ limit ∧ guard.Admissible ∧
        (a.depth = 0 ∨ guard.decidesEarly true = true ∧ guard.decidesEarly false = true) := by
    intro labels b hb
    obtain ⟨-, hrun⟩ := Assembly.ifElse_eq_ok.mp hb
    obtain ⟨a₁, _, _, _, h, -⟩ := IfBlock.run_eq_ok.mp hrun
    by_cases hdepth : a.depth = 0
    · obtain ⟨hneed, hguard, -⟩ := opens_of_empty hf hr hdepth heq h
      exact ⟨hneed, hguard, .inl hdepth⟩
    · have hguard := hguard.resolve_left hdepth
      have hexits := fun outcome =>
        (exits_of_opening hf hr heq hguard h outcome).resolve_left hdepth
      exact ⟨need_of_opening hf hr heq h, hguard, .inr ⟨hexits true, hexits false⟩⟩
  refine ⟨⟨fun ⟨labels, b, hb⟩ => honly labels b hb, fun ⟨hneed, hguard, hexits⟩ => ?_⟩, ?_⟩
  · obtain ⟨ds, b, hb, -⟩ := hwritten hneed hguard hexits
    exact ⟨_, b, hb⟩
  · intro labels b hb
    obtain ⟨hneed, hguard, hexits⟩ := honly labels b hb
    obtain ⟨ds, b', hb', hds, hdepth, habove⟩ := hwritten hneed hguard hexits
    rw [hb] at hb'
    cases hb'
    exact ⟨hdepth, fun pre post returnsValue encoding final code hpre hpost hcode s m hs =>
      Machine.leavesAlone_of_above hpre hds hpost hcode habove s hs m⟩

end

/-- A body without instructions. -/
def IfBlock.Body.empty : IfBlock.Body Assembly Unit := fun a => (.ok () a, ())

theorem keepsDepth_empty : IfBlock.Body.empty.KeepsDepth 0 := fun a _ hr _ =>
  ⟨[], a, (), rfl, performs_nil.mpr rfl, hr, rfl, rfl, fun _ _ => rfl, trivial⟩

/-- An assembly with one value on its stack. -/
def laden : Assembly where
  instructions := #[.loadSmall 7]
  depth := 1
  maxDepth := 1
  returnsValue := true

/-- The guard `arg0 && (arg1 || arg2)`. -/
def hesitant : Expr :=
  let argument (index : Nat) : Expr := .member (.arg ⟨index, .bool⟩)
  .binary .and (argument 0) (.binary .or (argument 1) (argument 2))

/-- A guard that branches to both exits fits above a value. -/
theorem hesitant_block_fits :
    hesitant.decidesEarly true = true ∧ hesitant.decidesEarly false = true ∧
      ∃ labels b, (laden.ifElse 256 hesitant .empty .empty).1 = .ok labels b ∧ b.depth = 1 := by
  have hadmissible : hesitant.Admissible := by
    simp [hesitant, Expr.admissible_binary, Expr.admissible_member, Expr.supported,
      BinaryOp.isLogical]
  have heq : hesitant.EqualitiesProper := by
    intro op left right method hp hop hm
    simp only [hesitant, Expr.part_binary, Expr.part_member, Expr.binary.injEq, reduceCtorEq,
      or_false] at hp
    rcases hop with rfl | rfl <;> simp at hp
  obtain ⟨hiff, hkeeps⟩ : (_ ↔ hesitant.need.condition ≤ 256 ∧ _) ∧ _ :=
    block_fits_iff (σ := Unit) (a := laden) rfl rfl heq (.inr hadmissible) keepsDepth_empty
      keepsDepth_empty (by decide)
  obtain ⟨labels, b, hb⟩ := hiff.mpr ⟨by decide, hadmissible, .inr ⟨rfl, rfl⟩⟩
  exact ⟨rfl, rfl, labels, b, hb, (hkeeps labels b hb).1⟩

/-- The guard `note()`, of a method that returns nothing. -/
def noting : Expr := .call (.method ⟨0, "note", 0, false⟩) [] .void

/-- The depth behind a block, or why the block cannot be written. -/
def depthBehind (guard : Expr) (a : Assembly) : CompileError ⊕ Nat :=
  match (a.ifElse 256 guard .empty .empty).1 with
  | .ok _ b => .inr b.depth
  | .error e _ => .inl e

/-- What lies on the stack decides whether a block can be written. The guard `true` fits on an empty
stack and not above a value; a guard without a value fits only above one, and takes it. -/
theorem blocks_notice_the_stack :
    depthBehind (.literal (.bool true)) { laden with depth := 0 } = .inr 0 ∧
      depthBehind (.literal (.bool true)) laden = .inl (.emit (.stackMismatch 2 2 1)) ∧
      depthBehind noting { laden with depth := 0 } = .inl (.emit (.stackMismatch 2 0 1)) ∧
      depthBehind noting laden = .inr 0 := by
  decide +kernel

end GuardCode
