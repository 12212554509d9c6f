import GuardCode.Proofs.Acceptance

/-! How a block opens, wherever it stands: it takes a local and six labels, writes its guard, brings
the outcomes together and tests them. -/
namespace GuardCode

open Directive Emission Assembly

/-- An assembly with the local and the labels of one more block. -/
def Assembly.opened (a : Assembly) : Assembly :=
  { a with
    locals := a.locals.push .bool
    labels := a.labels ++ Array.replicate 6 {} }

namespace IfBlock

/-- What a block writes once the outcome of its guard is on the stack, up to its first body. -/
def testing (labels : IfLabels) (result : Nat) : List Directive :=
  [.emit (.storeLocal result), .emit (.loadLocal result), .emit (.jump .ifFalse labels.elseBody),
    .mark labels.ifBody]

theorem opening_eq (limit : Nat) (guard : Expr) (labelCount localCount : Nat) :
    (ofGuard limit guard labelCount localCount).opening =
      labelling ++ (Emission.guard limit guard ⟨labelCount, labelCount + 1⟩ (labelCount + 6) ++
        (meeting true true ⟨labelCount, labelCount + 1⟩ (labelCount + 2) ++
          testing (.startingAt labelCount) localCount)) := by
  simp [ofGuard, labelling, storeOutcome, IfLabels.startingAt, IfLabels.exits, meeting, testing]

end IfBlock

variable {a b : Assembly} {limit : Nat} {guard : Expr}

theorem performs_opened :
    Performs IfBlock.labelling a b ↔ a.locals.size < 65536 ∧ b = a.opened := by
  simp only [IfBlock.labelling, List.replicate_succ, List.replicate_zero, performs_cons,
    perform_declare, perform_define, performs_nil, exists_eq_left, Assembly.opened]
  have hlabels : a.labels ++ Array.replicate 6 ({} : LabelState) =
      (((((a.labels.push {}).push {}).push {}).push {}).push {}).push {} := by
    apply Array.ext'
    simp [List.replicate_succ]
  rw [hlabels]
  constructor
  · rintro ⟨c, ⟨hsize, rfl⟩, rfl⟩
    exact ⟨hsize, rfl⟩
  · rintro ⟨hsize, rfl⟩
    exact ⟨_, ⟨hsize, rfl⟩, rfl⟩

theorem above_labelling (base : Nat) (a : Assembly) : Above base IfBlock.labelling a := by
  simp [IfBlock.labelling, Above, List.replicate_succ]

theorem opened_labelCount (a : Assembly) : a.opened.labels.size = a.labels.size + 6 := by
  simp [Assembly.opened]

/-- The labels of a block are fresh where it opens. -/
theorem opened_new (a : Assembly) {k : Nat} (h : k < 6) :
    a.opened.labels[a.labels.size + k]? = some ({} : LabelState) := by
  simp only [Assembly.opened]
  rw [Array.getElem?_append_right (by omega), Array.getElem?_replicate, if_pos (by omega)]

/-- What stands behind the opening of a block: one local more, the depth of before, the second body
reached, and its end still fresh. -/
structure Opens (a b : Assembly) : Prop where
  reachable : b.reachable = true
  depth : b.depth = a.depth
  locals : b.locals = a.locals.push .bool
  elseBody : b.labels[a.labels.size + 4]? = some ⟨none, some a.depth⟩
  endIf : b.labels[a.labels.size + 5]? = some ({} : LabelState)

/-- The code of the guard of a block, in the labels of the block. -/
theorem accepts_guard (hf : a.frozen = false) (hr : a.reachable = true)
    (heq : guard.EqualitiesProper) (hguard : guard.Admissible)
    (hneed : guard.need.condition ≤ limit) :
    ∃ b, Accepts (Emission.guard limit guard ⟨a.labels.size, a.labels.size + 1⟩ (a.labels.size + 6))
      [a.labels.size, a.labels.size + 1] 1 a.opened b := by
  have hadmits : ∀ label ∈ [a.labels.size, a.labels.size + 1],
      a.opened.Admits label a.opened.depth := by
    intro label hlabel
    simp only [List.mem_cons, List.not_mem_nil, or_false] at hlabel
    rcases hlabel with rfl | rfl
    · exact ⟨{}, opened_new a (show 0 < 6 by omega), .inl rfl⟩
    · exact ⟨{}, opened_new a (show 1 < 6 by omega), .inl rfl⟩
  have h := accepted_expr limit guard hguard heq
    (.condition .stack ⟨a.labels.size, a.labels.size + 1⟩) limit hneed a.opened hf hr hadmits
  rwa [opened_labelCount] at h

section

variable {ds : List Directive}

/-- An assembly without room declares nothing. -/
theorem Directive.Performs.undeclared (hf : a.frozen = false) (h : Performs ds a b)
    (hfull : 65536 ≤ a.locals.size) (type : Ty) : .declare type ∉ ds := by
  induction ds generalizing a with
  | nil => simp
  | cons d ds ih =>
    obtain ⟨c, hc, htail⟩ := performs_cons.mp h
    have hp := performed_of_perform hf hc
    have hone : Performs [d] a c := performs_cons.mpr ⟨c, hc, performs_nil.mpr rfl⟩
    have hrest := ih (hp.frozen.trans hf) htail (Nat.le_trans hfull (hone.localCount_le hf))
    rintro (_ | ⟨_, hmem⟩)
    · have := (perform_declare.mp hc).1
      omega
    · exact hrest hmem

theorem Directive.Performs.locals (hf : a.frozen = false) (h : Performs ds a b)
    (hds : ∀ type, .declare type ∉ ds) : b.locals = a.locals := by
  induction ds generalizing a with
  | nil =>
    obtain rfl := performs_nil.mp h
    rfl
  | cons d ds ih =>
    obtain ⟨c, hc, htail⟩ := performs_cons.mp h
    have hp := performed_of_perform hf hc
    rw [ih (hp.frozen.trans hf) htail fun type hmem => hds type (List.mem_cons_of_mem _ hmem)]
    cases hp with
    | emit he => exact he.locals
    | mark hm => exact hm.locals
    | define => rfl
    | @declare type => exact absurd List.mem_cons_self (hds type)

end

/-- A guard needs no local: it can be written where there is no room for one. -/
theorem locals_of_guard (hf : a.frozen = false) (hr : a.reachable = true)
    (heq : guard.EqualitiesProper) (hguard : guard.Admissible)
    (hneed : guard.need.condition ≤ limit)
    (h : Performs
      (Emission.guard limit guard ⟨a.labels.size, a.labels.size + 1⟩ (a.labels.size + 6)) a.opened b) :
    b.locals = a.locals.push .bool := by
  let full : Assembly := { a with locals := Array.replicate 65536 .bool }
  obtain ⟨c, hc⟩ := accepts_guard (a := full) hf hr heq hguard hneed
  refine h.locals (show a.opened.frozen = false from hf) fun type => ?_
  exact hc.performs.undeclared (show full.opened.frozen = false from hf)
    (by simp [full, Assembly.opened]) type

/-- A block opens where both exits of its guard wait in the depth of the block. -/
theorem opening_ok (hf : a.frozen = false) (hr : a.reachable = true)
    (heq : guard.EqualitiesProper) (hguard : guard.Admissible)
    (hneed : guard.need.condition ≤ limit) (hroom : a.locals.size < 65536)
    (hwaits : ∀ c, Accepts
      (Emission.guard limit guard ⟨a.labels.size, a.labels.size + 1⟩ (a.labels.size + 6))
      [a.labels.size, a.labels.size + 1] 1 a.opened c →
        Waits c a.labels.size a.depth ∧ Waits c (a.labels.size + 1) a.depth) :
    ∃ b, Performs (IfBlock.ofGuard limit guard a.labels.size a.locals.size).opening a b ∧
      Opens a b ∧
      Above a.depth (IfBlock.ofGuard limit guard a.labels.size a.locals.size).opening a := by
  have hfo : a.opened.frozen = false := hf
  obtain ⟨c, hc⟩ := accepts_guard hf hr heq hguard hneed
  have hfc := hc.performs.frozen hfo
  -- The labels that the guard does not know stay fresh.
  have hfresh : ∀ k : Nat, 2 ≤ k → k < 6 → c.labels[a.labels.size + k]? = some {} := by
    intro k hge hlt
    have hne : a.labels.size + k ≠ a.labels.size ∧ a.labels.size + k ≠ a.labels.size + 1 := by omega
    exact hc.kept.fresh (opened_new a hlt) (by simpa using hne)
  obtain ⟨htrue, hfalse⟩ := hwaits c hc
  obtain ⟨d, hd, hrd, hdepth, -, -, -, helse, habove⟩ := performs_meeting
    ⟨a.labels.size, a.labels.size + 1⟩ (a.labels.size + 2) hfc hc.depth (hfresh 2 (by omega) (by omega))
    (by simp) (fun _ => htrue) (fun _ => hfalse)
  have hfd := hd.frozen hfc
  have hstill : ∀ k : Nat, 3 ≤ k → k < 6 → d.labels[a.labels.size + k]? = some {} := by
    intro k hge hlt
    have hne : a.labels.size + k ≠ a.labels.size ∧ a.labels.size + k ≠ a.labels.size + 1 ∧
        a.labels.size + k ≠ a.labels.size + 2 := by omega
    exact (helse _ (by simpa using hne)).trans (hfresh k (by omega) hlt)
  -- The outcome goes through the local to the branch.
  obtain ⟨e, he, hre, hedepth, hkept⟩ := accepts_straight
    (straight_testing a.locals.size (a.labels.size + 4)) hfd hrd hdepth (by
      intro label hlabel
      obtain rfl : label = a.labels.size + 4 := by simpa using hlabel
      exact ⟨{}, hstill 4 (by omega) (by omega), .inl rfl⟩)
  have hfe := he.frozen hfd
  obtain ⟨b, hb, hbdepth, helse'⟩ := performs_passing hfe hre
    (hkept.fresh (hstill 3 (by omega) (by omega)) (by simp))
  have hopened := performs_opened.mpr ⟨hroom, rfl⟩
  refine ⟨b, ?_, ?_, ?_⟩
  · rw [IfBlock.opening_eq]
    exact Directive.performs_append.mpr ⟨_, hopened,
      Directive.performs_append.mpr ⟨c, hc.performs, Directive.performs_append.mpr ⟨d, hd,
        Directive.performs_append.mpr ⟨e, he, hb⟩⟩⟩⟩
  · have hsize : a.labels.size + 4 < d.labels.size :=
      (Array.getElem?_eq_some_iff.mp (hstill 4 (by omega) (by omega))).1
    refine ⟨(performs_mark hfe hb).reachable, hbdepth.trans hedepth, ?_, ?_, ?_⟩
    · rw [(performs_mark hfe hb).locals, he.locals hfd (by simp), hd.locals hfc (by simp [meeting]),
        locals_of_guard hf hr heq hguard hneed hc.performs]
    · obtain ⟨before, after, hbefore, hafter, hposition, hreached⟩ := hkept _ hsize
      rw [hstill 4 (by omega) (by omega)] at hbefore
      cases hbefore
      obtain ⟨state, depth, hstate, hsome⟩ := he.reached hfd
        (show Directive.targets (a.labels.size + 4) _ = true by simp [Directive.targets])
      rw [hafter] at hstate
      cases hstate
      have hnone : after.depth? ≠ none := by simp [hsome]
      have hfour : after = ⟨none, some a.depth⟩ := by
        cases after
        simp_all [Assembly.opened]
      exact (helse' _ (by simp)).trans (hafter.trans (congrArg some hfour))
    · have hfive := hkept.fresh (hstill 5 (by omega) (by omega)) (by simp)
      exact (helse' _ (by simp)).trans hfive
  · have htesting : Above a.depth ([.storeLocal a.locals.size, .loadLocal a.locals.size,
        .jump .ifFalse (a.labels.size + 4)].map .emit) d :=
      above_straight hfd (straight_testing a.locals.size (a.labels.size + 4)).onward hdepth (by
        rw [show 1 = 0 + 1 from rfl, (straight_testing a.locals.size _).enough]
        simp)
    rw [IfBlock.opening_eq]
    exact (above_labelling a.depth a).append hopened (hc.above.append hc.performs (habove.append hd
      (htesting.append he (above_mark _))))

/-- On an empty stack a block opens only for a guard that is admissible and not nested too deep. -/
theorem opens_of_empty (hf : a.frozen = false) (hr : a.reachable = true) (hdepth : a.depth = 0)
    (heq : guard.EqualitiesProper)
    (h : Performs (IfBlock.ofGuard limit guard a.labels.size a.locals.size).opening a b) :
    guard.need.condition ≤ limit ∧ guard.Admissible ∧ Opens a b := by
  have hopening := h
  rw [IfBlock.opening_eq] at h
  obtain ⟨c, hc, h⟩ := Directive.performs_append.mp h
  obtain ⟨hroom, rfl⟩ := performs_opened.mp hc
  obtain ⟨d, hd, h⟩ := Directive.performs_append.mp h
  obtain ⟨e, he, -⟩ := Directive.performs_append.mp h
  have hfo : a.opened.frozen = false := hf
  have hgains := measured_expr limit guard heq _ limit _ _ _ hfo hr hd
  obtain ⟨state, -, hexit⟩ := depths_of_meeting (hd.frozen hfo) (by simp) he true
  have hguard : guard.Admissible := by
    refine hgains.whole ?_
    have hmost : d.depth ≤ a.depth + 1 := hgains.atMost
    show d.depth = a.depth + 1
    omega
  refine ⟨hgains.levels, hguard, ?_⟩
  obtain ⟨b', hb', hopens, -⟩ := opening_ok hf hr heq hguard hgains.levels hroom fun c hc => by
    have hkept := hc.kept
    rw [show a.opened.depth = 0 from hdepth] at hkept
    rw [hdepth]
    exact ⟨waits_of_kept hkept (opened_new a (show 0 < 6 by omega)),
      waits_of_kept hkept (opened_new a (show 1 < 6 by omega))⟩
  rw [← hopening.unique hb']
  exact hopens

end GuardCode
