import GuardCode.Proofs.Blocks.Opening
import GuardCode.Proofs.Emission.Shape
import GuardCode.Proofs.KindSafety
import GuardCode.Proofs.Machine.Progress
import GuardCode.Proofs.StackSafety

/-! The layout of a compiled guard. The code of the guard and of the place where its outcomes meet
comes first and branches forward only, up to the end of this part at most. Eight instructions follow
that store the outcome, load it, test it and answer. -/
namespace GuardCode

open Directive

namespace Directive

variable {P : Instruction → Prop} {code : Code} {position : Nat} {ds : List Directive}

/-- In every place of directives that are in the code stands an instruction that they emit. -/
theorem Placed.emitted (hp : Placed code position ds) {place : Nat} (hle : position ≤ place)
    (hlt : place < position + length ds) :
    ∃ before i after, ds = before ++ .emit i :: after ∧ place = position + length before ∧
      code.Holds place i := by
  induction ds generalizing position with
  | nil =>
    rw [length_nil] at hlt
    omega
  | cons d ds ih =>
    -- What stands in the rest stands in the whole.
    have hrest : ∀ {next : Nat}, Placed code next ds → next ≤ place → place < next + length ds →
        next = position + length [d] → ∃ before i after, d :: ds = before ++ .emit i :: after ∧
          place = position + length before ∧ code.Holds place i := by
      intro next hp hle hlt hnext
      obtain ⟨before, i, after, rfl, hplace, hi⟩ := ih hp hle hlt
      refine ⟨d :: before, i, after, rfl, ?_, hi⟩
      rw [show d :: before = [d] ++ before from rfl, length_append]
      omega
    cases d with
    | emit i =>
      rw [length_emit] at hlt
      by_cases hplace : place = position
      · subst hplace
        exact ⟨[], i, ds, rfl, rfl, hp.1⟩
      · exact hrest hp.2 (by omega) (by omega) (by simp)
    | mark label => exact hrest hp.2 hle (by simpa using hlt) (by simp)
    | define => exact hrest hp hle (by simpa using hlt) (by simp)
    | declare type => exact hrest hp hle (by simpa using hlt) (by simp)
    | abort error => exact hp.elim

/-- A label stands where it is marked. -/
theorem Placed.marked (hp : Placed code position ds) {label : Label} (hmark : .mark label ∈ ds) :
    position ≤ code.target label ∧ code.target label ≤ position + length ds := by
  obtain ⟨before, after, rfl⟩ := List.append_of_mem hmark
  obtain ⟨-, hmarked, -⟩ := placed_append.mp hp
  rw [hmarked]
  simp only [length_append, length_mark]
  omega

/-- In the code, branches of a shape without labels go forward and stay within it. -/
theorem Placed.branches (hp : Placed code position ds) (hds : Shaped P [] ds) {place : Nat}
    {i : Instruction} (hi : code.instructions[place]? = some i) (hle : position ≤ place)
    (hlt : place < position + length ds) {label : Label} (ht : i.target? = some label) :
    place < code.target label ∧ code.target label ≤ position + length ds := by
  obtain ⟨before, j, after, rfl, hplace, k, hk, halike⟩ := hp.emitted hle hlt
  rw [hi] at hk
  cases hk
  rw [halike.target?_eq] at ht
  have hmark := (hds.branches before j after label rfl ht).resolve_left List.not_mem_nil
  obtain ⟨-, -, hafter⟩ := placed_append.mp hp
  obtain ⟨hge, hend⟩ := hafter.marked hmark
  simp only [length_append, length_emit]
  omega

theorem Placed.instruction (hp : Placed code position ds) (hds : Shaped P labels ds) {place : Nat}
    {i : Instruction} (hi : code.instructions[place]? = some i) (hle : position ≤ place)
    (hlt : place < position + length ds) : ∃ j, P j ∧ i.Alike j := by
  obtain ⟨before, j, after, rfl, -, k, hk, halike⟩ := hp.emitted hle hlt
  rw [hi] at hk
  cases hk
  exact ⟨j, hds.instructions j (by simp), halike⟩

end Directive

/-- The instructions behind the guard of a predicate, from a position on. -/
inductive Predicate.Tail (front : Nat) : Nat → Instruction → Prop where
  | store : Tail front front (.storeLocal 0)
  | load : Tail front (front + 1) (.loadLocal 0)
  | test (form : BranchForm) : Tail front (front + 2) (.branch .ifFalse 4 form)
  | pushTrue : Tail front (front + 3) (.pushInt 1)
  | answerTrue : Tail front (front + 4) .ret
  | skip (form : BranchForm) : Tail front (front + 5) (.branch .always 5 form)
  | pushFalse : Tail front (front + 6) (.pushInt 0)
  | answerFalse : Tail front (front + 7) .ret

/-- The code of a predicate, the part in front of the stored outcome being so long and its
instructions of a given kind. -/
structure Predicate.Laid (P : Instruction → Prop) (code : Code) (front : Nat) : Prop where
  size : code.instructions.size = front + 8
  returnsValue : code.returnsValue = true
  locals : code.locals = #[.bool]
  storeResult : code.target (IfLabels.startingAt 0).storeResult = front
  elseBody : code.target (IfLabels.startingAt 0).elseBody = front + 6
  endIf : code.target (IfLabels.startingAt 0).endIf = front + 8
  instructions : ∀ (position : Nat) (i : Instruction), position < front →
    code.instructions[position]? = some i → ∃ j, P j ∧ i.Alike j
  branches : ∀ (position : Nat) (i : Instruction) (label : Label), position < front →
    code.instructions[position]? = some i → i.target? = some label →
      position < code.target label ∧ code.target label ≤ front
  tail : ∀ (position : Nat) (i : Instruction), front ≤ position →
    code.instructions[position]? = some i → Tail front position i

namespace Predicate

variable {P : Instruction → Prop} {code : Code} {front : Nat}

/-- The part of a predicate in front of the stored outcome. -/
theorem shaped_front {guard : Expr} (limit : Nat) (hguard : guard.Permits P) :
    Shaped P [] (Emission.guard limit guard ⟨0, 1⟩ 6 ++ Emission.meeting true true ⟨0, 1⟩ 2) := by
  have hcondition : Shaped P [0, 1] (Emission.guard limit guard ⟨0, 1⟩ 6) :=
    hguard.shapes limit (.condition .stack ⟨0, 1⟩) limit 6
  refine hcondition.append (Emission.shaped_meeting hguard.neutral true true _ _) ?_
  intro label hlabel _
  simp only [List.mem_cons, List.not_mem_nil, or_false] at hlabel
  rcases hlabel with rfl | rfl
  · exact .inr (Emission.mark_mem_meeting.1 rfl)
  · exact .inr (Emission.mark_mem_meeting.2 rfl)

theorem tail_of_placed (hp : Placed code front (IfBlock.ending 0)) {position : Nat}
    {i : Instruction} (hle : front ≤ position) (hlt : position < front + 8)
    (hi : code.instructions[position]? = some i) : Tail front position i := by
  obtain ⟨place, rfl⟩ := Nat.exists_eq_add_of_le hle
  have hplain : ∀ {j : Instruction}, code.Holds (front + place) j → j.target? = none → i = j := by
    intro j hj ht
    rw [hj.eq_some ht] at hi
    exact (Option.some.inj hi).symm
  have hbranch : ∀ {op label}, code.Holds (front + place) (.jump op label) →
      ∃ form, i = .branch op label form := by
    intro op label hj
    obtain ⟨form, hform⟩ := hj.eq_branch
    rw [hform] at hi
    exact ⟨form, (Option.some.inj hi).symm⟩
  obtain ⟨hstore, hload, htest, -, htrue, hret, hskip, -, hfalse, hret', -⟩ := hp
  match place, hlt with
  | 0, _ => exact hplain hstore rfl ▸ .store
  | 1, _ => exact hplain hload rfl ▸ .load
  | 2, _ =>
    obtain ⟨form, rfl⟩ := hbranch htest
    exact .test form
  | 3, _ => exact hplain htrue (by simp) ▸ .pushTrue
  | 4, _ => exact hplain hret rfl ▸ .answerTrue
  | 5, _ =>
    obtain ⟨form, rfl⟩ := hbranch hskip
    exact .skip form
  | 6, _ => exact hplain hfalse (by simp) ▸ .pushFalse
  | 7, _ => exact hplain hret' rfl ▸ .answerFalse
  | place + 8, hlt => omega

/-- The outcomes meet at the end of the part in front. -/
theorem target_of_front {guard : Expr} {limit : Nat}
    (hp : Placed code 0
      (Emission.guard limit guard ⟨0, 1⟩ 6 ++ Emission.meeting true true ⟨0, 1⟩ 2)) :
    code.target 2 = length
      (Emission.guard limit guard ⟨0, 1⟩ 6 ++ Emission.meeting true true ⟨0, 1⟩ 2) := by
  obtain ⟨ds, hds⟩ : ∃ ds, Emission.guard limit guard ⟨0, 1⟩ 6 ++
      Emission.meeting true true ⟨0, 1⟩ 2 = ds ++ [.mark 2] := ⟨_, (List.append_assoc ..).symm⟩
  rw [hds] at hp ⊢
  obtain ⟨-, hmark, -⟩ := placed_append.mp hp
  rw [hmark]
  simp

theorem laid_of_performs {limit : Nat} {guard : Expr} {encoding : Encoding} {b : Assembly}
    (hguard : guard.Permits P)
    (hb : Performs (IfBlock.ofGuard limit guard 0 0).answering (.fresh #[] encoding) b)
    (hfinish : b.finish = .ok code) : ∃ front, Laid P code front := by
  obtain ⟨-, hrelax, -, hlocals, -, hreturns⟩ := Assembly.finish_eq_ok hfinish
  have hsize := (Relaxation.relax_allAlike hrelax).1.trans (hb.size rfl)
  have hplaced := Environment.placed_answering (hb.placed rfl hfinish)
  have hreturns := hreturns.trans (hb.returnsValue rfl)
  rw [answering_eq, ← List.append_assoc (Emission.guard limit guard ⟨0, 1⟩ 6)] at hb hsize
  rw [← List.append_assoc] at hplaced
  have hshaped := shaped_front limit hguard
  have hstore := target_of_front (placed_append.mp hplaced).1
  generalize Emission.guard limit guard ⟨0, 1⟩ 6 ++ Emission.meeting true true ⟨0, 1⟩ 2 = ds
    at hshaped hstore hb hsize hplaced
  obtain ⟨hfront, htail⟩ := placed_append.mp hplaced
  rw [Nat.zero_add] at htail
  have hsize : code.instructions.size = length ds + 8 := by
    rw [hsize, length_append, length_append, show length IfBlock.labelling = 0 from rfl,
      show length (IfBlock.ending 0) = 8 from rfl]
    simp only [Assembly.fresh, Array.size_empty]
    omega
  refine ⟨length ds, hsize, hreturns, ?_, hstore, ?_, ?_, ?_, ?_, ?_⟩
  · -- Only the block declares a local.
    obtain ⟨c, hc, hrest⟩ := Directive.performs_append.mp hb
    obtain ⟨-, rfl⟩ := performs_labelling.mp hc
    rw [hlocals, hrest.locals rfl]
    · rfl
    · intro type hmem
      rcases List.mem_append.mp hmem with hmem | hmem
      · exact hshaped.undeclared type hmem
      · simp [IfBlock.ending, answering] at hmem
  · obtain ⟨-, -, -, -, -, -, -, helse, -⟩ := htail
    exact helse
  · obtain ⟨-, -, -, -, -, -, -, -, -, -, hend, -⟩ := htail
    exact hend
  · exact fun position i hlt hi => hfront.instruction hshaped hi (Nat.zero_le _) (by omega)
  · intro position i label hlt hi ht
    have hbranch := hfront.branches hshaped hi (Nat.zero_le _) (by omega) ht
    exact ⟨hbranch.1, by omega⟩
  · intro position i hle hi
    have hlt := (Array.getElem?_eq_some_iff.mp hi).1
    exact tail_of_placed htail hle (by omega) hi

theorem Laid.forward (h : Laid P code front) : code.Forward := by
  intro position i label hi ht
  rcases Nat.lt_or_ge position front with hlt | hge
  · exact (h.branches position i label hlt hi ht).1
  · cases h.tail position i hge hi with
    | test form =>
      cases ht
      rw [show code.target 4 = front + 6 from h.elseBody]
      omega
    | skip form =>
      cases ht
      rw [show code.target 5 = front + 8 from h.endIf]
      omega
    | store | load | answerTrue | answerFalse => cases ht
    | pushTrue | pushFalse => simp at ht

section

variable {source : String} {params : List Ty} {around : Surroundings} {options : Options}
  {p : Predicate}

/-- A compiled predicate comes from a guard that was read in its scope and whose directives were all
carried out. -/
theorem assembled_of_compile (h : compile source params around options = .ok p) :
    ∃ guard b, Expr.parse (around.scope params) options.maxDepth source = .ok guard ∧
      Performs (IfBlock.ofGuard options.maxDepth guard 0 0).answering (.fresh #[] options.encoding)
        b ∧ b.finish = .ok p.code := by
  obtain ⟨hcode, -⟩ := compile_eq_ok h
  cases hparse : Expr.parse (around.scope params) options.maxDepth source with
  | error e =>
    -- A text that is no guard leaves a body that failed.
    rw [body_eq_ifGuard] at hcode
    have hguard : (opening params around options).ifGuard source (answer 1) (answer 0) =
        ((opening params around options).latch (.parse e), none, none) := by
      simp only [MethodBody.ifGuard, opening, MethodBody.ofSignature, hparse]
    obtain ⟨failure, hfailure⟩ :=
      MethodBody.latch_failure? (opening params around options) (.parse e)
    rw [hguard] at hcode
    exact absurd hcode (MethodBody.finish_of_failure hfailure)
  | ok guard =>
    rw [body_eq hparse] at hcode
    obtain ⟨b, hb, hfinish⟩ := (MethodBody.ifElse_finish_iff guard rfl).mp hcode
    have hassembly : (opening params around options).assembly = .fresh #[] options.encoding := rfl
    have hblock : MethodBody.block guard (opening params around options) =
        IfBlock.ofGuard options.maxDepth guard 0 0 := rfl
    rw [hassembly, hblock] at hb
    exact ⟨guard, b, rfl, hb, hfinish⟩

/-- A guard around which there are no locals names none. -/
theorem readsBelow_of_checked {guard : Expr} (h : guard.Checked (around.scope params)) :
    guard.ReadsBelow 0 := by
  have hnone : ∀ {name : String} {slot : Slot},
      (around.scope params).resolve? name ≠ some (.loc slot) := by
    intro name slot hresolve
    rcases Surroundings.resolve?_cases hresolve with ⟨i, type, -, hm⟩ | ⟨field, -, hm⟩
    · cases hm
    · cases hm
  rintro slot (hp | hp)
  · cases h.part hp with
    | member hresolve => exact absurd hresolve hnone
  · cases h.part hp with
    | carried hresolve => exact absurd hresolve hnone

theorem permits_of_checked {guard : Expr} (h : guard.Checked (around.scope params)) :
    guard.Permits fun i => i.local? = none := by
  refine (readsBelow_of_checked h).permits.mono fun i hi => ?_
  cases hlocal : i.local? with
  | none => rfl
  | some index => exact absurd (hi index hlocal) (Nat.not_lt_zero index)

/-- No instruction in front of the stored outcome uses a local. -/
theorem laid_of_compile (h : compile source params around options = .ok p) :
    ∃ front, Laid (fun i => i.local? = none) p.code front := by
  obtain ⟨guard, b, hparse, hb, hfinish⟩ := assembled_of_compile h
  exact laid_of_performs (permits_of_checked (Expr.checked_of_parse hparse)) hb hfinish

theorem exists_of_isSome (h : (compile source params around options).toOption.isSome = true) :
    ∃ p, compile source params around options = .ok p := by
  cases hcompile : compile source params around options with
  | ok p => exact ⟨p, rfl⟩
  | error e =>
    rw [hcompile] at h
    cases h

end

end Predicate

end GuardCode
