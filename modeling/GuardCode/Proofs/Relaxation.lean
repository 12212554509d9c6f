import GuardCode.Proofs.Code.Offsets

/-! Branches are long only where they must be. A branch that is made long moves places of the code
apart and never closer, so a branch that does not fit at some pass fits in no choice of forms that has
all the branches of before long. Hence the passes come to rest in the least choice of forms in which
every short branch holds its displacement. -/
namespace GuardCode

/-! ## Assemblies by operations -/

namespace Assembly

variable {a b : Assembly} {i : Instruction} {label : Label} {e : EmitError}

/-- One of two operations in a row is refused. -/
theorem bind_eq_error {ε α β : Type} {op : EStateM ε Assembly α}
    {next : α → EStateM ε Assembly β} {e : ε} (h : (op >>= next) a = .error e b) :
    op a = .error e b ∨ ∃ result c, op a = .ok result c ∧ next result c = .error e b := by
  replace h : EStateM.bind op next a = .error e b := h
  unfold EStateM.bind at h
  split at h
  · rename_i hop
    exact .inr ⟨_, _, hop, h⟩
  · rename_i hop
    cases h
    exact .inl hop

theorem recordDepth_eq_error (h : recordDepth label a = .error e b) : b = a := by
  unfold recordDepth at h
  split at h
  · cases h
    rfl
  · split at h
    · cases h
    · split at h <;> cases h
      rfl

theorem popOperands_eq_error (h : popOperands i a = .error e b) : b = a := by
  unfold popOperands at h
  simp only at h
  split at h <;> cases h
  rfl

/-- An instruction that is refused has taken its operands at most. -/
theorem emit_eq_error (h : emit i a = .error e b) : ∃ depth, b = { a with depth := depth } := by
  unfold emit at h
  split at h
  · cases h
  · split at h
    · rcases bind_eq_error h with hp | ⟨u, c, -, hm⟩
      · exact ⟨a.depth, popOperands_eq_error hp⟩
      · cases hm
    · split at h
      · cases h
        exact ⟨a.depth, rfl⟩
      · rcases bind_eq_error h with hp | ⟨u, c, hp, h⟩
        · exact ⟨a.depth, popOperands_eq_error hp⟩
        · obtain ⟨-, rfl⟩ := popOperands_eq_ok hp
          rcases bind_eq_error h with hr | ⟨u, c, -, hm⟩
          · exact ⟨_, recordDepth_eq_error hr⟩
          · cases hm

theorem mark_eq_error (h : mark label a = .error e b) : b = a := by
  unfold mark at h
  split at h
  · cases h
  · split at h
    · cases h
      rfl
    · split at h
      · cases h
        rfl
      · split at h
        · split at h
          · rename_i hr
            cases h
            exact recordDepth_eq_error hr
          · cases h
        · cases h

theorem declare_eq_error {type : Ty} (h : declare type a = .error e b) : b = a := by
  unfold declare at h
  split at h <;> cases h
  rfl

end Assembly

namespace Directive

variable {a b : Assembly} {d : Directive} {e : CompileError}

theorem lift_eq_error {α : Type} {op : Assembly.Operation α} (h : lift op a = .error e b) :
    ∃ e', op a = .error e' b := by
  unfold lift at h
  split at h
  · cases h
  · rename_i hop
    cases h
    exact ⟨_, hop⟩

/-- A directive that is refused changes no more than the depth. -/
theorem perform_eq_error (h : perform d a = .error e b) :
    ∃ depth, b = { a with depth := depth } := by
  cases d with
  | emit i =>
    obtain ⟨e', h⟩ := lift_eq_error h
    exact Assembly.emit_eq_error h
  | define => cases h
  | mark label =>
    obtain ⟨e', h⟩ := lift_eq_error h
    exact ⟨a.depth, Assembly.mark_eq_error h⟩
  | declare type =>
    rcases Assembly.bind_eq_error h with hd | ⟨slot, c, -, hu⟩
    · obtain ⟨e', hd⟩ := lift_eq_error hd
      exact ⟨a.depth, Assembly.declare_eq_error hd⟩
    · cases hu
  | abort error =>
    cases h
    exact ⟨a.depth, rfl⟩

end Directive

namespace Assembly

variable {a b : Assembly} {returnsValue : Bool} {encoding : Encoding}

/-- An assembly to which operations led from an empty one, each carried out or refused. -/
inductive Made (returnsValue : Bool) (encoding : Encoding) : Assembly → Prop where
  | start : Made returnsValue encoding { returnsValue, encoding }
  | carried {d : Directive} {a b : Assembly} (h : Made returnsValue encoding a)
      (hd : d.perform a = .ok () b) : Made returnsValue encoding b
  | refused {d : Directive} {e : CompileError} {a b : Assembly}
      (h : Made returnsValue encoding a) (hd : d.perform a = .error e b) :
      Made returnsValue encoding b

/-- The labels that instructions branch to exist, and no label stands behind the code. -/
structure Grounded (a : Assembly) : Prop where
  branches : ∀ (position : Nat) (i : Instruction) (label : Label),
    a.instructions[position]? = some i → i.target? = some label → label < a.labels.size
  marks : ∀ (label : Label) (state : LabelState) (position : Nat),
    a.labels[label]? = some state → state.position? = some position →
      position ≤ a.instructions.size

theorem Grounded.performed {d : Directive} (hg : a.Grounded) (h : Directive.Performed d a b) :
    b.Grounded := by
  cases h with
  | @emit i _ _ he =>
    constructor
    case branches =>
      intro position j label hj ht
      rw [he.labelCount]
      rw [he.instructions, Array.getElem?_push] at hj
      split at hj
      · cases hj
        obtain ⟨state, hl, -⟩ := he.target label ht
        exact (Array.getElem?_eq_some_iff.mp hl).1
      · exact hg.branches position j label hj ht
    case marks =>
      intro label state position hl hp
      rw [he.instructions, Array.size_push]
      by_cases ht : i.target? = some label
      · obtain ⟨old, hold, -, hb⟩ := he.target label ht
        rw [hl] at hb
        cases hb
        exact Nat.le_succ_of_le (hg.marks label old position hold hp)
      · rw [he.others label ht] at hl
        exact Nat.le_succ_of_le (hg.marks label state position hl hp)
  | define =>
    constructor
    case branches =>
      intro position j label hj ht
      rw [Array.size_push]
      exact Nat.lt_succ_of_lt (hg.branches position j label hj ht)
    case marks =>
      intro label state position hl hp
      simp only [Array.getElem?_push] at hl
      split at hl
      · cases hl
        cases hp
      · exact hg.marks label state position hl hp
  | @mark marked _ _ he =>
    constructor
    case branches =>
      intro position j label hj ht
      rw [he.labelCount]
      rw [he.instructions] at hj
      exact hg.branches position j label hj ht
    case marks =>
      intro label state position hl hp
      rw [he.instructions]
      by_cases hne : label = marked
      · subst hne
        rw [he.here] at hl
        cases hl
        cases hp
        exact Nat.le_refl _
      · rw [he.others label hne] at hl
        exact hg.marks label state position hl hp
  | declare => exact ⟨hg.branches, hg.marks⟩

theorem Made.grounded (h : Made returnsValue encoding a) : a.Grounded ∧ a.frozen = false := by
  induction h with
  | start => exact ⟨⟨by simp, by simp⟩, rfl⟩
  | carried h hd ih =>
    have hp := Directive.performed_of_perform ih.2 hd
    exact ⟨ih.1.performed hp, hp.frozen.trans ih.2⟩
  | refused h hd ih =>
    obtain ⟨depth, rfl⟩ := Directive.perform_eq_error hd
    exact ⟨⟨ih.1.branches, ih.1.marks⟩, ih.2⟩

end Assembly

/-! ## Displacements -/

namespace Relaxation

variable {targets : Array Nat} {is js : Array Instruction} {position : Nat} {op : BranchOp}
  {label : Label}

/-- The bytes from the end of the branch at a position to its label. -/
def displacement (targets : Array Nat) (is : Array Instruction) (position : Nat)
    (label : Label) : Int :=
  byteOffset is (targets.getD label is.size) - byteOffset is (position + 1)

/-- A displacement that one signed byte holds. -/
def InByte (displacement : Int) : Prop := -128 ≤ displacement ∧ displacement ≤ 127

instance (displacement : Int) : Decidable (InByte displacement) :=
  inferInstanceAs (Decidable (_ ∧ _))

/-- Every short branch holds its displacement. -/
def Fits (targets : Array Nat) (is : Array Instruction) : Prop :=
  ∀ (position : Nat) (op : BranchOp) (label : Label),
    is[position]? = some (.branch op label .short) →
      InByte (displacement targets is position label)

/-- The labels of branches stand in the code or at its end. -/
def Grounded (targets : Array Nat) (is : Array Instruction) : Prop :=
  ∀ (position : Nat) (i : Instruction) (label : Label),
    is[position]? = some i → i.target? = some label →
      ∃ target, targets[label]? = some target ∧ target ≤ is.size

theorem Grounded.alike (hg : Grounded targets is) (h : AllAlike is js) : Grounded targets js := by
  intro position j label hj ht
  obtain ⟨i, hi, halike⟩ := h.2 position j hj
  rw [h.1]
  exact hg position i label hi (halike.target?_eq ▸ ht)

/-- What overflows is a short branch that does not hold its displacement. -/
theorem overflow?_eq_some {i : Instruction} {distance : Int} (hg : Grounded targets is)
    (hi : is[position]? = some i) :
    overflow? (byteOffsets is) targets position i = some (label, distance) ↔
      (∃ op, i = .branch op label .short) ∧ distance = displacement targets is position label ∧
        ¬ InByte distance := by
  unfold overflow?
  split
  · rename_i op other
    obtain ⟨target, htarget, hle⟩ := hg position _ other hi rfl
    have hlt : position < is.size := (Array.getElem?_eq_some_iff.mp hi).1
    have hgetD : ∀ other', targets.getD other other' = target := by
      simp [Array.getD_eq_getD_getElem?, htarget]
    have hsame : ((byteOffsets is).getD (targets.getD other 0) 0 : Int) -
        ((byteOffsets is).getD position 0 + (Instruction.branch op other .short).size : Nat) =
          displacement targets is position other := by
      simp only [displacement, hgetD, byteOffsets_getD hle, byteOffsets_getD (Nat.le_of_lt hlt),
        byteOffset_succ hi]
    simp only [hsame]
    constructor
    · intro h
      split at h
      · cases h
      · rename_i hover
        cases h
        exact ⟨⟨op, rfl⟩, rfl, hover⟩
    · rintro ⟨⟨op', heq⟩, rfl, hover⟩
      cases heq
      exact if_neg hover
  · rename_i hno
    simp only [reduceCtorEq, false_iff]
    rintro ⟨⟨op, rfl⟩, -⟩
    exact hno _ _ rfl

/-- Where branches grow, displacements grow in size. -/
theorem Grows.inByte (h : Grows is js) (hg : Grounded targets is)
    (hi : is[position]? = some (.branch op label .short))
    (hfits : InByte (displacement targets js position label)) :
    InByte (displacement targets is position label) := by
  obtain ⟨target, htarget, hle⟩ := hg position _ label hi rfl
  have hlt : position < is.size := (Array.getElem?_eq_some_iff.mp hi).1
  simp only [InByte, displacement, Array.getD_eq_getD_getElem?, htarget, Option.getD_some]
    at hfits ⊢
  -- Between the branch and its label lies the same code, in front or behind.
  rcases Nat.le_total (position + 1) target with hbehind | hfront
  · have := h.apart hbehind hle
    have := byteOffset_mono is hbehind
    omega
  · have := h.apart hfront hlt
    have := byteOffset_mono is hfront
    omega

/-! ## Passes -/

theorem pass_getElem? (targets : Array Nat) (is : Array Instruction) (position : Nat) :
    (pass targets is)[position]? = is[position]?.map fun i =>
      if (overflow? (byteOffsets is) targets position i).isSome then lengthen i else i := by
  simp [pass]

/-- A pass keeps long branches. -/
theorem pass_grows (targets : Array Nat) (is : Array Instruction) :
    Grows is (pass targets is) := by
  refine ⟨pass_allAlike targets is, fun position op label hi => ?_⟩
  rw [pass_getElem?, hi]
  rfl

/-- What a pass makes long is a short branch that does not hold its displacement. -/
theorem pass_cases (hg : Grounded targets is)
    (h : (pass targets is)[position]? = some (.branch op label .long)) :
    is[position]? = some (.branch op label .long) ∨
      is[position]? = some (.branch op label .short) ∧
        ¬ InByte (displacement targets is position label) := by
  rw [pass_getElem?, Option.map_eq_some_iff] at h
  obtain ⟨i, hi, h⟩ := h
  split at h
  · rename_i hover
    obtain ⟨⟨other, distance⟩, hover⟩ := Option.isSome_iff_exists.mp hover
    obtain ⟨⟨op', rfl⟩, rfl, hmisfit⟩ := (overflow?_eq_some hg hi).mp hover
    cases h
    exact .inr ⟨hi, hmisfit⟩
  · exact .inl (h ▸ hi)

/-- A pass makes no branch long that is short in a choice of forms that fits. -/
theorem pass_below (hg : Grounded targets is) (h : Grows is js) (hfits : Fits targets js) :
    Grows (pass targets is) js := by
  refine ⟨(pass_allAlike targets is).symm.trans h.alike, fun position op label hlong => ?_⟩
  rcases pass_cases hg hlong with hi | ⟨hi, hover⟩
  · exact h.long position op label hi
  · have hlt : position < js.size := by
      rw [h.alike.1]
      exact (Array.getElem?_eq_some_iff.mp hi).1
    have hj := Array.getElem?_eq_getElem hlt
    rcases h.cases_eq hi hj with heq | ⟨op', label', hshort, heq⟩
    · rw [heq] at hj
      exact absurd (h.inByte hg hi (hfits position op label hj)) hover
    · cases hshort
      rw [hj, heq]

/-- A pass that changes nothing finds every short branch holding its displacement. -/
theorem fits_of_pass_eq (hg : Grounded targets is) (h : pass targets is = is) :
    Fits targets is := by
  intro position op label hi
  refine Decidable.byContradiction fun hmisfit => ?_
  have hover := (overflow?_eq_some hg hi).mpr ⟨⟨op, rfl⟩, rfl, hmisfit⟩
  have hpass := pass_getElem? targets is position
  simp [h, hi, hover, lengthen] at hpass

/-- A pass that changes something makes a branch long. -/
theorem pass_larger (h : pass targets is ≠ is) :
    byteOffset is is.size + 3 ≤ byteOffset (pass targets is) (pass targets is).size := by
  have hgrows := pass_grows targets is
  refine Decidable.byContradiction fun hless => h ?_
  apply Array.ext hgrows.alike.1
  intro position hlt' hlt
  have hi := Array.getElem?_eq_getElem hlt
  have hj := Array.getElem?_eq_getElem hlt'
  rcases hgrows.cases_eq hi hj with heq | ⟨op, label, hshort, hlong⟩
  · exact heq
  · rw [hshort] at hi
    rw [hlong] at hj
    exact absurd (hgrows.byteOffset_lt hi hj) hless

/-! ## The passes together -/

/-- Enough passes come to rest: each that does not makes the code larger by three bytes, and it never
gets larger than with all branches long. -/
theorem pass_settle (targets : Array Nat) (passes : Nat) (is : Array Instruction)
    (h : byteOffset (is.map lengthen) (is.map lengthen).size ≤
      byteOffset is is.size + 3 * passes) :
    pass targets (settle targets passes is) = settle targets passes is := by
  induction passes generalizing is with
  | zero =>
    refine Decidable.byContradiction fun hne => ?_
    have hlarger : _ ≤ byteOffset (pass targets is) (pass targets is).size := pass_larger hne
    have hmost := (grows_lengthen (pass targets is)).byteOffset_le
    rw [(pass_allAlike targets is).map_lengthen] at hmost
    omega
  | succ passes ih =>
    rw [settle]
    split
    · rename_i heq
      exact heq
    · rename_i hne
      have hlarger := pass_larger hne
      apply ih
      rw [(pass_allAlike targets is).map_lengthen]
      omega

/-- Whatever some passes lead to, that many passes in a row lead to. -/
theorem settle_eq_repeat (targets : Array Nat) (passes : Nat) (is : Array Instruction) :
    ∃ n, n ≤ passes ∧ settle targets passes is = Nat.repeat (pass targets) n is := by
  induction passes generalizing is with
  | zero => exact ⟨0, Nat.le_refl 0, rfl⟩
  | succ passes ih =>
    rw [settle]
    split
    · exact ⟨0, Nat.zero_le _, rfl⟩
    · obtain ⟨n, hle, hn⟩ := ih (pass targets is)
      have hshift : ∀ m, Nat.repeat (pass targets) m (pass targets is) =
          Nat.repeat (pass targets) (m + 1) is := by
        intro m
        induction m with
        | zero => rfl
        | succ m ihm => exact congrArg (pass targets) ihm
      exact ⟨n + 1, Nat.succ_le_succ hle, hn.trans (hshift n)⟩

theorem settle_below (hg : Grounded targets is) (h : Grows is js) (hfits : Fits targets js)
    (passes : Nat) : Grows (settle targets passes is) js := by
  induction passes generalizing is with
  | zero => exact h
  | succ passes ih =>
    rw [settle]
    split
    · exact h
    · exact ih (hg.alike (pass_allAlike targets is)) (pass_below hg h hfits)

/-- Where all fit, the first pass changes nothing. -/
theorem settle_of_fits (hg : Grounded targets is) (hfits : Fits targets is) (passes : Nat) :
    settle targets passes is = is := by
  have hrests : pass targets is = is := by
    refine Decidable.byContradiction fun hne => ?_
    have hlarger := pass_larger hne
    have hsmaller := (pass_below hg (.refl is) hfits).byteOffset_le
    omega
  cases passes with
  | zero => rfl
  | succ passes => rw [settle, if_pos hrests]

/-- A choice of forms for the branches of a stream in which all short branches hold their
displacements, and that has a branch long only where every such choice has. -/
structure Least (targets : Array Nat) (stream is : Array Instruction) : Prop where
  alike : AllAlike stream is
  fits : Fits targets is
  least : ∀ js, AllAlike stream js → Fits targets js →
    ∀ (position : Nat) (op : BranchOp) (label : Label),
      is[position]? = some (.branch op label .long) →
        js[position]? = some (.branch op label .long)

/-- The passes come to rest in the least choice. -/
theorem settle_least (hg : Grounded targets is)
    (hshort : ∀ (position : Nat) (op : BranchOp) (label : Label),
      is[position]? ≠ some (.branch op label .long)) :
    Least targets is (settle targets is.size is) where
  alike := settle_allAlike targets is.size is
  fits := fits_of_pass_eq (hg.alike (settle_allAlike targets is.size is))
    (pass_settle targets is.size is (byteOffset_lengthen_le is))
  least _ halike hfits :=
    -- In the stream itself no branch is long, so every choice is above it.
    (settle_below hg ⟨halike, fun position op label hi => absurd hi (hshort position op label)⟩
      hfits is.size).long

/-! ## Short branches only -/

/-- The first branch that does not hold its displacement. -/
structure FirstMisfit (targets : Array Nat) (is : Array Instruction) (position : Nat)
    (label : Label) : Prop where
  branch : ∃ op, is[position]? = some (.branch op label .short)
  misfit : ¬ InByte (displacement targets is position label)
  first : ∀ (earlier : Nat) (op : BranchOp) (other : Label), earlier < position →
    is[earlier]? = some (.branch op other .short) →
      InByte (displacement targets is earlier other)

theorem firstOverflow?_eq_none (hg : Grounded targets is)
    (h : firstOverflow? targets is = none) : Fits targets is := by
  intro position op label hi
  refine Decidable.byContradiction fun hmisfit => ?_
  have hover := (overflow?_eq_some hg hi).mpr ⟨⟨op, rfl⟩, rfl, hmisfit⟩
  have hmem : (Instruction.branch op label .short, position) ∈ is.toList.zipIdx := by
    rw [List.mk_mem_zipIdx_iff_getElem?]
    simpa using hi
  have := List.findSome?_eq_none_iff.mp h _ hmem
  simp [hover] at this

theorem firstOverflow?_eq_some {e : EmitError} (hg : Grounded targets is)
    (h : firstOverflow? targets is = some e) :
    ∃ position label, FirstMisfit targets is position label ∧
      e = .branchOutOfRange position label (displacement targets is position label) := by
  obtain ⟨before, ⟨i, position⟩, after, hsplit, hfound, hnone⟩ :=
    List.findSome?_eq_some_iff.mp h
  have hget : ∀ k : Nat, (before ++ (i, position) :: after)[k]? = is[k]?.map (·, k) := by
    intro k
    rw [← hsplit]
    simp
  have hhere := hget before.length
  rw [List.getElem?_append_right (Nat.le_refl _), Nat.sub_self, List.getElem?_cons_zero,
    eq_comm, Option.map_eq_some_iff] at hhere
  obtain ⟨i', hi, heq⟩ := hhere
  cases heq
  obtain ⟨⟨label, distance⟩, hover, rfl⟩ := Option.map_eq_some_iff.mp hfound
  obtain ⟨⟨op, rfl⟩, rfl, hmisfit⟩ := (overflow?_eq_some hg hi).mp hover
  refine ⟨before.length, label, ⟨⟨op, hi⟩, hmisfit, ?_⟩, rfl⟩
  intro earlier op' other hlt hearlier
  refine Decidable.byContradiction fun hmisfit' => ?_
  have hmem := hget earlier
  rw [List.getElem?_append_left hlt, hearlier] at hmem
  have := hnone _ (List.mem_of_getElem? hmem)
  simp [(overflow?_eq_some hg hearlier).mpr ⟨⟨op', rfl⟩, rfl, hmisfit'⟩] at this

/-- Short branches are kept if they fit; else the first that does not is named. -/
theorem relax_short (hg : Grounded targets is) :
    Fits targets is ∧ relax .short targets is = .ok is ∨
      ∃ position label, FirstMisfit targets is position label ∧
        relax .short targets is =
          .error (.branchOutOfRange position label (displacement targets is position label)) := by
  rw [relax]
  cases h : firstOverflow? targets is with
  | none => exact .inl ⟨firstOverflow?_eq_none hg h, rfl⟩
  | some e =>
    obtain ⟨position, label, hfirst, rfl⟩ := firstOverflow?_eq_some hg h
    exact .inr ⟨position, label, hfirst, rfl⟩

theorem FirstMisfit.not_fits (h : FirstMisfit targets is position label) :
    ¬ Fits targets is := by
  intro hfits
  obtain ⟨op, hi⟩ := h.branch
  exact h.misfit (hfits position op label hi)

end Relaxation

/-! ## Finished code -/

namespace Assembly

variable {a b : Assembly} {returnsValue : Bool} {encoding : Encoding}

/-- The code of an assembly with other forms of its branches. -/
def codeWith (a : Assembly) (is : Array Instruction) : Code where
  instructions := is
  labels := a.targets
  locals := a.locals
  maxStack := a.maxDepth
  returnsValue := a.returnsValue

theorem finish_eq (hbound : a.Bound) :
    a.finish = (Relaxation.relax a.encoding a.targets a.instructions).map a.codeWith := by
  unfold finish
  rw [unmarked?_eq_none_iff.mpr hbound]
  cases Relaxation.relax a.encoding a.targets a.instructions <;> rfl

/-- The labels of an assembly that is bound stand in its code. -/
theorem Grounded.targets (hg : a.Grounded) (hbound : a.Bound) :
    Relaxation.Grounded a.targets a.instructions := by
  intro position i label hi ht
  have hlt := hg.branches position i label hi ht
  obtain ⟨target, hp⟩ := hbound position i label _ hi ht (Array.getElem?_eq_getElem hlt)
  refine ⟨target, ?_, hg.marks label _ target (Array.getElem?_eq_getElem hlt) hp⟩
  simp [Assembly.targets, Array.getElem?_eq_getElem hlt, hp]

theorem Made.performs {ds : List Directive} (h : Made returnsValue encoding a)
    (hds : Directive.Performs ds a b) : Made returnsValue encoding b := by
  induction ds generalizing a with
  | nil =>
    obtain rfl := Directive.performs_nil.mp hds
    exact h
  | cons d ds ih =>
    obtain ⟨c, hc, hds⟩ := Directive.performs_cons.mp hds
    exact ih (h.carried hc) hds

end Assembly

open Relaxation in
/-- The code into which the branches of an assembly are relaxed. -/
structure Assembly.Relaxes (a : Assembly) (is : Array Instruction) : Prop where
  finish : { a with encoding := .auto }.finish = .ok (a.codeWith is)
  /-- The passes come to an end: they lead to the code, and one more changes nothing. -/
  rests : ∃ passes, passes ≤ a.instructions.size ∧
    is = Nat.repeat (pass a.targets) passes a.instructions ∧ pass a.targets is = is
  least : Least a.targets a.instructions is
  smallest : ∀ js, AllAlike a.instructions js → Fits a.targets js →
    (a.codeWith is).size ≤ (a.codeWith js).size
  short_ok_iff : (∃ code, { a with encoding := .short }.finish = .ok code) ↔
    Fits a.targets a.instructions
  short_ok : Fits a.targets a.instructions →
    { a with encoding := .short }.finish = .ok (a.codeWith is)
  short_error : ¬ Fits a.targets a.instructions →
    ∃ position label, FirstMisfit a.targets a.instructions position label ∧
      { a with encoding := .short }.finish = .error (.branchOutOfRange position label
        (displacement a.targets a.instructions position label))

open Relaxation in
/-- The passes find the least choice of branch forms. Whatever operations made the code, if its
branches were emitted short and their labels are marked, the passes come to rest, every short branch
then holds its displacement, no branch is long that could be short, and no choice of forms makes
smaller code. Code with short branches only is finished just where they all fit, and is that code;
elsewhere the first branch that does not fit is named. -/
theorem branch_forms_least {returnsValue : Bool} {encoding : Encoding} {a : Assembly}
    (hmade : Assembly.Made returnsValue encoding a)
    (hshort : ∀ (position : Nat) (op : BranchOp) (label : Label),
      a.instructions[position]? ≠ some (.branch op label .long))
    (hbound : a.Bound) : ∃ is, a.Relaxes is := by
  have hg := hmade.grounded.1.targets hbound
  have hleast := settle_least hg hshort
  have hfinish : { a with encoding := .short }.finish =
      (relax .short a.targets a.instructions).map a.codeWith :=
    Assembly.finish_eq (a := { a with encoding := .short }) hbound
  refine ⟨settle a.targets a.instructions.size a.instructions, ?_⟩
  constructor
  case finish => exact Assembly.finish_eq (a := { a with encoding := .auto }) hbound
  case rests =>
    obtain ⟨passes, hle, heq⟩ := settle_eq_repeat a.targets a.instructions.size a.instructions
    exact ⟨passes, hle, heq, pass_settle _ _ _ (byteOffset_lengthen_le _)⟩
  case least => exact hleast
  case smallest =>
    intro js halike hfits
    have hgrows : Grows _ js :=
      ⟨hleast.alike.symm.trans halike, hleast.least js halike hfits⟩
    rw [Code.size_eq, Code.size_eq]
    exact hgrows.byteOffset_le
  case short_ok_iff =>
    rw [hfinish]
    rcases relax_short hg with ⟨hfits, hok⟩ | ⟨position, label, hfirst, herror⟩
    · rw [hok]
      exact ⟨fun _ => hfits, fun _ => ⟨_, rfl⟩⟩
    · rw [herror]
      refine ⟨?_, fun hfits => absurd hfits hfirst.not_fits⟩
      rintro ⟨code, h⟩
      cases h
  case short_ok =>
    intro hfits
    rw [hfinish, settle_of_fits hg hfits]
    rcases relax_short hg with ⟨-, hok⟩ | ⟨position, label, hfirst, -⟩
    · rw [hok]
      rfl
    · exact absurd hfits hfirst.not_fits
  case short_error =>
    intro hmisfit
    rw [hfinish]
    rcases relax_short hg with ⟨hfits, -⟩ | ⟨position, label, hfirst, herror⟩
    · exact absurd hfits hmisfit
    · exact ⟨position, label, hfirst, by rw [herror]; rfl⟩

/-- Ten bytes that leave nothing on the stack, some times. -/
def filler (count : Nat) : List Instruction :=
  (List.replicate count [.loadLong 0, .pop]).flatten

/-- Two jumps. The first just fits over the second and 125 bytes, as long as the second is short,
which it cannot be. -/
def cascade : List Directive :=
  [.define, .define, .emit (.jump .always 0), .emit (.jump .always 1)] ++
    (filler 12 ++ List.replicate 5 Instruction.nop).map .emit ++ [.mark 0] ++
    (filler 1).map .emit ++ [.mark 1, .emit .ret]

def cascadeAssembly : Assembly where
  instructions := ([Instruction.jump .always 0, Instruction.jump .always 1] ++ filler 12 ++
    List.replicate 5 Instruction.nop ++ filler 1 ++ [Instruction.ret]).toArray
  labels := #[⟨some 31, some 0⟩, ⟨some 33, some 0⟩]
  maxDepth := 1
  reachable := false
  returnsValue := false

/-- Both jumps become long, and of two short ones the second is the first that does not fit. -/
theorem cascade_relaxes :
    cascadeAssembly.Relaxes (cascadeAssembly.instructions.map Relaxation.lengthen) ∧
      { cascadeAssembly with encoding := .short }.finish =
        .error (.branchOutOfRange 1 1 135) := by
  have hds : Directive.Performs cascade { returnsValue := false } cascadeAssembly := by
    decide +kernel
  have hbound : cascadeAssembly.Bound :=
    Assembly.unmarked?_eq_none_iff.mp (by decide +kernel)
  have hshort : ∀ (position : Nat) (op : BranchOp) (label : Label),
      cascadeAssembly.instructions[position]? ≠ some (.branch op label .long) := by
    intro position op label hi
    have hforms : ∀ i ∈ cascadeAssembly.instructions.toList,
        i.target? = none ∨ i ≠ Relaxation.lengthen i := by decide +kernel
    have := hforms _ (Array.mem_toList_iff.mpr (Array.mem_of_getElem? hi))
    simp [Relaxation.lengthen, Instruction.target?] at this
  have hsettled : Relaxation.settle cascadeAssembly.targets cascadeAssembly.instructions.size
      cascadeAssembly.instructions = cascadeAssembly.instructions.map Relaxation.lengthen := by
    decide +kernel
  have hfirst : Relaxation.firstOverflow? cascadeAssembly.targets cascadeAssembly.instructions =
      some (.branchOutOfRange 1 1 135) := by decide +kernel
  obtain ⟨is, his⟩ := branch_forms_least (.performs .start hds) hshort hbound
  have hauto := Assembly.finish_eq (a := { cascadeAssembly with encoding := .auto }) hbound
  obtain rfl : is = cascadeAssembly.instructions.map Relaxation.lengthen :=
    (congrArg Code.instructions (Except.ok.inj (his.finish.symm.trans hauto))).trans hsettled
  refine ⟨his, ?_⟩
  rw [Assembly.finish_eq (a := { cascadeAssembly with encoding := .short }) hbound]
  show Except.map _ (Relaxation.relax .short cascadeAssembly.targets _) = _
  rw [Relaxation.relax, hfirst]
  rfl

end GuardCode
