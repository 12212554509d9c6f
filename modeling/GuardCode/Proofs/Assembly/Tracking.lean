import GuardCode.Proofs.Code.Forms

/-! The depth that an assembly follows is one depth for each position. `Tracked` holds between an
assembly and the depths in which its instructions were emitted: along every edge of control, from
an instruction to the next one and from a branch to its label, the depth in front of the target is
the depth behind the source. Every operation keeps it, and a finished assembly gives code whose
depths agree along every edge (`Code.Balanced`). -/
namespace GuardCode

private theorem snoc_get {α : Type} {xs : List α} {x y : α} {p : Nat}
    (h : (xs ++ [x])[p]? = some y) : xs[p]? = some y ∨ p = xs.length ∧ y = x := by
  rw [List.getElem?_append] at h
  split at h
  · exact .inl h
  · rename_i hlt
    rw [List.getElem?_singleton] at h
    split at h
    · exact .inr ⟨by omega, (Option.some.inj h).symm⟩
    · cases h

private theorem snoc_get_left {α : Type} {xs : List α} {x y : α} {p : Nat}
    (h : xs[p]? = some y) : (xs ++ [x])[p]? = some y := by
  rw [List.getElem?_append_left (List.getElem?_eq_some_iff.mp h).1, h]

private theorem push_get {α : Type} {xs : Array α} {x y : α} {p : Nat}
    (h : (xs.push x)[p]? = some y) : xs[p]? = some y ∨ p = xs.size ∧ y = x := by
  rw [Array.getElem?_push] at h
  split at h
  · exact .inr ⟨‹_›, (Option.some.inj h).symm⟩
  · exact .inl h

namespace Assembly

variable {a b : Assembly} {depths : List Nat}

/-- The depths in which the instructions so far were emitted fit the assembly. The list of depths
goes on with the depth in front of the next instruction. -/
structure Tracked (a : Assembly) (depths : List Nat) : Prop where
  length : depths.length = a.instructions.size
  entry : (depths ++ [a.depth])[0]? = some 0
  start : a.instructions.size = 0 → a.reachable = true
  operands : ∀ (position : Nat) (i : Instruction) (d : Nat),
    a.instructions[position]? = some i → depths[position]? = some d →
      i.pops a.returnsValue ≤ d ∧ d ≤ a.maxDepth ∧
        d - i.pops a.returnsValue + i.pushes a.returnsValue ≤ a.maxDepth
  /-- The last instruction so far goes on only where the next one counts as reachable. -/
  onward : ∀ (position : Nat) (i : Instruction) (d : Nat),
    a.instructions[position]? = some i → depths[position]? = some d → i.endsBlock = false →
      (depths ++ [a.depth])[position + 1]? =
          some (d - i.pops a.returnsValue + i.pushes a.returnsValue) ∧
        (position + 1 = a.instructions.size → a.reachable = true)
  branches : ∀ (position : Nat) (i : Instruction) (d : Nat) (label : Label),
    a.instructions[position]? = some i → depths[position]? = some d → i.target? = some label →
      ∃ state, a.labels[label]? = some state ∧
        state.depth? = some (d - i.pops a.returnsValue)
  marks : ∀ (label : Label) (state : LabelState) (position : Nat),
    a.labels[label]? = some state → state.position? = some position →
      ∃ d, state.depth? = some d ∧ (depths ++ [a.depth])[position]? = some d ∧
        (position = a.instructions.size → a.reachable = true)
  depth_le : a.depth ≤ a.maxDepth
  labels_le : ∀ (label : Label) (state : LabelState) (d : Nat),
    a.labels[label]? = some state → state.depth? = some d → d ≤ a.maxDepth

theorem tracked_start (returnsValue : Bool) (encoding : Encoding) :
    Tracked { returnsValue, encoding } [] := by
  constructor <;> simp

/-- An instruction with its depth is an earlier one or the one just emitted. -/
private theorem Tracked.earlier_or_last {i j : Instruction} {position d : Nat}
    (ht : a.Tracked depths) (h : a.Emitted i b) (hj : b.instructions[position]? = some j)
    (hd : (depths ++ [a.depth])[position]? = some d) :
    a.instructions[position]? = some j ∧ depths[position]? = some d ∨
      position = a.instructions.size ∧ j = i ∧ d = a.depth := by
  have hlen := ht.length
  rw [h.instructions] at hj
  rcases push_get hj with hj | ⟨rfl, rfl⟩ <;> rcases snoc_get hd with hd | ⟨hp, rfl⟩
  · exact .inl ⟨hj, hd⟩
  · have := (Array.getElem?_eq_some_iff.mp hj).1
    omega
  · have := (List.getElem?_eq_some_iff.mp hd).1
    omega
  · exact .inr ⟨rfl, rfl, rfl⟩

theorem Tracked.emit {i : Instruction} (ht : a.Tracked depths) (h : a.Emitted i b) :
    b.Tracked (depths ++ [a.depth]) := by
  have hsize : b.instructions.size = a.instructions.size + 1 := by simp [h.instructions]
  have hmax : a.maxDepth ≤ b.maxDepth := by rw [h.maxDepth]; omega
  have hbound := ht.depth_le
  constructor
  case length => simp [hsize, ht.length]
  case entry => exact snoc_get_left ht.entry
  case start => omega
  case operands =>
    intro position j d hj hd
    rw [h.returnsValue]
    rcases ht.earlier_or_last h hj hd with ⟨hj, hd⟩ | ⟨rfl, rfl, rfl⟩
    · obtain ⟨hpops, hle, hafter⟩ := ht.operands position j d hj hd
      exact ⟨hpops, by omega, by omega⟩
    · exact ⟨h.operands, by omega, by rw [h.maxDepth]; omega⟩
  case onward =>
    intro position j d hj hd hends
    rw [h.returnsValue]
    rcases ht.earlier_or_last h hj hd with ⟨hj, hd⟩ | ⟨rfl, rfl, rfl⟩
    · have hlt := (Array.getElem?_eq_some_iff.mp hj).1
      exact ⟨snoc_get_left (ht.onward position j d hj hd hends).1, by omega⟩
    · refine ⟨?_, fun _ => by simp [h.reachable, hends]⟩
      have hlen : (depths ++ [a.depth]).length = a.instructions.size + 1 := by simp [ht.length]
      rw [← hlen, List.getElem?_concat_length, h.depth, hends]
      simp
  case branches =>
    intro position j d label hj hd htarget
    rw [h.returnsValue]
    rcases ht.earlier_or_last h hj hd with ⟨hj, hd⟩ | ⟨rfl, rfl, rfl⟩
    · obtain ⟨state, hl, hdepth⟩ := ht.branches position j d label hj hd htarget
      by_cases hi : i.target? = some label
      · obtain ⟨state', hl', hdepth', hb⟩ := h.target label hi
        rw [hl] at hl'
        cases hl'
        rw [hdepth] at hdepth'
        refine ⟨_, hb, ?_⟩
        simpa [eq_comm] using hdepth'
      · exact ⟨state, (h.others label hi).trans hl, hdepth⟩
    · obtain ⟨state, -, -, hb⟩ := h.target label htarget
      exact ⟨_, hb, rfl⟩
  case marks =>
    intro label state position hl hp
    by_cases hi : i.target? = some label
    · obtain ⟨old, hold, hdepth, hb⟩ := h.target label hi
      rw [hl] at hb
      cases hb
      obtain ⟨d, hd, hget, -⟩ := ht.marks label old position hold hp
      rw [hd] at hdepth
      have hlt := (List.getElem?_eq_some_iff.mp hget).1
      simp only [List.length_append, List.length_singleton, ht.length] at hlt
      refine ⟨d, ?_, snoc_get_left hget, by omega⟩
      simpa [eq_comm] using hdepth
    · rw [h.others label hi] at hl
      obtain ⟨d, hd, hget, -⟩ := ht.marks label state position hl hp
      have hlt := (List.getElem?_eq_some_iff.mp hget).1
      simp only [List.length_append, List.length_singleton, ht.length] at hlt
      exact ⟨d, hd, snoc_get_left hget, by omega⟩
  case depth_le =>
    rw [h.depth, h.maxDepth]
    split <;> omega
  case labels_le =>
    intro label state d hl hd
    by_cases hi : i.target? = some label
    · obtain ⟨old, -, -, hb⟩ := h.target label hi
      rw [hl] at hb
      cases hb
      simp only [Option.some.injEq] at hd
      omega
    · rw [h.others label hi] at hl
      have := ht.labels_le label state d hl hd
      omega

theorem Tracked.mark {label : Label} (ht : a.Tracked depths) (h : a.Marked label b) :
    b.Tracked depths := by
  obtain ⟨old, hold, -, -, hdepth⟩ := h.state
  -- In front of reachable code the depth stays; elsewhere nothing depends on it yet.
  have hkept : a.reachable = true → b.depth = a.depth := fun hr => by simp [hdepth, hr]
  have hget : ∀ {position d : Nat}, (depths ++ [a.depth])[position]? = some d →
      (position = a.instructions.size → a.reachable = true) →
        (depths ++ [b.depth])[position]? = some d := by
    intro position d hd hr
    rcases snoc_get hd with hd | ⟨hp, rfl⟩
    · exact snoc_get_left hd
    · rw [hp, List.getElem?_concat_length, hkept (hr (by rw [hp, ht.length]))]
  constructor
  case length => rw [ht.length, h.instructions]
  case entry => exact hget ht.entry (fun hp => ht.start hp.symm)
  case start => exact fun _ => h.reachable
  case operands =>
    rw [h.returnsValue, h.maxDepth, h.instructions]
    exact ht.operands
  case onward =>
    intro position i d hi hd hends
    rw [h.returnsValue]
    rw [h.instructions] at hi
    obtain ⟨hnext, hr⟩ := ht.onward position i d hi hd hends
    exact ⟨hget hnext hr, fun _ => h.reachable⟩
  case branches =>
    intro position i d other hi hd htarget
    rw [h.returnsValue]
    rw [h.instructions] at hi
    obtain ⟨state, hl, hs⟩ := ht.branches position i d other hi hd htarget
    by_cases hne : other = label
    · subst hne
      rw [hold] at hl
      cases hl
      exact ⟨_, h.here, by rw [h.depth_eq hold hs]⟩
    · exact ⟨state, (h.others other hne).trans hl, hs⟩
  case marks =>
    intro other state position hl hp
    by_cases hne : other = label
    · subst hne
      rw [h.here] at hl
      cases hl
      simp only [Option.some.injEq] at hp
      subst hp
      refine ⟨b.depth, rfl, ?_, fun _ => h.reachable⟩
      rw [← ht.length, List.getElem?_concat_length]
    · rw [h.others other hne] at hl
      obtain ⟨d, hd, hposition, hr⟩ := ht.marks other state position hl hp
      exact ⟨d, hd, hget hposition hr, fun _ => h.reachable⟩
  case depth_le =>
    rw [h.maxDepth, hdepth]
    split
    · exact ht.depth_le
    · cases hd : old.depth? with
      | none => simp
      | some d => exact ht.labels_le label old d hold hd
  case labels_le =>
    intro other state d hl hd
    rw [h.maxDepth]
    by_cases hne : other = label
    · subst hne
      rw [h.here] at hl
      cases hl
      simp only [Option.some.injEq] at hd
      subst hd
      rw [hdepth]
      split
      · exact ht.depth_le
      · cases hd : old.depth? with
        | none => simp
        | some d => exact ht.labels_le _ old d hold hd
    · rw [h.others other hne] at hl
      exact ht.labels_le other state d hl hd

theorem Tracked.define (ht : a.Tracked depths) :
    Tracked { a with labels := a.labels.push {} } depths := by
  have hget : ∀ {label : Label} {state : LabelState},
      (a.labels.push {})[label]? = some state → a.labels[label]? = some state ∨ state = {} :=
    fun hl => (push_get hl).imp_right And.right
  constructor
  case branches =>
    intro position i d label hi hd htarget
    obtain ⟨state, hl, hs⟩ := ht.branches position i d label hi hd htarget
    have hlt := (Array.getElem?_eq_some_iff.mp hl).1
    exact ⟨state, by rw [Array.getElem?_push_lt hlt, ← Array.getElem?_eq_getElem hlt, hl], hs⟩
  case marks =>
    intro label state position hl hp
    rcases hget hl with hl | rfl
    · exact ht.marks label state position hl hp
    · simp at hp
  case labels_le =>
    intro label state d hl hd
    rcases hget hl with hl | rfl
    · exact ht.labels_le label state d hl hd
    · simp at hd
  case length => exact ht.length
  case entry => exact ht.entry
  case start => exact ht.start
  case operands => exact ht.operands
  case onward => exact ht.onward
  case depth_le => exact ht.depth_le

theorem Tracked.declare (ht : a.Tracked depths) (type : Ty) :
    Tracked { a with locals := a.locals.push type } depths :=
  ⟨ht.length, ht.entry, ht.start, ht.operands, ht.onward, ht.branches, ht.marks, ht.depth_le,
    ht.labels_le⟩

end Assembly

namespace Directive

variable {a b : Assembly} {d : Directive} {ds : List Directive} {earlier : List Nat}

/-- The depth in front of the instruction that a directive emits, if it emits one. -/
def depth (d : Directive) (a : Assembly) : List Nat :=
  match d with
  | emit _ => [a.depth]
  | _ => []

/-- The depths in front of all instructions that directives emit. -/
def depths : List Directive → Assembly → List Nat
  | [], _ => []
  | d :: ds, a =>
    match perform d a with
    | .ok _ b => d.depth a ++ depths ds b
    | .error _ _ => []

theorem Performed.tracked (h : Performed d a b) (ht : a.Tracked earlier) :
    b.Tracked (earlier ++ d.depth a) := by
  cases h with
  | emit h => exact ht.emit h
  | mark h => simpa [depth] using ht.mark h
  | define => simpa [depth] using ht.define
  | declare => simpa [depth] using ht.declare _

/-- Every list of directives keeps the depths in line with the assembly. -/
theorem Performs.tracked (hf : a.frozen = false) (h : Performs ds a b)
    (ht : a.Tracked earlier) : b.Tracked (earlier ++ depths ds a) := by
  induction ds generalizing a earlier with
  | nil =>
    obtain rfl := performs_nil.mp h
    simpa [depths] using ht
  | cons d ds ih =>
    obtain ⟨c, hc, htail⟩ := performs_cons.mp h
    have hp := performed_of_perform hf hc
    have := ih (hp.frozen.trans hf) htail (hp.tracked ht)
    simpa [depths, hc] using this

/-- Each of the depths is the depth of the assembly when the instruction was emitted. -/
theorem Performs.emitted_at {k depth : Nat} (hf : a.frozen = false) (h : Performs ds a b)
    (hk : (depths ds a)[k]? = some depth) :
    ∃ before i after c, ds = before ++ .emit i :: after ∧ Performs before a c ∧
      c.instructions.size = a.instructions.size + k ∧ c.depth = depth ∧
      b.instructions[a.instructions.size + k]? = some i := by
  induction ds generalizing a k with
  | nil => simp [depths] at hk
  | cons d ds ih =>
    obtain ⟨c, hc, htail⟩ := performs_cons.mp h
    have hp := performed_of_perform hf hc
    simp only [depths, hc] at hk
    -- All but an emitted instruction leave the count of instructions as it is.
    have hlater : ∀ {k' : Nat}, (depths ds c)[k']? = some depth →
        c.instructions.size + k' = a.instructions.size + k →
        ∃ before i after c, d :: ds = before ++ .emit i :: after ∧ Performs before a c ∧
          c.instructions.size = a.instructions.size + k ∧ c.depth = depth ∧
          b.instructions[a.instructions.size + k]? = some i := by
      intro k' hk' hsize
      obtain ⟨before, i, after, c', rfl, hb, hs, hd, hi⟩ := ih (hp.frozen.trans hf) htail hk'
      exact ⟨d :: before, i, after, c', rfl, performs_cons.mpr ⟨c, hc, hb⟩, by omega, hd,
        hsize ▸ hi⟩
    cases hp with
    | @emit i _ _ he =>
      cases k with
      | zero =>
        simp only [Directive.depth, List.singleton_append, List.getElem?_cons_zero,
          Option.some.injEq] at hk
        refine ⟨[], i, ds, a, rfl, performs_nil.mpr rfl, rfl, hk, ?_⟩
        exact htail.instructions (he.frozen.trans hf) (by simp [he.instructions])
      | succ k =>
        simp only [Directive.depth, List.singleton_append, List.getElem?_cons_succ] at hk
        exact hlater hk (by simp [he.instructions]; omega)
    | mark he =>
      exact hlater (by simpa [Directive.depth] using hk) (by rw [he.instructions])
    | define => exact hlater (by simpa [Directive.depth] using hk) rfl
    | declare => exact hlater (by simpa [Directive.depth] using hk) rfl

/-- A label that is marked in the end was marked by one of the directives, at its position. -/
theorem Performs.marked_at {label position : Nat} (hf : a.frozen = false) (h : Performs ds a b)
    (hnone : ∀ state, a.labels[label]? = some state → state.position? = none)
    (hl : ∃ state, b.labels[label]? = some state ∧ state.position? = some position) :
    ∃ before after c, ds = before ++ .mark label :: after ∧ Performs before a c ∧
      c.instructions.size = position := by
  induction ds generalizing a with
  | nil =>
    obtain rfl := performs_nil.mp h
    obtain ⟨state, hs, hp⟩ := hl
    simp [hnone state hs] at hp
  | cons d ds ih =>
    obtain ⟨c, hc, htail⟩ := performs_cons.mp h
    have hp := performed_of_perform hf hc
    have hlater : (∀ state, c.labels[label]? = some state → state.position? = none) →
        ∃ before after c, d :: ds = before ++ .mark label :: after ∧ Performs before a c ∧
          c.instructions.size = position := by
      intro hnone'
      obtain ⟨before, after, c', rfl, hb, hs⟩ := ih (hp.frozen.trans hf) htail hnone'
      exact ⟨d :: before, after, c', rfl, performs_cons.mpr ⟨c, hc, hb⟩, hs⟩
    cases hp with
    | @emit i _ _ he =>
      refine hlater (fun state hs => ?_)
      by_cases ht : i.target? = some label
      · obtain ⟨old, hold, -, hb⟩ := he.target label ht
        rw [hs] at hb
        cases hb
        exact hnone old hold
      · exact hnone state ((he.others label ht).symm.trans hs)
    | @mark other _ _ he =>
      by_cases hne : label = other
      · subst hne
        refine ⟨[], ds, a, rfl, performs_nil.mpr rfl, ?_⟩
        obtain ⟨state, hs, hposition⟩ := htail.position (he.frozen.trans hf) ⟨_, he.here, rfl⟩
        obtain ⟨state', hs', hposition'⟩ := hl
        rw [hs] at hs'
        cases hs'
        rw [hposition] at hposition'
        exact Option.some.inj hposition'
      · exact hlater (fun state hs => hnone state ((he.others label hne).symm.trans hs))
    | define =>
      refine hlater (fun state hs => ?_)
      rcases push_get hs with hs | ⟨-, rfl⟩
      · exact hnone state hs
      · rfl
    | declare => exact hlater hnone

end Directive

end GuardCode
