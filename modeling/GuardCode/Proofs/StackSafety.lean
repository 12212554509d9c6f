import GuardCode.Proofs.Assembly.Tracking

/-! Finished code never leaves the part of the stack that is its own. The depths that were followed
while the code was assembled are the depths of every run: an instruction finds just as many values
above the initial stack as were there when it was emitted, so no run lacks operands, none touches the
initial stack, and none needs more room than the code declares. -/
namespace GuardCode

/-- Depths in front of the instructions that agree along every edge of control. -/
structure Code.Balanced (code : Code) (depths : List Nat) : Prop where
  length : depths.length = code.instructions.size
  entry : ∀ d, depths[0]? = some d → d = 0
  operands : ∀ (position : Nat) (i : Instruction) (d : Nat),
    code.instructions[position]? = some i → depths[position]? = some d →
      i.pops code.returnsValue ≤ d ∧ d ≤ code.maxStack ∧
        d - i.pops code.returnsValue + i.pushes code.returnsValue ≤ code.maxStack
  onward : ∀ (position : Nat) (i : Instruction) (d d' : Nat),
    code.instructions[position]? = some i → depths[position]? = some d →
      i.endsBlock = false → depths[position + 1]? = some d' →
        d' = d - i.pops code.returnsValue + i.pushes code.returnsValue
  branches : ∀ (position : Nat) (i : Instruction) (d d' : Nat) (label : Label),
    code.instructions[position]? = some i → depths[position]? = some d →
      i.target? = some label → depths[code.target label]? = some d' →
        d' = d - i.pops code.returnsValue

/-- The code of a tracked assembly is balanced. -/
theorem Assembly.Tracked.balanced {a : Assembly} {depths : List Nat} {code : Code}
    (ht : a.Tracked depths) (h : a.finish = .ok code) : code.Balanced depths := by
  obtain ⟨hbound, hrelax, -, -, hmax, hreturns⟩ := Assembly.finish_eq_ok h
  have halike := Relaxation.relax_allAlike hrelax
  -- A depth of an instruction so far is no matter of the depth in front of the next one.
  have hget : ∀ {position d d' : Nat}, (depths ++ [a.depth])[position]? = some d →
      depths[position]? = some d' → d' = d := by
    intro position d d' hd hd'
    rw [List.getElem?_append_left (List.getElem?_eq_some_iff.mp hd').1, hd'] at hd
    exact Option.some.inj hd
  constructor
  case length => rw [ht.length, halike.1]
  case entry => exact fun d hd => hget ht.entry hd
  case operands =>
    intro position j d hj hd
    obtain ⟨i, hi, hij⟩ := halike.2 position j hj
    rw [hreturns, hmax, hij.pops_eq, hij.pushes_eq]
    exact ht.operands position i d hi hd
  case onward =>
    intro position j d d' hj hd hends hd'
    obtain ⟨i, hi, hij⟩ := halike.2 position j hj
    rw [hreturns, hij.pops_eq, hij.pushes_eq]
    rw [hij.endsBlock_eq] at hends
    exact hget (ht.onward position i d hi hd hends).1 hd'
  case branches =>
    intro position j d d' label hj hd htarget hd'
    obtain ⟨i, hi, hij⟩ := halike.2 position j hj
    rw [hreturns, hij.pops_eq]
    rw [hij.target?_eq] at htarget
    obtain ⟨state, hl, hdepth⟩ := ht.branches position i d label hi hd htarget
    obtain ⟨target, hp⟩ := hbound position i label state hi htarget hl
    obtain ⟨depth, hdepth', hat, -⟩ := ht.marks label state target hl hp
    rw [hdepth] at hdepth'
    rw [Assembly.target_eq h hl hp] at hd'
    exact (hget hat hd').trans (Option.some.inj hdepth').symm

namespace Machine

variable {σ : Type} {s : Setting σ} {depths : List Nat} {base : List Value}

/-- The machine has as many values on its stack as are tracked for the next instruction, and never
more than the code declares. -/
def Level (code : Code) (depths : List Nat) (c : Place σ) : Prop :=
  c.2.stack.length ≤ code.maxStack ∧
    ∀ d, depths[c.1]? = some d → c.2.stack.length = d

theorem level_operands {position : Nat} {i : Instruction} {m : Machine σ}
    (hb : s.code.Balanced depths) (hi : s.code.instructions[position]? = some i)
    (hl : Level s.code depths (position, m)) :
    depths[position]? = some m.stack.length ∧
      i.pops s.code.returnsValue ≤ m.stack.length ∧
      m.stack.length - i.pops s.code.returnsValue + i.pushes s.code.returnsValue ≤
        s.code.maxStack := by
  have hlt := (Array.getElem?_eq_some_iff.mp hi).1
  rw [← hb.length] at hlt
  have hd := List.getElem?_eq_getElem hlt
  rw [← hl.2 _ hd] at hd
  obtain ⟨hpops, -, hafter⟩ := hb.operands position i _ hi hd
  exact ⟨hd, hpops, hafter⟩

/-- One step keeps the stack level. -/
theorem level_step {position next : Nat} {i : Instruction} {m m' : Machine σ}
    (hb : s.code.Balanced depths) (hi : s.code.instructions[position]? = some i)
    (hl : Level s.code depths (position, m)) (hs : step s position i m = .goto next m') :
    Level s.code depths (next, m') := by
  obtain ⟨hd, hpops, hafter⟩ := level_operands hb hi hl
  obtain ⟨hnext, -, hlength⟩ := step_goto hs
  refine ⟨by simp only; omega, fun d' hd' => ?_⟩
  simp only at hd' ⊢
  rcases hnext with ⟨rfl, hends⟩ | ⟨label, htarget, rfl⟩
  · have := hb.onward position i _ d' hi hd hends hd'
    omega
  · have := hb.branches position i _ d' label hi hd htarget hd'
    have := Instruction.pushes_eq_zero_of_target s.code.returnsValue htarget
    omega

theorem level_start {m : Machine σ} (hb : s.code.Balanced depths) (hm : m.stack = []) :
    Level s.code depths (0, m) := by
  refine ⟨by simp [hm], fun d hd => ?_⟩
  rw [hb.entry d hd, hm]
  rfl

/-- The same steps are taken whatever lies below. -/
theorem inStep_under (hb : s.code.Balanced depths) (base : List Value) :
    InStep s (fun position m m' => m = m'.under base ∧ Level s.code depths (position, m'))
      fun m m' => m = m'.under base where
  weaken h := h.1
  goto := by
    rintro position next i _ m m' hi ⟨rfl, hl⟩ hs
    obtain ⟨-, hpops, -⟩ := level_operands hb hi hl
    rw [step_under i hpops] at hs
    cases hs₁ : step s position i m with
    | stop ending m₁ => simp [hs₁, Transition.under] at hs
    | goto next₁ m₁ =>
      simp only [hs₁, Transition.under, Transition.goto.injEq] at hs
      obtain ⟨rfl, rfl⟩ := hs
      exact ⟨m₁, rfl, rfl, level_step hb hi hl hs₁⟩
  stop := by
    rintro position i ending _ m m' hi ⟨rfl, hl⟩ hs
    obtain ⟨-, hpops, -⟩ := level_operands hb hi hl
    rw [step_under i hpops] at hs
    cases hs₁ : step s position i m with
    | goto next m₁ => simp [hs₁, Transition.under] at hs
    | stop ending₁ m₁ =>
      simp only [hs₁, Transition.under, Transition.stop.injEq] at hs
      obtain ⟨rfl, rfl⟩ := hs
      exact ⟨m₁, rfl, rfl⟩

/-- All places of a run above some values are level, and none of those values is touched. -/
theorem level_reaches {n position : Nat} {m m' : Machine σ} (hb : s.code.Balanced depths)
    (h : Reaches s (0, m.under base) n (position, m')) (hm : m.stack = []) :
    ∃ m₁ : Machine σ, m' = m₁.under base ∧ Level s.code depths (position, m₁) := by
  obtain ⟨m₁, -, hm₁⟩ := (inStep_under hb base).reaches h ⟨rfl, level_start hb hm⟩
  exact ⟨m₁, hm₁⟩

/-- A run does the same whatever lies below its own part of the stack. -/
theorem resume_under (hb : s.code.Balanced depths) (fuel steps position : Nat) (m : Machine σ)
    (hl : Level s.code depths (position, m)) :
    resume s fuel steps position (m.under base) =
      (resume s fuel steps position m).map fun stopped => (stopped.1, stopped.2.under base) := by
  have hsame := (inStep_under hb base).map_resume (f := id)
    (g := fun stopped => (stopped.1, stopped.2.under base)) (fun _ _ _ hm => by rw [hm]; rfl)
    fuel steps ⟨rfl, hl⟩
  rw [hsame, Option.map_id]
  rfl

/-- Whether a branch is taken with these values on the stack, the top one first. -/
def taken (i : Instruction) : BranchOp → List Value → Except ExecutionError Bool
  | .always, _ => .ok true
  | .ifTrue, v :: _ => .ok v.isTruthy
  | .ifFalse, v :: _ => .ok !v.isTruthy
  | op, b :: a :: _ => Operation.holds i a b op
  | _, _ => .ok false

theorem step_taken {position : Nat} {op : BranchOp} {label : Label} {form : BranchForm}
    {m : Machine σ} (h : taken (.branch op label form) op m.stack = .ok true) :
    step s position (.branch op label form) m =
      .goto (s.code.target label) { m with stack := m.stack.drop op.pops } := by
  cases op with
  | always => rfl
  | ifTrue | ifFalse =>
    cases hs : m.stack with
    | nil => simp [taken, hs] at h
    | cons v rest =>
      simp only [taken, hs, Except.ok.injEq] at h
      simp [step, withTop, hs, h, branched, BranchOp.pops]
  | eq | neUn | gt | gtUn | ge | geUn | lt | ltUn | le | leUn =>
    rcases hs : m.stack with _ | ⟨b, _ | ⟨a, rest⟩⟩
    · simp [taken, hs] at h
    · simp [taken, hs] at h
    · simp only [taken, hs] at h
      simp [step, withTwo, withTop, hs, h, branched, BranchOp.pops]

/-- A run keeps to the depths that were followed when its code was assembled by the directives. -/
structure KeepsTrackedDepths (ds : List Directive) (start : Assembly) (code : Code)
    (s : Setting σ) (m : Machine σ) : Prop where
  /-- In front of every instruction there are just as many values above the initial stack as the
  assembly followed when the instruction was emitted. -/
  depth : ∀ n position m' i, Reaches s (0, m) n (position, m') →
    code.instructions[position]? = some i →
      ∃ before j after b top, ds = before ++ .emit j :: after ∧
        Directive.Performs before start b ∧ b.instructions.size = position ∧ i.Alike j ∧
        m'.stack = top ++ m.stack ∧ top.length = b.depth
  /-- There are never more of them than the code declares. -/
  room : ∀ n position m', Reaches s (0, m) n (position, m') →
    ∃ top, m'.stack = top ++ m.stack ∧ top.length ≤ code.maxStack
  /-- No instruction pops or reads a value of the initial stack. -/
  untouched : ∀ n position m' i top, Reaches s (0, m) n (position, m') →
    code.instructions[position]? = some i → m'.stack = top ++ m.stack →
      step s position i m' = (step s position i { m' with stack := top }).under m.stack
  /-- A branch that is taken goes to the position at which its label was marked. -/
  branch : ∀ n position m' op label form, Reaches s (0, m) n (position, m') →
    code.instructions[position]? = some (.branch op label form) →
      taken (.branch op label form) op m'.stack = .ok true →
        ∃ before after b, ds = before ++ .mark label :: after ∧
          Directive.Performs before start b ∧
          step s position (.branch op label form) m' =
            .goto b.instructions.size { m' with stack := m'.stack.drop op.pops }
  /-- A run that is over is the run on an empty stack with the initial one below. -/
  whole : ∀ fuel ending m', run s fuel m = some (ending, m') →
    ∃ top, m'.stack = top ++ m.stack ∧ top.length ≤ code.maxStack ∧
      run s fuel { m with stack := [] } = some (ending, { m' with stack := top })
  /-- No run lacks operands; an error that says so comes from a host method. -/
  operands : ∀ fuel m' place, run s fuel m = some (.error (.stackUnderflow place), m') →
    ∃ n position m₁ i, Reaches s (0, m) n (position, m₁) ∧
      code.instructions[position]? = some i ∧ Relayed s m₁ i (.stackUnderflow place)

theorem stops_of_level {steps position : Nat} {m m' : Machine σ} {ending : Ending}
    (hb : s.code.Balanced depths) (hl : Level s.code depths (position, m))
    (h : Stops s steps (position, m) ending m') :
    m'.stack.length ≤ s.code.maxStack ∧
      ∀ place, ending = .error (.stackUnderflow place) →
        ∃ i, s.code.instructions[position]? = some i ∧ Relayed s m i (.stackUnderflow place) := by
  cases h with
  | fellOff => exact ⟨hl.1, fun _ he => by cases he⟩
  | limit hi hlimit =>
    refine ⟨hl.1, fun place he => ?_⟩
    cases he
    unfold limitReached? at hlimit
    split at hlimit
    · split at hlimit <;> simp at hlimit
    · simp at hlimit
  | @step _ _ _ i _ hi _ hs =>
    obtain ⟨-, hpops, -⟩ := level_operands hb hi hl
    obtain ⟨hends, -, hlength⟩ := step_stop hs
    refine ⟨Nat.le_trans hlength hl.1, fun place he => ?_⟩
    subst he
    exact ⟨i, hi, hends.relayed_of_underflow hpops⟩

end Machine

open Machine in
/-- The depths that an assembly follows are sound: whatever operations made the code, with labels
marked before or behind their branches and with dead code, every run keeps to them. -/
theorem finished_code_keeps_tracked_depths {σ : Type} {ds : List Directive} {returnsValue : Bool}
    {encoding : Encoding} {a : Assembly} {code : Code}
    (hds : Directive.Performs ds { returnsValue, encoding } a) (hcode : a.finish = .ok code)
    (s : Setting σ) (hs : s.code = code) (m : Machine σ) :
    KeepsTrackedDepths ds { returnsValue, encoding } code s m := by
  subst hs
  have ht := hds.tracked rfl (Assembly.tracked_start returnsValue encoding)
  rw [List.nil_append] at ht
  have hemitted := fun k d
    (hk : (Directive.depths ds { returnsValue, encoding })[k]? = some d) => hds.emitted_at rfl hk
  generalize Directive.depths ds { returnsValue, encoding } = depths at ht hemitted
  have hb := ht.balanced hcode
  obtain ⟨hbound, hrelax, -⟩ := Assembly.finish_eq_ok hcode
  have halike := Relaxation.relax_allAlike hrelax
  have hlevel : ∀ {n position : Nat} {m' : Machine σ}, Reaches s (0, m) n (position, m') →
      ∃ m₁ : Machine σ, m' = m₁.under m.stack ∧ Level s.code depths (position, m₁) :=
    fun h => level_reaches (m := { m with stack := [] }) hb h rfl
  constructor
  case depth =>
    intro n position m' j h hj
    obtain ⟨m₁, rfl, hl⟩ := hlevel h
    obtain ⟨hd, -, -⟩ := level_operands hb hj hl
    obtain ⟨before, i, after, b, hsplit, hbefore, hsize, hdepth, hi⟩ := hemitted position _ hd
    simp only [Array.size_empty, Nat.zero_add] at hsize hi
    obtain ⟨i', hi', hji⟩ := halike.2 position j hj
    rw [hi] at hi'
    cases hi'
    exact ⟨before, i, after, b, m₁.stack, hsplit, hbefore, hsize, hji, rfl, hdepth.symm⟩
  case room =>
    intro n position m' h
    obtain ⟨m₁, rfl, hl⟩ := hlevel h
    exact ⟨m₁.stack, rfl, hl.1⟩
  case untouched =>
    intro n position m' i top h hi htop
    obtain ⟨m₁, rfl, hl⟩ := hlevel h
    obtain ⟨-, hpops, -⟩ := level_operands hb hi hl
    obtain rfl : m₁.stack = top := List.append_cancel_right htop
    exact step_under i hpops
  case branch =>
    intro n position m' op label form h hj htaken
    obtain ⟨m₁, rfl, hl⟩ := hlevel h
    obtain ⟨hd, -, -⟩ := level_operands hb hj hl
    obtain ⟨i, hi, hji⟩ := halike.2 position _ hj
    have htarget : i.target? = some label := hji.target?_eq.symm
    obtain ⟨state, hlabel, -⟩ := ht.branches position i _ label hi hd htarget
    obtain ⟨target, htarget'⟩ := hbound position i label state hi htarget hlabel
    obtain ⟨before, after, b, hsplit, hbefore, hsize⟩ :=
      hds.marked_at rfl (by simp) ⟨state, hlabel, htarget'⟩
    refine ⟨before, after, b, hsplit, hbefore, ?_⟩
    rw [step_taken htaken, Assembly.target_eq hcode hlabel htarget', hsize]
  case whole =>
    intro fuel ending m' h
    have hstart : Level s.code depths (0, { m with stack := [] }) := level_start hb rfl
    have hunder := @resume_under σ s depths m.stack hb fuel 0 0 _ hstart
    obtain ⟨n, ⟨position, m₁⟩, hreach, hstops⟩ := stops_of_resume h
    obtain ⟨m₂, rfl, hl⟩ := hlevel hreach
    obtain ⟨m₃, hstops', rfl⟩ := (inStep_under hb m.stack).stops hstops ⟨rfl, hl⟩
    refine ⟨m₃.stack, rfl, (stops_of_level hb hl hstops').1, ?_⟩
    rw [run] at h ⊢
    rw [show m = ({ m with stack := [] } : Machine σ).under m.stack from rfl, hunder,
      Option.map_eq_some_iff] at h
    obtain ⟨⟨ending', m₄⟩, hrun, hsame⟩ := h
    simp only [Prod.mk.injEq] at hsame
    obtain ⟨rfl, hsame⟩ := hsame
    rw [hrun, under_inj hsame]
    rfl
  case operands =>
    intro fuel m' place h
    obtain ⟨n, ⟨position, m₁⟩, hreach, hstops⟩ := stops_of_resume h
    obtain ⟨m₂, rfl, hl⟩ := hlevel hreach
    obtain ⟨m₃, hstops', rfl⟩ := (inStep_under hb m.stack).stops hstops ⟨rfl, hl⟩
    obtain ⟨i, hi, hrelayed⟩ := (stops_of_level hb hl hstops').2 place rfl
    exact ⟨n, position, _, i, hreach, hi, hrelayed⟩

/-- A loop that is left once its argument is truthy, with dead code behind the jump back. -/
def spin : List Directive :=
  [.define, .define, .mark 0, .emit (.loadArg 0), .emit (.jump .ifTrue 1),
    .emit (.jump .always 0), .emit (.loadSmall 7), .emit .pop, .mark 1, .emit (.loadSmall 5),
    .emit .ret]

def spinAssembly : Assembly where
  instructions := #[.loadArg 0, .jump .ifTrue 1, .jump .always 0, .loadSmall 7, .pop,
    .loadSmall 5, .ret]
  labels := #[⟨some 0, some 0⟩, ⟨some 5, some 0⟩]
  maxDepth := 1
  reachable := false
  returnsValue := true

def spinCode : Code where
  instructions := spinAssembly.instructions
  labels := spinAssembly.targets
  locals := #[]
  maxStack := 1
  returnsValue := true

/-- The loop over one argument, on a stack that holds a value already. -/
theorem spin_keeps_tracked_depths :
    Machine.KeepsTrackedDepths spin { returnsValue := true } spinCode
      ({ code := spinCode, host := {}, args := #[.int32 1] } : Setting Unit)
      { stack := [.null], locals := #[], fields := #[], world := () } := by
  have hds : Directive.Performs spin { returnsValue := true } spinAssembly := by decide +kernel
  have hmarked : spinAssembly.unmarked? = none := by decide +kernel
  have hforms : Relaxation.settle spinAssembly.targets spinAssembly.instructions.size
      spinAssembly.instructions = spinAssembly.instructions := by decide +kernel
  have hcode : spinAssembly.finish = .ok spinCode := by
    rw [Assembly.finish, hmarked]
    show (Relaxation.relax .auto spinAssembly.targets spinAssembly.instructions >>= _) = _
    rw [Relaxation.relax, hforms]
    rfl
  exact finished_code_keeps_tracked_depths hds hcode _ rfl _

end GuardCode
