import GuardCode.Proofs.Machine.Effects

/-! Machines that are alike take the same steps. Apart from locals and fields, an instruction sees the
top of the stack and the world of the host only; so it does the same whatever lies below its operands,
and whatever is held where it does not look, and leaves the machines alike. Machines that keep in step
in this way have the same runs. -/
namespace GuardCode

/-- A relation of machines of which the second has more values below the same stack, and the same world.
What it says of locals and fields is its own. -/
structure Likeness {σ : Type} (base : List Value) (R : Machine σ → Machine σ → Prop) : Prop where
  stack : ∀ {m m'}, R m m' → m'.stack = m.stack ++ base
  world : ∀ {m m'}, R m m' → m'.world = m.world
  withStack : ∀ {m m'}, R m m' → ∀ stack, R { m with stack } { m' with stack := stack ++ base }
  withWorld : ∀ {m m'}, R m m' → ∀ world, R { m with world } { m' with world }

/-- What an instruction comes to in two codes: both go on with the next instruction, or at the target of
the branch, or both end alike. -/
def Transition.Alike {σ : Type} (R : Machine σ → Machine σ → Prop) (code code' : Code)
    (position position' : Nat) (i : Instruction) : Transition σ → Transition σ → Prop
  | .goto next m, .goto next' m' =>
    (next = position + 1 ∧ next' = position' + 1 ∨
      ∃ label, i.target? = some label ∧ next = code.target label ∧ next' = code'.target label) ∧
    R m m'
  | .stop ending m, .stop ending' m' => ending' = ending ∧ R m m'
  | _, _ => False

/-- Whether an instruction uses a local or a field. -/
def Instruction.usesMemory : Instruction → Bool
  | loadLocal _ | storeLocal _ | loadField _ | storeField _ => true
  | _ => false

section

variable {σ : Type} {base : List Value} {R : Machine σ → Machine σ → Prop} {code code' : Code}
  {position position' : Nat} {i : Instruction} {m m' : Machine σ}

namespace Transition.Alike

variable {t : Transition σ}

theorem onward (h : R m m') :
    Alike R code code' position position' i (.goto (position + 1) m) (.goto (position' + 1) m') :=
  ⟨.inl ⟨rfl, rfl⟩, h⟩

theorem stopped {ending : Ending}
    (h : Alike R code code' position position' i (.stop ending m) t) :
    ∃ m', t = .stop ending m' ∧ R m m' := by
  cases t with
  | goto => exact h.elim
  | stop ending' m' =>
    obtain ⟨rfl, hm⟩ := h
    exact ⟨m', rfl, hm⟩

/-- An instruction that does not branch goes on with the next one. -/
theorem wentOn {next : Nat} (h : Alike R code code' position position' i (.goto next m) t)
    (htarget : i.target? = none) : ∃ m', t = .goto (position' + 1) m' ∧ R m m' := by
  cases t with
  | stop => exact h.elim
  | goto next' m' =>
    obtain ⟨⟨-, rfl⟩ | ⟨label, hlabel, -⟩, hm⟩ := h
    · exact ⟨m', rfl, hm⟩
    · rw [htarget] at hlabel
      cases hlabel

/-- In one code, at one position, the same instruction comes next. -/
theorem went {next : Nat} (h : Alike R code code position position i (.goto next m) t) :
    ∃ m', t = .goto next m' ∧ R m m' := by
  cases t with
  | stop => exact h.elim
  | goto next' m' =>
    obtain ⟨⟨rfl, rfl⟩ | ⟨label, -, rfl, rfl⟩, hm⟩ := h
    · exact ⟨m', rfl, hm⟩
    · exact ⟨m', rfl, hm⟩

end Transition.Alike

open Transition (Alike)

/-- There are enough operands on the stack. Where they are missing, machines are alike only at one
position and with nothing below their stacks. -/
def Machine.Suffices (m : Machine σ) (base : List Value) (position position' count : Nat) : Prop :=
  count ≤ m.stack.length ∨ base = [] ∧ position' = position

namespace Likeness

variable (hR : Likeness base R)

include hR

theorem push (h : R m m') (v : Value) : R (m.push v) (m'.push v) := by
  have hpush := hR.withStack h (v :: m.stack)
  rwa [List.cons_append, ← hR.stack h] at hpush

theorem withTop {k k' : Value → Machine σ → Transition σ} (h : R m m')
    (hstack : m.Suffices base position position' 1)
    (hk : ∀ v m m', R m m' → Alike R code code' position position' i (k v m) (k' v m')) :
    Alike R code code' position position' i (m.withTop position k) (m'.withTop position' k') := by
  simp only [Machine.withTop, hR.stack h]
  cases hs : m.stack with
  | nil =>
    rcases hstack with hlength | ⟨rfl, rfl⟩
    · simp [hs] at hlength
    · exact ⟨rfl, h⟩
  | cons v rest => exact hk v _ _ (hR.withStack h rest)

theorem withTwo {k k' : Value → Value → Machine σ → Transition σ} (h : R m m')
    (hstack : m.Suffices base position position' 2)
    (hk : ∀ a b m m', R m m' → Alike R code code' position position' i (k a b m) (k' a b m')) :
    Alike R code code' position position' i (m.withTwo position k) (m'.withTwo position' k') := by
  simp only [Machine.withTwo, Machine.withTop, hR.stack h]
  rcases hs : m.stack with _ | ⟨b, _ | ⟨a, rest⟩⟩
  · rcases hstack with hlength | ⟨rfl, rfl⟩
    · simp [hs] at hlength
    · exact ⟨rfl, h⟩
  · rcases hstack with hlength | ⟨rfl, rfl⟩
    · simp [hs] at hlength
    · exact ⟨rfl, hR.withStack h []⟩
  · exact hk a b _ _ (hR.withStack h rest)

theorem pushResult (h : R m m') (result : Except ExecutionError Value) :
    Alike R code code' position position' i (m.pushResult position result)
      (m'.pushResult position' result) := by
  cases result with
  | ok v => exact .onward (hR.push h v)
  | error e => exact ⟨rfl, h⟩

theorem pushSlot (h : R m m') (error : ExecutionError) (held : Option Value) :
    Alike R code code' position position' i (m.pushSlot position error held)
      (m'.pushSlot position' error held) := by
  cases held with
  | some v => exact .onward (hR.push h v)
  | none => exact ⟨rfl, h⟩

theorem call (h : R m m') (host : Host σ) (method : Method)
    (hstack : m.Suffices base position position' method.arity) :
    Alike R code code' position position' i (m.call host position method)
      (m'.call host position' method) := by
  unfold Machine.call
  cases host.find? method.id with
  | none => exact ⟨rfl, h⟩
  | some implementation =>
    simp only [hR.stack h, hR.world h]
    by_cases hshort : m.stack.length < method.arity
    · rcases hstack with hlength | ⟨rfl, rfl⟩
      · omega
      · simp only [List.append_nil, if_pos hshort]
        exact ⟨rfl, h⟩
    · have henough : method.arity ≤ m.stack.length := by omega
      have hlonger : ¬ (m.stack ++ base).length < method.arity := by
        simp only [List.length_append]
        omega
      simp only [if_neg hshort, if_neg hlonger, List.take_append_of_le_length henough,
        List.drop_append_of_le_length henough]
      have hdrop := hR.withStack h (m.stack.drop method.arity)
      cases implementation (m.stack.take method.arity).reverse m.world with
      | error e world => exact ⟨rfl, hR.withWorld hdrop world⟩
      | ok result? world =>
        have hafter := hR.withWorld hdrop world
        cases result? with
        | none =>
          cases method.returnsValue with
          | true => exact ⟨rfl, hafter⟩
          | false => exact .onward hafter
        | some v =>
          cases method.returnsValue with
          | true => exact .onward (hR.push hafter v)
          | false => exact ⟨rfl, hafter⟩

/-- One instruction, at a position of each of two codes. -/
theorem step {s s' : Setting σ} (hhost : s'.host = s.host) (hargs : s'.args = s.args)
    (hreturns : s'.code.returnsValue = s.code.returnsValue) (h : R m m') (i : Instruction)
    (hstack : m.Suffices base position position' (i.pops s.code.returnsValue))
    (hmemory : i.usesMemory → Alike R s.code s'.code position position' i
      (Machine.step s position i m) (Machine.step s' position' i m')) :
    Alike R s.code s'.code position position' i (Machine.step s position i m)
      (Machine.step s' position' i m') := by
  cases i with
  | nop => exact .onward h
  | loadNull | loadMinusOne | loadSmall | loadInt | loadLong | loadSingle | loadDouble
  | loadString => exact .onward (hR.push h _)
  | dup => exact hR.withTop h hstack fun v _ _ h => .onward (hR.push (hR.push h v) v)
  | pop => exact hR.withTop h hstack fun v _ _ h => .onward h
  | loadArg index =>
    simp only [Machine.step, hargs]
    exact hR.pushSlot h _ _
  | loadLocal | storeLocal | loadField | storeField => exact hmemory rfl
  | add | sub | rem | compareEqual | compareGreater | compareGreaterUn | compareLess
  | compareLessUn => exact hR.withTwo h hstack fun _ _ _ _ h => hR.pushResult h _
  | signed16 | unsigned16 =>
    simp only [Machine.step]
    exact hR.withTop h hstack fun _ _ _ h => hR.pushResult h _
  | branch op label form =>
    have hbranched : ∀ {m m'}, R m m' → ∀ outcome,
        Alike R s.code s'.code position position' (.branch op label form)
          (m.branched position (s.code.target label) outcome)
          (m'.branched position' (s'.code.target label) outcome) := by
      rintro m m' h (e | _ | _)
      · exact ⟨rfl, h⟩
      · exact .onward h
      · exact ⟨.inr ⟨label, rfl, rfl, rfl⟩, h⟩
    cases op with
    | always => exact hbranched h (.ok true)
    | ifTrue | ifFalse =>
      simp only [Machine.step]
      exact hR.withTop h hstack fun _ _ _ h => hbranched h _
    | eq | neUn | gt | gtUn | ge | geUn | lt | ltUn | le | leUn =>
      exact hR.withTwo h hstack fun _ _ _ _ h => hbranched h _
  | call method =>
    simp only [Machine.step, hhost]
    exact hR.call h _ _ hstack
  | ret =>
    simp only [Machine.step, hreturns]
    split
    · next hr =>
      simp only [Instruction.pops, Instruction.stackEffect, hr, ↓reduceIte] at hstack
      exact hR.withTop h hstack fun _ _ _ h => ⟨rfl, h⟩
    · exact ⟨rfl, h⟩

end Likeness

end

/-! ## Runs -/

namespace Machine

/-- Related machines take the same step and are related again in front of the next instruction. When they
have stopped, a second relation, which may be weaker, is left of it. -/
structure InStep {σ : Type} (s : Setting σ) (R : Nat → Machine σ → Machine σ → Prop)
    (E : Machine σ → Machine σ → Prop) : Prop where
  weaken : ∀ {position m m'}, R position m m' → E m m'
  goto : ∀ {position next i m m' m₁}, s.code.instructions[position]? = some i →
    R position m m' → step s position i m = .goto next m₁ →
      ∃ m₂, step s position i m' = .goto next m₂ ∧ R next m₁ m₂
  stop : ∀ {position i ending m m' m₁}, s.code.instructions[position]? = some i →
    R position m m' → step s position i m = .stop ending m₁ →
      ∃ m₂, step s position i m' = .stop ending m₂ ∧ E m₁ m₂

namespace InStep

variable {σ : Type} {s : Setting σ} {R : Nat → Machine σ → Machine σ → Prop}
  {E : Machine σ → Machine σ → Prop} {position next n steps : Nat} {m m' m₁ : Machine σ}

/-- A machine takes one step only, so either machine can go ahead. -/
theorem symm (h : InStep s R E) :
    InStep s (fun position m m' => R position m' m) fun m m' => E m' m where
  weaken hm := h.weaken hm
  goto := by
    intro position next i m m' m₁ hi hm hs
    cases hs' : step s position i m' with
    | goto next' m₂ =>
      obtain ⟨m₃, hs₃, hm₂⟩ := h.goto hi hm hs'
      rw [hs] at hs₃
      cases hs₃
      exact ⟨m₂, rfl, hm₂⟩
    | stop ending m₂ =>
      obtain ⟨m₃, hs₃, -⟩ := h.stop hi hm hs'
      rw [hs] at hs₃
      cases hs₃
  stop := by
    intro position i ending m m' m₁ hi hm hs
    cases hs' : step s position i m' with
    | goto next m₂ =>
      obtain ⟨m₃, hs₃, -⟩ := h.goto hi hm hs'
      rw [hs] at hs₃
      cases hs₃
    | stop ending' m₂ =>
      obtain ⟨m₃, hs₃, hm₂⟩ := h.stop hi hm hs'
      rw [hs] at hs₃
      cases hs₃
      exact ⟨m₂, rfl, hm₂⟩

/-- Related machines come to the same positions, and are related there. -/
theorem reaches (h : InStep s R E) (hreach : Reaches s (position, m) n (next, m₁))
    (hm : R position m m') : ∃ m₂, Reaches s (position, m') n (next, m₂) ∧ R next m₁ m₂ := by
  generalize hc : (position, m) = c at hreach
  generalize hd : (next, m₁) = d at hreach
  induction hreach generalizing position m m' with
  | refl =>
    cases hc
    cases hd
    exact ⟨m', .refl _, hm⟩
  | next hi hs _ ih =>
    cases hc
    obtain ⟨m₂, hs₂, hm₂⟩ := h.goto hi hm hs
    obtain ⟨m₃, hreach, hm₃⟩ := ih hm₂ rfl hd
    exact ⟨m₃, .next hi hs₂ hreach, hm₃⟩

/-- They stop at the same place, for the same reason. -/
theorem stops (h : InStep s R E) {ending : Ending} (hstops : Stops s steps (position, m) ending m₁)
    (hm : R position m m') : ∃ m₂, Stops s steps (position, m') ending m₂ ∧ E m₁ m₂ := by
  cases hstops with
  | fellOff hi => exact ⟨m', .fellOff hi, h.weaken hm⟩
  | limit hi hl => exact ⟨m', .limit hi hl, h.weaken hm⟩
  | step hi hl hs =>
    obtain ⟨m₂, hs₂, hm₂⟩ := h.stop hi hm hs
    exact ⟨m₂, .step hi hl hs₂, hm₂⟩

/-- What related machines show alike at the end is shown alike by their runs. -/
theorem map_resume (h : InStep s R E) {α : Type} {f g : Ending × Machine σ → α}
    (hshow : ∀ ending m m', E m m' → g (ending, m') = f (ending, m)) (fuel steps : Nat)
    (hm : R position m m') :
    (resume s fuel steps position m').map g = (resume s fuel steps position m).map f := by
  induction fuel generalizing steps position m m' with
  | zero => rfl
  | succ fuel ih =>
    rw [resume, resume]
    cases hi : s.code.instructions[position]? with
    | none => exact congrArg some (hshow _ _ _ (h.weaken hm))
    | some i =>
      cases limitReached? s steps with
      | some e => exact congrArg some (hshow _ _ _ (h.weaken hm))
      | none =>
        dsimp only
        cases hs : step s position i m with
        | goto next m₁ =>
          obtain ⟨m₂, hs₂, hm₂⟩ := h.goto hi hm hs
          simp only [hs₂]
          exact ih (steps + 1) hm₂
        | stop ending m₁ =>
          obtain ⟨m₂, hs₂, hm₂⟩ := h.stop hi hm hs
          simp only [hs₂]
          exact congrArg some (hshow _ _ _ hm₂)

end InStep

end Machine

end GuardCode
