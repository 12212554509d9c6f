import GuardCode.Proofs.Expr.Evaluation
import GuardCode.Proofs.Machine.Likeness

/-! Locals that are not used. What an instruction does and what a guard comes to depends on the locals
that they name only, so both are the same in machines that agree on these. -/
namespace GuardCode

/-! ## Instructions -/

/-- The local that an instruction loads or stores. -/
def Instruction.local? : Instruction → Option Nat
  | loadLocal index | storeLocal index => some index
  | _ => none

namespace Machine

variable {σ : Type}

/-- Two machines that differ at most in the locals from a number on. -/
structure AgreeBelow (count : Nat) (m m' : Machine σ) : Prop where
  stack : m'.stack = m.stack
  fields : m'.fields = m.fields
  world : m'.world = m.world
  size : m'.locals.size = m.locals.size
  locals : ∀ index, index < count → m'.locals[index]? = m.locals[index]?

variable {count : Nat} {m m' : Machine σ}

theorem AgreeBelow.refl (count : Nat) (m : Machine σ) : m.AgreeBelow count m :=
  ⟨rfl, rfl, rfl, rfl, fun _ _ => rfl⟩

theorem AgreeBelow.withStack (h : m.AgreeBelow count m') (stack : List Value) :
    AgreeBelow count { m with stack } { m' with stack } :=
  ⟨rfl, h.fields, h.world, h.size, h.locals⟩

theorem AgreeBelow.withWorld (h : m.AgreeBelow count m') (world : σ) :
    AgreeBelow count { m with world } { m' with world } :=
  ⟨h.stack, h.fields, rfl, h.size, h.locals⟩

theorem AgreeBelow.store (h : m.AgreeBelow count m') (index : Nat) (v : Value) :
    AgreeBelow count { m with locals := m.locals.setIfInBounds index v }
      { m' with locals := m'.locals.setIfInBounds index v } where
  stack := h.stack
  fields := h.fields
  world := h.world
  size := by simp [h.size]
  locals i hi := by simp [Array.getElem?_setIfInBounds, h.size, h.locals i hi]

/-- A local from the number on may be stored into. -/
theorem AgreeBelow.store_right (h : m.AgreeBelow count m') {index : Nat} (hindex : count ≤ index)
    (v : Value) : m.AgreeBelow count { m' with locals := m'.locals.setIfInBounds index v } where
  stack := h.stack
  fields := h.fields
  world := h.world
  size := by simp [h.size]
  locals i hi := by
    have hne : index ≠ i := by omega
    simp [hne, h.locals i hi]

theorem likeness_agreeBelow (count : Nat) :
    Likeness [] (AgreeBelow count : Machine σ → Machine σ → Prop) where
  stack h := h.stack.trans (List.append_nil _).symm
  world h := h.world
  withStack h stack := by
    rw [List.append_nil]
    exact h.withStack stack
  withWorld h world := h.withWorld world

/-- Wherever an instruction stands, it does the same in machines that agree on the local it loads. -/
theorem step_agree {s s' : Setting σ} {position position' : Nat} (hhost : s'.host = s.host)
    (hargs : s'.args = s.args) (hreturns : s'.code.returnsValue = s.code.returnsValue)
    (h : m.AgreeBelow count m') (i : Instruction)
    (hload : ∀ index, i = .loadLocal index → index < count)
    (hpops : i.pops s.code.returnsValue ≤ m.stack.length) :
    Transition.Alike (AgreeBelow count) s.code s'.code position position' i (step s position i m)
      (step s' position' i m') := by
  have hlike := likeness_agreeBelow (σ := σ) count
  refine hlike.step hhost hargs hreturns h i (.inl hpops) fun hmemory => ?_
  cases i with
  | loadLocal index =>
    simp only [step, h.size, h.locals index (hload index rfl)]
    exact hlike.pushSlot h _ _
  | loadField field =>
    simp only [step, h.fields]
    exact hlike.pushSlot h _ _
  | storeLocal index =>
    simp only [step]
    refine hlike.withTop h (.inl hpops) fun v m m' h => ?_
    simp only [h.size]
    split
    · exact .onward (h.store index v)
    · exact ⟨rfl, h⟩
  | storeField field =>
    simp only [step]
    refine hlike.withTop h (.inl hpops) fun v m m' h => ?_
    simp only [h.fields]
    split
    · exact .onward ⟨h.stack, rfl, h.world, h.size, h.locals⟩
    · exact ⟨rfl, h⟩
  | _ => cases hmemory

end Machine

/-! ## Guards -/

namespace Expr

theorem part_lastOperand (e : Expr) : Part e.lastOperand e := by
  induction e with
  | binary op left right _ ih =>
    simp only [lastOperand]
    split
    · exact .child (by simp [children]) ih
    · exact .self
  | member | literal | carried | call => exact .self

/-- The locals that a guard names are below a number. -/
def ReadsBelow (count : Nat) (e : Expr) : Prop :=
  ∀ slot, Part (.member (.loc slot)) e ∨ Part (.carried (.member (.loc slot))) e →
    slot.index < count

theorem ReadsBelow.part {count : Nat} {p e : Expr} (h : e.ReadsBelow count) (hp : Part p e) :
    p.ReadsBelow count := fun slot hslot =>
  h slot (hslot.imp (fun h => h.trans hp) fun h => h.trans hp)

theorem ReadsBelow.child {count : Nat} {c e : Expr} (h : e.ReadsBelow count)
    (hc : c ∈ e.children) : c.ReadsBelow count :=
  h.part (.child hc .self)

end Expr

namespace Environment

variable {σ : Type}

/-- Two environments that differ at most in the locals from a number on. -/
structure AgreeBelow (count : Nat) (env env' : Environment σ) : Prop where
  host : env'.host = env.host
  args : env'.args = env.args
  fields : env'.fields = env.fields
  size : env'.locals.size = env.locals.size
  locals : ∀ index, index < count → env'.locals[index]? = env.locals[index]?

variable {count : Nat} {env env' : Environment σ}

theorem AgreeBelow.load (h : env.AgreeBelow count env') {m : Member}
    (hm : ∀ slot, m = .loc slot → slot.index < count) : env'.load m = env.load m := by
  cases m with
  | arg slot => simp only [Environment.load, h.args]
  | loc slot => simp only [Environment.load, h.size, h.locals slot.index (hm slot rfl)]
  | field f => simp only [Environment.load, h.fields]

theorem AgreeBelow.call (h : env.AgreeBelow count env') : env'.call = env.call := by
  funext method args
  simp only [Environment.call, h.host]

theorem AgreeBelow.operate (h : env.AgreeBelow count env') : env'.operate = env.operate := by
  funext op type a b
  simp only [Environment.operate, h.call]

theorem AgreeBelow.invoke (h : env.AgreeBelow count env') : env'.invoke = env.invoke := by
  funext callee args
  simp only [Environment.invoke, h.call]

theorem evalAll_congr {args : List Expr} (h : ∀ a ∈ args, a.eval env' = a.eval env) :
    Expr.evalAll env' args = Expr.evalAll env args := by
  induction args with
  | nil => rfl
  | cons e es ih =>
    rw [Expr.evalAll, Expr.evalAll, h e (by simp), ih fun a ha => h a (by simp [ha])]

/-- A guard comes to the same where the locals that it names hold the same. -/
theorem AgreeBelow.eval (h : env.AgreeBelow count env') {e : Expr} (he : e.ReadsBelow count) :
    e.eval env' = e.eval env := by
  induction e with
  | binary op left right ihleft ihright =>
    rw [Expr.eval, Expr.eval, ihleft (he.child (by simp [Expr.children])),
      ihright (he.child (by simp [Expr.children])), h.operate]
  | member m =>
    rw [Expr.eval, Expr.eval]
    exact h.load fun slot hm => he slot (.inl (hm ▸ .self))
  | literal | carried => rfl
  | call callee args type ih =>
    have hargs := evalAll_congr fun a ha => ih a ha (he.child ha)
    rw [Expr.eval, Expr.eval, hargs, h.invoke]
    split
    · rename_i m hloaded
      refine h.load fun slot hm => ?_
      subst hm
      unfold Expr.loaded? at hloaded
      split at hloaded
      · cases hloaded
        exact he slot (.inr (.child (by simp [Expr.children]) .self))
      · cases hloaded
    · rfl

theorem AgreeBelow.yields (h : env.AgreeBelow count env') {e : Expr} (he : e.ReadsBelow count)
    {v : Value} (hv : e.Yields env' v) : e.Yields env v := by
  obtain ⟨before, after, hv⟩ := hv
  exact ⟨before, after, h.eval he ▸ hv⟩

theorem AgreeBelow.wellKinded (h : env.AgreeBelow count env') {e : Expr}
    (he : e.ReadsBelow count) (hkinds : e.WellKinded env) : e.WellKinded env' where
  operands op left right hp hop := by
    obtain ⟨hleft, hright⟩ := hkinds.operands op left right hp hop
    exact ⟨fun v hv => hleft v (h.yields ((he.part hp).child (by simp [Expr.children])) hv),
      fun v hv => hright v (h.yields ((he.part hp).child (by simp [Expr.children])) hv)⟩
  differences left right method hp hm a b before v after hcall :=
    hkinds.differences left right method hp hm a b before v after (h.call ▸ hcall)
  chains p c v hp hlogical hc hchain hv :=
    hkinds.chains p c v hp hlogical hc hchain
      (h.yields (((he.part hp).child hc).part c.part_lastOperand) hv)

end Environment

end GuardCode
