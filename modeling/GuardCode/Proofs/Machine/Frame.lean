import GuardCode.Proofs.Machine.Likeness

/-! Values below the operands of an instruction are neither taken nor read. -/
namespace GuardCode

variable {σ : Type}

/-- The machine with more values below its stack. -/
def Machine.under (base : List Value) (m : Machine σ) : Machine σ :=
  { m with stack := m.stack ++ base }

/-- The transition with more values below the stack. -/
def Transition.under (base : List Value) : Transition σ → Transition σ
  | goto position m => goto position (m.under base)
  | stop ending m => stop ending (m.under base)

namespace Machine

variable {s : Setting σ} {m : Machine σ} {position : Nat} {base : List Value}

theorem under_inj {m' : Machine σ} (h : m.under base = m'.under base) : m = m' := by
  cases m
  cases m'
  simpa [under] using h

theorem likeness_under (base : List Value) :
    Likeness base fun m m' : Machine σ => m' = m.under base where
  stack h := by rw [h, under]
  world h := by rw [h, under]
  withStack h stack := by rw [h, under, under]
  withWorld h world := by rw [h, under, under]

/-- An instruction whose operands are on the stack does the same whatever lies below them. -/
theorem step_under (i : Instruction) (h : i.pops s.code.returnsValue ≤ m.stack.length) :
    step s position i (under base m) = (step s position i m).under base := by
  have hlike := likeness_under (σ := σ) base
  have halike : Transition.Alike (fun m m' => m' = m.under base) s.code s.code position position i
      (step s position i m) (step s position i (m.under base)) := by
    refine hlike.step rfl rfl rfl rfl i (.inl h) fun hmemory => ?_
    cases i with
    | loadLocal | loadField => exact hlike.pushSlot rfl _ _
    | storeLocal index =>
      simp only [step]
      refine hlike.withTop rfl (.inl h) ?_
      rintro v m _ rfl
      by_cases hi : index < m.locals.size
      · simp only [under, hi, ↓reduceIte]
        exact .onward rfl
      · simp only [under, hi, ↓reduceIte]
        exact ⟨rfl, rfl⟩
    | storeField field =>
      simp only [step]
      refine hlike.withTop rfl (.inl h) ?_
      rintro v m _ rfl
      by_cases hi : field.index < m.fields.size
      · simp only [under, hi, ↓reduceIte]
        exact .onward rfl
      · simp only [under, hi, ↓reduceIte]
        exact ⟨rfl, rfl⟩
    | _ => cases hmemory
  cases hs : step s position i m with
  | goto next m₁ =>
    rw [hs] at halike
    obtain ⟨_, hgoto, rfl⟩ := halike.went
    exact hgoto
  | stop ending m₁ =>
    rw [hs] at halike
    obtain ⟨_, hstop, rfl⟩ := halike.stopped
    exact hstop

end Machine

end GuardCode
