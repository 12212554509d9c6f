import GuardCode.Proofs.Blocks.Opening
import GuardCode.Proofs.Locals

/-! Structured code: groups of instructions, returns, and if/else blocks around further code, to any
depth. It is written into a method body call by call, and it has a meaning of its own, without labels
and positions. -/
namespace GuardCode

open Directive

inductive Statement where
  /-- Instructions in a row, those of each call together. -/
  | group (calls : List (List Instruction))
  /-- Instructions in a row and a return. -/
  | answer (calls : List (List Instruction))
  | choice (guard : Expr) (onTrue onFalse : List Statement)

namespace Statement

/-- Induction over statements. -/
@[induction_eliminator]
theorem inductionOn {motive : Statement → Prop} (s : Statement)
    (group : ∀ calls, motive (.group calls)) (answer : ∀ calls, motive (.answer calls))
    (choice : ∀ guard onTrue onFalse, (∀ s ∈ onTrue, motive s) → (∀ s ∈ onFalse, motive s) →
      motive (.choice guard onTrue onFalse)) : motive s :=
  @Statement.rec motive (fun ss => ∀ s ∈ ss, motive s) group answer choice (by simp) (by simp_all) s

/-! ## Writing -/

mutual

/-- Writes a statement into a body. -/
def write : Statement → MethodBody → MethodBody
  | group calls, body => calls.foldl .emit body
  | answer calls, body => (calls.foldl .emit body).emit [.ret]
  | choice guard onTrue onFalse, body =>
    (body.ifElse guard (fun body => (writeAll onTrue body, ()))
      fun body => (writeAll onFalse body, ())).1

/-- Writes statements one after another. -/
def writeAll : List Statement → MethodBody → MethodBody
  | [], body => body
  | s :: ss, body => writeAll ss (s.write body)

end

mutual

/-- What a statement makes of an assembly where nothing fails. -/
def Writes (limit : Nat) : Statement → Assembly → Assembly → Prop
  | group calls, a, b => Performs (calls.flatten.map .emit) a b
  | answer calls, a, b => Performs ((calls.flatten ++ [Instruction.ret]).map .emit) a b
  | choice guard onTrue onFalse, a, b =>
    let block := IfBlock.ofGuard limit guard a.labels.size a.locals.size
    ∃ a₁ a₂ a₃ a₄, Performs block.opening a a₁ ∧ WritesAll limit onTrue a₁ a₂ ∧
      Performs block.middle a₂ a₃ ∧ WritesAll limit onFalse a₃ a₄ ∧ Performs block.closing a₄ b

def WritesAll (limit : Nat) : List Statement → Assembly → Assembly → Prop
  | [], a, b => b = a
  | s :: ss, a, b => ∃ c, s.Writes limit a c ∧ WritesAll limit ss c b

end

end Statement

namespace MethodBody

variable {write write' : MethodBody → MethodBody}
  {writes writes' : Nat → Assembly → Assembly → Prop}

/-- Where a way to write leaves no failure, there was none before and the assembly is what it should
be. -/
def Sound (write : MethodBody → MethodBody) (writes : Nat → Assembly → Assembly → Prop) : Prop :=
  ∀ body, (write body).failure? = none → body.failure? = none ∧
    ∃ a, writes body.options.maxDepth body.assembly a ∧ write body = { body with assembly := a }

theorem Sound.after (h : Sound write writes) (h' : Sound write' writes') :
    Sound (fun body => write' (write body))
      fun limit a b => ∃ c, writes limit a c ∧ writes' limit c b := by
  intro body hnone
  obtain ⟨hnone', b, hb, heq⟩ := h' _ hnone
  obtain ⟨hnone'', c, hc, hfirst⟩ := h _ hnone'
  rw [hfirst] at hb heq
  exact ⟨hnone'', b, ⟨c, hc, hb⟩, by simp only [hfirst, heq]⟩

theorem Sound.mono (h : Sound write writes) (hw : ∀ limit a b, writes limit a b → writes' limit a b) :
    Sound write writes' := fun body hnone => by
  obtain ⟨hnone', a, ha, heq⟩ := h body hnone
  exact ⟨hnone', a, hw _ _ _ ha, heq⟩

theorem sound_write (ds : List Directive) :
    Sound (fun body => body.write ds) fun _ => Performs ds := by
  intro body hnone
  have hbefore : body.failure? = none := by
    cases h : body.failure? with
    | none => rfl
    | some failure => simp [write_keeps h] at hnone
  by_cases hp : ∃ a, Performs ds body.assembly a
  · obtain ⟨a, hp⟩ := hp
    exact ⟨hbefore, a, hp, write_ok hp⟩
  · obtain ⟨failure, hfailure⟩ := write_failed fun a ha => hp ⟨a, ha⟩
    rw [hfailure] at hnone
    cases hnone

theorem sound_calls (calls : List (List Instruction)) :
    Sound (fun body => calls.foldl .emit body) fun _ => Performs (calls.flatten.map .emit) := by
  induction calls with
  | nil => exact fun body hnone => ⟨hnone, body.assembly, performs_nil.mpr rfl, rfl⟩
  | cons is calls ih =>
    have h := (sound_write (is.map .emit)).after ih
    refine h.mono fun limit a b hw => ?_
    rw [List.flatten_cons, List.map_append]
    exact Directive.performs_append.mpr hw

/-- A failed call is still there at the end. -/
theorem failed_latch (body : MethodBody) (failure : Failure) :
    (body.latch failure).failure? ≠ none := by
  obtain ⟨failure', h⟩ := latch_failure? body failure
  simp [h]

theorem sound_ifElse (guard : Expr) (h : Sound write writes) (h' : Sound write' writes') :
    Sound (fun body => (body.ifElse guard (fun body => (write body, ()))
        fun body => (write' body, ())).1)
      fun limit a b =>
        let block := IfBlock.ofGuard limit guard a.labels.size a.locals.size
        ∃ a₁ a₂ a₃ a₄, Performs block.opening a a₁ ∧ writes limit a₁ a₂ ∧
          Performs block.middle a₂ a₃ ∧ writes' limit a₃ a₄ ∧ Performs block.closing a₄ b := by
  intro body hnone
  simp only [ifElse_eq] at hnone ⊢
  cases hopening : perform (block guard body).opening body with
  | error e after =>
    simp only [hopening] at hnone
    exact absurd hnone (failed_latch _ _)
  | ok u after =>
    obtain ⟨a₁, h₁, rfl⟩ := perform_eq_ok hopening
    simp only [hopening] at hnone ⊢
    cases hmiddle : perform (block guard body).middle (write { body with assembly := a₁ }) with
    | error e after =>
      simp only [hmiddle] at hnone
      exact absurd hnone (failed_latch _ _)
    | ok u after =>
      obtain ⟨a₃, h₃, rfl⟩ := perform_eq_ok hmiddle
      simp only [hmiddle] at hnone ⊢
      cases hclosing : perform (block guard body).closing
          (write' { write { body with assembly := a₁ } with assembly := a₃ }) with
      | error e after =>
        simp only [hclosing] at hnone
        exact absurd hnone (failed_latch _ _)
      | ok u after =>
        obtain ⟨b, h₅, rfl⟩ := perform_eq_ok hclosing
        simp only [hclosing] at hnone ⊢
        -- The bodies have not failed either: a failure would have been kept to the end.
        obtain ⟨hnone₃, a₄, h₄, hfalse⟩ := h' _ hnone
        obtain ⟨hnone₁, a₂, h₂, htrue⟩ := h _ hnone₃
        rw [htrue] at h₃ h₄ hfalse
        rw [htrue, hfalse] at h₅
        refine ⟨hnone₁, b, ⟨a₁, a₂, a₃, a₄, h₁, h₂, h₃, h₄, h₅⟩, ?_⟩
        simp only [htrue, hfalse]

end MethodBody

namespace Statement

open MethodBody (Sound)

theorem sound_writeAll {ss : List Statement}
    (h : ∀ s ∈ ss, Sound s.write fun limit => s.Writes limit) :
    Sound (writeAll ss) fun limit => WritesAll limit ss := by
  induction ss with
  | nil => exact fun body hnone => ⟨hnone, body.assembly, rfl, rfl⟩
  | cons s ss ih =>
    exact ((h s (by simp)).after (ih fun s hs => h s (by simp [hs]))).mono fun _ _ _ hw => hw

theorem sound_statement (s : Statement) : Sound s.write fun limit => s.Writes limit := by
  induction s with
  | group calls => exact MethodBody.sound_calls calls
  | answer calls =>
    refine ((MethodBody.sound_calls calls).after (MethodBody.sound_write [.emit .ret])).mono ?_
    intro limit a b hw
    rw [Writes, List.map_append]
    exact Directive.performs_append.mpr hw
  | choice guard onTrue onFalse htrue hfalse =>
    exact (MethodBody.sound_ifElse guard (sound_writeAll htrue) (sound_writeAll hfalse)).mono
      fun _ _ _ hw => hw

/-- A body that could be finished has all its statements in the assembly. -/
theorem writesAll_of_finish {body : MethodBody} {program : List Statement} {code : Code}
    (h : (writeAll program body).finish = .ok code) :
    ∃ b, WritesAll body.options.maxDepth program body.assembly b ∧ b.finish = .ok code := by
  have hnone : (writeAll program body).failure? = none := by
    cases hf : (writeAll program body).failure? with
    | none => rfl
    | some failure => exact absurd h (MethodBody.finish_of_failure hf)
  obtain ⟨hnone', b, hb, heq⟩ := sound_writeAll (fun s _ => s.sound_statement) body hnone
  rw [heq] at h
  exact ⟨b, hb, (MethodBody.finish_iff hnone' b).mp h⟩

/-! ## Meaning -/

/-- What structured code can reach when it is carried out. -/
structure Context (σ : Type) where
  host : Host σ
  args : Array Value
  /-- Whether a return takes a value along. -/
  returnsValue : Bool

namespace Context

variable {σ : Type} (c : Context σ)

/-- What single instructions are carried out in, apart from any code. -/
def setting : Setting σ where
  code := { instructions := #[], labels := #[], locals := #[], maxStack := 0,
            returnsValue := c.returnsValue }
  host := c.host
  args := c.args

/-- What a guard can reach where the machine has come to. -/
def environment (m : Machine σ) : Environment σ where
  host := c.host
  args := c.args
  locals := m.locals
  fields := m.fields

end Context

/-- What structured code comes to: it goes on behind its end, or the method has ended. -/
inductive Outcome (σ : Type) where
  | done (m : Machine σ)
  | ended (ending : Ending) (m : Machine σ)

section

variable {σ : Type} (c : Context σ)

/-- Carries instructions out one after another. -/
def proceed : List Instruction → Machine σ → Outcome σ
  | [], m => .done m
  | i :: is, m =>
    match Machine.step c.setting 0 i m with
    | .goto _ m => proceed is m
    | .stop ending m => .ended ending m

mutual

/-- Carries a statement out. A guard is evaluated once, in the state that the statement is reached in,
and selects one of the two bodies. -/
def exec : Statement → Machine σ → Outcome σ
  | group calls, m => proceed c calls.flatten m
  | answer calls, m => proceed c (calls.flatten ++ [.ret]) m
  | choice guard onTrue onFalse, m =>
    match guard.eval (c.environment m) m.world with
    | .error e world => .ended (.error e) { m with world }
    | .ok v world =>
      if v.isTruthy then execAll onTrue { m with world } else execAll onFalse { m with world }

/-- Carries statements out one after another, up to the first that ends the method. -/
def execAll : List Statement → Machine σ → Outcome σ
  | [], m => .done m
  | s :: ss, m =>
    match exec s m with
    | .done m => execAll ss m
    | .ended ending m => .ended ending m

end

/-! ## Conditions -/

mutual

/-- Every guard that is reached finds values of the kinds that its code relies on. -/
def Kinded : Statement → Machine σ → Prop
  | group _, _ => True
  | answer _, _ => True
  | choice guard onTrue onFalse, m =>
    guard.WellKinded (c.environment m) ∧
      match guard.eval (c.environment m) m.world with
      | .error _ _ => True
      | .ok v world =>
        if v.isTruthy then KindedAll onTrue { m with world } else KindedAll onFalse { m with world }

def KindedAll : List Statement → Machine σ → Prop
  | [], _ => True
  | s :: ss, m =>
    Kinded s m ∧
      match exec c s m with
      | .done m => KindedAll ss m
      | .ended _ _ => True

end

end

/-- Instructions that neither branch nor return and use only locals below a number. -/
def Straight (count : Nat) (is : List Instruction) : Prop :=
  ∀ i ∈ is, i.target? = none ∧ i ≠ .ret ∧ ∀ index, i.local? = some index → index < count

/-- Structured code in a method with so many locals of its own. Groups find the stack empty and leave
it empty. -/
inductive Proper (count : Nat) (returnsValue : Bool) : Statement → Prop where
  | group {calls : List (List Instruction)} (hstraight : Straight count calls.flatten)
      (hdepth : Instruction.depthAfter returnsValue calls.flatten 0 = some 0) :
      Proper count returnsValue (.group calls)
  | answer {calls : List (List Instruction)} (hstraight : Straight count calls.flatten) :
      Proper count returnsValue (.answer calls)
  | choice {guard : Expr} {onTrue onFalse : List Statement} (heq : guard.EqualitiesProper)
      (hreads : guard.ReadsBelow count) (htrue : ∀ s ∈ onTrue, Proper count returnsValue s)
      (hfalse : ∀ s ∈ onFalse, Proper count returnsValue s) :
      Proper count returnsValue (.choice guard onTrue onFalse)

end Statement

end GuardCode
