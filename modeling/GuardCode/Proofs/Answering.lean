import GuardCode.Predicate
import GuardCode.Proofs.Code.Forms

/-! The body of a predicate. Keeping the first failure makes a body that is written call by call the
same as one list of directives that is carried out as a whole: the body can be finished exactly if
all its directives can be carried out and the assembly behind them can be finished. -/
namespace GuardCode

open Directive

/-- The directives that return a constant. -/
def Predicate.answering (value : Int32) : List Directive := [.emit (.pushInt value), .emit .ret]

/-- All directives of a block whose bodies answer with the outcome of its guard. -/
def IfBlock.answering (block : IfBlock) : List Directive :=
  block.opening ++ (Predicate.answering 1 ++ (block.middle ++
    (Predicate.answering 0 ++ block.closing)))

namespace MethodBody

variable {body : MethodBody} {ds : List Directive} {code : Code} {failure : Failure}

theorem performAll_error (h : ∀ a, ¬ Performs ds body.assembly a) :
    ∃ e a, performAll ds body.assembly = .error e a := by
  cases hp : performAll ds body.assembly with
  | ok u a => exact absurd hp (h a)
  | error e a => exact ⟨e, a, rfl⟩

theorem finish_of_failure (h : body.failure? = some failure) : body.finish ≠ .ok code := by
  simp [finish, h]

theorem finish_iff (h : body.failure? = none) (a : Assembly) :
    ({ body with assembly := a } : MethodBody).finish = .ok code ↔ a.finish = .ok code := by
  simp only [finish, h]
  cases a.finish with
  | ok code' =>
    constructor
    · rintro ⟨⟩
      rfl
    · rintro ⟨⟩
      rfl
  | error e => exact ⟨nofun, nofun⟩

theorem latch_failure? (body : MethodBody) (failure : Failure) :
    ∃ failure', (body.latch failure).failure? = some failure' := by
  unfold latch
  cases h : body.failure? with
  | some failure' => exact ⟨failure', h⟩
  | none => exact ⟨failure, rfl⟩

/-- A call whose directives are carried out changes the assembly only. -/
theorem write_ok {a : Assembly} (h : Performs ds body.assembly a) :
    body.write ds = { body with assembly := a } := by
  unfold Performs at h
  simp [write, perform, h]

theorem write_failed (h : ∀ a, ¬ Performs ds body.assembly a) :
    ∃ failure, (body.write ds).failure? = some failure := by
  obtain ⟨e, a, hp⟩ := performAll_error h
  have hwrite : body.write ds = latch { body with assembly := a } (.compile e) := by
    simp [write, perform, hp]
  rw [hwrite]
  exact latch_failure? _ _

/-- A failure is never given up. -/
theorem write_keeps (h : body.failure? = some failure) :
    (body.write ds).failure? = some failure := by
  unfold write perform
  cases performAll ds body.assembly with
  | ok u a => exact h
  | error e a => simp [latch, h]

/-- Two calls after each other carry the directives of both out. -/
theorem answer_ok {a : Assembly} (value : Int32)
    (h : Performs (Predicate.answering value) body.assembly a) :
    (Predicate.answer value body).1 = { body with assembly := a } := by
  obtain ⟨b, hb, ha⟩ := Directive.performs_append.mp
    (show Performs ([.emit (.pushInt value)] ++ [.emit .ret]) body.assembly a from h)
  have hfirst := write_ok hb
  simp only [Predicate.answer, emit, List.map_cons, List.map_nil, hfirst]
  exact write_ok ha

theorem answer_failed (value : Int32)
    (h : ∀ a, ¬ Performs (Predicate.answering value) body.assembly a) :
    ∃ failure, (Predicate.answer value body).1.failure? = some failure := by
  simp only [Predicate.answer, emit, List.map_cons, List.map_nil]
  by_cases hb : ∃ b, Performs [.emit (.pushInt value)] body.assembly b
  · obtain ⟨b, hb⟩ := hb
    rw [write_ok hb]
    refine write_failed fun a ha => h a ?_
    exact Directive.performs_append.mpr ⟨b, hb, ha⟩
  · obtain ⟨failure, hfailure⟩ := write_failed fun a ha => hb ⟨a, ha⟩
    exact ⟨failure, write_keeps hfailure⟩

theorem answer_keeps (value : Int32) (h : body.failure? = some failure) :
    (Predicate.answer value body).1.failure? = some failure := by
  simp only [Predicate.answer, emit]
  exact write_keeps (write_keeps h)

theorem perform_eq_ok {after : MethodBody} (h : perform ds body = .ok () after) :
    ∃ a, Performs ds body.assembly a ∧ after = { body with assembly := a } := by
  unfold perform at h
  cases hp : performAll ds body.assembly with
  | error e a => simp [hp] at h
  | ok u a =>
    simp only [hp, EStateM.Result.ok.injEq, true_and] at h
    exact ⟨a, hp, h.symm⟩

theorem perform_ok {a : Assembly} (h : Performs ds body.assembly a) :
    perform ds body = .ok () { body with assembly := a } := by
  unfold Performs at h
  simp [perform, h]

section

variable (guard : Expr)

/-- The block that a guard becomes in a body. -/
def block (body : MethodBody) : IfBlock :=
  .ofGuard body.options.maxDepth guard body.assembly.labels.size body.assembly.locals.size

/-- The body behind a block, step by step. -/
theorem ifElse_eq {α β : Type} (onTrue : MethodBody → MethodBody × α)
    (onFalse : MethodBody → MethodBody × β) :
    (body.ifElse guard onTrue onFalse).1 =
      match perform (block guard body).opening body with
      | .error e after => after.latch (.compile e)
      | .ok _ after =>
        match perform (block guard body).middle (onTrue after).1 with
        | .error e after => after.latch (.compile e)
        | .ok _ after =>
          match perform (block guard body).closing (onFalse after).1 with
          | .error e after => after.latch (.compile e)
          | .ok _ after => after := by
  simp only [ifElse, IfBlock.run, block]
  cases perform (IfBlock.ofGuard body.options.maxDepth guard body.assembly.labels.size
    body.assembly.locals.size).opening body with
  | error e after => rfl
  | ok u after =>
    simp only
    cases perform (IfBlock.ofGuard body.options.maxDepth guard body.assembly.labels.size
      body.assembly.locals.size).middle (onTrue after).1 with
    | error e after => rfl
    | ok u after =>
      simp only
      cases perform (IfBlock.ofGuard body.options.maxDepth guard body.assembly.labels.size
        body.assembly.locals.size).closing (onFalse after).1 <;> rfl

/-- A block that fails nowhere has all its directives in the assembly. -/
theorem ifElse_ok {a : Assembly}
    (h : Performs (block guard body).answering body.assembly a) :
    (body.ifElse guard (Predicate.answer 1) (Predicate.answer 0)).1 =
      { body with assembly := a } := by
  obtain ⟨a₁, h₁, h⟩ := Directive.performs_append.mp h
  obtain ⟨a₂, h₂, h⟩ := Directive.performs_append.mp h
  obtain ⟨a₃, h₃, h⟩ := Directive.performs_append.mp h
  obtain ⟨a₄, h₄, h₅⟩ := Directive.performs_append.mp h
  have htrue : (Predicate.answer 1 { body with assembly := a₁ }).1 =
      { body with assembly := a₂ } := answer_ok 1 h₂
  have hmiddle : perform (block guard body).middle { body with assembly := a₂ } =
      .ok () { body with assembly := a₃ } := perform_ok h₃
  have hfalse : (Predicate.answer 0 { body with assembly := a₃ }).1 =
      { body with assembly := a₄ } := answer_ok 0 h₄
  have hclosing : perform (block guard body).closing { body with assembly := a₄ } =
      .ok () { body with assembly := a } := perform_ok h₅
  rw [ifElse_eq, perform_ok h₁]
  simp only [htrue, hmiddle, hfalse, hclosing]

/-- A block one of whose directives fails leaves a body that failed. -/
theorem ifElse_failed (h : ∀ a, ¬ Performs (block guard body).answering body.assembly a) :
    ∃ failure,
      (body.ifElse guard (Predicate.answer 1) (Predicate.answer 0)).1.failure? = some failure := by
  rw [ifElse_eq]
  cases h₁ : perform (block guard body).opening body with
  | error e after => exact latch_failure? _ _
  | ok u after₁ =>
    obtain ⟨a₁, hp₁, rfl⟩ := perform_eq_ok h₁
    simp only
    cases h₃ : perform (block guard body).middle (Predicate.answer 1 { body with assembly := a₁ }).1 with
    | error e after => exact latch_failure? _ _
    | ok u after₃ =>
      obtain ⟨a₃, hp₃, rfl⟩ := perform_eq_ok h₃
      simp only
      split
      · exact latch_failure? _ _
      · rename_i after h₅
        obtain ⟨a₅, hp₅, rfl⟩ := perform_eq_ok h₅
        -- Only the bodies can have failed without ending the block.
        by_cases htrue : ∃ a₂, Performs (Predicate.answering 1) a₁ a₂
        · obtain ⟨a₂, hp₂⟩ := htrue
          have hbody : (Predicate.answer 1 { body with assembly := a₁ }).1 =
              { body with assembly := a₂ } := answer_ok 1 hp₂
          rw [hbody] at hp₃ hp₅ ⊢
          by_cases hfalse : ∃ a₄, Performs (Predicate.answering 0) a₃ a₄
          · obtain ⟨a₄, hp₄⟩ := hfalse
            have hbody' : (Predicate.answer 0 { body with assembly := a₃ }).1 =
                { body with assembly := a₄ } := answer_ok 0 hp₄
            rw [hbody'] at hp₅
            refine absurd ?_ (h a₅)
            exact Directive.performs_append.mpr ⟨a₁, hp₁, Directive.performs_append.mpr ⟨a₂, hp₂,
              Directive.performs_append.mpr ⟨a₃, hp₃, Directive.performs_append.mpr ⟨a₄, hp₄, hp₅⟩⟩⟩⟩
          · exact answer_failed 0 fun a ha => hfalse ⟨a, ha⟩
        · obtain ⟨failure, hfailure⟩ : ∃ failure,
              (Predicate.answer 1 { body with assembly := a₁ }).1.failure? = some failure :=
            answer_failed 1 fun a ha => htrue ⟨a, ha⟩
          exact ⟨failure, answer_keeps 0 hfailure⟩

/-- The body of a predicate can be finished exactly if all its directives can be carried out. -/
theorem ifElse_finish_iff (h : body.failure? = none) :
    (body.ifElse guard (Predicate.answer 1) (Predicate.answer 0)).1.finish = .ok code ↔
      ∃ a, Performs (block guard body).answering body.assembly a ∧ a.finish = .ok code := by
  constructor
  · intro hfinish
    by_cases hp : ∃ a, Performs (block guard body).answering body.assembly a
    · obtain ⟨a, hp⟩ := hp
      rw [ifElse_ok guard hp] at hfinish
      exact ⟨a, hp, (finish_iff h a).mp hfinish⟩
    · obtain ⟨failure, hfailure⟩ := ifElse_failed guard fun a ha => hp ⟨a, ha⟩
      exact absurd hfinish (finish_of_failure hfailure)
  · rintro ⟨a, hp, hfinish⟩
    rw [ifElse_ok guard hp]
    exact (finish_iff h a).mpr hfinish

end

end MethodBody

end GuardCode
