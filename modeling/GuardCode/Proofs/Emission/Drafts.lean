import GuardCode.Proofs.Assembly.Performs
import GuardCode.Proofs.Expr.Admissible

/-! Carrying drafts out: the pieces from which the code of expressions is put together, and
straight-line code, whose depth is known beforehand. -/
namespace GuardCode

namespace Instruction

variable (returnsValue : Bool)

@[simp] theorem pops_pushInt (v : Int32) : (pushInt v).pops returnsValue = 0 := by
  unfold pushInt
  split
  · rfl
  · split <;> rfl

@[simp] theorem pushes_pushInt (v : Int32) : (pushInt v).pushes returnsValue = 1 := by
  unfold pushInt
  split
  · rfl
  · split <;> rfl

@[simp] theorem endsBlock_pushInt (v : Int32) : (pushInt v).endsBlock = false := by
  unfold pushInt
  split
  · rfl
  · split <;> rfl

@[simp] theorem target?_pushInt (v : Int32) : (pushInt v).target? = none := by
  unfold pushInt
  split
  · rfl
  · split <;> rfl

@[simp] theorem target?_jump (op : BranchOp) (label : Label) :
    (jump op label).target? = some label := rfl

/-- The depth behind instructions that are carried out one after another, if they do not lack
operands. -/
def depthAfter (returnsValue : Bool) : List Instruction → Nat → Option Nat
  | [], depth => some depth
  | i :: is, depth =>
    if i.pops returnsValue ≤ depth then
      depthAfter returnsValue is (depth - i.pops returnsValue + i.pushes returnsValue)
    else none

/-- Straight-line code that takes so many values and leaves so many, of which at most the last
instruction branches, to one of the labels. -/
structure Straight (labels : List Label) (taken left : Nat) (is : List Instruction) : Prop where
  onward : ∀ i ∈ is, i.endsBlock = false
  branches : ∀ i is₁ is₂ label, is = is₁ ++ i :: is₂ → i.target? = some label →
    is₂ = [] ∧ label ∈ labels
  net : ∀ returnsValue depth depth', depthAfter returnsValue is depth = some depth' →
    depth' + taken = depth + left
  enough : ∀ returnsValue depth,
    depthAfter returnsValue is (depth + taken) = some (depth + left)

end Instruction

namespace Outlet

/-- Values that a condition leaves on the stack. -/
def results : Outlet → Nat
  | stack => 1
  | jumpIfFalse _ | jumpIfTrue _ => 0

/-- The label to which a decided condition jumps by itself. -/
def labels : Outlet → List Label
  | stack => []
  | jumpIfFalse label | jumpIfTrue label => [label]

end Outlet

namespace Purpose

def outlet : Purpose → Outlet
  | value => .stack
  | condition outlet _ => outlet

/-- Values that the code of an expression leaves on the stack. -/
def results (purpose : Purpose) : Nat := purpose.outlet.results

/-- The labels that the code of an expression branches to and does not mark. -/
def labels : Purpose → List Label
  | value => []
  | condition .stack exits => [exits.onTrue, exits.onFalse]
  | condition outlet _ => outlet.labels

/-- Levels of nesting that the code takes. -/
def levels (need : Expr.Need) : Purpose → Nat
  | value => need.value
  | condition _ _ => need.condition

end Purpose

namespace Directive

variable {a b c : Assembly} {ds : List Directive} {is : List Instruction} {next : Label}

theorem performs_emit {i : Instruction} (hf : a.frozen = false) (h : Performs [.emit i] a b) :
    a.Emitted i b := by
  obtain ⟨c, hc, hb⟩ := performs_cons.mp h
  obtain rfl := performs_nil.mp hb
  exact Assembly.emit_eq_ok hf (perform_emit.mp hc)

theorem performs_mark {label : Label} (hf : a.frozen = false) (h : Performs [.mark label] a b) :
    a.Marked label b := by
  obtain ⟨c, hc, hb⟩ := performs_cons.mp h
  obtain rfl := performs_nil.mp hb
  exact Assembly.mark_eq_ok hf (perform_mark.mp hc)

/-- Straight-line code changes the depth as its instructions say. -/
theorem Performs.straight (hf : a.frozen = false) (hr : a.reachable = true)
    (hs : ∀ i ∈ is, i.endsBlock = false) (h : Performs (is.map .emit) a b) :
    Instruction.depthAfter a.returnsValue is a.depth = some b.depth ∧ b.reachable = true := by
  induction is generalizing a with
  | nil =>
    obtain rfl := performs_nil.mp h
    exact ⟨rfl, hr⟩
  | cons i is ih =>
    obtain ⟨c, hc, h⟩ := performs_cons.mp h
    have he := Assembly.emit_eq_ok hf (perform_emit.mp hc)
    have hi : i.endsBlock = false := hs i (by simp)
    have hrest := ih (he.frozen.trans hf) (by simp [he.reachable, hi])
      (fun j hj => hs j (by simp [hj])) h
    simpa [Instruction.depthAfter, he.operands, he.depth, hi, he.returnsValue] using hrest

end Directive

namespace Draft

open Directive

variable {a b : Assembly} {f g : Draft} {next : Label}

theorem append_apply : (f ++ g) next = f next ++ g (next + labelCount (f next)) := rfl

theorem performs_append :
    Performs ((f ++ g) next) a b ↔
      ∃ c, Performs (f next) a c ∧ Performs (g (next + labelCount (f next))) c b :=
  Directive.performs_append

theorem performs_abort {error : CompileError} : ¬ Performs (Draft.abort error next) a b := by
  intro h
  obtain ⟨c, hc, -⟩ := performs_cons.mp h
  exact perform_abort hc

theorem performs_enter {limit room : Nat} {inside : Nat → Draft} :
    Performs (Emission.enter limit room inside next) a b ↔
      ∃ less, room = less + 1 ∧ Performs (inside less next) a b := by
  cases room with
  | zero => simp [Emission.enter, performs_abort]
  | succ room => simp [Emission.enter]

end Draft

namespace Emission

/-! The code of an expression, kind by kind. -/

variable (limit : Nat) {op : BinaryOp} (left right : Expr) (purpose : Purpose) (room : Nat)

/-- Two conditions joined, one level deeper. -/
def joined (op : BinaryOp) (room : Nat) (outlet : Outlet) (exits : Exits) : Draft :=
  enter limit room fun room =>
    chain (op == .and)
      (fun outlet => expr limit left (.condition outlet exits) room)
      (fun outlet => expr limit right (.condition outlet exits) room)
      outlet exits

theorem expr_logical_condition (h : op.isLogical) (outlet : Outlet) (exits : Exits) :
    expr limit (.binary op left right) (.condition outlet exits) room =
      joined limit left right op room outlet exits := by
  rw [expr, if_pos h]
  rfl

theorem expr_logical_value (h : op.isLogical) :
    expr limit (.binary op left right) .value room =
      enter limit room fun room =>
        materialize fun exits => joined limit left right op room .stack exits := by
  rw [expr, if_pos h]
  rfl

theorem expr_comparison (h : op.isComparison) :
    expr limit (.binary op left right) purpose room =
      enter limit room fun room =>
        expr limit left .value room ++ expr limit right .value room ++
          compare op (comparisonType left right) purpose.outlet := by
  have hlogical : ¬ op.isLogical := by cases op <;> simp_all [BinaryOp.isComparison,
    BinaryOp.isLogical]
  cases purpose <;> rw [expr, if_neg hlogical, if_pos h] <;> rfl

theorem expr_rem :
    expr limit (.binary .rem left right) purpose room =
      asValue limit purpose room fun room =>
        expr limit left .value room ++ expr limit right .value room ++ .emit [.rem] := by
  cases purpose <;> rw [expr, if_neg (by decide), if_neg (by decide)] <;> rfl

theorem expr_unsupported (h : ¬ Expr.supported op) :
    expr limit (.binary op left right) purpose room =
      asValue limit purpose room fun _ => .abort (.unsupportedOperator op) := by
  simp only [Expr.supported, not_or] at h
  cases purpose <;> rw [expr, if_neg h.2.1, if_neg h.1] <;> simp [h.2.2]

/-- What comes behind the operands of a call. -/
def invocation (callee : Callee) (args : List Expr) : Draft :=
  match callee with
  | .capability c => primitive c (target? c.params args)
  | .method m => .emit [.call m]

theorem values_eq_operands (limit : Nat) (callee : String) (place room : Nat)
    (args : List Expr) :
    values limit args room =
      operands limit callee place (List.replicate args.length .value) args room := by
  induction args generalizing place with
  | nil => simp [values, operands]
  | cons a args ih => rw [values, List.length_cons, List.replicate_succ, operands, ih (place + 1)]

/-- The code of every call: an operand for each place, then the instructions of the callee. -/
theorem expr_call (limit : Nat) (callee : Callee) (args : List Expr) (type : Ty)
    (purpose : Purpose) (room : Nat) :
    ∃ (name : String) (error : CompileError),
      expr limit (.call callee args type) purpose room =
        asValue limit purpose room fun room =>
          if args.length ≠ callee.arity then .abort error
          else operands limit name 1 callee.params args room ++ invocation callee args := by
  cases callee with
  | capability c => exact ⟨_, _, by rw [expr]; rfl⟩
  | method m =>
    refine ⟨m.name, .unsupportedOperation m.name (.argumentCount m.arity args.length), ?_⟩
    rw [expr]
    congr 1
    funext room
    by_cases h : args.length = m.arity
    · simp [Callee.arity, Callee.params, invocation, values_eq_operands limit m.name 1, h]
    · simp [Callee.arity, h]

/-- The reference that is loaded is no operand. -/
theorem operands_load (limit : Nat) (name : String) (m : Member) (room : Nat) :
    operands limit name 1 (Callee.capability .load).params [.carried (.member m)] room =
      .write [] ++ .write [] := by
  simp [Callee.params, Capability.params, operands, takeTarget, Staging.stage]

/-- The left operand of a chain jumps to a label of the whole, or behind the right operand. -/
theorem chain_cases {isAnd : Bool} {left right : Outlet → Draft} (outlet : Outlet)
    (exits : Exits) :
    (∃ o label, o.labels = [label] ∧ label ∈ (Purpose.condition outlet exits).labels ∧
        chain isAnd left right outlet exits = left o ++ right outlet) ∨
      ∃ o : Label → Outlet, (∀ skip, (o skip).labels = [skip]) ∧ outlet ≠ .stack ∧
        chain isAnd left right outlet exits =
          .fresh fun skip => left (o skip) ++ right outlet ++ .write [.mark skip] := by
  cases isAnd with
  | true =>
    cases outlet with
    | stack => exact .inl ⟨.jumpIfFalse exits.onFalse, _, rfl, by simp [Purpose.labels], rfl⟩
    | jumpIfFalse label => exact .inl ⟨_, label, rfl, List.mem_singleton_self label, rfl⟩
    | jumpIfTrue label => exact .inr ⟨.jumpIfFalse, fun _ => rfl, by simp, rfl⟩
  | false =>
    cases outlet with
    | stack => exact .inl ⟨.jumpIfTrue exits.onTrue, _, rfl, by simp [Purpose.labels], rfl⟩
    | jumpIfFalse label => exact .inr ⟨.jumpIfTrue, fun _ => rfl, by simp, rfl⟩
    | jumpIfTrue label => exact .inl ⟨_, label, rfl, List.mem_singleton_self label, rfl⟩

/-! The instructions that stand behind operands. -/

section

open Instruction

theorem straight_nil (labels : List Label) (n : Nat) : Straight labels n n [] := by
  refine ⟨by simp, by simp, ?_, fun _ _ => rfl⟩
  intro returnsValue depth depth' h
  cases h
  rfl

theorem straight_single {labels : List Label} {i : Instruction} {taken left : Nat}
    (hends : i.endsBlock = false) (htarget : ∀ label, i.target? = some label → label ∈ labels)
    (hpops : ∀ returnsValue, i.pops returnsValue = taken)
    (hpushes : ∀ returnsValue, i.pushes returnsValue = left) : Straight labels taken left [i] := by
  refine ⟨by simp [hends], ?_, ?_, ?_⟩
  · intro j is₁ is₂ label his hj
    cases is₁ with
    | nil =>
      cases his
      exact ⟨rfl, htarget label hj⟩
    | cons _ is₁ => simp at his
  · intro returnsValue depth depth' h
    simp only [depthAfter, hpops, hpushes] at h
    split at h
    · cases h
      omega
    · cases h
  · intro returnsValue depth
    simp [depthAfter, hpops, hpushes]

/-- An instruction that does not branch, in front of straight-line code that takes what it pushes. -/
theorem straight_cons {labels : List Label} {i : Instruction} {is : List Instruction}
    {taken left n : Nat} (pops pushes : Nat) (hends : i.endsBlock = false)
    (htarget : i.target? = none) (hpops : ∀ returnsValue, i.pops returnsValue = pops)
    (hpushes : ∀ returnsValue, i.pushes returnsValue = pushes)
    (h : Straight labels taken left is) (hn : n + pushes = pops + taken)
    (hle : pushes ≤ taken) : Straight labels n left (i :: is) := by
  refine ⟨?_, ?_, ?_, ?_⟩
  · simpa [hends] using h.onward
  · intro j is₁ is₂ label his hj
    cases is₁ with
    | nil =>
      cases his
      simp [htarget] at hj
    | cons k is₁ =>
      cases his
      exact h.branches j is₁ is₂ label rfl hj
  · intro returnsValue depth depth' hd
    simp only [depthAfter, hpops, hpushes] at hd
    split at hd
    · have := h.net returnsValue _ _ hd
      omega
    · cases hd
  · intro returnsValue depth
    rw [depthAfter, hpops, hpushes, if_pos (by omega),
      show depth + n - pops + pushes = depth + taken by omega, h.enough]

/-- An instruction that does not branch. -/
theorem straight_plain {labels : List Label} {i : Instruction} {taken left : Nat}
    (hends : i.endsBlock = false) (htarget : i.target? = none)
    (hpops : ∀ returnsValue, i.pops returnsValue = taken)
    (hpushes : ∀ returnsValue, i.pushes returnsValue = left) : Straight labels taken left [i] :=
  straight_single hends (by simp [htarget]) hpops hpushes

theorem straight_jump (op : BranchOp) (h : op ≠ .always) (label : Label) :
    Straight [label] op.pops 0 [jump op label] := by
  refine straight_single ?_ (by simp) (fun _ => rfl) (fun _ => rfl)
  cases op <;> simp_all [endsBlock, jump, BranchOp.isUnconditional]

theorem straight_pushInt (v : Int32) : Straight [] 0 1 [pushInt v] :=
  straight_plain (by simp) (by simp) (by simp) (by simp)

theorem straight_load (m : Member) : Straight [] 0 1 [load m] := by
  cases m <;> exact straight_plain rfl rfl (fun _ => rfl) (fun _ => rfl)

theorem straight_literal (l : Literal) : Straight [] 0 1 (pushLiteral l) := by
  have hwide : ∀ v signed, Straight [] 0 1 [pushInt v, widen16 signed] := by
    intro v signed
    refine straight_cons 0 1 (by simp) (by simp) (by simp)
      (by simp) ?_ rfl (Nat.le_refl _)
    cases signed <;> exact straight_plain rfl rfl (fun _ => rfl) (fun _ => rfl)
  cases l with
  | bool | u8 | i8 | i32 | char => exact straight_pushInt _
  | i16 | u16 => exact hwide _ _
  | null | i64 | f32 | f64 | string =>
    exact straight_plain rfl rfl (fun _ => rfl) (fun _ => rfl)

/-- Stepping a local leaves the stack as it is. -/
theorem straight_step {op : Instruction} (hop : op = .add ∨ op = .sub) (slot : Slot) :
    Straight [] 0 0 (Instruction.step op slot) := by
  have hstore : Straight [] 1 0 [.storeLocal slot.index] :=
    straight_plain rfl rfl (fun _ => rfl) (fun _ => rfl)
  have hrange : Straight [] 1 0 (renormalize slot.type ++ [.storeLocal slot.index]) := by
    unfold renormalize
    split
    · exact straight_cons 1 1 rfl rfl (fun _ => rfl) (fun _ => rfl) hstore rfl (Nat.le_refl _)
    · exact straight_cons 1 1 rfl rfl (fun _ => rfl) (fun _ => rfl) hstore rfl (Nat.le_refl _)
    · exact straight_cons 1 1 rfl rfl (fun _ => rfl) (fun _ => rfl) hstore rfl (Nat.le_refl _)
    · exact hstore
  have hop' : Straight [] 2 0 (op :: (renormalize slot.type ++ [.storeLocal slot.index])) := by
    rcases hop with rfl | rfl <;>
      exact straight_cons 2 1 rfl rfl (fun _ => rfl) (fun _ => rfl) hrange rfl (Nat.le_refl _)
  have hone : Straight [] 1 0
      (pushOne slot.type :: op :: (renormalize slot.type ++ [.storeLocal slot.index])) := by
    unfold pushOne
    split
    · exact straight_cons 0 1 rfl rfl (fun _ => rfl) (fun _ => rfl) hop'
        rfl (by omega)
    · exact straight_cons 0 1 rfl rfl (fun _ => rfl) (fun _ => rfl) hop'
        rfl (by omega)
    · exact straight_cons 0 1 rfl rfl (fun _ => rfl) (fun _ => rfl) hop'
        rfl (by omega)
    · exact straight_cons 0 1 (by simp) (by simp) (by simp) (by simp) hop'
        rfl (by omega)
  exact straight_cons 0 1 rfl rfl (fun _ => rfl) (fun _ => rfl) hone rfl
    (Nat.le_refl _)

theorem straight_test (outlet : Outlet) : Straight outlet.labels 1 outlet.results (test outlet) := by
  cases outlet with
  | stack => exact straight_nil _ 1
  | jumpIfFalse label => exact straight_jump .ifFalse (by decide) label
  | jumpIfTrue label => exact straight_jump .ifTrue (by decide) label

theorem straight_negate (labels : List Label) : Straight labels 1 1 negate := by
  have hequal : Straight labels 2 1 [.compareEqual] :=
    straight_plain rfl rfl (fun _ => rfl) (fun _ => rfl)
  exact straight_cons 0 1 (by simp) (by simp) (by simp) (by simp) hequal rfl (by omega)

theorem straight_testNot (outlet : Outlet) :
    Straight outlet.labels 1 outlet.results (testNot outlet) := by
  cases outlet with
  | stack => exact straight_negate _
  | jumpIfFalse label => exact straight_jump .ifTrue (by decide) label
  | jumpIfTrue label => exact straight_jump .ifFalse (by decide) label

theorem compared?_straight {op : BinaryOp} (hop : op.isComparison) (type : Ty) :
    ∃ is, compared? type op = some is ∧ Straight [] 2 1 is := by
  have hplain : ∀ i : Instruction, i.endsBlock = false → i.target? = none →
      (∀ returnsValue, i.pops returnsValue = 2) → (∀ returnsValue, i.pushes returnsValue = 1) →
      Straight [] 2 1 [i] ∧ Straight [] 2 1 (i :: negate) :=
    fun i hends htarget hpops hpushes => ⟨straight_plain hends htarget hpops hpushes,
      straight_cons 2 1 hends htarget hpops hpushes (straight_negate []) rfl (Nat.le_refl _)⟩
  have hequal := hplain .compareEqual rfl rfl (fun _ => rfl) (fun _ => rfl)
  have hgreater : ∀ b, Straight [] 2 1 [greater b] ∧ Straight [] 2 1 (greater b :: negate) := by
    intro b
    cases b <;> exact hplain _ rfl rfl (fun _ => rfl) (fun _ => rfl)
  have hless : ∀ b, Straight [] 2 1 [less b] ∧ Straight [] 2 1 (less b :: negate) := by
    intro b
    cases b <;> exact hplain _ rfl rfl (fun _ => rfl) (fun _ => rfl)
  cases op with
  | eq => exact ⟨_, rfl, hequal.1⟩
  | ne =>
    refine ⟨_, rfl, ?_⟩
    split
    · exact (hgreater true).1
    · exact hequal.2
  | gt => exact ⟨_, rfl, (hgreater false).1⟩
  | lt => exact ⟨_, rfl, (hless false).1⟩
  | ge => exact ⟨_, rfl, (hless type.isFloat).2⟩
  | le => exact ⟨_, rfl, (hgreater type.isFloat).2⟩
  | _ => simp [BinaryOp.isComparison] at hop

theorem failing?_conditional {op : BinaryOp} (hop : op.isComparison) (isFloat : Bool) :
    ∃ branch, failing? isFloat op = some branch ∧ branch.pops = 2 := by
  cases op with
  | eq | ne => exact ⟨_, rfl, rfl⟩
  | gt | lt | ge | le => cases isFloat <;> exact ⟨_, rfl, rfl⟩
  | _ => simp [BinaryOp.isComparison] at hop

theorem holding?_conditional {op : BinaryOp} (hop : op.isComparison) :
    ∃ branch, holding? op = some branch ∧ branch.pops = 2 := by
  cases op with
  | eq | ne | gt | lt | ge | le => exact ⟨_, rfl, rfl⟩
  | _ => simp [BinaryOp.isComparison] at hop

theorem straight_branch {branch : BranchOp} (h : branch.pops = 2) (label : Label) :
    Straight [label] 2 0 [jump branch label] := by
  have hne : branch ≠ .always := by
    rintro rfl
    cases h
  exact h ▸ straight_jump branch hne label

/-- The instructions of a comparison that calls no method. -/
def fused? (op : BinaryOp) (type : Ty) (outlet : Outlet) : Option (List Instruction) :=
  match outlet with
  | .stack => compared? type op
  | .jumpIfFalse label => (failing? type.isFloat op).map fun branch => [.jump branch label]
  | .jumpIfTrue label => (holding? op).map fun branch => [.jump branch label]

theorem compare_eq (op : BinaryOp) (type : Ty) (outlet : Outlet) :
    compare op type outlet =
      match op, type.equality? with
      | .eq, some method => .emit (.call method :: test outlet)
      | .ne, some method => .emit (.call method :: testNot outlet)
      | _, _ =>
        match fused? op type outlet with
        | some is => .emit is
        | none => .abort (.unsupportedOperator op) := by
  rfl

theorem fused?_straight {op : BinaryOp} (hop : op.isComparison) (type : Ty) (outlet : Outlet) :
    ∃ is, fused? op type outlet = some is ∧ Straight outlet.labels 2 outlet.results is := by
  cases outlet with
  | stack => exact compared?_straight hop type
  | jumpIfFalse label =>
    obtain ⟨branch, hb, hpops⟩ := failing?_conditional hop type.isFloat
    exact ⟨_, by simp [fused?, hb], straight_branch hpops label⟩
  | jumpIfTrue label =>
    obtain ⟨branch, hb, hpops⟩ := holding?_conditional hop
    exact ⟨_, by simp [fused?, hb], straight_branch hpops label⟩

/-- A comparison calls the method of its class or is fused. -/
theorem compare_cases {op : BinaryOp} (hop : op.isComparison) (type : Ty) (outlet : Outlet) :
    (∃ method, op = .eq ∧ type.equality? = some method ∧
        compare op type outlet = .emit (.call method :: test outlet)) ∨
      (∃ method, op = .ne ∧ type.equality? = some method ∧
        compare op type outlet = .emit (.call method :: testNot outlet)) ∨
      ((op = .eq ∨ op = .ne) → type.equality? = none) ∧
        ∃ is, fused? op type outlet = some is ∧ compare op type outlet = .emit is := by
  obtain ⟨is, his, -⟩ := fused?_straight hop type outlet
  rw [compare_eq, his]
  split
  · rename_i method hm
    exact .inl ⟨method, rfl, hm, rfl⟩
  · rename_i method hm
    exact .inr (.inl ⟨method, rfl, hm, rfl⟩)
  · rename_i heq hne
    refine .inr (.inr ⟨?_, is, rfl, rfl⟩)
    rintro (rfl | rfl)
    · exact Option.eq_none_iff_forall_ne_some.mpr fun method hm => heq method rfl hm
    · exact Option.eq_none_iff_forall_ne_some.mpr fun method hm => hne method rfl hm

/-- A comparison takes its two operands, whatever becomes of its outcome. -/
theorem compare_straight {op : BinaryOp} (hop : op.isComparison) (type : Ty) (outlet : Outlet)
    (hmethod : ∀ method, (op = .eq ∨ op = .ne) → type.equality? = some method →
      method.arity = 2 ∧ method.returnsValue) :
    ∃ is, compare op type outlet = .emit is ∧ Straight outlet.labels 2 outlet.results is := by
  have hcall : ∀ method is, (op = .eq ∨ op = .ne) → type.equality? = some method →
      Straight outlet.labels 1 outlet.results is →
      Straight outlet.labels 2 outlet.results (.call method :: is) := by
    intro method is hcase hm his
    obtain ⟨harity, hreturns⟩ := hmethod method hcase hm
    exact straight_cons 2 1 rfl rfl (fun _ => harity)
      (fun _ => by simp [Instruction.pushes, stackEffect, hreturns]) his rfl (Nat.le_refl _)
  rcases compare_cases hop type outlet with ⟨method, heq, hm, h⟩ | ⟨method, hne, hm, h⟩ |
    ⟨-, is, his, h⟩
  · exact ⟨_, h, hcall method _ (.inl heq) hm (straight_test outlet)⟩
  · exact ⟨_, h, hcall method _ (.inr hne) hm (straight_testNot outlet)⟩
  · obtain ⟨is', his', hstraight⟩ := fused?_straight hop type outlet
    rw [his] at his'
    cases his'
    exact ⟨is, h, hstraight⟩

end

end Emission

end GuardCode
