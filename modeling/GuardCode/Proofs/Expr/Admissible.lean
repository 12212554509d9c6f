import GuardCode.Emission
import GuardCode.Proofs.Expr.Parts

/-! Which expressions can be guards. `Admissible` says it of all parts of an expression at once, in
terms of its tree only; `need` counts the levels of nesting that its code takes. -/
namespace GuardCode

namespace Callee

/-- How many arguments a call takes. -/
def arity : Callee → Nat
  | capability c => c.params.length
  | method m => m.arity

/-- How a call receives its arguments; a method receives values only. -/
def params : Callee → List ParamKind
  | capability c => c.params
  | method m => List.replicate m.arity .value

/-- Whether a call leaves a value on the stack. -/
def leavesValue : Callee → Bool
  | capability .store | capability .increment | capability .decrement => false
  | capability _ => true
  | method m => m.returnsValue

end Callee

namespace Expr

/-- Levels of nesting that the code of an expression takes where it is a condition, and where its
value is wanted. -/
structure Need where
  condition : Nat
  value : Nat
  deriving DecidableEq

mutual

def need : Expr → Need
  | binary op left right =>
    if op.isLogical then
      let condition := 1 + max (need left).condition (need right).condition
      ⟨condition, 1 + condition⟩
    else
      let value := 1 + max (need left).value (need right).value
      ⟨if op.isComparison then value else 1 + value, value⟩
  | member _ | literal _ | carried _ => ⟨1 + 1, 1⟩
  | call callee args _ =>
    let value := 1 + argumentNeed callee.params args
    ⟨1 + value, value⟩

/-- The greatest need of the arguments that are received as values. -/
def argumentNeed : List ParamKind → List Expr → Nat
  | .value :: kinds, e :: es => max (need e).value (argumentNeed kinds es)
  | .target :: kinds, _ :: es => argumentNeed kinds es
  | _, _ => 0

end

/-- The operators that have code. -/
def supported (op : BinaryOp) : Prop := op.isComparison ∨ op.isLogical ∨ op = .rem

/-- No child is a carried reference. -/
def NoneCarried (e : Expr) : Prop := ∀ c, .carried c ∉ e.children

/-- What each part of a guard has to be like. Its operators have code; its calls have as many
arguments as they take, leave a value on the stack, and carry no reference other than the one that is
loaded. -/
def Proper (e : Expr) : Prop :=
  match e with
  | binary op _ _ => supported op ∧ e.NoneCarried
  | call (.capability .load) args _ => ∃ m, args = [.carried (.member m)]
  | call callee args _ => callee.leavesValue ∧ args.length = callee.arity ∧ e.NoneCarried
  | _ => True

/-- An expression that can be a guard. -/
structure Admissible (e : Expr) : Prop where
  notCarried : ∀ c, e ≠ .carried c
  parts : ∀ p, Part p e → p.Proper

/-- The methods that decide equality compare two objects and return the outcome. -/
def EqualitiesProper (e : Expr) : Prop :=
  ∀ op left right method, Part (.binary op left right) e → (op = .eq ∨ op = .ne) →
    (Emission.comparisonType left right).equality? = some method →
      method.arity = 2 ∧ method.returnsValue

/-- Admissibility of the children is that of their parts, once no child is carried. -/
theorem admissible_children {e : Expr} :
    (e.NoneCarried ∧ ∀ c ∈ e.children, ∀ p, Part p c → p.Proper) ↔
      ∀ c ∈ e.children, Admissible c := by
  constructor
  · rintro ⟨hnone, hparts⟩ c hc
    refine ⟨?_, hparts c hc⟩
    rintro carried rfl
    exact hnone carried hc
  · intro h
    exact ⟨fun c hc => (h _ hc).notCarried c rfl, fun c hc => (h c hc).parts⟩

theorem admissible_iff {e : Expr} :
    Admissible e ↔
      (∀ c, e ≠ .carried c) ∧ e.Proper ∧ ∀ c ∈ e.children, ∀ p, Part p c → p.Proper := by
  constructor
  · intro h
    exact ⟨h.notCarried, h.parts e .self, fun c hc p hp => h.parts p (.child hc hp)⟩
  · rintro ⟨hnot, htop, hchildren⟩
    refine ⟨hnot, fun p hp => ?_⟩
    cases hp with
    | self => exact htop
    | child hc hp => exact hchildren _ hc p hp

variable {op : BinaryOp} {left right : Expr} {callee : Callee} {args : List Expr} {type : Ty}

theorem admissible_binary :
    Admissible (.binary op left right) ↔ supported op ∧ Admissible left ∧ Admissible right := by
  have hchildren := admissible_children (e := .binary op left right)
  simp only [children, List.mem_cons, List.not_mem_nil, or_false, forall_eq_or_imp,
    forall_eq] at hchildren
  simp only [admissible_iff (e := .binary op left right), Proper, children, List.mem_cons,
    List.not_mem_nil, or_false, forall_eq_or_imp, forall_eq, ne_eq, reduceCtorEq,
    not_false_eq_true, implies_true, true_and, and_assoc, ← hchildren]

theorem admissible_member (m : Member) : Admissible (.member m) :=
  admissible_iff.mpr ⟨by simp, trivial, by simp [children]⟩

theorem admissible_literal (l : Literal) : Admissible (.literal l) :=
  admissible_iff.mpr ⟨by simp, trivial, by simp [children]⟩

theorem admissible_load :
    Admissible (.call (.capability .load) args type) ↔ ∃ m, args = [.carried (.member m)] := by
  constructor
  · intro h
    exact h.parts _ .self
  · rintro ⟨m, rfl⟩
    refine admissible_iff.mpr ⟨by simp, ⟨m, rfl⟩, ?_⟩
    simp [children, Proper]

/-- A call other than of the loading capability. -/
theorem admissible_call (h : callee ≠ .capability .load) :
    Admissible (.call callee args type) ↔
      callee.leavesValue ∧ args.length = callee.arity ∧ ∀ a ∈ args, Admissible a := by
  have hchildren := admissible_children (e := .call callee args type)
  simp only [children] at hchildren
  have htop : (call callee args type).Proper ↔ callee.leavesValue ∧
      args.length = callee.arity ∧ (call callee args type).NoneCarried := by
    cases callee with
    | method m => rfl
    | capability c =>
      cases c with
      | load => exact absurd rfl h
      | _ => rfl
  rw [admissible_iff, htop, ← hchildren]
  simp [children, and_assoc]

theorem need_logical (h : op.isLogical) :
    (binary op left right).need = ⟨1 + max left.need.condition right.need.condition,
      1 + (1 + max left.need.condition right.need.condition)⟩ := by
  rw [need, if_pos h]

theorem need_comparison (h : op.isComparison) :
    (binary op left right).need =
      ⟨1 + max left.need.value right.need.value, 1 + max left.need.value right.need.value⟩ := by
  have hlogical : ¬ op.isLogical := by
    cases op <;> simp_all [BinaryOp.isComparison, BinaryOp.isLogical]
  simp [need, hlogical, h]

theorem need_other (h : ¬ op.isLogical) (h' : ¬ op.isComparison) :
    (binary op left right).need =
      ⟨1 + (1 + max left.need.value right.need.value), 1 + max left.need.value right.need.value⟩ := by
  simp [need, h, h']

theorem two_of_length {α : Type} {xs : List α} (h : xs.length = 2) : ∃ x y, xs = [x, y] := by
  rcases xs with _ | ⟨x, _ | ⟨y, _ | ⟨_, _⟩⟩⟩
  · cases h
  · cases h
  · exact ⟨x, y, rfl⟩
  · cases h

theorem need_le_argumentNeed {args : List Expr} {e : Expr} (he : e ∈ args) :
    e.need.value ≤ argumentNeed (List.replicate args.length .value) args := by
  induction args with
  | nil => simp at he
  | cons a args ih =>
    rw [List.length_cons, List.replicate_succ, argumentNeed]
    rcases List.mem_cons.mp he with rfl | he
    · exact Nat.le_max_left _ _
    · exact Nat.le_trans (ih he) (Nat.le_max_right _ _)

/-- An admissible call loads a reference or takes values only. -/
theorem Admissible.call_cases (h : Admissible (.call callee args type)) :
    (∃ m, callee = .capability .load ∧ args = [.carried (.member m)]) ∨
      callee ≠ .capability .load ∧ callee.leavesValue ∧ args.length = callee.arity ∧
        callee.params = List.replicate args.length .value ∧ ∀ a ∈ args, Admissible a := by
  by_cases hload : callee = .capability .load
  · subst hload
    obtain ⟨m, hargs⟩ := admissible_load.mp h
    exact .inl ⟨m, rfl, hargs⟩
  · obtain ⟨hleaves, hlength, hargs⟩ := (admissible_call hload).mp h
    refine .inr ⟨hload, hleaves, hlength, ?_, hargs⟩
    rw [hlength]
    cases callee with
    | method m => rfl
    | capability c =>
      cases c with
      | add | subtract | remainder => rfl
      | load => exact absurd rfl hload
      | store | increment | decrement => simp [Callee.leavesValue] at hleaves

/-- Two operands are compared on the type of one of them. -/
theorem comparisonType_eq (left right : Expr) :
    Emission.comparisonType left right = left.type ∨
      Emission.comparisonType left right = right.type := by
  unfold Emission.comparisonType
  split
  · exact .inr rfl
  · split
    · next hl => exact .inl hl.symm
    · next hr _ => exact .inr hr.symm
    · exact .inl rfl

theorem EqualitiesProper.child {e c : Expr} (h : e.EqualitiesProper) (hc : c ∈ e.children) :
    c.EqualitiesProper :=
  fun op left right method hp => h op left right method (.child hc hp)

end Expr

end GuardCode
