import GuardCode.Proofs.Expr.Admissible
import GuardCode.Proofs.Expr.Evaluation
import GuardCode.Proofs.Machine.Agreement

/-! Typed expressions. Operands that meet take slots of one kind on the stack, and on operands of one
kind an operation gives a result of the kind that the static type says, or divides by zero or
overflows, but never complains about the kinds. -/
namespace GuardCode

/-- The kinds of slots on the stack. -/
inductive StackKind where
  | int32 | int64 | float32 | float64 | reference
  deriving DecidableEq

def Value.stackKind : Value → StackKind
  | null | string _ | object _ => .reference
  | int32 _ => .int32
  | int64 _ => .int64
  | float32 _ => .float32
  | float64 _ => .float64

/-- The kind of slot that the values of a type take; nothing is of type `void`. -/
def Ty.stackKind? : Ty → Option StackKind
  | void => none
  | bool | u8 | i8 | i16 | u16 | i32 | char => some .int32
  | i64 => some .int64
  | f32 => some .float32
  | f64 => some .float64
  | string | object | named _ _ => some .reference

/-- The value takes the kind of slot that the type says. -/
def Value.IsOf (v : Value) (type : Ty) : Prop := type.stackKind? = some v.stackKind

instance (v : Value) (type : Ty) : Decidable (v.IsOf type) :=
  inferInstanceAs (Decidable (type.stackKind? = some v.stackKind))

/-- Values of the kinds that a list of types says, one for each type. -/
def Value.AreOf (vs : List Value) (types : List Ty) : Prop :=
  types.map Ty.stackKind? = vs.map (some ·.stackKind)

instance (vs : List Value) (types : List Ty) : Decidable (Value.AreOf vs types) :=
  inferInstanceAs (Decidable (types.map Ty.stackKind? = vs.map (some ·.stackKind)))

namespace Ty

theorem isInt32_iff {type : Ty} : type.isInt32 = true ↔ type.stackKind? = some .int32 := by
  cases type <;> simp [isInt32, stackKind?]

theorem isReference_iff {type : Ty} :
    type.isReference = true ↔ type.stackKind? = some .reference := by
  cases type <;> simp [isReference, stackKind?]

/-- Operands meet in slots of one kind. -/
theorem stackKind?_of_meets {left right : Ty} (h : left.meets right = true) :
    left.stackKind? = right.stackKind? := by
  simp only [meets, Bool.or_eq_true, Bool.and_eq_true, beq_iff_eq] at h
  rcases h with (rfl | ⟨hl, hr⟩) | ⟨hl, hr⟩
  · rfl
  · rw [isInt32_iff.mp hl, isInt32_iff.mp hr]
  · rw [isReference_iff.mp hl, isReference_iff.mp hr]

end Ty

namespace Value

variable {a b v : Value} {type : Ty}

theorem IsOf.fits (h : v.IsOf type) : v.Fits type := by
  cases type <;> cases v <;>
    simp_all [IsOf, Fits, Ty.stackKind?, stackKind, isFloat, Ty.isFloat, isReference, Ty.isReference]

theorem IsOf.int32 (h : v.IsOf type) (hint : type.isInt32 = true) : ∃ n, v = .int32 n := by
  rw [IsOf, Ty.isInt32_iff.mp hint] at h
  cases v with
  | int32 n => exact ⟨n, rfl⟩
  | _ => cases h

theorem isOf_ofBool (t : Bool) : (ofBool t).IsOf .bool := rfl

theorem IsOf.bool (h : v.IsOf type) (hint : type.isInt32 = true) : v.IsOf .bool := by
  obtain ⟨n, rfl⟩ := h.int32 hint
  rfl

/-- Values of types that meet are of one kind, that of references only if the types are. -/
theorem IsOf.meet {left right : Ty} (ha : a.IsOf left) (hb : b.IsOf right)
    (hmeet : left.meets right = true) : a.stackKind = b.stackKind := by
  have hsame := Ty.stackKind?_of_meets hmeet
  rw [IsOf] at ha hb
  rw [ha, hb] at hsame
  exact Option.some.inj hsame

theorem IsOf.number (h : v.IsOf type) (hnumber : type.isReference = false) :
    v.stackKind ≠ .reference := by
  intro hkind
  rw [IsOf, hkind, ← Ty.isReference_iff, hnumber] at h
  cases h

variable {vs : List Value} {types : List Ty}

theorem AreOf.length_eq (h : AreOf vs types) : vs.length = types.length := by
  simpa using (congrArg List.length h).symm

@[simp] theorem areOf_cons : AreOf (v :: vs) (type :: types) ↔ v.IsOf type ∧ AreOf vs types := by
  simp [AreOf, IsOf]

/-- The value of the same number as a type. -/
theorem AreOf.get {i : Nat} (h : AreOf vs types) (hi : types[i]? = some type) :
    ∃ v, vs[i]? = some v ∧ v.IsOf type := by
  have hkinds := congrArg (·[i]?) h
  simp only [List.getElem?_map, hi, Option.map_some] at hkinds
  obtain ⟨v, hv, hkind⟩ := Option.map_eq_some_iff.mp hkinds.symm
  exact ⟨v, hv, hkind.symm⟩

end Value

theorem Literal.isOf_value (l : Literal) : l.value.IsOf l.type := by
  cases l <;> rfl

/-! ## Operations on values of one kind -/

namespace Operation

variable {a b : Value} {i : Instruction}

/-- Two numbers of one kind. -/
theorem same_numbers (h : a.stackKind = b.stackKind) (hnumber : a.stackKind ≠ .reference) :
    (∃ x y, a = .int32 x ∧ b = .int32 y) ∨ (∃ x y, a = .int64 x ∧ b = .int64 y) ∨
      (∃ x y, a = .float32 x ∧ b = .float32 y) ∨ ∃ x y, a = .float64 x ∧ b = .float64 y := by
  cases a with
  | null | string | object => exact absurd rfl hnumber
  | int32 x =>
    cases b with
    | int32 y => exact .inl ⟨x, y, rfl, rfl⟩
    | _ => cases h
  | int64 x =>
    cases b with
    | int64 y => exact .inr (.inl ⟨x, y, rfl, rfl⟩)
    | _ => cases h
  | float32 x =>
    cases b with
    | float32 y => exact .inr (.inr (.inl ⟨x, y, rfl, rfl⟩))
    | _ => cases h
  | float64 x =>
    cases b with
    | float64 y => exact .inr (.inr (.inr ⟨x, y, rfl, rfl⟩))
    | _ => cases h

theorem equal_ok (h : a.stackKind = b.stackKind) : ∃ t, equal i a b = .ok t := by
  cases a <;> cases b <;> first | exact ⟨_, rfl⟩ | cases h

theorem related_ok (relation : Relation) (h : a.stackKind = b.stackKind)
    (hnumber : a.stackKind ≠ .reference) : ∃ t, related i relation false a b = .ok t := by
  rw [related_numbers i relation rfl]
  rcases same_numbers h hnumber with ⟨x, y, rfl, rfl⟩ | ⟨x, y, rfl, rfl⟩ | ⟨x, y, rfl, rfl⟩ |
    ⟨x, y, rfl, rfl⟩ <;> exact ⟨_, rfl⟩

/-- What arithmetic on numbers of one kind can come to. -/
def Computes (kind : StackKind) : Except ExecutionError Value → Prop
  | .ok v => v.stackKind = kind
  | .error e => e = .divideByZero ∨ e = .overflow

theorem add_computes (h : a.stackKind = b.stackKind) (hnumber : a.stackKind ≠ .reference) :
    Computes a.stackKind (add i a b) := by
  rcases same_numbers h hnumber with ⟨x, y, rfl, rfl⟩ | ⟨x, y, rfl, rfl⟩ | ⟨x, y, rfl, rfl⟩ |
    ⟨x, y, rfl, rfl⟩ <;> rfl

theorem sub_computes (h : a.stackKind = b.stackKind) (hnumber : a.stackKind ≠ .reference) :
    Computes a.stackKind (sub i a b) := by
  rcases same_numbers h hnumber with ⟨x, y, rfl, rfl⟩ | ⟨x, y, rfl, rfl⟩ | ⟨x, y, rfl, rfl⟩ |
    ⟨x, y, rfl, rfl⟩ <;> rfl

theorem rem_computes (h : a.stackKind = b.stackKind) (hnumber : a.stackKind ≠ .reference) :
    Computes a.stackKind (rem i a b) := by
  rcases same_numbers h hnumber with ⟨x, y, rfl, rfl⟩ | ⟨x, y, rfl, rfl⟩ | ⟨x, y, rfl, rfl⟩ |
    ⟨x, y, rfl, rfl⟩
  · simp only [rem, rem32]
    split
    · exact .inl rfl
    · split
      · exact .inr rfl
      · rfl
  · simp only [rem, rem64]
    split
    · exact .inl rfl
    · split
      · exact .inr rfl
      · rfl
  · rfl
  · rfl

end Operation

/-- A comparison that relies on an order. -/
def BinaryOp.isOrdering : BinaryOp → Bool
  | lt | le | gt | ge => true
  | _ => false

theorem BinaryOp.holds_ok {op : BinaryOp} {a b : Value} (hop : op.isComparison)
    (h : a.stackKind = b.stackKind) (hnumber : op.isOrdering → a.stackKind ≠ .reference) :
    ∃ t, op.holds a b = .ok t := by
  have hequal : ∃ t, Operation.equal .nop a b = .ok t := Operation.equal_ok h
  obtain ⟨t, ht⟩ := hequal
  cases op with
  | eq => exact ⟨t, ht⟩
  | ne => exact ⟨!t, by simp only [holds, ht]; rfl⟩
  | lt | le | gt | ge => exact Operation.related_ok _ h (hnumber rfl)
  | _ => cases hop

/-! ## Typed expressions -/

/-- The members that can be read, and the methods that can be called with the types that they
declare. -/
structure Vocabulary where
  members : Member → Prop
  calls : Method → Ty → Prop

/-- An expression whose operands are of the kinds that their operators take. -/
inductive Expr.Typed (known : Vocabulary) : Expr → Prop where
  | member {m : Member} (h : known.members m) : Typed known (.member m)
  | literal (l : Literal) : Typed known (.literal l)
  /-- The operand that decides a chain may stay on the stack as its outcome. -/
  | chain {op : BinaryOp} {left right : Expr} (hop : op.isLogical) (hleft : Typed known left)
      (hright : Typed known right) (hint : right.type.isInt32 = true) :
      Typed known (.binary op left right)
  /-- A method that decides equality returns an `i32`. -/
  | comparison {op : BinaryOp} {left right : Expr} (hop : op.isComparison)
      (hleft : Typed known left) (hright : Typed known right)
      (hmeet : left.type.meets right.type = true)
      (hnumber : op.isOrdering → left.type.isReference = false)
      (hequality : ∀ method, (op = .eq ∨ op = .ne) →
        (Emission.comparisonType left right).equality? = some method →
          known.calls method .i32 ∧ method.arity = 2 ∧ method.returnsValue) :
      Typed known (.binary op left right)
  | remainder {left right : Expr} (hleft : Typed known left) (hright : Typed known right)
      (hmeet : left.type.meets right.type = true) (hnumber : left.type.isReference = false) :
      Typed known (.binary .rem left right)
  | load {m : Member} (h : known.members m) :
      Typed known (.call (.capability .load) [.carried (.member m)] m.type)
  | arithmetic {c : Capability} {left right : Expr} (hc : c.isArithmetic)
      (hleft : Typed known left) (hright : Typed known right)
      (hmeet : left.type.meets right.type = true) (hnumber : left.type.isReference = false) :
      Typed known (.call (.capability c) [left, right] left.type)
  | method {m : Method} {args : List Expr} {type : Ty} (hargs : ∀ a ∈ args, Typed known a)
      (harity : args.length = m.arity) (hreturns : m.returnsValue) (h : known.calls m type) :
      Typed known (.call (.method m) args type)

variable {σ : Type}

/-- The method is there, and it fails or returns a value of the type. -/
def Host.Honours (host : Host σ) (method : Method) (type : Ty) : Prop :=
  ∃ implementation, host.find? method.id = some implementation ∧
    ∀ args before, args.length = method.arity →
      match implementation args before with
      | .ok result? _ => ∃ v, result? = some v ∧ v.IsOf type
      | .error _ _ => True

/-- What is known can be read and called, and comes to values of the types that are declared. -/
structure Environment.Serves (env : Environment σ) (known : Vocabulary) : Prop where
  members : ∀ m, known.members m → ∃ v, env.load m = pure v ∧ v.IsOf m.type
  calls : ∀ method type, known.calls method type → env.host.Honours method type

end GuardCode
