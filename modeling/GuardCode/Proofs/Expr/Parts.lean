import GuardCode.Expr.Basic

/-! The parts of an expression. An induction over expressions gives the hypothesis for both operands
of an operator and for every argument of a call; what is said of all parts of an expression comes
down to its top and to the parts of its children. -/
namespace GuardCode.Expr

/-- Induction over expressions. -/
@[induction_eliminator]
theorem inductionOn {motive : Expr → Prop} (e : Expr)
    (binary : ∀ op left right, motive left → motive right → motive (.binary op left right))
    (member : ∀ m, motive (.member m)) (literal : ∀ l, motive (.literal l))
    (carried : ∀ c, motive (.carried c))
    (call : ∀ callee args type, (∀ a ∈ args, motive a) → motive (.call callee args type)) :
    motive e :=
  @Expr.rec motive (fun args => ∀ a ∈ args, motive a) binary member literal carried call
    (by simp) (by simp_all) e

/-- The operands of an operator, the arguments of a call. -/
def children : Expr → List Expr
  | binary _ left right => [left, right]
  | call _ args _ => args
  | _ => []

/-- An expression occurs in another one. -/
inductive Part (p : Expr) : Expr → Prop where
  | self : Part p p
  | child {e c : Expr} (hc : c ∈ e.children) (h : Part p c) : Part p e

variable {p : Expr}

theorem part_iff {e : Expr} : Part p e ↔ p = e ∨ ∃ c ∈ e.children, Part p c := by
  constructor
  · rintro (_ | ⟨hc, h⟩)
    · exact .inl rfl
    · exact .inr ⟨_, hc, h⟩
  · rintro (rfl | ⟨c, hc, h⟩)
    · exact .self
    · exact .child hc h

theorem Part.trans {q e : Expr} (hp : Part p q) (hq : Part q e) : Part p e := by
  induction hq with
  | self => exact hp
  | child hc _ ih => exact .child hc ih

@[simp] theorem part_binary {op : BinaryOp} {left right : Expr} :
    Part p (.binary op left right) ↔ p = .binary op left right ∨ Part p left ∨ Part p right := by
  rw [part_iff]
  simp [children]

@[simp] theorem part_member {m : Member} : Part p (.member m) ↔ p = .member m := by
  rw [part_iff]
  simp [children]

@[simp] theorem part_literal {l : Literal} : Part p (.literal l) ↔ p = .literal l := by
  rw [part_iff]
  simp [children]

@[simp] theorem part_carried {c : Carried} : Part p (.carried c) ↔ p = .carried c := by
  rw [part_iff]
  simp [children]

@[simp] theorem part_call {callee : Callee} {args : List Expr} {type : Ty} :
    Part p (.call callee args type) ↔
      p = .call callee args type ∨ ∃ a ∈ args, Part p a := by
  rw [part_iff]
  simp [children]

mutual

/-- All parts of an expression. -/
def parts : Expr → List Expr
  | .binary op left right => .binary op left right :: (parts left ++ parts right)
  | .call callee args type => .call callee args type :: partsAll args
  | e => [e]

def partsAll : List Expr → List Expr
  | [] => []
  | e :: es => parts e ++ partsAll es

end

theorem mem_partsAll {es : List Expr} : p ∈ partsAll es ↔ ∃ e ∈ es, p ∈ e.parts := by
  induction es with
  | nil => simp [partsAll]
  | cons e es ih => simp [partsAll, ih]

theorem mem_parts {e : Expr} : p ∈ e.parts ↔ Part p e := by
  induction e with
  | binary op left right ihleft ihright => simp [parts, ihleft, ihright]
  | member | literal | carried => simp [parts]
  | call callee args type ih =>
    rw [parts, List.mem_cons, mem_partsAll, part_call]
    constructor
    · rintro (h | ⟨a, ha, h⟩)
      · exact .inl h
      · exact .inr ⟨a, ha, (ih a ha).mp h⟩
    · rintro (h | ⟨a, ha, h⟩)
      · exact .inl h
      · exact .inr ⟨a, ha, (ih a ha).mpr h⟩

end GuardCode.Expr
