import GuardCode.Proofs.Expr.Evaluation

/-! Outcomes of operations that are the same but for the instruction they blame, and the relations
that are each other's opposites: of floats the opposite of an ordering is its unordered form, of all
other values it is the plain one. -/
namespace GuardCode

namespace Operation

variable {α β γ δ : Type}

/-- Both fail with the same error, whatever instruction it blames, or both give values that belong
together. -/
def Agree (rel : α → β → Prop) : Except ExecutionError α → Except ExecutionError β → Prop
  | .ok x, .ok y => rel x y
  | .error e, .error e' => e.plain = e'.plain
  | _, _ => False

theorem Agree.map {rel : α → β → Prop} {rel' : γ → δ → Prop} {f : α → γ} {g : β → δ}
    {x : Except ExecutionError α} {y : Except ExecutionError β} (h : Agree rel x y)
    (hfg : ∀ a b, rel a b → rel' (f a) (g b)) : Agree rel' (x.map f) (y.map g) := by
  cases x <;> cases y <;> first | exact hfg _ _ h | exact h

/-- Values that belong together under a function of the first. -/
theorem Agree.map_left {rel : α → β → Prop} {rel' : γ → β → Prop} {f : α → γ}
    {x : Except ExecutionError α} {y : Except ExecutionError β} (h : Agree rel x y)
    (hf : ∀ a b, rel a b → rel' (f a) b) : Agree rel' (x.map f) y := by
  cases x <;> cases y <;> first | exact hf _ _ h | exact h

theorem Agree.map_right {rel : α → β → Prop} {rel' : α → δ → Prop} {g : β → δ}
    {x : Except ExecutionError α} {y : Except ExecutionError β} (h : Agree rel x y)
    (hg : ∀ a b, rel a b → rel' a (g b)) : Agree rel' x (y.map g) := by
  cases x <;> cases y <;> first | exact hg _ _ h | exact h

theorem Agree.refl (x : Except ExecutionError α) : Agree Eq x x := by
  cases x <;> rfl

variable (i j : Instruction) (a b : Value)

theorem add_agree : Agree Eq (add i a b) (add j a b) := by
  cases a <;> cases b <;> rfl

theorem sub_agree : Agree Eq (sub i a b) (sub j a b) := by
  cases a <;> cases b <;> rfl

theorem rem_agree : Agree Eq (rem i a b) (rem j a b) := by
  cases a <;> cases b <;> first | exact .refl _ | rfl

theorem equal_agree : Agree Eq (equal i a b) (equal j a b) := by
  cases a <;> cases b <;> rfl

/-- What an order comes to, where there may be none. -/
def Relation.outcome (relation : Relation) (unordered : Bool) : Option Ordering → Bool
  | none => unordered
  | some o => relation.admits o

variable {a b}

/-- Numbers are related by their order. -/
theorem related_numbers (relation : Relation) {unordered : Bool}
    (h : (unordered && a.isReference && b.isReference) = false) :
    related i relation unordered a b =
      (order i unordered a b).map (relation.outcome unordered) := by
  rw [related, if_neg (by simp [h])]
  rcases order i unordered a b with e | _ | o <;> rfl

/-- The unordered form holds of references that differ. -/
theorem related_references (relation : Relation) (ha : a.isReference) (hb : b.isReference) :
    related i relation true a b = (equal i a b).map (!·) := by
  rw [related, if_pos (by simp [ha, hb])]
  cases equal i a b <;> rfl

theorem order_agree (unsigned : Bool) : Agree Eq (order i unsigned a b) (order j unsigned a b) := by
  cases a <;> cases b <;> rfl

theorem related_agree (relation : Relation) (unordered : Bool) :
    Agree Eq (related i relation unordered a b) (related j relation unordered a b) := by
  cases h : unordered && a.isReference && b.isReference with
  | true =>
    simp only [Bool.and_eq_true] at h
    obtain ⟨⟨rfl, ha⟩, hb⟩ := h
    rw [related_references i relation ha hb, related_references j relation ha hb]
    exact (equal_agree i j a b).map (fun _ _ h => congrArg (!·) h)
  | false =>
    rw [related_numbers i relation h, related_numbers j relation h]
    exact (order_agree i j unordered).map (fun _ _ h => congrArg _ h)

def Relation.opposite : Relation → Relation
  | greater => lessOrEqual
  | greaterOrEqual => less
  | less => greaterOrEqual
  | lessOrEqual => greater

theorem Relation.admits_opposite (relation : Relation) (o : Ordering) :
    relation.opposite.admits o = !relation.admits o := by
  cases relation <;> cases o <;> rfl

/-- Of values of their declared kinds only floats can lack an order, and only integers have two. -/
theorem orders_of_fits {type : Ty} (h : a.Fits type ∨ b.Fits type) :
    Agree (fun o o' => o = o' ∧ (o = none → type.isFloat = true)) (order i type.isFloat a b)
      (order j false a b) := by
  have hfloat : a.isFloat = type.isFloat ∨ b.isFloat = type.isFloat :=
    h.imp And.left And.left
  cases a with
  | int32 x | int64 x =>
    cases b <;> try rfl
    obtain hfloat : false = type.isFloat := hfloat.elim id id
    rw [← hfloat]
    exact ⟨rfl, nofun⟩
  | float32 x | float64 x =>
    cases b <;> try rfl
    exact ⟨rfl, fun _ => (hfloat.elim id id).symm⟩
  | null | string | object => cases b <;> rfl

/-- The opposite of an ordering holds exactly where the ordering fails. -/
theorem related_opposite (relation : Relation) {type : Ty} (h : a.Fits type ∨ b.Fits type) :
    Agree (fun x y => x = !y) (related i relation.opposite type.isFloat a b)
      (related j relation false a b) := by
  have hnumbers : (type.isFloat && a.isReference && b.isReference) = false := by
    rcases h with ⟨hfloat, -⟩ | ⟨hfloat, -⟩
    · rw [← hfloat]
      cases a <;> simp [Value.isFloat, Value.isReference]
    · rw [← hfloat]
      cases b <;> simp [Value.isFloat, Value.isReference]
  rw [related_numbers i _ hnumbers, related_numbers j relation (by simp)]
  refine (orders_of_fits i j h).map ?_
  rintro o o' ⟨rfl, hnone⟩
  cases o with
  | none => exact hnone rfl
  | some o => exact relation.admits_opposite o

/-- References differ exactly where the unordered form of an ordering holds of them. -/
theorem related_differ (relation : Relation) {type : Ty} (h : a.Fits type ∨ b.Fits type)
    (htype : type.isReference = true) :
    Agree (fun x y => x = !y) (related i relation true a b) (equal j a b) := by
  by_cases hrefs : a.isReference ∧ b.isReference
  · rw [related_references i relation hrefs.1 hrefs.2]
    exact (equal_agree i j a b).map_left (fun _ _ h => congrArg (!·) h)
  · -- A reference and a number can neither be ordered nor be equal.
    have hone : a.isReference ∨ b.isReference :=
      h.imp (fun h => h.2.trans htype) (fun h => h.2.trans htype)
    rw [related_numbers i relation (by simpa [Bool.and_eq_false_iff] using hrefs)]
    cases a <;> cases b <;> first | rfl | simp_all [Value.isReference]

end Operation

end GuardCode
