import GuardCode.Proofs.Lowering.Steps

/-! The climb over the pairs of an expression. Where operators and operands alternate it never gets stuck,
and it arranges the operands as they are arranged in the phrase. -/
namespace GuardCode

/-! ## Chains of operands -/

namespace Phrase

variable {p operand : Phrase} {op : BinaryOp}

theorem arranged_of_isOperand (h : operand.isOperand) : operand.Arranged := by
  cases operand with
  | binary => cases h
  | _ => trivial

theorem Arranged.extend (hp : p.Arranged) (h : operand.isOperand) :
    (p.extend op operand).Arranged := by
  have hoperand := arranged_of_isOperand h
  have hright := needsParens_operand h op true
  induction p with
  | binary last left right ihl ihr =>
    obtain ⟨hleft, hr, hl, hparens⟩ := hp
    simp only [Phrase.extend]
    split
    · next hlt => exact ⟨hleft, ihr hr, hl, needsParens_extend hlt hparens⟩
    · next hle => exact ⟨⟨hleft, hr, hl, hparens⟩, hoperand, needsParens_left.mpr (by omega), hright⟩
  | _ => exact ⟨trivial, hoperand, rfl, hright⟩

theorem first_extend (p : Phrase) (op : BinaryOp) (operand : Phrase) :
    (p.extend op operand).first = p.first := by
  induction p with
  | binary last left right ihl ihr =>
    simp only [extend]
    split <;> rfl
  | _ => rfl

theorem first_of_isOperand (h : operand.isOperand) : operand.first = operand := by
  cases operand with
  | binary => cases h
  | _ => rfl

theorem others_of_isOperand (h : operand.isOperand) : operand.others = [] := by
  cases operand with
  | binary => cases h
  | _ => rfl

theorem others_extend (p : Phrase) (op : BinaryOp) (h : operand.isOperand) :
    (p.extend op operand).others = p.others ++ [(op, operand)] := by
  have hend : (op, operand.first) :: operand.others = [(op, operand)] := by
    rw [first_of_isOperand h, others_of_isOperand h]
  induction p with
  | binary last left right ihl ihr =>
    simp only [extend]
    split
    · simp [others, ihr, first_extend]
    · simp only [others, hend]
  | _ => simp only [extend, others, hend]

/-- A chain of operands is the phrase that a climb makes of it. -/
theorem climbs_ofChain {rest : List (BinaryOp × Phrase)} (hp : p.isOperand)
    (hrest : ∀ item ∈ rest, item.2.isOperand) : Climbs 0 p rest (ofChain p rest) [] := by
  have hchain : ∀ (rest : List (BinaryOp × Phrase)) (p : Phrase), p.Arranged →
      (∀ item ∈ rest, item.2.isOperand) → (ofChain p rest).Arranged ∧
        (ofChain p rest).first = p.first ∧ (ofChain p rest).others = p.others ++ rest := by
    intro rest
    induction rest with
    | nil => exact fun p harranged _ => ⟨harranged, rfl, (List.append_nil _).symm⟩
    | cons item rest ih =>
      intro p harranged hrest
      obtain ⟨hitem, hrest⟩ := List.forall_mem_cons.mp hrest
      obtain ⟨hall, hfirst, hothers⟩ := ih (p.extend item.1 item.2) (harranged.extend hitem) hrest
      refine ⟨hall, hfirst.trans (first_extend p item.1 item.2), hothers.trans ?_⟩
      rw [others_extend p item.1 hitem, List.append_assoc]
      rfl
  obtain ⟨harranged, hfirst, hothers⟩ := hchain rest p (arranged_of_isOperand hp) hrest
  have hclimb := harranged.climbs_iff.mpr ⟨rfl, rfl⟩
  rwa [hfirst, hothers, first_of_isOperand hp, others_of_isOperand hp, List.nil_append] at hclimb

end Phrase

namespace Lowering

variable {scope : Scope} {source : List Char}

theorem mapError_bind {ε ε' α β : Type} (f : ε → ε') (x : Except ε α) (next : α → Except ε β) :
    (x >>= next).mapError f = x.mapError f >>= fun a => (next a).mapError f := by
  cases x <;> rfl

/-- What a phrase is read as, as an answer of the lowering. -/
def read (scope : Scope) (source : List Char) (p : Phrase) : Except Setback Node :=
  (Reading.node scope source p).mapError .refused

/-! ## The climb -/

/-- Items in which operators and operands alternate, beside those of a chain. -/
inductive Alternate (scope : Scope) (source : List Char) :
    List Item → List (BinaryOp × Phrase) → Prop where
  | nil : Alternate scope source [] []
  | cons {op operand : Pair} {o : BinaryOp} {p : Phrase} {lowered : Except Setback Node}
      {items : List Item} {rest : List (BinaryOp × Phrase)} (hop : op.rule = .operator o)
      (hoperand : operator? operand.rule = none) (h : Alternate scope source items rest) :
      Alternate scope source ((op, lowered) :: (operand, read scope source p) :: items)
        ((o, p) :: rest)

theorem operator?_of_rule {op : Pair} {o : BinaryOp} (hop : op.rule = .operator o) :
    operator? op.rule = some o := by
  rw [hop]
  rfl

theorem combine_read {op : Pair} {o : BinaryOp} {left right : Phrase} (hop : op.rule = .operator o) :
    combine source op (read scope source left) (read scope source right) =
      read scope source (.binary o left right) := by
  simp only [combine, operator?_of_rule hop, read, Reading.node, mapError_bind]

/-- The climb does as it is described, with more steps than there are items. -/
theorem climb_of_climbs {bound : Nat} {p q : Phrase} {chain rest : List (BinaryOp × Phrase)}
    (h : Phrase.Climbs bound p chain q rest) {items : List Item}
    (hitems : Alternate scope source items chain) {steps : Nat} (hsteps : items.length < steps) :
    ∃ behind, climb source steps bound (read scope source p) items =
        .ok (read scope source q, behind) ∧
      Alternate scope source behind rest ∧ behind.length ≤ items.length := by
  induction h generalizing items steps with
  | stop hstop =>
    refine ⟨items, ?_, hitems, Nat.le_refl _⟩
    cases steps with
    | zero => omega
    | succ steps =>
      cases hitems with
      | nil => rfl
      | cons hop hoperand hrest =>
        have hle := hstop _ rfl
        simp only [climb, operator?_of_rule hop]
        rw [if_neg (Nat.not_lt.mpr hle)]
  | @take bound o p operand right result chain behind rest htake hright hmore ihright ihmore =>
    cases steps with
    | zero => omega
    | succ steps =>
      cases hitems with
      | @cons op pair _ _ lowered items _ hop hoperand hrest =>
        simp only [List.length_cons] at hsteps ⊢
        obtain ⟨between, hclimb, hbetween, hle⟩ := @ihright items hrest steps (by omega)
        obtain ⟨last, hclimb', hlast, hle'⟩ := @ihmore between hbetween steps (by omega)
        refine ⟨last, ?_, hlast, by omega⟩
        simp only [climb, operator?_of_rule hop, if_pos htake, hoperand, Option.isSome_none,
          Bool.false_eq_true, if_false, hclimb, bind, Except.bind, combine_read hop]
        exact hclimb'

/-- Operands with operators between them are lowered to what their chain is read as. -/
theorem chain_eq {first : Pair} {p : Phrase} {items : List Item} {rest : List (BinaryOp × Phrase)}
    (hfirst : operator? first.rule = none) (hp : p.isOperand)
    (hrest : ∀ item ∈ rest, item.2.isOperand) (hitems : Alternate scope source items rest) :
    chain source ((first, read scope source p) :: items) =
      read scope source (Phrase.ofChain p rest) := by
  obtain ⟨behind, hclimb, -, -⟩ :=
    climb_of_climbs (Phrase.climbs_ofChain hp hrest) hitems (Nat.lt_succ_self _)
  simp only [chain, hfirst, Option.isSome_none, Bool.false_eq_true, if_false]
  rw [hclimb]
  rfl

end Lowering

end GuardCode
