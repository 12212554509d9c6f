import GuardCode.Proofs.Reading.Meaning
import GuardCode.Proofs.Grammar.Located

/-! Which part of a phrase an error is about. A name, a capability or a literal that means nothing is
blamed where it stands; a literal that does not fit its partner is blamed with its parentheses, and two
parts whose types do not agree from the start of the one to the end of the other. -/
namespace GuardCode.Reading

open Phrase (Meets)

variable {scope : Scope} {source : List Char} {n n' l r l' r' : Node} {p : Phrase} {e : ParseError}

/-! ## Places of nodes -/

theorem coerce_span {type : Ty} (h : coerce source n type = .ok n') : n'.span = n.span := by
  unfold coerce at h
  split at h
  · cases h
    rfl
  · split at h
    · cases h
      rfl
    · cases h
      rfl
    · cases h

theorem unify_span (h : unify source l r = .ok (l', r')) : l'.span = l.span ∧ r'.span = r.span := by
  rcases unify_ok h with ⟨-, hcoerce, rfl⟩ | ⟨-, hcoerce, rfl⟩ | ⟨_, _, _, _, rfl, rfl⟩
  · exact ⟨coerce_span hcoerce, rfl⟩
  · exact ⟨rfl, coerce_span hcoerce⟩
  · exact ⟨rfl, rfl⟩

theorem binary_span {op : BinaryOp} (h : binary source op l r = .ok n) :
    n.span = l.span.combine r.span := by
  cases hlogical : op.isLogical with
  | true =>
    rw [binary_logical hlogical] at h
    cases h
    rfl
  | false =>
    obtain ⟨l', r', -, -, ⟨hlogical', -⟩ | ⟨-, hunify, hmeet⟩⟩ := binary_ok h
    · rw [hlogical] at hlogical'
      cases hlogical'
    · rw [binary_met hlogical hunify hmeet] at h
      cases h
      rw [(unify_span hunify).1, (unify_span hunify).2]

/-- A node keeps the place of its phrase. -/
theorem span_node (h : node scope source p = .ok n) : n.span = p.span := by
  induction p generalizing n with
  | binary op left right ihl ihr =>
    obtain ⟨l, r, hl, hr, hbinary⟩ := node_binary h
    rw [binary_span hbinary, ihl hl, ihr hr]
    rfl
  | group span inner =>
    rw [node] at h
    obtain ⟨m, -, h⟩ := bind_ok h
    cases h
    rfl
  | name lexeme =>
    simp only [node] at h
    split at h
    · cases h
      rfl
    · cases h
  | literal kind lexeme =>
    simp only [node] at h
    split at h
    · cases h
      rfl
    · cases h
  | method span callee args =>
    simp only [node] at h
    split at h
    · obtain ⟨ns, -, h⟩ := bind_ok h
      cases h
      rfl
    · cases h
  | capability span callee args =>
    simp only [node] at h
    split at h
    · obtain ⟨ns, -, h⟩ := bind_ok h
      obtain ⟨ns', -, h⟩ := bind_ok h
      cases h
      rfl
    · cases h

/-! ## Blame -/

/-- The error is about this part of a phrase, as it stands or beside its partner. -/
inductive Blames (scope : Scope) (source : List Char) : Phrase → ParseError → Prop where
  | name {lexeme : Lexeme} (h : scope.resolve? (.ofList lexeme.text) = none) :
      Blames scope source (.name lexeme) ⟨.unknownName (.ofList lexeme.text), lexeme.span⟩
  | method {span : Span} {callee : Lexeme} {args : List Phrase}
      (h : scope.method? (.ofList callee.text) = none) :
      Blames scope source (.method span callee args)
        ⟨.unknownName (.ofList callee.text), callee.span⟩
  | capability {span : Span} {callee : Lexeme} {args : List Phrase}
      (h : Capability.ofName? (.ofList callee.text) = none) :
      Blames scope source (.capability span callee args)
        ⟨.unknownCapability (.ofList callee.text), callee.span⟩
  | literal {kind : LiteralKind} {lexeme : Lexeme} {fault : LiteralFault}
      (h : literal kind lexeme.text = .error fault) :
      Blames scope source (.literal kind lexeme)
        ⟨.invalidLiteral (.ofList lexeme.text) fault, lexeme.span⟩
  | misfit (part : Phrase) (type : Ty) :
      Blames scope source part
        ⟨.invalidLiteral (part.span.slice source) (.doesNotFit type), part.span⟩
  | mismatch {whole : Phrase} {left right : Phrase.Frame × Phrase} {a b : Expr}
      (hmeets : Meets whole left right) (hleft : Denotes scope left.2 a)
      (hright : Denotes scope right.2 b) (h : a.type.meets b.type = false) :
      Blames scope source whole
        ⟨.typeMismatch a.type b.type, left.2.span.combine right.2.span⟩

theorem bind_error {ε α β : Type} {x : Except ε α} {f : α → Except ε β} {e : ε}
    (h : (x >>= f) = .error e) : x = .error e ∨ ∃ a, x = .ok a ∧ f a = .error e := by
  cases x with
  | error =>
    cases h
    exact .inl rfl
  | ok a => exact .inr ⟨a, rfl, h⟩

theorem coerce_error {type : Ty} (h : coerce source n type = .error e) :
    e = ⟨.invalidLiteral (n.span.slice source) (.doesNotFit type), n.span⟩ := by
  unfold coerce at h
  split at h
  · cases h
  · split at h
    · cases h
    · cases h
    · cases h
      rfl

theorem map_eq_error {ε α β : Type} {f : α → β} {x : Except ε α} {e : ε}
    (h : x.map f = .error e) : x = .error e := by
  cases x with
  | error =>
    cases h
    rfl
  | ok => cases h

theorem unify_error (h : unify source l r = .error e) :
    ∃ type, coerce source l type = .error e ∨ coerce source r type = .error e := by
  unfold unify at h
  split at h
  · exact ⟨r.expr.type, .inl (map_eq_error h)⟩
  · exact ⟨l.expr.type, .inr (map_eq_error h)⟩
  · cases h

theorem checkOperands_error (h : checkOperands l r = .error e) :
    l.expr.type.meets r.expr.type = false ∧
      e = ⟨.typeMismatch l.expr.type r.expr.type, l.span.combine r.span⟩ := by
  unfold checkOperands at h
  split at h
  · cases h
  · next hmeet =>
    cases h
    exact ⟨by simpa using hmeet, rfl⟩

/-- Two nodes do not agree: one is a literal that does not fit the other, or the types differ. -/
def Clashes (source : List Char) (l r : Node) (e : ParseError) : Prop :=
  unify source l r = .error e ∨
    ∃ l' r', unify source l r = .ok (l', r') ∧ checkOperands l' r' = .error e

theorem binary_error {op : BinaryOp} (h : binary source op l r = .error e) :
    op.isLogical = false ∧ Clashes source l r e := by
  cases hlogical : op.isLogical with
  | true =>
    rw [binary_logical hlogical] at h
    cases h
  | false =>
    refine ⟨rfl, ?_⟩
    simp only [binary, hlogical, Bool.false_eq_true, if_false, Bool.not_false, Bool.true_and] at h
    rcases bind_error h with h | ⟨⟨l', r'⟩, hunify, h⟩
    · exact .inl h
    · refine .inr ⟨l', r', hunify, ?_⟩
      simp only at h
      split at h
      · rcases bind_error h with h | ⟨_, -, h⟩
        · exact h
        · cases h
      · cases h

theorem capabilityArgs_error {c : Capability} {ns : List Node}
    (h : capabilityArgs source c ns = .error e) : ∃ l r, ns = [l, r] ∧ Clashes source l r e := by
  unfold capabilityArgs at h
  split at h
  · next l r =>
    refine ⟨l, r, rfl, ?_⟩
    rcases bind_error h with h | ⟨⟨l', r'⟩, hunify, h⟩
    · exact .inl h
    · refine .inr ⟨l', r', hunify, ?_⟩
      simp only at h
      split at h
      · rcases bind_error h with h | ⟨_, -, h⟩
        · exact h
        · cases h
      · cases h
  · cases h

/-- The part at a place of the phrase that an error is about. -/
def BlamesPart (scope : Scope) (source : List Char) (p : Phrase) (e : ParseError) : Prop :=
  ∃ place part, Phrase.fill place part = p ∧ Blames scope source part e

theorem BlamesPart.frame (frame : Phrase.Frame) (h : BlamesPart scope source p e) :
    BlamesPart scope source (frame.fill p) e := by
  obtain ⟨place, part, rfl, hblames⟩ := h
  exact ⟨frame :: place, part, rfl, hblames⟩

theorem Blames.here (h : Blames scope source p e) : BlamesPart scope source p e := ⟨[], p, rfl, h⟩

theorem blames_clash {left right : Phrase.Frame × Phrase} (hmeets : Meets p left right)
    (hl : node scope source left.2 = .ok l) (hr : node scope source right.2 = .ok r)
    (h : Clashes source l r e) : BlamesPart scope source p e := by
  obtain ⟨hleft, hright⟩ := hmeets.fill
  rcases h with h | ⟨l', r', hunify, hcheck⟩
  · obtain ⟨type, h | h⟩ := unify_error h
    · rw [coerce_error h, span_node hl, ← hleft]
      exact BlamesPart.frame left.1 (Blames.misfit left.2 type).here
    · rw [coerce_error h, span_node hr, ← hright]
      exact BlamesPart.frame right.1 (Blames.misfit right.2 type).here
  · obtain ⟨hne, rfl⟩ := checkOperands_error hcheck
    obtain ⟨ha, hb⟩ := denotes_unify (denotes_node hl) (denotes_node hr) hunify
    rw [(unify_span hunify).1, (unify_span hunify).2, span_node hl, span_node hr]
    exact (Blames.mismatch hmeets ha hb hne).here

theorem nodes_error {ps : List Phrase} (h : nodes scope source ps = .error e) :
    ∃ before p after, ps = before ++ p :: after ∧ node scope source p = .error e := by
  induction ps with
  | nil => cases h
  | cons p ps ih =>
    rw [nodes] at h
    rcases bind_error h with h | ⟨_, -, h⟩
    · exact ⟨[], p, ps, rfl, h⟩
    · rcases bind_error h with h | ⟨_, -, h⟩
      · obtain ⟨before, q, after, rfl, hq⟩ := ih h
        exact ⟨p :: before, q, after, rfl, hq⟩
      · cases h

theorem nodes_pair {ps : List Phrase} (h : nodes scope source ps = .ok [l, r]) :
    ∃ p q, ps = [p, q] ∧ node scope source p = .ok l ∧ node scope source q = .ok r := by
  cases ps with
  | nil => cases h
  | cons p ps =>
    obtain ⟨first, others, hp, hothers, heq⟩ := nodes_cons h
    cases heq
    cases ps with
    | nil => cases hothers
    | cons q ps =>
      obtain ⟨second, more, hq, hmore, heq⟩ := nodes_cons hothers
      cases heq
      cases ps with
      | nil => exact ⟨p, q, rfl, hp, hq⟩
      | cons x ps =>
        obtain ⟨_, _, -, -, heq⟩ := nodes_cons hmore
        cases heq

/-- Where the reading fails, some part is blamed. -/
theorem blames_node (h : node scope source p = .error e) : BlamesPart scope source p e := by
  induction p with
  | binary op left right ihl ihr =>
    rw [node] at h
    rcases bind_error h with h | ⟨l, hl, h⟩
    · exact (ihl h).frame (.left op right)
    rcases bind_error h with h | ⟨r, hr, h⟩
    · exact (ihr h).frame (.right op left)
    obtain ⟨hlogical, hclash⟩ := binary_error h
    exact blames_clash (.operands left right hlogical) hl hr hclash
  | group span inner ih =>
    rw [node] at h
    rcases bind_error h with h | ⟨_, -, h⟩
    · exact (ih h).frame (.inner span)
    · cases h
  | name lexeme =>
    simp only [node] at h
    split at h
    · cases h
    · next hresolve =>
      cases h
      exact (Blames.name hresolve).here
  | literal kind lexeme =>
    simp only [node] at h
    split at h
    · cases h
    · next hliteral =>
      cases h
      exact (Blames.literal hliteral).here
  | method span callee args ih =>
    simp only [node] at h
    split at h
    · rcases bind_error h with h | ⟨_, -, h⟩
      · obtain ⟨before, q, after, rfl, hq⟩ := nodes_error h
        exact (ih q (by simp) hq).frame (.method span callee before after)
      · cases h
    · next hmethod =>
      cases h
      exact (Blames.method hmethod).here
  | capability span callee args ih =>
    simp only [node] at h
    split at h
    · rcases bind_error h with h | ⟨ns, hns, h⟩
      · obtain ⟨before, q, after, rfl, hq⟩ := nodes_error h
        exact (ih q (by simp) hq).frame (.capability span callee before after)
      · rcases bind_error h with h | ⟨_, -, h⟩
        · obtain ⟨l, r, rfl, hclash⟩ := capabilityArgs_error h
          obtain ⟨first, second, rfl, hl, hr⟩ := nodes_pair hns
          exact blames_clash (.arguments span callee first second) hl hr hclash
        · cases h
    · next hname =>
      cases h
      exact (Blames.capability hname).here

end GuardCode.Reading

namespace GuardCode.Expr

/-- A text is refused by the check of its nesting, by the grammar, or because of a part of its phrase. -/
theorem parse_error {scope : Scope} {limit : Nat} {source : String} {e : ParseError}
    (h : parse scope limit source = .error e) :
    Nesting.check limit source.toList = .error e ∨
      Nesting.check limit source.toList = .ok () ∧
        ((∃ far, Grammar.phrase source.toList = .error far ∧ e = .ofFurthest far) ∨
          ∃ p, Grammar.phrase source.toList = .ok p ∧
            Reading.BlamesPart scope source.toList p e) := by
  simp only [parse] at h
  rcases Reading.bind_error h with h | ⟨⟨⟩, hcheck, h⟩
  · exact .inl h
  refine .inr ⟨hcheck, ?_⟩
  split at h
  · next far hphrase =>
    cases h
    exact .inl ⟨far, hphrase, rfl⟩
  · next p hphrase =>
    refine .inr ⟨p, hphrase, ?_⟩
    rcases Reading.bind_error h with h | ⟨_, -, h⟩
    · exact Reading.blames_node h
    · cases h

end GuardCode.Expr
