import GuardCode.Proofs.Lowering.Alongside
import GuardCode.Proofs.Lowering.Climbing

/-! Pairs and phrases. Rule by rule the pairs of a text are found side by side with its phrase, and they are
lowered to what the phrase is read as: every pair that the rules can leave has a case and holds the pairs
that its case asks for. -/
namespace GuardCode

open Matcher

namespace Lowering

variable {scope : Scope} {source : List Char}

/-- The pair is lowered to what the phrase is read as. -/
def Lowers (pair : Pair) (p : Phrase) : Prop :=
  ∀ scope source, lower scope source pair = read scope source p

/-- The pair of an operand. -/
structure LowersOperand (pair : Pair) (p : Phrase) : Prop where
  lowers : Lowers pair p
  plain : operator? pair.rule = none
  operand : p.isOperand

/-- An operator and the operand behind it. -/
def Continues (pairs : List Pair) (item : BinaryOp × Phrase) : Prop :=
  ∃ op operand, pairs = [op, operand] ∧ op.rule = .operator item.1 ∧ LowersOperand operand item.2

theorem gather_lowerAll {pairs : List Pair} {ps : List Phrase} (h : List.Forall₂ Lowers pairs ps) :
    gather (lowerAll scope source pairs) = (Reading.nodes scope source ps).mapError .refused := by
  induction h with
  | nil => rfl
  | cons hfirst _ ih =>
    simp only [lowerAll, gather, Reading.nodes, hfirst scope source, ih, mapError_bind]
    rfl

theorem alternate_lowerAll {groups : List (List Pair)} {rest : List (BinaryOp × Phrase)}
    (h : List.Forall₂ Continues groups rest) :
    Alternate scope source (lowerAll scope source groups.flatten) rest := by
  induction h with
  | nil => exact .nil
  | cons hgroup _ ih =>
    obtain ⟨op, operand, rfl, hop, hoperand⟩ := hgroup
    rw [List.flatten_cons, List.cons_append, List.singleton_append, lowerAll, lowerAll,
      hoperand.lowers scope source]
    exact .cons hop hoperand.plain ih

/-! ## Rules -/

theorem lowers_expression {first : Pair} {p : Phrase} {groups : List (List Pair)}
    {rest : List (BinaryOp × Phrase)} {lexeme : Lexeme} (hfirst : LowersOperand first p)
    (hrest : List.Forall₂ Continues groups rest) :
    Lowers (.mk .expression lexeme (first :: groups.flatten)) (.ofChain p rest) := by
  intro scope source
  have hoperands : ∀ item ∈ rest, item.2.isOperand := by
    intro item hitem
    induction hrest with
    | nil => cases hitem
    | cons hgroup _ ih =>
      rcases List.mem_cons.mp hitem with rfl | hitem
      · obtain ⟨op, operand, -, -, hoperand⟩ := hgroup
        exact hoperand.operand
      · exact ih hitem
  rw [lower, lowerAll, hfirst.lowers scope source]
  exact chain_eq hfirst.plain hfirst.operand hoperands (alternate_lowerAll hrest)

theorem lowers_grouped {inner : Pair} {p : Phrase} {lexeme : Lexeme} (h : Lowers inner p) :
    LowersOperand (.mk .grouped lexeme [inner]) (.group lexeme.span p) where
  lowers scope source := by
    simp only [lower, h scope source, read, Reading.node, mapError_bind]
    rfl
  plain := rfl
  operand := rfl

theorem lowers_name (lexeme : Lexeme) : LowersOperand (.mk .name lexeme []) (.name lexeme) where
  lowers scope source := by
    simp only [lower, read, Reading.node]
    cases scope.resolve? (String.ofList lexeme.text) <;> rfl
  plain := rfl
  operand := rfl

theorem lowers_literal (kind : LiteralKind) (lexeme : Lexeme) :
    LowersOperand (.mk (Grammar.literalRule kind) lexeme []) (.literal kind lexeme) where
  lowers scope source := by
    have hlower : lower scope source (.mk (Grammar.literalRule kind) lexeme []) =
        literal (Grammar.literalRule kind) lexeme := by
      cases kind <;> rfl
    have hkind : literalKind? (Grammar.literalRule kind) = some kind := by
      cases kind <;> rfl
    simp only [hlower, literal, hkind, read, Reading.node]
    cases Reading.literal kind lexeme.text <;> rfl
  plain := by cases kind <;> rfl
  operand := rfl

theorem lowers_methodCall {callee lexeme : Lexeme} {args : List Pair} {ps : List Phrase}
    (hargs : List.Forall₂ Lowers args ps) :
    LowersOperand (.mk .methodCall lexeme (.mk .name callee [] :: args))
      (.method lexeme.span callee ps) where
  lowers scope source := by
    simp only [lower, read, Reading.node, gather_lowerAll hargs, Pair.lexeme]
    cases scope.method? (String.ofList callee.text) with
    | none => rfl
    | some found =>
      simp only [mapError_bind]
      rfl
  plain := rfl
  operand := rfl

theorem lowers_capabilityCall {callee lexeme : Lexeme} {args : List Pair} {ps : List Phrase}
    (hargs : List.Forall₂ Lowers args ps) :
    LowersOperand (.mk .capabilityCall lexeme (.mk .name callee [] :: args))
      (.capability lexeme.span callee ps) where
  lowers scope source := by
    simp only [lower, read, Reading.node, gather_lowerAll hargs, Pair.lexeme]
    cases Capability.ofName? (String.ofList callee.text) with
    | none => rfl
    | some c =>
      simp only [mapError_bind]
      rfl
  plain := rfl
  operand := rfl

end Lowering

/-! ## Matchers -/

namespace Pairs

open Lowering

variable {nested : Matcher Pair} {nested' : Matcher Phrase}

theorem alongside_operator :
    Alongside (fun pair op => pair.rule = .operator op) operator Grammar.operator := by
  refine Alongside.choice ?_
  rw [List.forall₂_map_left_iff, List.forall₂_map_right_iff, List.forall₂_same]
  intro op _
  rw [rule_map]
  refine (Alongside.leaf (.operator op) (Token.word op.symbol.toList)).made ?_
  rintro _ lexeme rfl
  rfl

theorem alongside_name :
    Alongside (fun pair lexeme => pair = .mk .name lexeme []) name Grammar.name :=
  Alongside.leaf .name Token.name

theorem alongside_literal : Alongside LowersOperand literal Grammar.literal := by
  refine Alongside.choice ?_
  rw [List.forall₂_map_left_iff, List.forall₂_map_right_iff, List.forall₂_same]
  intro kind _
  rw [Grammar.literalOf, rule_map]
  refine (Alongside.leaf (Grammar.literalRule kind) (Grammar.literalScan kind)).made ?_
  rintro _ lexeme rfl
  exact lowers_literal kind lexeme

theorem alongside_grouped (h : Alongside Lowers nested nested') :
    Alongside LowersOperand (grouped nested) (Grammar.grouped nested') := by
  have hinner : Alongside (fun pairs p => ∃ pair, pairs = [pair] ∧ Lowers pair p)
      (do
        let _ ← symbol "("
        skip
        let inner ← nested
        skip
        let _ ← symbol ")"
        return [inner])
      (do
        let _ ← symbol "("
        skip
        let inner ← nested'
        skip
        let _ ← symbol ")"
        return inner) := by
    refine (Alongside.same _).bind fun _ _ _ => ?_
    refine (Alongside.same _).bind fun _ _ _ => ?_
    refine h.bind fun pair p hpair => ?_
    refine (Alongside.same _).bind fun _ _ _ => ?_
    refine (Alongside.same _).bind fun _ _ _ => ?_
    exact Alongside.result ⟨pair, rfl, hpair⟩
  have hgroup := Alongside.spanned (P := LowersOperand) .grouped Phrase.group hinner
    fun pairs p lexeme => by
      rintro ⟨pair, rfl, hpair⟩
      exact lowers_grouped hpair
  simpa only [Grammar.grouped, grouped, Matcher.bind_assoc, Matcher.pure_bind] using hgroup

theorem alongside_arguments (h : Alongside Lowers nested nested') :
    Alongside (List.Forall₂ Lowers) (arguments nested) (Grammar.arguments nested') := by
  refine h.bind fun first first' hfirst => ?_
  have hother : Alongside Lowers
      (do
        let _ ← symbol ","
        skip
        nested)
      (do
        let _ ← symbol ","
        skip
        nested') :=
    (Alongside.same _).bind fun _ _ _ => (Alongside.same _).bind fun _ _ _ => h
  exact hother.followers.bind fun others others' hothers => Alongside.result (.cons hfirst hothers)

theorem alongside_argumentList (h : Alongside Lowers nested nested') :
    Alongside (List.Forall₂ Lowers) (argumentList nested) (Grammar.argumentList nested') := by
  refine (Alongside.same _).bind fun _ _ _ => ?_
  refine (Alongside.same _).bind fun _ _ _ => ?_
  refine (alongside_arguments h).optional.bind fun args args' hargs => ?_
  refine (Alongside.same _).bind fun _ _ _ => ?_
  refine (Alongside.same _).bind fun _ _ _ => Alongside.result ?_
  cases hargs with
  | none => exact .nil
  | some hargs => exact hargs

/-- The name and the arguments of a call. -/
theorem alongside_call (h : Alongside Lowers nested nested') :
    Alongside (fun pairs (call : Lexeme × List Phrase) =>
        ∃ args, pairs = .mk .name call.1 [] :: args ∧ List.Forall₂ Lowers args call.2)
      (do
        let callee ← name
        skip
        let args ← argumentList nested
        return callee :: args)
      (do
        let callee ← Grammar.name
        skip
        let args ← Grammar.argumentList nested'
        return (callee, args)) := by
  refine alongside_name.bind fun pair callee hcallee => ?_
  refine (Alongside.same _).bind fun _ _ _ => ?_
  refine (alongside_argumentList h).bind fun args ps hargs => Alongside.result ?_
  exact ⟨args, by rw [hcallee], hargs⟩

theorem alongside_methodCall (h : Alongside Lowers nested nested') :
    Alongside LowersOperand (methodCall nested) (Grammar.methodCall nested') := by
  have hcall := Alongside.spanned (P := LowersOperand) .methodCall
    (fun span call => Phrase.method span call.1 call.2) (alongside_call h)
    fun pairs call lexeme => by
      rintro ⟨args, rfl, hargs⟩
      exact lowers_methodCall hargs
  simpa only [Grammar.methodCall, methodCall, Matcher.bind_assoc, Matcher.pure_bind] using hcall

theorem alongside_capabilityCall (h : Alongside Lowers nested nested') :
    Alongside LowersOperand (capabilityCall nested) (Grammar.capabilityCall nested') := by
  have hmarked := (Alongside.same (symbol "@")).bind fun _ _ _ =>
    (Alongside.same skip).bind fun _ _ _ => alongside_call h
  have hcall := Alongside.spanned (P := LowersOperand) .capabilityCall
    (fun span call => Phrase.capability span call.1 call.2) hmarked
    fun pairs call lexeme => by
      rintro ⟨args, rfl, hargs⟩
      exact lowers_capabilityCall hargs
  simpa only [Grammar.capabilityCall, capabilityCall, Matcher.bind_assoc, Matcher.pure_bind]
    using hcall

theorem alongside_primary (h : Alongside Lowers nested nested') :
    Alongside LowersOperand (primary nested) (Grammar.primary nested') := by
  have hname : Alongside LowersOperand name (Phrase.name <$> Grammar.name) := by
    refine alongside_name.made ?_
    rintro _ lexeme rfl
    exact lowers_name lexeme
  exact Alongside.choice (.cons (alongside_grouped h) (.cons (alongside_capabilityCall h)
    (.cons (alongside_methodCall h) (.cons alongside_literal (.cons hname .nil)))))

theorem alongside_expressionOver (h : Alongside Lowers nested nested') :
    Alongside Lowers (expressionOver nested) (Grammar.expressionOver nested') := by
  have hcontinue : Alongside Continues
      (do
        let op ← operator
        skip
        let operand ← primary nested
        return [op, operand])
      (do
        let op ← Grammar.operator
        skip
        let operand ← Grammar.primary nested'
        return (op, operand)) := by
    refine alongside_operator.bind fun op o hop => ?_
    refine (Alongside.same _).bind fun _ _ _ => ?_
    refine (alongside_primary h).bind fun operand p hoperand => Alongside.result ?_
    exact ⟨op, operand, rfl, hop, hoperand⟩
  refine Alongside.paired .expression
    (I := fun pairs p => ∃ first groups, pairs = first :: groups.flatten ∧
      ∃ q rest, p = Phrase.ofChain q rest ∧ LowersOperand first q ∧ List.Forall₂ Continues groups rest)
    ?inner ?pair
  case inner =>
    refine (alongside_primary h).bind fun first q hfirst => ?_
    refine hcontinue.followers.bind fun groups rest hrest => Alongside.result ?_
    exact ⟨first, groups, rfl, q, rest, rfl, hfirst, hrest⟩
  case pair =>
    rintro _ _ lexeme ⟨first, groups, rfl, q, rest, rfl, hfirst, hrest⟩
    exact lowers_expression hfirst hrest

/-- The pair of an expression is lowered to what its phrase is read as. -/
theorem alongside_expression (depth : Nat) :
    Alongside Lowers (expression depth) (Grammar.expression depth) := by
  induction depth with
  | zero => exact Alongside.failure
  | succ depth ih => exact alongside_expressionOver ih

theorem alongside_endOfInput : Alongside (fun _ _ => True) endOfInput Grammar.endOfInput := by
  refine Alongside.paired .endOfInput (I := fun _ _ => True) (fun c far => ?_) fun _ _ _ _ => trivial
  split
  · exact .found trivial
  · exact .failed

/-- The pair of a whole text holds that of its expression. -/
theorem alongside_main (depth : Nat) :
    Alongside (fun pair p => ∃ expression stop, pair.inner = [expression, stop] ∧ Lowers expression p)
      (main depth) (Grammar.main depth) := by
  refine Alongside.paired .main
    (I := fun pairs p => ∃ expression stop, pairs = [expression, stop] ∧ Lowers expression p) ?inner ?pair
  case inner =>
    refine (Alongside.same _).bind fun _ _ _ => ?_
    refine (alongside_expression depth).bind fun expression p hexpression => ?_
    refine (Alongside.same _).bind fun _ _ _ => ?_
    refine alongside_endOfInput.bind fun stop _ _ => Alongside.result ?_
    exact ⟨expression, stop, rfl, hexpression⟩
  case pair => exact fun pairs p lexeme hinner => hinner

end Pairs

/-- Run on one text, both fail with the same on record or both find what belongs together. -/
theorem Matcher.Alongside.runAt {α β : Type} {R : α → β → Prop} {m : Matcher α} {k : Matcher β}
    (h : Alongside R m k) (source : List Char) :
    (∃ far, Grammar.runAt m source = .error far ∧ Grammar.runAt k source = .error far) ∨
      ∃ a b c, Grammar.runAt m source = .ok (a, c) ∧ Grammar.runAt k source = .ok (b, c) ∧ R a b := by
  simp only [Grammar.runAt]
  rcases h.outcome ⟨source, 0⟩ {} with ⟨far, hm, hk⟩ | ⟨a, b, c, far, hm, hk, hab⟩
  · rw [hm, hk]
    exact .inl ⟨far, rfl, rfl⟩
  · rw [hm, hk]
    exact .inr ⟨a, b, c, rfl, rfl, hab⟩

/-- Reading by way of pairs is reading the phrase: what it refuses is refused with the same error, and it
has no other setbacks. -/
theorem Lowering.parse_eq (scope : Scope) (limit : Nat) (source : String) :
    Lowering.parse scope limit source = (Expr.parse scope limit source).mapError .refused := by
  simp only [Lowering.parse, Expr.parse, mapError_bind]
  refine congrArg (Except.bind _) (funext fun _ => ?_)
  rcases (Pairs.alongside_main (Grammar.depthOf source.toList)).runAt source.toList with
    ⟨far, hpairs, hphrase⟩ | ⟨main, p, c, hpairs, hphrase, expression, stop, hinner, hexpression⟩
  · simp only [Pairs.ofSource, Grammar.phrase, hpairs, hphrase]
    rfl
  · simp only [Pairs.ofSource, Grammar.phrase, hpairs, hphrase, Except.map, ofPairs, hinner,
      hexpression scope source.toList, mapError_bind]
    rfl

end GuardCode
