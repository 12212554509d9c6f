import GuardCode.Proofs.Reading.Readable

/-! What a successful reading consists of, and what it gives: a readable expression, whose text nests
no deeper than the phrase that was read. -/
namespace GuardCode.Reading

variable {scope : Scope} {source : List Char} {n : Node}

/-! One step of the reading. -/

theorem bind_ok {ε α β : Type} {x : Except ε α} {f : α → Except ε β} {b : β}
    (h : (x >>= f) = .ok b) : ∃ a, x = .ok a ∧ f a = .ok b := by
  cases x with
  | error => cases h
  | ok a => exact ⟨a, rfl, h⟩

theorem checkOperands_eq_ok {left right : Node} :
    checkOperands left right = .ok () ↔ left.expr.type.meets right.expr.type := by
  simp only [checkOperands]
  split <;> simp_all

theorem binary_ok {op : BinaryOp} {left right : Node} (h : binary source op left right = .ok n) :
    ∃ left' right' : Node, n.expr = .binary op left'.expr right'.expr ∧ n.loose? = none ∧
      (op.isLogical ∧ left' = left ∧ right' = right ∨
        op.isLogical = false ∧ unify source left right = .ok (left', right') ∧
          (op.isShift = false → left'.expr.type.meets right'.expr.type)) := by
  cases hlogical : op.isLogical with
  | true =>
    simp only [binary, hlogical, if_true, Bool.not_true, Bool.false_and, Bool.false_eq_true,
      if_false] at h
    cases h
    exact ⟨left, right, rfl, rfl, .inl ⟨rfl, rfl, rfl⟩⟩
  | false =>
    simp only [binary, hlogical, Bool.false_eq_true, if_false, Bool.not_false, Bool.true_and] at h
    obtain ⟨⟨left', right'⟩, hunify, h⟩ := bind_ok h
    cases hshift : op.isShift with
    | true =>
      simp only [hshift, Bool.not_true, Bool.false_eq_true, if_false] at h
      cases h
      exact ⟨left', right', rfl, rfl, .inr ⟨rfl, hunify, nofun⟩⟩
    | false =>
      simp only [hshift, Bool.not_false, if_true] at h
      obtain ⟨⟨⟩, hcheck, h⟩ := bind_ok h
      cases h
      exact ⟨left', right', rfl, rfl, .inr ⟨rfl, hunify, fun _ => checkOperands_eq_ok.mp hcheck⟩⟩

theorem binary_logical {op : BinaryOp} (h : op.isLogical) (left right : Node) :
    binary source op left right =
      .ok { expr := .binary op left.expr right.expr, span := left.span.combine right.span } := by
  simp only [binary, h, if_true, Bool.not_true, Bool.false_and, Bool.false_eq_true, if_false]
  rfl

theorem binary_met {op : BinaryOp} {left right left' right' : Node} (h : op.isLogical = false)
    (hunify : unify source left right = .ok (left', right'))
    (hmeet : op.isShift = false → left'.expr.type.meets right'.expr.type) :
    binary source op left right =
      .ok { expr := .binary op left'.expr right'.expr, span := left'.span.combine right'.span } := by
  cases hshift : op.isShift with
  | true =>
    simp only [binary, h, hshift, hunify, Bool.false_eq_true, if_false, Bool.not_false,
      Bool.true_and, Bool.not_true]
    rfl
  | false =>
    have hcheck := checkOperands_eq_ok.mpr (hmeet hshift)
    simp only [binary, h, hshift, hunify, Bool.false_eq_true, if_false, Bool.not_false,
      Bool.true_and, if_true, bind, Except.bind, hcheck]
    rfl

theorem capabilityArgs_ok {c : Capability} {ns ns' : List Node}
    (h : capabilityArgs source c ns = .ok ns') :
    (∃ a b a' b', ns = [a, b] ∧ ns' = [a', b'] ∧ unify source a b = .ok (a', b') ∧
      (c.isArithmetic → a'.expr.type.meets b'.expr.type)) ∨
      ns' = ns ∧ ∀ a b, ns ≠ [a, b] := by
  unfold capabilityArgs at h
  split at h
  · next a b =>
    obtain ⟨⟨a', b'⟩, hunify, h⟩ := bind_ok h
    simp only at h
    split at h
    · obtain ⟨⟨⟩, hcheck, h⟩ := bind_ok h
      cases h
      exact .inl ⟨a, b, a', b', rfl, rfl, hunify, fun _ => checkOperands_eq_ok.mp hcheck⟩
    · next hother =>
      cases h
      exact .inl ⟨a, b, a', b', rfl, rfl, hunify, fun harith => absurd harith hother⟩
  · next hne =>
    cases h
    exact .inr ⟨rfl, hne⟩

theorem capabilityArgs_pair {c : Capability} {a b a' b' : Node}
    (hunify : unify source a b = .ok (a', b'))
    (hmeet : c.isArithmetic → a'.expr.type.meets b'.expr.type) :
    capabilityArgs source c [a, b] = .ok [a', b'] := by
  cases harith : c.isArithmetic with
  | true =>
    have hcheck := checkOperands_eq_ok.mpr (hmeet harith)
    simp only [capabilityArgs, hunify, harith, if_true, bind, Except.bind, hcheck]
    rfl
  | false =>
    simp only [capabilityArgs, hunify, harith, Bool.false_eq_true, if_false]
    rfl

theorem capabilityArgs_other {c : Capability} {ns : List Node} (h : ∀ a b, ns ≠ [a, b]) :
    capabilityArgs source c ns = .ok ns := by
  unfold capabilityArgs
  split
  · next a b => exact absurd rfl (h a b)
  · rfl

/-- An operand is what was read or a literal with its type changed. -/
theorem operands_cases {op : BinaryOp} {left right left' right' : Node}
    (h : op.isLogical ∧ left' = left ∧ right' = right ∨
      op.isLogical = false ∧ unify source left right = .ok (left', right') ∧
        (op.isShift = false → left'.expr.type.meets right'.expr.type)) :
    (left'.expr = left.expr ∨ ∃ l, left'.expr = .literal l) ∧
      (right'.expr = right.expr ∨ ∃ l, right'.expr = .literal l) := by
  rcases h with ⟨-, rfl, rfl⟩ | ⟨-, hunify, -⟩
  · exact ⟨.inl rfl, .inl rfl⟩
  · exact unify_cases hunify

theorem arguments_cases {c : Capability} {ns ns' : List Node}
    (h : capabilityArgs source c ns = .ok ns') :
    ∀ m' ∈ ns', ∃ m ∈ ns, m'.expr = m.expr ∨ ∃ l, m'.expr = .literal l := by
  rcases capabilityArgs_ok h with ⟨a, b, a', b', rfl, rfl, hunify, -⟩ | ⟨rfl, -⟩
  · obtain ⟨ha, hb⟩ := unify_cases hunify
    simpa [List.forall_mem_cons] using ⟨.inl ha, .inr hb⟩
  · exact fun m hm => ⟨m, hm, .inl rfl⟩

theorem node_binary {op : BinaryOp} {left right : Phrase}
    (h : node scope source (.binary op left right) = .ok n) :
    ∃ l r, node scope source left = .ok l ∧ node scope source right = .ok r ∧
      binary source op l r = .ok n := by
  rw [node] at h
  obtain ⟨l, hl, h⟩ := bind_ok h
  obtain ⟨r, hr, h⟩ := bind_ok h
  exact ⟨l, r, hl, hr, h⟩

theorem node_group {span : Span} {inner : Phrase}
    (h : node scope source (.group span inner) = .ok n) :
    ∃ m, node scope source inner = .ok m ∧ n.expr = m.expr ∧ n.loose? = m.loose? := by
  rw [node] at h
  obtain ⟨m, hm, h⟩ := bind_ok h
  cases h
  exact ⟨m, hm, rfl, rfl⟩

theorem node_name {lexeme : Lexeme} (h : node scope source (.name lexeme) = .ok n) :
    ∃ m, scope.resolve? (String.ofList lexeme.text) = some m ∧ n.expr = .member m ∧
      n.loose? = none := by
  simp only [node] at h
  split at h
  · next m hresolve =>
    cases h
    exact ⟨m, hresolve, rfl, rfl⟩
  · cases h

theorem node_literal {kind : LiteralKind} {lexeme : Lexeme}
    (h : node scope source (.literal kind lexeme) = .ok n) :
    ∃ l, literal kind lexeme.text = .ok (l, n.loose?) ∧ n.expr = .literal l := by
  simp only [node] at h
  split at h
  · next l loose? hliteral =>
    cases h
    exact ⟨l, hliteral, rfl⟩
  · cases h

theorem node_method {span : Span} {callee : Lexeme} {args : List Phrase}
    (h : node scope source (.method span callee args) = .ok n) :
    ∃ method returns ns, scope.method? (String.ofList callee.text) = some (method, returns) ∧
      nodes scope source args = .ok ns ∧
      n.expr = .call (.method method) (ns.map (·.expr)) returns ∧ n.loose? = none := by
  simp only [node] at h
  split at h
  · next method returns hmethod =>
    obtain ⟨ns, hns, h⟩ := bind_ok h
    cases h
    exact ⟨method, returns, ns, hmethod, hns, rfl, rfl⟩
  · cases h

theorem node_capability {span : Span} {callee : Lexeme} {args : List Phrase}
    (h : node scope source (.capability span callee args) = .ok n) :
    ∃ c ns ns', nodes scope source args = .ok ns ∧ capabilityArgs source c ns = .ok ns' ∧
      n.expr = .call (.capability c) (placed c.params (ns'.map (·.expr)))
        (capabilityType c (placed c.params (ns'.map (·.expr)))) ∧ n.loose? = none ∧
      Capability.ofName? (String.ofList callee.text) = some c := by
  simp only [node] at h
  split at h
  · next c hname =>
    obtain ⟨ns, hns, h⟩ := bind_ok h
    obtain ⟨ns', hns', h⟩ := bind_ok h
    cases h
    exact ⟨c, ns, ns', hns, hns', rfl, rfl, hname⟩
  · cases h

theorem nodes_cons {p : Phrase} {ps : List Phrase} {ns : List Node}
    (h : nodes scope source (p :: ps) = .ok ns) : ∃ first others,
      node scope source p = .ok first ∧ nodes scope source ps = .ok others ∧
        ns = first :: others := by
  rw [nodes] at h
  obtain ⟨first, hfirst, h⟩ := bind_ok h
  obtain ⟨others, hothers, h⟩ := bind_ok h
  cases h
  exact ⟨first, others, hfirst, hothers, rfl⟩

theorem nodes_ok {ps : List Phrase} {ns : List Node} (h : nodes scope source ps = .ok ns) :
    ∀ n ∈ ns, ∃ p ∈ ps, node scope source p = .ok n := by
  induction ps generalizing ns with
  | nil =>
    cases h
    nofun
  | cons p ps ih =>
    obtain ⟨first, others, hfirst, hothers, rfl⟩ := nodes_cons h
    refine List.forall_mem_cons.mpr ⟨⟨p, List.mem_cons_self, hfirst⟩, fun m hm => ?_⟩
    obtain ⟨q, hq, hnode⟩ := ih hothers m hm
    exact ⟨q, List.mem_cons_of_mem _ hq, hnode⟩

/-! Looseness. -/

theorem proper_node {p : Phrase} (h : node scope source p = .ok n) : n.Proper := by
  induction p generalizing n with
  | binary op left right _ _ =>
    obtain ⟨l, r, -, -, h⟩ := node_binary h
    obtain ⟨l', r', hexpr, hloose, -⟩ := binary_ok h
    exact .firm hloose (by rw [hexpr]; rfl)
  | group span inner ih =>
    obtain ⟨m, hm, hexpr, hloose⟩ := node_group h
    exact (ih hm).congr hexpr hloose
  | name lexeme =>
    obtain ⟨m, -, hexpr, hloose⟩ := node_name h
    exact .firm hloose (by rw [hexpr]; rfl)
  | literal kind lexeme =>
    obtain ⟨l, hliteral, hexpr⟩ := node_literal h
    exact (literal_proper hliteral n.span).congr hexpr rfl
  | method span callee args _ =>
    obtain ⟨_, _, _, -, -, hexpr, hloose⟩ := node_method h
    exact .firm hloose (by rw [hexpr]; rfl)
  | capability span callee args _ =>
    obtain ⟨_, _, _, -, -, hexpr, hloose, -⟩ := node_capability h
    exact .firm hloose (by rw [hexpr]; rfl)

end GuardCode.Reading

namespace GuardCode.Expr

variable {scope : Scope} {limit : Nat} {source : String} {e : Expr}

theorem parse_eq_ok : parse scope limit source = .ok e ↔
    Nesting.check limit source.toList = .ok () ∧ ∃ p n,
      Grammar.phrase source.toList = .ok p ∧ Reading.node scope source.toList p = .ok n ∧
        n.expr = e := by
  simp only [parse]
  cases hcheck : Nesting.check limit source.toList with
  | error => simp [bind, Except.bind]
  | ok =>
    cases hphrase : Grammar.phrase source.toList with
    | error => simp [bind, Except.bind, throw, throwThe, MonadExceptOf.throw]
    | ok p =>
      cases hnode : Reading.node scope source.toList p with
      | error => simp [bind, Except.bind, hnode]
      | ok n => simp [bind, Except.bind, hnode, pure, Except.pure]

theorem ok_of_toOption {ε α : Type} {x : Except ε α} {a : α} (h : x.toOption = some a) :
    x = .ok a := by
  cases x with
  | error => cases h
  | ok b =>
    cases h
    rfl

end GuardCode.Expr
