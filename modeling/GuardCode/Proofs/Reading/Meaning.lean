import GuardCode.Proofs.Grammar.Places
import GuardCode.Proofs.Reading.Parsed
import Mathlib.Data.List.Forall2

/-! What a phrase is read as. The expression has the shape of the phrase, node for node; parentheses
and places have no part in it. -/
namespace GuardCode.Reading

variable {scope : Scope} {source source' : List Char}

/-! ## The shape -/

mutual

/-- An expression has the shape of a phrase: operators and calls have theirs, a name is a member, as a
value or as a reference, and a literal is its value, in its own type or in one it took on. -/
def Denotes (scope : Scope) : Phrase → Expr → Prop
  | .binary op left right, e =>
    ∃ l r, e = .binary op l r ∧ Denotes scope left l ∧ Denotes scope right r
  | .group _ inner, e => Denotes scope inner e
  | .name lexeme, e => ∃ m, scope.resolve? (String.ofList lexeme.text) = some m ∧
      (e = .member m ∨ e = .carried (.member m))
  | .literal kind lexeme, e => ∃ value loose?, literal kind lexeme.text = .ok (value, loose?) ∧
      (e = .literal value ∨ ∃ loose type value', loose? = some loose ∧
        loose.adopt type = .adopted value' ∧ e = .literal value')
  | .method _ callee args, e => ∃ m type es,
      scope.method? (String.ofList callee.text) = some (m, type) ∧ DenotesAll scope args es ∧
        e = .call (.method m) es type
  | .capability _ callee args, e => ∃ c type es,
      Capability.ofName? (String.ofList callee.text) = some c ∧ DenotesAll scope args es ∧
        e = .call (.capability c) es type

def DenotesAll (scope : Scope) : List Phrase → List Expr → Prop
  | [], [] => True
  | p :: ps, e :: es => Denotes scope p e ∧ DenotesAll scope ps es
  | _, _ => False

end

/-- The same of a node and of every literal that it can become. -/
structure NodeDenotes (scope : Scope) (p : Phrase) (n : Node) : Prop where
  denotes : Denotes scope p n.expr
  adopts : ∀ loose type value, n.loose? = some loose → loose.adopt type = .adopted value →
    Denotes scope p (.literal value)

variable {p q : Phrase} {n n' l r l' r' : Node}

theorem NodeDenotes.firm (h : Denotes scope p n.expr) (hloose : n.loose? = none) :
    NodeDenotes scope p n :=
  ⟨h, fun loose type value hsome => by simp [hloose] at hsome⟩

theorem NodeDenotes.coerce {type : Ty} (h : NodeDenotes scope p n)
    (hcoerce : coerce source n type = .ok n') : Denotes scope p n'.expr := by
  rcases coerce_cases hcoerce with ⟨-, rfl⟩ | ⟨_, _, _, rfl⟩ | ⟨loose, value, hloose, hadopt, hexpr⟩
  · exact h.denotes
  · exact h.denotes
  · rw [hexpr]
    exact h.adopts loose type value hloose hadopt

theorem denotes_unify (hl : NodeDenotes scope p l) (hr : NodeDenotes scope q r)
    (h : unify source l r = .ok (l', r')) :
    Denotes scope p l'.expr ∧ Denotes scope q r'.expr := by
  rcases unify_ok h with ⟨-, hcoerce, rfl⟩ | ⟨-, hcoerce, rfl⟩ | ⟨_, _, _, _, rfl, rfl⟩
  · exact ⟨hl.coerce hcoerce, hr.denotes⟩
  · exact ⟨hl.denotes, hr.coerce hcoerce⟩
  · exact ⟨hl.denotes, hr.denotes⟩

/-- A member can be a reference instead. -/
theorem Denotes.asTarget {e : Expr} (h : Denotes scope p e) : Denotes scope p (asTarget e) := by
  cases e with
  | member m =>
    induction p with
    | group span inner ih => exact ih h
    | name lexeme =>
      obtain ⟨m', hresolve, hm⟩ := h
      rcases hm with hm | hm
      · cases hm
        exact ⟨m, hresolve, .inr rfl⟩
      · cases hm
    | binary op left right =>
      obtain ⟨l, r, heq, -⟩ := h
      cases heq
    | literal kind lexeme =>
      obtain ⟨_, _, -, heq | ⟨_, _, _, -, -, heq⟩⟩ := h
      · cases heq
      · cases heq
    | method span callee args =>
      obtain ⟨_, _, _, -, -, heq⟩ := h
      cases heq
    | capability span callee args =>
      obtain ⟨_, _, _, -, -, heq⟩ := h
      cases heq
  | _ => exact h

theorem DenotesAll.placed {ps : List Phrase} {es : List Expr} (h : DenotesAll scope ps es)
    (kinds : List ParamKind) : DenotesAll scope ps (placed kinds es) := by
  induction ps generalizing es kinds with
  | nil =>
    cases es with
    | nil => rwa [Expr.placed_nil]
    | cons => exact h.elim
  | cons p ps ih =>
    cases es with
    | nil => exact h.elim
    | cons e es =>
      obtain ⟨e', kinds', he, hplaced⟩ := Expr.placed_cons kinds e es
      rw [hplaced]
      refine ⟨?_, ih h.2 kinds'⟩
      rcases he with rfl | rfl
      · exact h.1
      · exact h.1.asTarget

theorem denotes_nodes {ps : List Phrase} {ns : List Node}
    (h : ∀ p ∈ ps, ∀ n, node scope source p = .ok n → NodeDenotes scope p n)
    (hnodes : nodes scope source ps = .ok ns) : List.Forall₂ (NodeDenotes scope) ps ns := by
  induction ps generalizing ns with
  | nil =>
    cases hnodes
    exact .nil
  | cons p ps ih =>
    obtain ⟨first, others, hfirst, hothers, rfl⟩ := nodes_cons hnodes
    obtain ⟨hp, hps⟩ := List.forall_mem_cons.mp h
    exact .cons (hp first hfirst) (ih hps hothers)

theorem denotesAll_of_nodes {ps : List Phrase} {ns : List Node}
    (h : List.Forall₂ (NodeDenotes scope) ps ns) : DenotesAll scope ps (ns.map (·.expr)) := by
  induction h with
  | nil => trivial
  | cons hn _ ih => exact ⟨hn.denotes, ih⟩

theorem denotes_capabilityArgs {c : Capability} {ps : List Phrase} {ns ns' : List Node}
    (h : List.Forall₂ (NodeDenotes scope) ps ns) (hargs : capabilityArgs source c ns = .ok ns') :
    DenotesAll scope ps (ns'.map (·.expr)) := by
  rcases capabilityArgs_ok hargs with ⟨a, b, a', b', rfl, rfl, hunify, -⟩ | ⟨rfl, -⟩
  · cases h with
    | cons ha h =>
      cases h with
      | cons hb h =>
        cases h
        obtain ⟨ha', hb'⟩ := denotes_unify ha hb hunify
        exact ⟨ha', hb', trivial⟩
  · exact denotesAll_of_nodes h

theorem denotes_node (h : node scope source p = .ok n) : NodeDenotes scope p n := by
  induction p generalizing n with
  | binary op left right ihl ihr =>
    obtain ⟨l, r, hl, hr, hbinary⟩ := node_binary h
    obtain ⟨l', r', hexpr, hloose, hmet⟩ := binary_ok hbinary
    refine .firm ?_ hloose
    rw [hexpr]
    refine ⟨l'.expr, r'.expr, rfl, ?_⟩
    rcases hmet with ⟨-, rfl, rfl⟩ | ⟨-, hunify, -⟩
    · exact ⟨(ihl hl).denotes, (ihr hr).denotes⟩
    · exact denotes_unify (ihl hl) (ihr hr) hunify
  | group span inner ih =>
    obtain ⟨m, hm, hexpr, hloose⟩ := node_group h
    refine ⟨?_, fun loose type value hsome hadopt => ?_⟩
    · rw [hexpr]
      exact (ih hm).denotes
    · exact (ih hm).adopts loose type value (hloose ▸ hsome) hadopt
  | name lexeme =>
    obtain ⟨m, hresolve, hexpr, hloose⟩ := node_name h
    exact .firm ⟨m, hresolve, .inl hexpr⟩ hloose
  | literal kind lexeme =>
    obtain ⟨value, hliteral, hexpr⟩ := node_literal h
    refine ⟨⟨value, n.loose?, hliteral, .inl hexpr⟩, fun loose type value' hsome hadopt => ?_⟩
    exact ⟨value, n.loose?, hliteral, .inr ⟨loose, type, value', hsome, hadopt, rfl⟩⟩
  | method span callee args ih =>
    obtain ⟨m, returns, ns, hmethod, hns, hexpr, hloose⟩ := node_method h
    have hall := denotes_nodes (fun p hp n => ih p hp) hns
    exact .firm ⟨m, returns, _, hmethod, denotesAll_of_nodes hall, hexpr⟩ hloose
  | capability span callee args ih =>
    obtain ⟨c, ns, ns', hns, hargs, hexpr, hloose, hname⟩ := node_capability h
    have hall := denotes_capabilityArgs (denotes_nodes (fun p hp n => ih p hp) hns) hargs
    exact .firm ⟨c, _, _, hname, hall.placed c.params, hexpr⟩ hloose

/-! ## Operators at their places -/

theorem DenotesAll.of_mem {ps : List Phrase} {es : List Expr} (h : DenotesAll scope ps es) {e : Expr}
    (he : e ∈ es) : ∃ before p after, ps = before ++ p :: after ∧ Denotes scope p e := by
  induction ps generalizing es with
  | nil =>
    cases es with
    | nil => cases he
    | cons => exact h.elim
  | cons p ps ih =>
    cases es with
    | nil => cases he
    | cons first es =>
      rcases List.mem_cons.mp he with rfl | he
      · exact ⟨[], p, ps, rfl, h.1⟩
      · obtain ⟨before, q, after, rfl, hq⟩ := ih h.2 he
        exact ⟨p :: before, q, after, rfl, hq⟩

/-- An operator of the expression stands at a place of the phrase, with what its operands are
written as. -/
theorem Denotes.operator {e left right : Expr} {op : BinaryOp} (h : Denotes scope p e)
    (hpart : Expr.Part (.binary op left right) e) : ∃ place l r,
      Phrase.fill place (.binary op l r) = p ∧ Denotes scope l left ∧ Denotes scope r right := by
  induction p generalizing e with
  | binary op' l' r' ihl ihr =>
    obtain ⟨x, y, rfl, hx, hy⟩ := h
    rcases Expr.part_binary.mp hpart with heq | hpart | hpart
    · cases heq
      exact ⟨[], l', r', rfl, hx, hy⟩
    · obtain ⟨place, l, r, rfl, hl, hr⟩ := ihl hx hpart
      exact ⟨.left op' r' :: place, l, r, rfl, hl, hr⟩
    · obtain ⟨place, l, r, rfl, hl, hr⟩ := ihr hy hpart
      exact ⟨.right op' l' :: place, l, r, rfl, hl, hr⟩
  | group span inner ih =>
    obtain ⟨place, l, r, rfl, hl, hr⟩ := ih h hpart
    exact ⟨.inner span :: place, l, r, rfl, hl, hr⟩
  | name lexeme =>
    obtain ⟨m, -, rfl | rfl⟩ := h
    · cases Expr.part_member.mp hpart
    · cases Expr.part_carried.mp hpart
  | literal kind lexeme =>
    obtain ⟨_, _, -, rfl | ⟨_, _, _, -, -, rfl⟩⟩ := h
    · cases Expr.part_literal.mp hpart
    · cases Expr.part_literal.mp hpart
  | method span callee args ih =>
    obtain ⟨m, type, es, -, hall, rfl⟩ := h
    rcases Expr.part_call.mp hpart with heq | ⟨a, ha, hpart⟩
    · cases heq
    · obtain ⟨before, q, after, rfl, hq⟩ := hall.of_mem ha
      obtain ⟨place, l, r, rfl, hl, hr⟩ := ih q (by simp) hq hpart
      exact ⟨.method span callee before after :: place, l, r, rfl, hl, hr⟩
  | capability span callee args ih =>
    obtain ⟨c, type, es, -, hall, rfl⟩ := h
    rcases Expr.part_call.mp hpart with heq | ⟨a, ha, hpart⟩
    · cases heq
    · obtain ⟨before, q, after, rfl, hq⟩ := hall.of_mem ha
      obtain ⟨place, l, r, rfl, hl, hr⟩ := ih q (by simp) hq hpart
      exact ⟨.capability span callee before after :: place, l, r, rfl, hl, hr⟩

/-- What stands for an operator is an operator, or parentheses around one. -/
theorem Denotes.top {left right : Expr} {op : BinaryOp}
    (h : Denotes scope p (.binary op left right)) :
    (∃ span inner, p = .group span inner) ∨ ∃ l r, p = .binary op l r := by
  cases p with
  | binary op' l r =>
    obtain ⟨x, y, heq, -⟩ := h
    cases heq
    exact .inr ⟨l, r, rfl⟩
  | group span inner => exact .inl ⟨span, inner, rfl⟩
  | name lexeme =>
    obtain ⟨m, -, heq | heq⟩ := h
    · cases heq
    · cases heq
  | literal kind lexeme =>
    obtain ⟨_, _, -, heq | ⟨_, _, _, -, -, heq⟩⟩ := h
    · cases heq
    · cases heq
  | method span callee args =>
    obtain ⟨_, _, _, -, -, heq⟩ := h
    cases heq
  | capability span callee args =>
    obtain ⟨_, _, _, -, -, heq⟩ := h
    cases heq

/-! ## Parentheses and places -/

theorem coerce_same {type : Ty} (h : coerce source n type = .ok n') {m : Node}
    (hexpr : m.expr = n.expr) (hloose : m.loose? = n.loose?) (source' : List Char) :
    ∃ m', coerce source' m type = .ok m' ∧ m'.expr = n'.expr := by
  rcases coerce_cases h with ⟨hnone, rfl⟩ | ⟨loose, hsome, hadopt, rfl⟩ |
    ⟨loose, value, hsome, hadopt, hliteral⟩
  · exact ⟨m, coerce_firm (hloose.trans hnone), hexpr⟩
  · exact ⟨m, coerce_kept (hloose.trans hsome) hadopt, hexpr⟩
  · exact ⟨_, coerce_adopted (hloose.trans hsome) hadopt, hliteral.symm⟩

/-- Nodes that differ in their places only. -/
structure Alike (m n : Node) : Prop where
  expr : m.expr = n.expr
  loose : m.loose? = n.loose?

variable {m m' : Node}

theorem map_expr_of_alike {ms ns : List Node} (h : List.Forall₂ Alike ms ns) :
    ms.map (·.expr) = ns.map (·.expr) := by
  induction h with
  | nil => rfl
  | cons hx _ ih => rw [List.map_cons, List.map_cons, hx.expr, ih]

theorem unify_same (h : unify source l r = .ok (l', r')) (hl : Alike m l) (hr : Alike m' r)
    (source' : List Char) : ∃ x y, unify source' m m' = .ok (x, y) ∧ x.expr = l'.expr ∧
      y.expr = r'.expr := by
  rcases unify_ok h with ⟨hnone, hcoerce, rfl⟩ | ⟨hnone, hcoerce, rfl⟩ |
    ⟨loose, loose', hsome, hsome', rfl, rfl⟩
  · obtain ⟨x, hx, heq⟩ := coerce_same hcoerce hl.expr hl.loose source'
    refine ⟨x, m', ?_, heq, hr.expr⟩
    rw [unify_firm_right (hr.loose.trans hnone), hr.expr, hx]
    rfl
  · obtain ⟨y, hy, heq⟩ := coerce_same hcoerce hr.expr hr.loose source'
    refine ⟨m, y, ?_, hl.expr, heq⟩
    rw [unify_firm_left (hl.loose.trans hnone), hl.expr, hy]
    rfl
  · exact ⟨m, m', unify_loose (hl.loose.trans hsome) (hr.loose.trans hsome'), hl.expr, hr.expr⟩

theorem binary_same {op : BinaryOp} (h : binary source op l r = .ok n) (hl : Alike m l)
    (hr : Alike m' r) (source' : List Char) :
    ∃ n', binary source' op m m' = .ok n' ∧ Alike n' n := by
  obtain ⟨l', r', hexpr, hloose, hmet⟩ := binary_ok h
  rcases hmet with ⟨hlogical, rfl, rfl⟩ | ⟨hlogical, hunify, hmeet⟩
  · refine ⟨_, binary_logical hlogical m m', ?_, hloose.symm⟩
    rw [hexpr, hl.expr, hr.expr]
  · obtain ⟨x, y, hagain, hx, hy⟩ := unify_same hunify hl hr source'
    refine ⟨_, binary_met hlogical hagain (fun hshift => ?_), ?_, hloose.symm⟩
    · rw [hx, hy]
      exact hmeet hshift
    · rw [hexpr, hx, hy]

theorem capabilityArgs_same {c : Capability} {ns ns' ms : List Node}
    (h : capabilityArgs source c ns = .ok ns') (hms : List.Forall₂ Alike ms ns)
    (source' : List Char) :
    ∃ ms', capabilityArgs source' c ms = .ok ms' ∧ ms'.map (·.expr) = ns'.map (·.expr) := by
  rcases capabilityArgs_ok h with ⟨a, b, a', b', rfl, rfl, hunify, hmeet⟩ | ⟨rfl, hne⟩
  · cases hms with
    | @cons x _ _ _ hx hms =>
      cases hms with
      | @cons y _ _ _ hy hms =>
        cases hms
        obtain ⟨x', y', hagain, hx', hy'⟩ := unify_same hunify hx hy source'
        refine ⟨[x', y'], capabilityArgs_pair hagain (fun harith => ?_), ?_⟩
        · rw [hx', hy']
          exact hmeet harith
        · simp only [List.map_cons, List.map_nil, hx', hy']
  · refine ⟨ms, capabilityArgs_other ?_, ?_⟩
    · rintro x y rfl
      cases hms with
      | cons _ hms =>
        cases hms with
        | cons _ hms =>
          cases hms
          exact hne _ _ rfl
    · exact map_expr_of_alike hms

/-- Whatever the one phrase is read as, in its source, the other is read as in another source. -/
def Carries (scope : Scope) (source source' : List Char) (p q : Phrase) : Prop :=
  ∀ n, node scope source p = .ok n → ∃ m, node scope source' q = .ok m ∧ Alike m n

theorem Carries.binary {left right left' right' : Phrase} (op : BinaryOp)
    (hl : Carries scope source source' left left') (hr : Carries scope source source' right right') :
    Carries scope source source' (.binary op left right) (.binary op left' right') := by
  intro n h
  obtain ⟨l, r, hleft, hright, hbinary⟩ := node_binary h
  obtain ⟨m, hm, hsame⟩ := hl l hleft
  obtain ⟨m', hm', hsame'⟩ := hr r hright
  obtain ⟨n', hn', hn⟩ := binary_same hbinary hsame hsame' source'
  refine ⟨n', ?_, hn⟩
  simp only [node, hm, hm']
  exact hn'

theorem Carries.group_left (h : Carries scope source source' p q) (span : Span) :
    Carries scope source source' (.group span p) q := by
  intro n hnode
  obtain ⟨m, hm, hexpr, hloose⟩ := node_group hnode
  obtain ⟨m', hm', hsame⟩ := h m hm
  exact ⟨m', hm', hsame.expr.trans hexpr.symm, hsame.loose.trans hloose.symm⟩

theorem Carries.group_right (h : Carries scope source source' p q) (span : Span) :
    Carries scope source source' p (.group span q) := by
  intro n hnode
  obtain ⟨m, hm, hsame⟩ := h n hnode
  exact ⟨{ m with span }, by simp only [node, hm]; rfl, hsame.expr, hsame.loose⟩

theorem carries_name {a b : Lexeme} (h : b.text = a.text) :
    Carries scope source source' (.name a) (.name b) := by
  intro n hnode
  obtain ⟨member, hresolve, hexpr, hloose⟩ := node_name hnode
  refine ⟨{ expr := .member member, span := b.span }, ?_, hexpr.symm, hloose.symm⟩
  simp only [node, h, hresolve]

theorem carries_literal (kind : LiteralKind) {a b : Lexeme} (h : b.text = a.text) :
    Carries scope source source' (.literal kind a) (.literal kind b) := by
  intro n hnode
  obtain ⟨value, hliteral, hexpr⟩ := node_literal hnode
  refine ⟨{ expr := .literal value, span := b.span, loose? := n.loose? }, ?_, hexpr.symm, rfl⟩
  simp only [node, h, hliteral]

theorem carries_nodes {ps qs : List Phrase} {ns : List Node}
    (h : List.Forall₂ (Carries scope source source') ps qs)
    (hnodes : nodes scope source ps = .ok ns) :
    ∃ ms, nodes scope source' qs = .ok ms ∧ List.Forall₂ Alike ms ns := by
  induction h generalizing ns with
  | nil =>
    cases hnodes
    exact ⟨[], rfl, .nil⟩
  | cons hp _ ih =>
    obtain ⟨first, others, hfirst, hothers, rfl⟩ := nodes_cons hnodes
    obtain ⟨m, hm, hsame⟩ := hp first hfirst
    obtain ⟨ms, hms, hall⟩ := ih hothers
    exact ⟨m :: ms, by simp only [nodes, hm, hms]; rfl, .cons hsame hall⟩

theorem carries_method (span span' : Span) {a b : Lexeme} {ps qs : List Phrase}
    (htext : b.text = a.text) (h : List.Forall₂ (Carries scope source source') ps qs) :
    Carries scope source source' (.method span a ps) (.method span' b qs) := by
  intro n hnode
  obtain ⟨method, returns, ns, hmethod, hns, hexpr, hloose⟩ := node_method hnode
  obtain ⟨ms, hms, hall⟩ := carries_nodes h hns
  refine ⟨⟨.call (.method method) (ms.map (·.expr)) returns, span', none⟩, ?_, ?_, hloose.symm⟩
  · simp only [node, htext, hmethod, hms]
    rfl
  · rw [hexpr, map_expr_of_alike hall]

theorem carries_capability (span span' : Span) {a b : Lexeme} {ps qs : List Phrase}
    (htext : b.text = a.text) (h : List.Forall₂ (Carries scope source source') ps qs) :
    Carries scope source source' (.capability span a ps) (.capability span' b qs) := by
  intro n hnode
  obtain ⟨c, ns, ns', hns, hargs, hexpr, hloose, hname⟩ := node_capability hnode
  obtain ⟨ms, hms, hall⟩ := carries_nodes h hns
  obtain ⟨ms', hargs', hexprs⟩ := capabilityArgs_same hargs hall source'
  refine ⟨⟨.call (.capability c) (placed c.params (ms'.map (·.expr)))
    (capabilityType c (placed c.params (ms'.map (·.expr)))), span', none⟩, ?_, ?_, hloose.symm⟩
  · simp only [node, htext, hname, hms, bind, Except.bind, hargs']
    rfl
  · rw [hexpr, hexprs]

/-- A phrase is read as it is without its parentheses. -/
theorem carries_core (scope : Scope) (source source' : List Char) (p : Phrase) :
    Carries scope source source' p p.core ∧ Carries scope source source' p.core p := by
  induction p with
  | binary op left right ihl ihr => exact ⟨ihl.1.binary op ihr.1, ihl.2.binary op ihr.2⟩
  | group span inner ih => exact ⟨ih.1.group_left span, ih.2.group_right span⟩
  | name lexeme => exact ⟨carries_name rfl, carries_name rfl⟩
  | literal kind lexeme => exact ⟨carries_literal kind rfl, carries_literal kind rfl⟩
  | method span callee args ih =>
    rw [Phrase.core, Phrase.coreAll_eq_map]
    refine ⟨carries_method _ _ rfl ?_, carries_method _ _ rfl ?_⟩
    · exact List.forall₂_map_right_iff.mpr (List.forall₂_same.mpr fun a ha => (ih a ha).1)
    · exact List.forall₂_map_left_iff.mpr (List.forall₂_same.mpr fun a ha => (ih a ha).2)
  | capability span callee args ih =>
    rw [Phrase.core, Phrase.coreAll_eq_map]
    refine ⟨carries_capability _ _ rfl ?_, carries_capability _ _ rfl ?_⟩
    · exact List.forall₂_map_right_iff.mpr (List.forall₂_same.mpr fun a ha => (ih a ha).1)
    · exact List.forall₂_map_left_iff.mpr (List.forall₂_same.mpr fun a ha => (ih a ha).2)

/-- Phrases that differ in parentheses and places only are read as the same expression. -/
theorem node_of_core (hcore : q.core = p.core) (h : node scope source p = .ok n) :
    ∃ m, node scope source' q = .ok m ∧ m.expr = n.expr := by
  obtain ⟨x, hx, hsame⟩ := (carries_core scope source source p).1 n h
  rw [← hcore] at hx
  obtain ⟨m, hm, hsame'⟩ := (carries_core scope source source' q).2 x hx
  exact ⟨m, hm, hsame'.expr.trans hsame.expr⟩

end GuardCode.Reading
