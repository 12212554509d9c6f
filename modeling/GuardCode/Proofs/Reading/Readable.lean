import GuardCode.Proofs.Reading.Looseness
import GuardCode.Proofs.Scope

/-! Expressions whose text is read back as the same expression. Every expression that was read from
a source is one, apart from the literals that cannot be written so that they come back. -/
namespace GuardCode

namespace Expr

/-- Whether a list is of two arguments that mix `i32` and `i64` literals. -/
def mixedPair : List Expr → Bool
  | [a, b] => a.mixes b
  | _ => false

/-- Whether the top of an expression can be written so that it comes back: it is no literal that
cannot, and where operands meet without a check they do not mix `i32` and `i64` literals. -/
def isLegible : Expr → Bool
  | literal l => l.isLegible
  | binary op left right => !(op.isShift && left.mixes right)
  | call (.capability _) args _ => !mixedPair args
  | _ => true

/-- The operands of an operator come back as they are. -/
def Rejoins (op : BinaryOp) (left right : Expr) : Prop :=
  ∀ source span span', ∃ n,
    Reading.binary source op (left.asNode span) (right.asNode span') = .ok n ∧
      n.expr = .binary op left right ∧ n.loose? = none

/-- The arguments of a capability come back as they are, before those at target places are carried. -/
def Restores (c : Capability) (args : List Expr) : Prop :=
  ∀ source (nodes : List Node),
    nodes.map (fun n => (n.expr, n.loose?)) = args.map reread →
      ∃ nodes', Reading.capabilityArgs source c nodes = .ok nodes' ∧ nodes'.map (·.expr) = args

inductive Readable (scope : Scope) : Expr → Prop where
  | binary {op : BinaryOp} {left right : Expr} (hleft : Readable scope left)
      (hright : Readable scope right) (h : Rejoins op left right) :
      Readable scope (.binary op left right)
  | member {m : Member} (h : scope.resolve? m.text = some m) (hname : Token.isName m.text.toList)
      (hkeyword : m.text.toList ∉ Token.keywords) : Readable scope (.member m)
  | literal {l : Literal} (h : l.isLegible) : Readable scope (.literal l)
  | method {m : Method} {args : List Expr} {type : Ty} (h : scope.method? m.name = some (m, type))
      (hname : Token.isName m.name.toList) (hargs : ∀ a ∈ args, Readable scope a)
      (hfree : ∀ a ∈ args, a.reread.1 = a) : Readable scope (.call (.method m) args type)
  | capability {c : Capability} {args : List Expr} (hargs : ∀ a ∈ args, Readable scope a)
      (h : Restores c args) :
      Readable scope (.call (.capability c) (Reading.placed c.params args)
        (Reading.capabilityType c (Reading.placed c.params args)))

/-! Arguments at target places. -/

theorem placed_nil (kinds : List ParamKind) : Reading.placed kinds [] = [] := by
  cases kinds with
  | nil => rfl
  | cons kind kinds => cases kind <;> rfl

theorem placed_cons (kinds : List ParamKind) (e : Expr) (es : List Expr) :
    ∃ e' kinds', (e' = e ∨ e' = Reading.asTarget e) ∧
      Reading.placed kinds (e :: es) = e' :: Reading.placed kinds' es := by
  cases kinds with
  | nil => exact ⟨e, [], .inl rfl, by cases es <;> rfl⟩
  | cons kind kinds =>
    cases kind with
    | value => exact ⟨e, kinds, .inl rfl, rfl⟩
    | target => exact ⟨Reading.asTarget e, kinds, .inr rfl, rfl⟩

theorem map_phrase_placed (kinds : List ParamKind) (es : List Expr) :
    (Reading.placed kinds es).map phrase = es.map phrase := by
  induction es generalizing kinds with
  | nil => rw [placed_nil]
  | cons e es ih =>
    obtain ⟨e', kinds', he, hplaced⟩ := placed_cons kinds e es
    have hphrase : e'.phrase = e.phrase := by
      rcases he with rfl | rfl
      · rfl
      · cases e <;> rfl
    rw [hplaced, List.map_cons, List.map_cons, hphrase, ih]

theorem mixes_asTarget (a b : Expr) :
    (Reading.asTarget a).mixes b = a.mixes b ∧ a.mixes (Reading.asTarget b) = a.mixes b := by
  constructor
  · cases a <;> rfl
  · cases b with
    | member m =>
      cases a with
      | literal l => cases l <;> rfl
      | _ => rfl
    | _ => rfl

theorem mixedPair_placed (kinds : List ParamKind) (a b : Expr) :
    mixedPair (Reading.placed kinds [a, b]) = a.mixes b := by
  obtain ⟨a', kinds', ha, hplaced⟩ := placed_cons kinds a [b]
  obtain ⟨b', kinds'', hb, hplaced'⟩ := placed_cons kinds' b []
  rw [hplaced, hplaced', placed_nil, mixedPair]
  rcases ha with rfl | rfl <;> rcases hb with rfl | rfl <;> simp only [mixes_asTarget]

/-- What holds of members and of all parts of placed arguments holds of the arguments. -/
theorem parts_placed {P : Expr → Prop} (hmember : ∀ m, P (.member m)) {kinds : List ParamKind}
    {es : List Expr} (h : ∀ b ∈ Reading.placed kinds es, ∀ x, Part x b → P x) :
    ∀ a ∈ es, ∀ x, Part x a → P x := by
  induction es generalizing kinds with
  | nil => nofun
  | cons e es ih =>
    obtain ⟨e', kinds', he, hplaced⟩ := placed_cons kinds e es
    rw [hplaced] at h
    obtain ⟨hhead, htail⟩ := List.forall_mem_cons.mp h
    refine List.forall_mem_cons.mpr ⟨fun x hx => ?_, ih htail⟩
    rcases he with rfl | rfl
    · exact hhead x hx
    · cases e with
      | member m =>
        obtain rfl := part_member.mp hx
        exact hmember m
      | _ => exact hhead x hx

/-! The phrase of a readable expression. -/

variable {scope : Scope} {e : Expr}

theorem regular_enclosed (h : e.phrase.Regular Grammar.Spelled) (parens : Bool) :
    (enclosed parens e.phrase).Regular Grammar.Spelled := by
  cases parens with
  | false => exact h
  | true => exact .group h

theorem Readable.regular (h : e.Readable scope) : e.phrase.Regular Grammar.Spelled := by
  induction h with
  | binary _ _ _ ihl ihr =>
    exact .binary (regular_enclosed ihl _) (regular_enclosed ihr _) (needsParens_enclosed _ _ _)
      (needsParens_enclosed _ _ _)
  | member _ hname hkeyword => exact .name hname hkeyword
  | literal h => exact .literal (Literal.spelled_text h)
  | method _ hname _ _ ih =>
    refine .method hname ?_
    rw [phrases_eq_map]
    simpa using ih
  | @capability c args _ _ ih =>
    have hname : Token.isName c.name.toList := by cases c <;> decide
    refine .capability hname ?_
    rw [phrases_eq_map, map_phrase_placed]
    simpa using ih

end Expr

/-! Reading the text back. -/

namespace Reading

open GuardCode.Expr (Readable)

variable {scope : Scope} {source : List Char}

/-- What a phrase is read as. -/
def Reads (scope : Scope) (source : List Char) (p : Phrase) (e : Expr) (loose? : Option Loose) :
    Prop :=
  ∃ n, node scope source p = .ok n ∧ n.expr = e ∧ n.loose? = loose?

theorem reads_enclosed {e : Expr} {read : Expr × Option Loose}
    (h : ∀ q : Phrase, q.bare = e.phrase → Reads scope source q read.1 read.2) {parens : Bool}
    {q : Phrase} (hq : q.bare = Expr.enclosed parens e.phrase) :
    Reads scope source q read.1 read.2 := by
  cases parens with
  | false => exact h q hq
  | true =>
    cases q with
    | group span inner =>
      obtain ⟨n, hnode, hexpr, hloose⟩ := h inner (by simpa [Phrase.bare, Expr.enclosed] using hq)
      exact ⟨{ n with span }, by simp only [node, hnode]; rfl, hexpr, hloose⟩
    | _ => simp [Phrase.bare, Expr.enclosed] at hq

theorem nodes_reads {args : List Expr}
    (h : ∀ a ∈ args, ∀ q : Phrase, q.bare = a.phrase →
      Reads scope source q a.reread.1 a.reread.2)
    {qs : List Phrase} (hqs : qs.map Phrase.bare = args.map Expr.phrase) :
    ∃ ns, nodes scope source qs = .ok ns ∧
      ns.map (fun n => (n.expr, n.loose?)) = args.map Expr.reread := by
  induction args generalizing qs with
  | nil =>
    obtain rfl := List.map_eq_nil_iff.mp hqs
    exact ⟨[], rfl, rfl⟩
  | cons a args ih =>
    obtain ⟨q, qs, rfl, hq, hqs⟩ := List.map_eq_cons_iff.mp hqs
    obtain ⟨ha, hargs⟩ := List.forall_mem_cons.mp h
    obtain ⟨n, hnode, hexpr, hloose⟩ := ha q hq
    obtain ⟨ns, hnodes, hview⟩ := ih hargs hqs
    refine ⟨n :: ns, by simp only [nodes, hnode, hnodes]; rfl, ?_⟩
    rw [List.map_cons, List.map_cons, hview, hexpr, hloose]

theorem eq_asNode {n : Node} {e : Expr} (hexpr : n.expr = e.reread.1)
    (hloose : n.loose? = e.reread.2) : n = e.asNode n.span := by
  obtain ⟨expr, span, loose?⟩ := n
  subst hexpr hloose
  rfl

/-- The text of a readable expression is read back. -/
theorem reads_phrase {e : Expr} (h : e.Readable scope) {q : Phrase} (hq : q.bare = e.phrase) :
    Reads scope source q e.reread.1 e.reread.2 := by
  induction h generalizing q with
  | @binary op left right _ _ hrejoins ihl ihr =>
    cases q with
    | binary op' ql qr =>
      simp only [Phrase.bare, Expr.phrase, Phrase.binary.injEq] at hq
      obtain ⟨rfl, hql, hqr⟩ := hq
      obtain ⟨nl, hnl, hexprl, hloosel⟩ := reads_enclosed (fun q => ihl) hql
      obtain ⟨nr, hnr, hexprr, hlooser⟩ := reads_enclosed (fun q => ihr) hqr
      obtain ⟨n, hbinary, hexpr, hloose⟩ := hrejoins source nl.span nr.span
      rw [← eq_asNode hexprl hloosel, ← eq_asNode hexprr hlooser] at hbinary
      refine ⟨n, ?_, hexpr, hloose⟩
      simp only [node, hnl, hnr]
      exact hbinary
    | _ => simp [Phrase.bare, Expr.phrase] at hq
  | @member m hresolve _ _ =>
    cases q with
    | name lexeme =>
      simp only [Phrase.bare, Lexeme.bare, Expr.phrase, Phrase.name.injEq, Lexeme.mk.injEq,
        true_and] at hq
      refine ⟨{ expr := .member m, span := lexeme.span }, ?_, rfl, rfl⟩
      simp only [node, hq, String.ofList_toList, hresolve]
    | _ => simp [Phrase.bare, Expr.phrase] at hq
  | @literal l h =>
    cases q with
    | literal kind lexeme =>
      simp only [Phrase.bare, Lexeme.bare, Expr.phrase, Phrase.literal.injEq, Lexeme.mk.injEq,
        true_and] at hq
      obtain ⟨rfl, htext⟩ := hq
      refine ⟨(Expr.literal l).asNode lexeme.span, ?_, rfl, rfl⟩
      simp only [node, htext, literal_text h]
      rfl
    | _ => simp [Phrase.bare, Expr.phrase] at hq
  | @method m args type h _ _ hfree ih =>
    cases q with
    | method span callee qs =>
      simp only [Phrase.bare, Lexeme.bare, Expr.phrase, Phrase.method.injEq, Lexeme.mk.injEq,
        true_and, Phrase.bareAll_eq_map, Expr.phrases_eq_map] at hq
      obtain ⟨htext, hqs⟩ := hq
      obtain ⟨ns, hnodes, hview⟩ := nodes_reads (fun a ha q => ih a ha) hqs
      have hexprs : ns.map (·.expr) = args := by
        have hfst := congrArg (List.map Prod.fst) hview
        rw [List.map_map, List.map_map] at hfst
        exact hfst.trans ((List.map_congr_left hfree).trans (List.map_id' args))
      refine ⟨{ expr := .call (.method m) args type, span }, ?_, rfl, rfl⟩
      simp only [node, htext, String.ofList_toList, h, hnodes]
      rw [← hexprs]
      rfl
    | _ => simp [Phrase.bare, Expr.phrase] at hq
  | @capability c args _ hrestores ih =>
    cases q with
    | capability span callee qs =>
      simp only [Phrase.bare, Lexeme.bare, Expr.phrase, Phrase.capability.injEq, Lexeme.mk.injEq,
        true_and, Phrase.bareAll_eq_map, Expr.phrases_eq_map, Expr.map_phrase_placed] at hq
      obtain ⟨htext, hqs⟩ := hq
      obtain ⟨ns, hnodes, hview⟩ := nodes_reads (fun a ha q => ih a ha) hqs
      obtain ⟨ns', hargs, hexprs⟩ := hrestores source ns hview
      have hname : Capability.ofName? c.name = some c := by cases c <;> rfl
      refine ⟨⟨.call (.capability c) (placed c.params args)
        (capabilityType c (placed c.params args)), span, none⟩, ?_, rfl, rfl⟩
      simp only [node, htext, String.ofList_toList, hname, hnodes]
      rw [← hexprs]
      simp only [bind, Except.bind, hargs]
      rfl
    | _ => simp [Phrase.bare, Expr.phrase] at hq

end Reading

end GuardCode
