import GuardCode.Proofs.Reading.Following
import GuardCode.Proofs.Reading.Integers

/-! The literals of an accepted guard. They are those of the source in their order, and each integer is the
number that its token denotes. An integer without a suffix takes on the type of the operand or argument
that it meets. -/
namespace GuardCode

open Grammar (IsToken)
open Literal (integer?)
open Phrase (Meets)
open Reading (Denotes DenotesAll)
open Token (integerValue isSuffixed)

namespace Phrase

mutual

/-- The literal tokens of a phrase in the order of the text. -/
def literals : Phrase → List (LiteralKind × Lexeme)
  | binary _ left right => left.literals ++ right.literals
  | group _ inner => inner.literals
  | name _ => []
  | literal kind lexeme => [(kind, lexeme)]
  | method _ _ args | capability _ _ args => literalsAll args

def literalsAll : List Phrase → List (LiteralKind × Lexeme)
  | [] => []
  | p :: ps => p.literals ++ literalsAll ps

end

/-- The text of an integer literal without a suffix. Parentheses around it make no difference. -/
def openInteger? : Phrase → Option (List Char)
  | group _ inner => inner.openInteger?
  | literal .integer lexeme => if isSuffixed lexeme.text then none else some lexeme.text
  | _ => none

/-- The text of a literal token. -/
def tokenText (token : LiteralKind × Lexeme) : List Char := token.2.text

theorem literalsAll_sublist {args : List Phrase}
    (h : ∀ a ∈ args, (a.literals.map tokenText).Sublist a.tokens) :
    ((literalsAll args).map tokenText).Sublist (moreTokens args) ∧
      ((literalsAll args).map tokenText).Sublist (argumentTokens args) := by
  induction args with
  | nil => exact ⟨.slnil, .slnil⟩
  | cons p ps ih =>
    obtain ⟨hp, hps⟩ := List.forall_mem_cons.mp h
    have hboth : ((literalsAll (p :: ps)).map tokenText).Sublist (p.tokens ++ moreTokens ps) := by
      rw [literalsAll, List.map_append]
      exact hp.append (ih hps).1
    exact ⟨hboth.cons _, hboth⟩

/-- The literal tokens of a phrase stand among its tokens in their order. -/
theorem literals_sublist (p : Phrase) : (p.literals.map tokenText).Sublist p.tokens := by
  induction p with
  | binary op left right ihl ihr =>
    rw [literals, List.map_append]
    exact ihl.append (ihr.cons _)
  | group span inner ih => exact (ih.trans (List.sublist_append_left _ _)).cons _
  | name lexeme => exact List.nil_sublist _
  | literal kind lexeme => exact List.Sublist.refl _
  | method span callee args ih =>
    exact (((literalsAll_sublist ih).2.trans (List.sublist_append_left _ _)).cons _).cons _
  | capability span callee args ih =>
    exact ((((literalsAll_sublist ih).2.trans (List.sublist_append_left _ _)).cons _).cons _).cons _

end Phrase

namespace Expr

mutual

/-- The literals of an expression in order. -/
def literals : Expr → List Literal
  | binary _ left right => left.literals ++ right.literals
  | literal l => [l]
  | member _ | carried _ => []
  | call _ args _ => literalsAll args

def literalsAll : List Expr → List Literal
  | [] => []
  | e :: es => e.literals ++ literalsAll es

end

end Expr

/-- A literal of the expression is what its token is read as, or what this becomes where it takes on a type.
As long as it is no float, an integer is the number that the token denotes. -/
structure Literal.Renders (token : LiteralKind × Lexeme) (leaf : Literal) : Prop where
  reads : ∃ value loose?, Reading.literal token.1 token.2.text = .ok (value, loose?) ∧
    (leaf = value ∨ ∃ loose type, loose? = some loose ∧ loose.adopt type = .adopted leaf)
  keeps : token.1 = .integer →
    leaf.type.isFloat ∨ integer? leaf = some (integerValue token.2.text)

/-- Where the first phrase is an integer without a suffix and the other is not, and this has one of the
integral types, the first has become a literal of that type with the number of the token. -/
def Phrase.Adopts (first other : Phrase) (e e' : Expr) : Prop :=
  ∀ text, first.openInteger? = some text → other.openInteger? = none → e'.type.isAdoptable →
    ∃ leaf, e = .literal leaf ∧ leaf.type = e'.type ∧ integer? leaf = some (integerValue text)

namespace Reading

variable {scope : Scope} {source : List Char} {n l r l' r' : Node} {p q : Phrase} {e e' : Expr}
  {v : Int}

/-! ## In order -/

theorem renders_literal {kind : LiteralKind} {lexeme : Lexeme} (htoken : IsToken kind lexeme.text)
    (h : Denotes scope (.literal kind lexeme) e) :
    ∃ leaf, e = .literal leaf ∧ leaf.Renders (kind, lexeme) := by
  obtain ⟨value, loose?, hread, rfl | ⟨loose, type, leaf, hloose, hadopt, rfl⟩⟩ := h
  · refine ⟨value, rfl, ⟨value, loose?, hread, .inl rfl⟩, ?_⟩
    rintro rfl
    exact .inr (integer_value htoken hread).2.1
  · refine ⟨leaf, rfl, ⟨value, loose?, hread, .inr ⟨loose, type, hloose, hadopt⟩⟩, ?_⟩
    rintro rfl
    obtain ⟨hrange, -, hvalue⟩ := integer_value htoken hread
    rw [hvalue] at hloose
    split at hloose
    · cases hloose
    · cases hloose
      obtain ⟨htype, hkeeps⟩ := adopt_value hrange hadopt
      rwa [htype]

theorem renders_all {ps : List Phrase} {es : List Expr}
    (hps : ∀ p ∈ ps, ∀ e, Denotes scope p e →
      List.Forall₂ (fun token leaf => leaf.Renders token) p.literals e.literals)
    (h : DenotesAll scope ps es) :
    List.Forall₂ (fun token leaf => Literal.Renders token leaf) (Phrase.literalsAll ps)
      (Expr.literalsAll es) := by
  induction ps generalizing es with
  | nil =>
    cases es with
    | nil => exact .nil
    | cons => exact h.elim
  | cons p ps ih =>
    cases es with
    | nil => exact h.elim
    | cons e es =>
      obtain ⟨hp, hrest⟩ := List.forall_mem_cons.mp hps
      exact List.rel_append (hp e h.1) (ih hrest h.2)

/-- The literals of an expression are those of its phrase, in the same order. -/
theorem renders_literals (hp : p.Regular IsToken) (h : Denotes scope p e) :
    List.Forall₂ (fun token leaf => Literal.Renders token leaf) p.literals e.literals := by
  induction hp generalizing e with
  | binary _ _ _ _ ihl ihr =>
    obtain ⟨x, y, rfl, hx, hy⟩ := h
    exact List.rel_append (ihl hx) (ihr hy)
  | group _ ih => exact ih h
  | name =>
    obtain ⟨m, -, rfl | rfl⟩ := h
    · exact .nil
    · exact .nil
  | literal htoken =>
    obtain ⟨leaf, rfl, hrenders⟩ := renders_literal htoken h
    exact .cons hrenders .nil
  | method _ _ ih =>
    obtain ⟨m, type, es, -, hall, rfl⟩ := h
    exact renders_all (fun a ha e => ih a ha) hall
  | capability _ _ ih =>
    obtain ⟨c, type, es, -, hall, rfl⟩ := h
    exact renders_all (fun a ha e => ih a ha) hall

/-! ## Adopted types -/

/-- Only an integer is loose with a number. -/
theorem loose_ne_int {kind : LiteralKind} {text : List Char} {value : Literal} {loose? : Option Loose}
    (hkind : kind ≠ .integer) (h : literal kind text = .ok (value, loose?)) :
    loose? ≠ some (.int v) := by
  rintro rfl
  cases kind with
  | integer => exact hkind rfl
  | null | boolean => cases h
  | float =>
    simp only [literal, float] at h
    split at h
    · split at h
      · cases h
      · cases h
    · split at h
      · cases h
      · cases h
  | character =>
    obtain ⟨cs, -, h⟩ := bind_ok h
    split at h
    · cases h
    · cases h
  | string =>
    obtain ⟨cs, -, h⟩ := bind_ok h
    cases h

/-- A node is loose with a number exactly if its phrase is an integer without a suffix. -/
theorem looseInteger_node (hp : p.Regular IsToken) (h : node scope source p = .ok n) :
    (∀ text, p.openInteger? = some text →
      n.loose? = some (.int (integerValue text)) ∧ Holds64 (integerValue text)) ∧
      (p.openInteger? = none → ∀ v, n.loose? ≠ some (.int v)) := by
  induction hp generalizing n with
  | binary =>
    obtain ⟨l, r, -, -, hbinary⟩ := node_binary h
    obtain ⟨_, _, -, hloose, -⟩ := binary_ok hbinary
    exact ⟨nofun, by simp [hloose]⟩
  | group _ ih =>
    obtain ⟨m, hm, -, hloose⟩ := node_group h
    rw [hloose]
    exact ih hm
  | name =>
    obtain ⟨_, -, -, hloose⟩ := node_name h
    exact ⟨nofun, by simp [hloose]⟩
  | @literal kind lexeme htoken =>
    obtain ⟨value, hread, hexpr⟩ := node_literal h
    cases kind with
    | integer =>
      obtain ⟨hrange, -, hloose⟩ := integer_value htoken hread
      rw [hloose]
      cases hsuffixed : isSuffixed lexeme.text with
      | true => simp [Phrase.openInteger?, hsuffixed]
      | false => simpa [Phrase.openInteger?, hsuffixed] using hrange
    | _ => exact ⟨nofun, fun _ v => loose_ne_int LiteralKind.noConfusion hread⟩
  | method =>
    obtain ⟨_, _, _, -, -, -, hloose⟩ := node_method h
    exact ⟨nofun, by simp [hloose]⟩
  | capability =>
    obtain ⟨_, _, _, -, -, -, hloose, -⟩ := node_capability h
    exact ⟨nofun, by simp [hloose]⟩

theorem adopted_coerce {type : Ty} (hn : n.loose? = some (.int v)) (hv : Holds64 v)
    (htype : type.isAdoptable) (h : coerce source n type = .ok n') :
    ∃ leaf, n'.expr = .literal leaf ∧ leaf.type = type ∧ integer? leaf = some v := by
  have hloose : ∀ {loose}, n.loose? = some loose → loose = .int v := fun hsome =>
    Option.some.inj (hsome.symm.trans hn)
  rcases coerce_cases h with ⟨hnone, -⟩ | ⟨loose, hsome, hkept, -⟩ | ⟨loose, leaf, hsome, hadopt, hexpr⟩
  · rw [hn] at hnone
    cases hnone
  · obtain rfl := hloose hsome
    exact absurd hkept (adopt_changes htype)
  · obtain rfl := hloose hsome
    obtain ⟨rfl, hfloat | hvalue⟩ := adopt_value hv hadopt
    · rw [Ty.not_isFloat_of_isAdoptable htype] at hfloat
      cases hfloat
    · exact ⟨leaf, hexpr, rfl, hvalue⟩

/-- The operands of a meeting can change places. -/
theorem unify_swap (h : unify source l r = .ok (l', r')) : unify source r l = .ok (r', l') := by
  rcases unify_ok h with ⟨hfirm, hcoerce, rfl⟩ | ⟨hfirm, hcoerce, rfl⟩ |
    ⟨loose, loose', hsome, hsome', rfl, rfl⟩
  · rw [unify_firm_left hfirm, hcoerce]
    rfl
  · rw [unify_firm_right hfirm, hcoerce]
    rfl
  · exact unify_loose hsome' hsome

/-- Beside an operand of an integral type that is no such literal itself, a literal takes on this type. -/
theorem adopted_unify (hl : l.loose? = some (.int v)) (hv : Holds64 v) (hproper : r.Proper)
    (hr : ∀ w, r.loose? ≠ some (.int w)) (h : unify source l r = .ok (l', r'))
    (htype : r'.expr.type.isAdoptable) :
    ∃ leaf, l'.expr = .literal leaf ∧ leaf.type = r'.expr.type ∧ integer? leaf = some v := by
  rcases unify_ok h with ⟨-, hcoerce, rfl⟩ | ⟨hnone, -, -⟩ | ⟨_, loose, -, hsome, -, rfl⟩
  · exact adopted_coerce hl hv htype hcoerce
  · rw [hl] at hnone
    cases hnone
  · -- what is loose without an integer is a float, and its type is none of these
    cases hproper with
    | firm hnone =>
      rw [hsome] at hnone
      cases hnone
    | small hint => exact absurd hint (hr _)
    | large hint => exact absurd hint (hr _)
    | float _ hexpr =>
      rw [hexpr] at htype
      cases htype

theorem Given.type_eq (h : Given e e') : e'.type = e.type := by
  rcases h with rfl | rfl
  · rfl
  · cases e <;> rfl

theorem Given.literal {leaf : Literal} (h : Given (.literal leaf) e) : e = .literal leaf := by
  rcases h with rfl | rfl <;> rfl

/-- Where two parts meet, both stand in the expression as the meeting left them. -/
theorem node_meets {whole : Phrase} {left right : Phrase.Frame × Phrase} (hmeets : Meets whole left right)
    (h : node scope source whole = .ok n) : n.expr.isLeaf = false ∧ ∃ l r l' r' a b,
      node scope source left.2 = .ok l ∧ node scope source right.2 = .ok r ∧
        unify source l r = .ok (l', r') ∧ left.1.child? n.expr = some a ∧
          right.1.child? n.expr = some b ∧ Given l'.expr a ∧ Given r'.expr b := by
  cases hmeets with
  | operands left right hlogical =>
    obtain ⟨l, r, hl, hr, hbinary⟩ := node_binary h
    obtain ⟨l', r', hexpr, -, ⟨htrue, -⟩ | ⟨-, hunify, -⟩⟩ := binary_ok hbinary
    · rw [hlogical] at htrue
      cases htrue
    · rw [hexpr]
      exact ⟨rfl, l, r, l', r', l'.expr, r'.expr, hl, hr, hunify, rfl, rfl, .inl rfl, .inl rfl⟩
  | arguments span callee first second =>
    obtain ⟨c, ns, ns', hns, hargs, hexpr, -, -⟩ := node_capability h
    obtain ⟨l, others, hl, hothers, rfl⟩ := nodes_cons hns
    obtain ⟨r, none, hr, hnone, rfl⟩ := nodes_cons hothers
    cases hnone
    rcases capabilityArgs_ok hargs with ⟨_, _, l', r', heq, rfl, hunify, -⟩ | ⟨-, hne⟩
    · cases heq
      have hfirst : [l'.expr, r'.expr][0]? = some l'.expr := rfl
      have hsecond : [l'.expr, r'.expr][1]? = some r'.expr := rfl
      obtain ⟨a, ha, hleft⟩ := getElem?_placed c.params hfirst
      obtain ⟨b, hb, hright⟩ := getElem?_placed c.params hsecond
      rw [hexpr]
      exact ⟨rfl, l, r, l', r', a, b, hl, hr, hunify, ha, hb, hleft, hright⟩
    · exact absurd rfl (hne l r)

theorem adopts_unify (hp : p.Regular IsToken) (hq : q.Regular IsToken)
    (hl : node scope source p = .ok l) (hr : node scope source q = .ok r)
    (h : unify source l r = .ok (l', r')) (he : Given l'.expr e) (he' : Given r'.expr e') :
    p.Adopts q e e' := by
  intro text hopen hfirm htype
  rw [he'.type_eq] at htype ⊢
  obtain ⟨hloose, hrange⟩ := (looseInteger_node hp hl).1 text hopen
  obtain ⟨leaf, hleaf, hsame, hvalue⟩ := adopted_unify hloose hrange (proper_node hr)
    ((looseInteger_node hq hr).2 hfirm) h htype
  rw [hleaf] at he
  exact ⟨leaf, he.literal, hsame, hvalue⟩

end Reading

namespace Expr

/-- How the literals of a source stand in the expression that it is read as. -/
structure LiteralsKept (source : List Char) (p : Phrase) (e : Expr) : Prop where
  /-- The source is the tokens of the phrase with blanks between them. -/
  written : Written p.tokens source []
  /-- What the phrase has as a literal has the form of one. -/
  regular : p.Regular IsToken
  /-- The literals are among these tokens in their order. -/
  ordered : (p.literals.map Phrase.tokenText).Sublist p.tokens
  /-- Those of the expression are read from them one by one. -/
  leaves : List.Forall₂ (fun token leaf => Literal.Renders token leaf) p.literals e.literals
  /-- Wherever two parts meet, an integer without a suffix takes on the type of the other part. -/
  adopts : ∀ place whole left right, Phrase.fill place whole = p → Meets whole left right →
    ∃ met a b, e.follow place = some met ∧ left.1.child? met = some a ∧ right.1.child? met = some b ∧
      left.2.Adopts right.2 a b ∧ right.2.Adopts left.2 b a

/-- Each literal of an accepted source stands in the expression with its value. -/
theorem parse_keeps_literals {scope : Scope} {limit : Nat} {source : String} {e : Expr}
    (h : parse scope limit source = .ok e) :
    ∃ p, Grammar.phrase source.toList = .ok p ∧ e.LiteralsKept source.toList p := by
  obtain ⟨-, p, n, hphrase, hnode, rfl⟩ := parse_eq_ok.mp h
  obtain ⟨hregular, hwritten⟩ := Grammar.written_phrase hphrase
  have hleaves := Reading.renders_literals hregular (Reading.denotes_node hnode).denotes
  refine ⟨p, hphrase, hwritten, hregular, p.literals_sublist, hleaves, ?_⟩
  rintro place whole left right rfl hmeets
  obtain ⟨m, hm, hfollow⟩ := Reading.follow_node hnode fun m hm => (Reading.node_meets hmeets hm).1
  obtain ⟨-, l, r, l', r', a, b, hl, hr, hunify, ha, hb, hgiven, hgiven'⟩ :=
    Reading.node_meets hmeets hm
  obtain ⟨hleft, hright⟩ := hmeets.fill
  have hwhole : whole.Regular IsToken := hregular.of_fill
  have hregularLeft : left.2.Regular IsToken := Phrase.Regular.of_frame (hleft ▸ hwhole)
  have hregularRight : right.2.Regular IsToken := Phrase.Regular.of_frame (hright ▸ hwhole)
  exact ⟨m.expr, a, b, hfollow, ha, hb,
    Reading.adopts_unify hregularLeft hregularRight hl hr hunify hgiven hgiven',
    Reading.adopts_unify hregularRight hregularLeft hr hl (Reading.unify_swap hunify) hgiven' hgiven⟩

/-- Three integers without a suffix, two of them in parentheses, beside a character and an `i16`. -/
def peersGuard : Expr :=
  let char : Expr := .member (.arg ⟨0, .char⟩)
  let short : Expr := .member (.arg ⟨1, .i16⟩)
  .binary .and
    (.binary .eq (.call (.capability .add) [.literal (.char 'A'), char] .char) (.literal (.char 'B')))
    (.binary .lt short (.literal (.i16 (-7))))

theorem peersGuard_keeps_literals :
    let source := "@add((65), arg0) == 66 && arg1 < ((-7))"
    parse (Scope.ofArgs [.char, .i16]) 2 source = .ok peersGuard ∧
      ∃ p, Grammar.phrase source.toList = .ok p ∧ peersGuard.LiteralsKept source.toList p := by
  have hparse : parse (Scope.ofArgs [.char, .i16]) 2 "@add((65), arg0) == 66 && arg1 < ((-7))" =
      .ok peersGuard := ok_of_toOption (by decide +kernel)
  exact ⟨hparse, parse_keeps_literals hparse⟩

end Expr

end GuardCode
