import GuardCode.Grammar.Phrase
import GuardCode.Proofs.Grammar.Tokens

/-! Phrases apart from their places in a source: how deep they nest, how they are spelled, and when
the operators of a chain are arranged by precedence. An arranged phrase is what its own chain of
operands gives. -/
namespace GuardCode

def Lexeme.bare (lexeme : Lexeme) : Lexeme := ⟨⟨0, 0⟩, lexeme.text⟩

namespace Phrase

/-- Induction over phrases. -/
@[induction_eliminator]
theorem inductionOn {motive : Phrase → Prop} (p : Phrase)
    (binary : ∀ op left right, motive left → motive right → motive (.binary op left right))
    (group : ∀ span inner, motive inner → motive (.group span inner))
    (name : ∀ lexeme, motive (.name lexeme))
    (literal : ∀ kind lexeme, motive (.literal kind lexeme))
    (method : ∀ span name args, (∀ a ∈ args, motive a) → motive (.method span name args))
    (capability : ∀ span name args, (∀ a ∈ args, motive a) → motive (.capability span name args)) :
    motive p :=
  @Phrase.rec motive (fun args => ∀ a ∈ args, motive a) binary group name literal method capability
    (by simp) (by simp_all) p

mutual

/-- A phrase without its places. -/
def bare : Phrase → Phrase
  | binary op left right => binary op left.bare right.bare
  | group _ inner => group ⟨0, 0⟩ inner.bare
  | name lexeme => name lexeme.bare
  | literal kind lexeme => literal kind lexeme.bare
  | method _ callee args => method ⟨0, 0⟩ callee.bare (bareAll args)
  | capability _ callee args => capability ⟨0, 0⟩ callee.bare (bareAll args)

def bareAll : List Phrase → List Phrase
  | [] => []
  | p :: ps => p.bare :: bareAll ps

end

mutual

/-- How many pairs of parentheses stand around the innermost part. -/
def levels : Phrase → Nat
  | binary _ left right => max left.levels right.levels
  | group _ inner => inner.levels + 1
  | name _ | literal _ _ => 0
  | method _ _ args | capability _ _ args => levelsAll args + 1

def levelsAll : List Phrase → Nat
  | [] => 0
  | p :: ps => max p.levels (levelsAll ps)

end

mutual

/-- A phrase as text, with one blank on each side of an operator and one after a comma. -/
def text : Phrase → List Char
  | binary op left right => left.text ++ (' ' :: (op.symbol.toList ++ (' ' :: right.text)))
  | group _ inner => '(' :: (inner.text ++ [')'])
  | name lexeme | literal _ lexeme => lexeme.text
  | method _ callee args => callee.text ++ '(' :: (argumentText args ++ [')'])
  | capability _ callee args => '@' :: (callee.text ++ '(' :: (argumentText args ++ [')']))

def argumentText : List Phrase → List Char
  | [] => []
  | p :: ps => p.text ++ moreText ps

/-- Arguments behind the first one. -/
def moreText : List Phrase → List Char
  | [] => []
  | p :: ps => ',' :: ' ' :: (p.text ++ moreText ps)

end

theorem bareAll_eq_map (ps : List Phrase) : bareAll ps = ps.map bare := by
  induction ps with
  | nil => rfl
  | cons p ps ih => simp [bareAll, ih]

theorem levelsAll_le {ps : List Phrase} {n : Nat} :
    levelsAll ps ≤ n ↔ ∀ p ∈ ps, p.levels ≤ n := by
  induction ps with
  | nil => simp [levelsAll]
  | cons p ps ih => rw [levelsAll, Nat.max_le, ih, List.forall_mem_cons]

theorem add_levelsAll_le {ps : List Phrase} {depth limit : Nat} (h : depth ≤ limit) :
    depth + levelsAll ps ≤ limit ↔ ∀ p ∈ ps, depth + p.levels ≤ limit := by
  have hsub : depth + levelsAll ps ≤ limit ↔ levelsAll ps ≤ limit - depth := by omega
  rw [hsub, levelsAll_le]
  exact forall₂_congr fun p _ => by omega

@[simp] theorem levels_bare (p : Phrase) : p.bare.levels = p.levels := by
  have hall : ∀ ps : List Phrase, (∀ p ∈ ps, p.bare.levels = p.levels) →
      levelsAll (bareAll ps) = levelsAll ps := by
    intro ps hps
    induction ps with
    | nil => rfl
    | cons p ps ih =>
      obtain ⟨hp, hps⟩ := List.forall_mem_cons.mp hps
      simp only [bareAll, levelsAll, hp, ih hps]
  induction p with
  | binary op left right ihl ihr => simp [bare, levels, ihl, ihr]
  | group span inner ih => simp [bare, levels, ih]
  | name lexeme => rfl
  | literal kind lexeme => rfl
  | method span callee args ih => simp only [bare, levels, hall args ih]
  | capability span callee args ih => simp only [bare, levels, hall args ih]

/-! Precedence. -/

/-- Whether a phrase needs parentheses as an operand of an operator. -/
def needsParens (parent : BinaryOp) (onRight : Bool) : Phrase → Bool
  | binary op _ _ =>
    op.precedence < parent.precedence || (onRight && op.precedence == parent.precedence)
  | _ => false

/-- A phrase that can be an operand of any operator. -/
def isOperand : Phrase → Bool
  | binary _ _ _ => false
  | _ => true

/-- The operators of a chain are arranged by precedence, those of one level from left to right. -/
def Arranged : Phrase → Prop
  | binary op left right => left.Arranged ∧ right.Arranged ∧
      left.needsParens op false = false ∧ right.needsParens op true = false
  | _ => True

/-- Operators are arranged by precedence, names are names and no keywords, and the literals are as
said. -/
inductive Regular (literals : LiteralKind → List Char → Prop) : Phrase → Prop where
  | binary {op : BinaryOp} {left right : Phrase} (hleft : Regular literals left)
      (hright : Regular literals right) (hl : left.needsParens op false = false)
      (hr : right.needsParens op true = false) : Regular literals (.binary op left right)
  | group {span : Span} {inner : Phrase} (h : Regular literals inner) :
      Regular literals (.group span inner)
  | name {lexeme : Lexeme} (hname : Token.isName lexeme.text)
      (hkeyword : lexeme.text ∉ Token.keywords) : Regular literals (.name lexeme)
  | literal {kind : LiteralKind} {lexeme : Lexeme} (h : literals kind lexeme.text) :
      Regular literals (.literal kind lexeme)
  | method {span : Span} {callee : Lexeme} {args : List Phrase} (hname : Token.isName callee.text)
      (hargs : ∀ a ∈ args, Regular literals a) : Regular literals (.method span callee args)
  | capability {span : Span} {callee : Lexeme} {args : List Phrase}
      (hname : Token.isName callee.text) (hargs : ∀ a ∈ args, Regular literals a) :
      Regular literals (.capability span callee args)

theorem Regular.mono {literals literals' : LiteralKind → List Char → Prop} {p : Phrase}
    (h : p.Regular literals) (himp : ∀ kind text, literals kind text → literals' kind text) :
    p.Regular literals' := by
  induction h with
  | binary _ _ hl hr ihl ihr => exact .binary ihl ihr hl hr
  | group _ ih => exact .group ih
  | name hname hkeyword => exact .name hname hkeyword
  | literal h => exact .literal (himp _ _ h)
  | method hname _ ih => exact .method hname ih
  | capability hname _ ih => exact .capability hname ih

theorem Regular.arranged {literals : LiteralKind → List Char → Prop} {p : Phrase}
    (h : p.Regular literals) : p.Arranged := by
  induction h with
  | binary _ _ hl hr ihl ihr => exact ⟨ihl, ihr, hl, hr⟩
  | _ => trivial

theorem needsParens_operand {p : Phrase} (h : p.isOperand) (parent : BinaryOp) (onRight : Bool) :
    p.needsParens parent onRight = false := by
  cases p with
  | binary => cases h
  | _ => rfl

/-! Chains of operands. -/

section Chains

variable {literals : LiteralKind → List Char → Prop}

/-- The leftmost operand. -/
def first : Phrase → Phrase
  | binary _ left _ => left.first
  | p => p

/-- The operators and operands behind the leftmost one. -/
def others : Phrase → List (BinaryOp × Phrase)
  | binary op left right => left.others ++ (op, right.first) :: right.others
  | _ => []

def operands (p : Phrase) : List Phrase := p.first :: p.others.map (·.2)

/-- How the later operands of a chain are spelled, the blank in front apart. -/
def itemText (item : BinaryOp × Phrase) : List Char :=
  item.1.symbol.toList ++ ' ' :: item.2.text

theorem mem_operands_binary {op : BinaryOp} {left right x : Phrase} :
    x ∈ (binary op left right).operands ↔ x ∈ left.operands ∨ x ∈ right.operands := by
  simp [operands, first, others, or_assoc]

theorem operands_of_isOperand {p : Phrase} (h : p.isOperand) : p.operands = [p] := by
  cases p with
  | binary => cases h
  | _ => rfl

theorem isOperand_of_mem {p x : Phrase} (h : x ∈ p.operands) : x.isOperand := by
  induction p with
  | binary op left right ihl ihr => exact (mem_operands_binary.mp h).elim ihl ihr
  | _ =>
    obtain rfl := List.mem_singleton.mp h
    rfl

theorem text_eq_chain (p : Phrase) :
    p.text = p.first.text ++ p.others.flatMap fun item => [' '] ++ itemText item := by
  induction p with
  | binary op left right ihl ihr => simp [text, first, others, itemText, ihl, ihr]
  | _ => simp [first, others]

theorem bare_extend (p : Phrase) (op : BinaryOp) (operand : Phrase) :
    (p.extend op operand).bare = p.bare.extend op operand.bare := by
  induction p with
  | binary last left right ihl ihr =>
    simp only [bare, extend]
    split
    · simp only [bare, ihr]
    · rfl
  | _ => rfl

theorem bare_ofChain (p : Phrase) (rest : List (BinaryOp × Phrase)) :
    (ofChain p rest).bare = ofChain p.bare (rest.map fun item => (item.1, item.2.bare)) := by
  induction rest generalizing p with
  | nil => rfl
  | cons item rest ih =>
    simp only [ofChain, List.foldl_cons, List.map_cons] at ih ⊢
    rw [ih, bare_extend]

theorem levels_extend (p : Phrase) (op : BinaryOp) (operand : Phrase) :
    (p.extend op operand).levels = max p.levels operand.levels := by
  induction p with
  | binary last left right ihl ihr =>
    simp only [extend]
    split
    · simp only [levels, ihr, Nat.max_assoc]
    · rfl
  | _ => rfl

theorem levels_ofChain_le {p : Phrase} {rest : List (BinaryOp × Phrase)} {n : Nat} :
    (ofChain p rest).levels ≤ n ↔ p.levels ≤ n ∧ ∀ item ∈ rest, item.2.levels ≤ n := by
  induction rest generalizing p with
  | nil => simp [ofChain]
  | cons item rest ih =>
    simp only [ofChain, List.foldl_cons, List.forall_mem_cons] at ih ⊢
    rw [ih, levels_extend, Nat.max_le, and_assoc]

theorem add_levels_ofChain_le {p : Phrase} {rest : List (BinaryOp × Phrase)} {depth limit : Nat}
    (h : depth ≤ limit) : depth + (ofChain p rest).levels ≤ limit ↔
      depth + p.levels ≤ limit ∧ ∀ item ∈ rest, depth + item.2.levels ≤ limit := by
  have hsub : depth + (ofChain p rest).levels ≤ limit ↔
      (ofChain p rest).levels ≤ limit - depth := by omega
  have hfirst : depth + p.levels ≤ limit ↔ p.levels ≤ limit - depth := by omega
  rw [hsub, hfirst, levels_ofChain_le]
  exact and_congr_right fun _ => forall₂_congr fun item _ => by omega

theorem needsParens_extend {p operand : Phrase} {op parent : BinaryOp}
    (hop : parent.precedence < op.precedence) (hp : p.needsParens parent true = false) :
    (p.extend op operand).needsParens parent true = false := by
  cases p with
  | binary last left right =>
    simp only [extend]
    split
    · exact hp
    · simp only [needsParens, Bool.or_eq_false_iff, decide_eq_false_iff_not, Bool.true_and,
        beq_eq_false_iff_ne]
      omega
  | _ =>
    simp only [extend, needsParens, Bool.or_eq_false_iff, decide_eq_false_iff_not, Bool.true_and,
      beq_eq_false_iff_ne]
    omega

theorem Regular.extend {p operand : Phrase} {op : BinaryOp} (hp : Regular literals p)
    (hoperand : Regular literals operand) (h : operand.isOperand) :
    Regular literals (p.extend op operand) := by
  have hright := needsParens_operand h op true
  induction hp with
  | @binary last left right hleft hr hl hparens _ ih =>
    simp only [Phrase.extend]
    split
    · next hlt => exact .binary hleft ih hl (needsParens_extend hlt hparens)
    · next hle =>
      refine .binary (.binary hleft hr hl hparens) hoperand ?_ hright
      simpa [needsParens] using hle
  | group h => exact .binary (.group h) hoperand rfl hright
  | name hname hkeyword => exact .binary (.name hname hkeyword) hoperand rfl hright
  | literal h => exact .binary (.literal h) hoperand rfl hright
  | method hname hargs => exact .binary (.method hname hargs) hoperand rfl hright
  | capability hname hargs => exact .binary (.capability hname hargs) hoperand rfl hright

theorem Regular.ofChain {p : Phrase} {rest : List (BinaryOp × Phrase)} (hp : Regular literals p)
    (hrest : ∀ item ∈ rest, Regular literals item.2 ∧ item.2.isOperand) :
    Regular literals (ofChain p rest) := by
  induction rest generalizing p with
  | nil => exact hp
  | cons item rest ih =>
    obtain ⟨⟨hitem, hoperand⟩, hrest⟩ := List.forall_mem_cons.mp hrest
    exact ih (hp.extend hitem hoperand) hrest

/-- An operator that binds tighter than the last one goes into its right operand. -/
theorem extend_extend {op op' : BinaryOp} (h : op.precedence < op'.precedence)
    (p x y : Phrase) : (p.extend op x).extend op' y = p.extend op (x.extend op' y) := by
  induction p with
  | binary last left right ihl ihr =>
    by_cases hlast : last.precedence < op.precedence
    · have hlast' : last.precedence < op'.precedence := by omega
      simp only [extend, hlast, hlast', if_true, ihr]
    · simp only [extend, hlast, h, if_true, if_false]
  | _ => simp only [extend, h, if_true]

theorem foldl_extend {op : BinaryOp} {rest : List (BinaryOp × Phrase)}
    (h : ∀ item ∈ rest, op.precedence < item.1.precedence) (p x : Phrase) :
    ofChain (p.extend op x) rest = p.extend op (ofChain x rest) := by
  induction rest generalizing x with
  | nil => rfl
  | cons item rest ih =>
    obtain ⟨hitem, hrest⟩ := List.forall_mem_cons.mp h
    simp only [ofChain, List.foldl_cons] at ih ⊢
    rw [extend_extend hitem, ih hrest]

/-- Every operator of a chain binds at least as tight as the one at the top. -/
theorem precedence_others {p : Phrase} (hp : p.Arranged) {parent : BinaryOp}
    {onRight : Bool} (hparens : p.needsParens parent onRight = false) :
    ∀ item ∈ p.others, parent.precedence ≤ item.1.precedence ∧
      (onRight → parent.precedence < item.1.precedence) := by
  induction p generalizing parent onRight with
  | binary op left right ihl ihr =>
    obtain ⟨hleft, hright, hl, hr⟩ := hp
    have htop : parent.precedence ≤ op.precedence ∧
        (onRight → parent.precedence < op.precedence) := by
      simp only [needsParens, Bool.or_eq_false_iff, decide_eq_false_iff_not] at hparens
      refine ⟨by omega, fun hright => ?_⟩
      subst hright
      simp only [Bool.true_and, beq_eq_false_iff_ne] at hparens
      omega
    intro item hitem
    rcases List.mem_append.mp hitem with hmem | hmem
    · have hle := (ihl hleft hl item hmem).1
      exact ⟨by omega, fun hright => by have := htop.2 hright; omega⟩
    · rcases List.mem_cons.mp hmem with rfl | hmem
      · exact htop
      · have hlt := (ihr hright hr item hmem).2 rfl
        exact ⟨by omega, fun _ => by omega⟩
  | _ => simp [others]

/-- An arranged phrase is what its chain gives. -/
theorem ofChain_others {p : Phrase} (hp : p.Arranged) : ofChain p.first p.others = p := by
  induction p with
  | binary op left right ihl ihr =>
    obtain ⟨hleft, hright, hl, hr⟩ := hp
    have hchain : ofChain left.first (left.others ++ (op, right.first) :: right.others) =
        ofChain ((ofChain left.first left.others).extend op right.first) right.others := by
      simp [ofChain]
    have htight : ∀ item ∈ right.others, op.precedence < item.1.precedence :=
      fun item hitem => (precedence_others hright hr item hitem).2 rfl
    have htop : left.extend op right = binary op left right := by
      cases left with
      | binary last l r =>
        have hlast : ¬last.precedence < op.precedence := by simpa [needsParens] using hl
        simp only [extend, hlast, if_false]
      | _ => rfl
    calc ofChain left.first (left.others ++ (op, right.first) :: right.others)
        = ofChain (left.extend op right.first) right.others := by rw [hchain, ihl hleft]
      _ = left.extend op (ofChain right.first right.others) := foldl_extend htight left right.first
      _ = binary op left right := by rw [ihr hright, htop]
  | _ => rfl

end Chains

end Phrase

end GuardCode
