import GuardCode.Proofs.Grammar.Phrases

/-! The tokens of a phrase in order, and how they stand in a text: with blanks before, between and
behind them, or without. -/
namespace GuardCode

namespace Phrase

mutual

/-- The tokens of a phrase from left to right. -/
def tokens : Phrase → List (List Char)
  | binary op left right => left.tokens ++ op.symbol.toList :: right.tokens
  | group _ inner => ['('] :: (inner.tokens ++ [[')']])
  | name lexeme | literal _ lexeme => [lexeme.text]
  | method _ callee args => callee.text :: ['('] :: (argumentTokens args ++ [[')']])
  | capability _ callee args =>
    ['@'] :: callee.text :: ['('] :: (argumentTokens args ++ [[')']])

def argumentTokens : List Phrase → List (List Char)
  | [] => []
  | p :: ps => p.tokens ++ moreTokens ps

/-- Arguments behind the first one. -/
def moreTokens : List Phrase → List (List Char)
  | [] => []
  | p :: ps => [','] :: (p.tokens ++ moreTokens ps)

end

/-- The tokens of a later argument. -/
def behindComma (p : Phrase) : List (List Char) := [','] :: p.tokens

/-- The tokens of a later operand of a chain. -/
def behindOperator (item : BinaryOp × Phrase) : List (List Char) :=
  item.1.symbol.toList :: item.2.tokens

theorem moreTokens_eq (ps : List Phrase) : moreTokens ps = ps.flatMap behindComma := by
  induction ps with
  | nil => rfl
  | cons p ps ih => simp [moreTokens, behindComma, ih]

theorem tokens_eq_chain (p : Phrase) :
    p.tokens = p.first.tokens ++ p.others.flatMap behindOperator := by
  induction p with
  | binary op left right ihl ihr => simp [tokens, first, others, behindOperator, ihl, ihr]
  | _ => simp [first, others]

theorem tokens_extend (p : Phrase) (op : BinaryOp) (operand : Phrase) :
    (p.extend op operand).tokens = p.tokens ++ behindOperator (op, operand) := by
  induction p with
  | binary last left right ihl ihr =>
    simp only [extend]
    split
    · simp [tokens, ihr]
    · rfl
  | _ => rfl

theorem tokens_ofChain (p : Phrase) (rest : List (BinaryOp × Phrase)) :
    (ofChain p rest).tokens = p.tokens ++ rest.flatMap behindOperator := by
  induction rest generalizing p with
  | nil => simp [ofChain]
  | cons item rest ih =>
    simp only [ofChain, List.foldl_cons] at ih ⊢
    rw [ih, tokens_extend]
    simp

/-- Every level of nesting has a parenthesis of its own. -/
theorem levels_le_tokens (p : Phrase) : p.levels ≤ p.tokens.count ['('] := by
  have hmore : ∀ ps : List Phrase, (∀ a ∈ ps, a.levels ≤ a.tokens.count ['(']) →
      levelsAll ps ≤ (moreTokens ps).count ['('] := by
    intro ps h
    induction ps with
    | nil => exact Nat.zero_le _
    | cons p ps ih =>
      obtain ⟨hp, hps⟩ := List.forall_mem_cons.mp h
      have hrest := ih hps
      simp [levelsAll, moreTokens]
      omega
  have hargs : ∀ args : List Phrase, (∀ a ∈ args, a.levels ≤ a.tokens.count ['(']) →
      levelsAll args ≤ (argumentTokens args).count ['('] := by
    intro args h
    cases args with
    | nil => exact Nat.zero_le _
    | cons p ps =>
      obtain ⟨hp, hps⟩ := List.forall_mem_cons.mp h
      have hrest := hmore ps hps
      simp only [levelsAll, argumentTokens, List.count_append]
      omega
  induction p with
  | binary op left right ihl ihr =>
    simp [levels, tokens, List.count_cons]
    omega
  | group span inner ih => simpa [levels, tokens] using ih
  | name lexeme => exact Nat.zero_le _
  | literal kind lexeme => exact Nat.zero_le _
  | method span callee args ih =>
    have hall := hargs args ih
    simp [levels, tokens, List.count_cons]
    omega
  | capability span callee args ih =>
    have hall := hargs args ih
    simp [levels, tokens, List.count_cons]
    omega

end Phrase

/-- The tokens stand at the front of a text in this order, apart from blanks, and leave a rest. -/
inductive Written : List (List Char) → List Char → List Char → Prop where
  | done {blanks : List Char} (hblanks : blanks.all Token.isSpace) (rest : List Char) :
      Written [] (blanks ++ rest) rest
  | token {blanks token cs rest : List Char} {tokens : List (List Char)}
      (hblanks : blanks.all Token.isSpace) (h : Written tokens cs rest) :
      Written (token :: tokens) (blanks ++ (token ++ cs)) rest

namespace Written

variable {tokens more : List (List Char)} {cs mid rest : List Char}

theorem refl (cs : List Char) : Written [] cs cs := @done [] rfl cs

theorem skipped (cs : List Char) : Written [] cs (cs.dropWhile Token.isSpace) := by
  have hall : (cs.takeWhile Token.isSpace).all Token.isSpace := List.all_takeWhile
  have hblanks := done hall (cs.dropWhile Token.isSpace)
  rwa [List.takeWhile_append_dropWhile] at hblanks

theorem single (word rest : List Char) : Written [word] (word ++ rest) rest :=
  @token [] word _ _ _ rfl (refl rest)

theorem blanks {lead : List Char} (hlead : lead.all Token.isSpace) (h : Written tokens cs rest) :
    Written tokens (lead ++ cs) rest := by
  cases h with
  | done hmore =>
    rw [← List.append_assoc]
    exact .done (by simp_all) rest
  | token hmore h =>
    rw [← List.append_assoc]
    exact .token (by simp_all) h

theorem append (h : Written tokens cs mid) (hmore : Written more mid rest) :
    Written (tokens ++ more) cs rest := by
  induction h with
  | done hblanks => exact hmore.blanks hblanks
  | token hblanks _ ih => exact .token hblanks (ih hmore)

theorem split (h : Written (tokens ++ more) cs rest) :
    ∃ mid, Written tokens cs mid ∧ Written more mid rest := by
  induction tokens generalizing cs with
  | nil => exact ⟨cs, refl cs, h⟩
  | cons token tokens ih =>
    cases h with
    | token hblanks h =>
      obtain ⟨mid, hmid, hmore⟩ := ih h
      exact ⟨mid, .token hblanks hmid, hmore⟩

theorem suffix (h : Written tokens cs rest) : rest <:+ cs := by
  induction h with
  | done => exact List.suffix_append _ _
  | token _ _ ih => exact ih.trans ((List.suffix_append _ _).trans (List.suffix_append _ _))

/-- The text that the tokens make up, which they make up before any rest. -/
theorem text (h : Written tokens cs rest) :
    ∃ text, cs = text ++ rest ∧ ∀ rest', Written tokens (text ++ rest') rest' := by
  induction h with
  | @done blanks hblanks rest => exact ⟨blanks, rfl, .done hblanks⟩
  | @token blanks token _ _ _ hblanks _ ih =>
    obtain ⟨text, rfl, htext⟩ := ih
    refine ⟨blanks ++ (token ++ text), by simp, fun rest' => ?_⟩
    simpa using Written.token hblanks (htext rest')

theorem count_le (h : Written tokens cs rest) (c : Char) : tokens.count [c] ≤ cs.count c := by
  induction h with
  | done => simp
  | @token blanks token cs rest tokens _ _ ih =>
    by_cases heq : token = [c]
    · simp [heq]
      omega
    · simp [List.count_cons_of_ne heq]
      omega

end Written

end GuardCode
