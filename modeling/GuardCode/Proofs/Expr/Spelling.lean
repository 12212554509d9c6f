import GuardCode.Expr.Printer
import GuardCode.Proofs.Expr.Parts
import GuardCode.Proofs.Grammar.Completeness
import GuardCode.Proofs.Text.ReadBack

/-! The phrase that the text of an expression spells. -/
namespace GuardCode

namespace Literal

/-- The kind of token that a literal is written as. -/
def kind : Literal → LiteralKind
  | null => .null
  | bool _ => .boolean
  | f32 _ | f64 _ => .float
  | char _ => .character
  | string _ => .string
  | _ => .integer

/-- Whether a literal is no float and has no character that is written by its number. -/
def isLegible : Literal → Bool
  | f32 _ | f64 _ => false
  | char c => !Text.isNumbered '\'' c
  | string s => s.toList.all fun c => !Text.isNumbered '"' c
  | _ => true

theorem isEscapable_of_shortEscape? {d c : Char} (h : Text.shortEscape? d = some c) :
    Token.isEscapable d := by
  unfold Text.shortEscape? at h
  split at h
  all_goals first | rfl | cases h

theorem quotedUnit_escape {c : Char} (h : Text.isNumbered '\'' c = false) (rest : List Char) :
    Token.quotedUnit '\'' ((Text.escape '\'' c).toList ++ '\'' :: rest) = some ('\'' :: rest) := by
  rcases Text.escape_cases (.inr rfl) h with ⟨d, hd, hshort⟩ | ⟨hplain, hbackslash, hquote⟩
  · have hd' := isEscapable_of_shortEscape? hshort
    simp [hd, Token.quotedUnit, hd']
  · simp [hplain, Token.quotedUnit, hbackslash, hquote]

theorem quotedUnits_escaped {cs : List Char} (h : ∀ c ∈ cs, Text.isNumbered '"' c = false)
    (rest : List Char) :
    Token.quotedUnits '"' (Text.escaped '"' cs ++ '"' :: rest) = '"' :: rest := by
  induction cs with
  | nil => simp [Text.escaped, Token.quotedUnits]
  | cons c cs ih =>
    obtain ⟨hc, hcs⟩ := List.forall_mem_cons.mp h
    have hrest := ih hcs
    simp only [Text.escaped, List.flatMap_cons, List.append_assoc] at hrest ⊢
    rcases Text.escape_cases (.inl rfl) hc with ⟨d, hd, hshort⟩ | ⟨hplain, hbackslash, hquote⟩
    · have hd' := isEscapable_of_shortEscape? hshort
      simpa [hd, Token.quotedUnits, hd'] using hrest
    · simpa [hplain, Token.quotedUnits, hbackslash, hquote] using hrest

theorem spelled_int (v : Int) {suffix : String} (hsuffix : suffix.toList ∈ Token.suffixes) :
    Grammar.Spelled .integer (toString v ++ suffix).toList := by
  have hne := Text.magnitude_ne_nil v
  have hall := Text.all_isDigit_magnitude v
  rw [String.toList_append, Text.toList_int]
  split
  · exact Grammar.Spelled.integer (.inl rfl) hne hall hsuffix
  · exact Grammar.Spelled.integer (.inr rfl) hne hall hsuffix

theorem spelled_nat (n : Nat) {suffix : String} (hsuffix : suffix.toList ∈ Token.suffixes) :
    Grammar.Spelled .integer (toString n ++ suffix).toList :=
  spelled_int n hsuffix

theorem spelled_text {l : Literal} (h : l.isLegible) : Grammar.Spelled l.kind l.text.toList := by
  have hnone : ∀ s : String, s = s ++ "" := by simp
  cases l with
  | null => exact .null
  | bool value =>
    cases value with
    | false => exact .false
    | true => exact .true
  | u8 value => exact spelled_nat _ (by decide)
  | i8 value =>
    rw [text, hnone (toString _)]
    exact spelled_int _ (by decide)
  | i16 value => exact spelled_int _ (by decide)
  | u16 value =>
    rw [text, hnone (toString _)]
    exact spelled_nat _ (by decide)
  | i32 value =>
    rw [text, hnone (toString _)]
    exact spelled_int _ (by decide)
  | char value =>
    rw [text, Text.toList_quotedChar]
    exact .character (quotedUnit_escape (by simpa [isLegible] using h))
  | i64 value => exact spelled_int _ (by decide)
  | f32 value => cases h
  | f64 value => cases h
  | string value =>
    rw [text, Text.toList_quoted]
    exact .string (quotedUnits_escaped (by simpa [isLegible] using h))

end Literal

namespace Expr

/-- Parentheses where they are asked for. -/
def enclosed (parens : Bool) (p : Phrase) : Phrase := if parens then .group ⟨0, 0⟩ p else p

mutual

def phrase : Expr → Phrase
  | binary op left right =>
    .binary op (enclosed (left.needsParens op false) left.phrase)
      (enclosed (right.needsParens op true) right.phrase)
  | member m => .name ⟨⟨0, 0⟩, m.text.toList⟩
  | literal l => .literal l.kind ⟨⟨0, 0⟩, l.text.toList⟩
  | carried c => .name ⟨⟨0, 0⟩, c.text.toList⟩
  | call (.capability c) args _ => .capability ⟨0, 0⟩ ⟨⟨0, 0⟩, c.name.toList⟩ (phrases args)
  | call (.method m) args _ => .method ⟨0, 0⟩ ⟨⟨0, 0⟩, m.name.toList⟩ (phrases args)

def phrases : List Expr → List Phrase
  | [] => []
  | e :: es => e.phrase :: phrases es

end

theorem phrases_eq_map (es : List Expr) : phrases es = es.map phrase := by
  induction es with
  | nil => rfl
  | cons e es ih => simp [phrases, ih]

theorem texts_eq_map (es : List Expr) : texts es = es.map text := by
  induction es with
  | nil => rfl
  | cons e es ih => simp [texts, ih]

theorem bare_enclosed (parens : Bool) (p : Phrase) :
    (enclosed parens p).bare = enclosed parens p.bare := by
  cases parens <;> rfl

@[simp] theorem bare_phrase (e : Expr) : e.phrase.bare = e.phrase := by
  have hall : ∀ es : List Expr, (∀ e ∈ es, e.phrase.bare = e.phrase) →
      (es.map phrase).map Phrase.bare = es.map phrase := by
    intro es h
    rw [List.map_map]
    exact List.map_congr_left h
  induction e with
  | binary op left right ihl ihr => simp [phrase, Phrase.bare, bare_enclosed, ihl, ihr]
  | member m => rfl
  | literal l => rfl
  | carried c => rfl
  | call callee args type ih =>
    cases callee <;>
      simp only [phrase, Phrase.bare, phrases_eq_map, Phrase.bareAll_eq_map, hall args ih] <;> rfl

theorem needsParens_phrase (e : Expr) (parent : BinaryOp) (onRight : Bool) :
    e.phrase.needsParens parent onRight = e.needsParens parent onRight := by
  cases e with
  | call callee => cases callee <;> rfl
  | _ => rfl

/-- An operand has its parentheses, if it needs any. -/
theorem needsParens_enclosed (e : Expr) (parent : BinaryOp) (onRight : Bool) :
    (enclosed (e.needsParens parent onRight) e.phrase).needsParens parent onRight = false := by
  cases h : e.needsParens parent onRight with
  | true => rfl
  | false => exact (needsParens_phrase e parent onRight).trans h

theorem text_enclosed {p : Phrase} {s : String} (h : p.text = s.toList) (parens : Bool) :
    (enclosed parens p).text = (parenthesized parens s).toList := by
  cases parens with
  | false => exact h
  | true => simp [enclosed, parenthesized, Phrase.text, h]

theorem argumentText_eq (ps : List Phrase) :
    Phrase.argumentText ps = List.intercalate [',', ' '] (ps.map Phrase.text) := by
  cases ps with
  | nil => rfl
  | cons p ps =>
    induction ps generalizing p with
    | nil => simp [Phrase.argumentText, Phrase.moreText]
    | cons q qs ih =>
      have hrest := ih q
      simp only [List.map_cons, Phrase.argumentText, Phrase.moreText] at hrest ⊢
      rw [List.intercalate_cons_cons, ← hrest, List.append_assoc]
      rfl

theorem text_phrase (e : Expr) : e.phrase.text = e.text.toList := by
  induction e with
  | binary op left right ihl ihr =>
    simp [phrase, Phrase.text, text, text_enclosed ihl, text_enclosed ihr]
  | member m => rfl
  | literal l => rfl
  | carried c => rfl
  | call callee args type ih =>
    have hargs : Phrase.argumentText (phrases args) =
        (String.intercalate ", " (texts args)).toList := by
      rw [argumentText_eq, phrases_eq_map, texts_eq_map, String.toList_intercalate, List.map_map,
        List.map_map]
      exact congrArg _ (List.map_congr_left ih)
    cases callee with
    | capability c => simp [phrase, Phrase.text, text, calleeText, hargs]
    | method m => simp [phrase, Phrase.text, text, calleeText, hargs]

end Expr

end GuardCode
