import GuardCode.Proofs.Grammar.Tokens

/-! The grammar of guard text as a declarative one. A pattern is read at the front of a text and leaves
a rest; choices are not ordered, repetitions may stop anywhere, and blanks between the parts of a rule
may be there or not. Only the characters that must not come next are looked at ahead. -/
namespace GuardCode

inductive Pattern where
  | text (word : String)
  /-- One character of a kind. -/
  | one (kind : Char → Bool)
  /-- One pattern right behind another. -/
  | next (first second : Pattern)
  | choice (first second : Pattern)
  /-- A pattern any number of times, one right behind the other. -/
  | many (p : Pattern)
  /-- No character of the kind comes next. -/
  | notNext (kind : Char → Bool)
  | endOfInput
  /-- The rule of expressions, which patterns inside parentheses come back to. -/
  | expression

namespace Pattern

def empty : Pattern := text ""

def never : Pattern := one fun _ => false

def anyOf (options : String) : Pattern := one fun c => options.toList.contains c

def oneOf (ps : List Pattern) : Pattern := ps.foldr choice never

def opt (p : Pattern) : Pattern := choice p empty

/-- A pattern at least once. -/
def atLeastOne (p : Pattern) : Pattern := next p (many p)

def blanks : Pattern := many (one Token.isSpace)

/-- One pattern behind another, perhaps with blanks between. -/
def spaced (first second : Pattern) : Pattern := next first (next blanks second)

/-- A pattern any number of times, perhaps with blanks between. -/
def list (p : Pattern) : Pattern := opt (next p (many (next blanks p)))

/-! ## The rules -/

def nameEnd : Pattern := notNext Token.isNameChar

def name : Pattern := next (one Token.isNameStart) (many (one Token.isNameChar))

def null : Pattern := next (text "null") nameEnd

def boolean : Pattern := next (oneOf [text "true", text "false"]) nameEnd

def digits : Pattern := atLeastOne (one Char.isDigit)

def exponent : Pattern := next (anyOf "eE") (next (opt (anyOf "+-")) digits)

def fraction : Pattern := next (text ".") (next digits (opt exponent))

def float : Pattern :=
  next (opt (anyOf "-")) (next digits (next (oneOf [fraction, exponent])
    (next (opt (anyOf "f")) nameEnd)))

def integer : Pattern :=
  next (opt (anyOf "-")) (next digits (next (opt (anyOf "Lsb")) nameEnd))

def escape : Pattern := next (text "\\") (anyOf "\"\\'ntr0")

/-- One character or escape between quotes of the given kind. -/
def quotedUnit (quote : Char) : Pattern :=
  choice escape (next (notNext fun c => c = quote ∨ c = '\\') (one fun _ => true))

def character : Pattern := next (text "'") (next (quotedUnit '\'') (text "'"))

def string : Pattern := next (text "\"") (next (many (quotedUnit '"')) (text "\""))

def literal : Pattern := oneOf [null, boolean, float, integer, character, string]

def operator : Pattern :=
  oneOf (["||", "&&", "|", "^", "&", "==", "!=", "<<", ">>", "<=", ">=", "<", ">", "+", "-", "*", "/",
    "%"].map text)

def grouped : Pattern := spaced (text "(") (spaced expression (text ")"))

def arguments : Pattern := spaced expression (list (spaced (text ",") expression))

def argumentList : Pattern := spaced (text "(") (spaced (opt arguments) (text ")"))

def methodCall : Pattern := spaced name argumentList

def capabilityCall : Pattern := spaced (text "@") (spaced name argumentList)

def primary : Pattern := oneOf [grouped, capabilityCall, methodCall, literal, name]

/-- What the rule of expressions stands for. -/
def operands : Pattern := spaced primary (list (spaced operator primary))

def main : Pattern := spaced empty (spaced expression endOfInput)

/-- A pattern can be read at the front of a text, with a rest behind it. -/
inductive Reads : Pattern → List Char → List Char → Prop where
  | text (word : String) (rest : List Char) : Reads (text word) (word.toList ++ rest) rest
  | one {kind : Char → Bool} {c : Char} (h : kind c = true) (rest : List Char) :
      Reads (one kind) (c :: rest) rest
  | next {p q : Pattern} {cs mid rest : List Char} (hp : Reads p cs mid) (hq : Reads q mid rest) :
      Reads (next p q) cs rest
  | left {p q : Pattern} {cs rest : List Char} (h : Reads p cs rest) : Reads (choice p q) cs rest
  | right {p q : Pattern} {cs rest : List Char} (h : Reads q cs rest) : Reads (choice p q) cs rest
  | stop (p : Pattern) (cs : List Char) : Reads (many p) cs cs
  | again {p : Pattern} {cs mid rest : List Char} (h : Reads p cs mid)
      (hmany : Reads (many p) mid rest) : Reads (many p) cs rest
  | notNext {kind : Char → Bool} {cs : List Char} (h : ∀ c, cs.head? = some c → kind c = false) :
      Reads (notNext kind) cs cs
  | endOfInput : Reads endOfInput [] []
  | expression {cs rest : List Char} (h : Reads operands cs rest) : Reads expression cs rest

variable {p q : Pattern} {kind : Char → Bool} {cs mid rest : List Char}

theorem reads_text {word : String} : Reads (text word) cs rest ↔ cs = word.toList ++ rest := by
  constructor
  · rintro ⟨⟩
    rfl
  · rintro rfl
    exact .text word rest

theorem reads_one : Reads (one kind) cs rest ↔ ∃ c, kind c = true ∧ cs = c :: rest := by
  constructor
  · intro h
    cases h with
    | one h => exact ⟨_, h, rfl⟩
  · rintro ⟨c, hc, rfl⟩
    exact .one hc rest

theorem reads_next : Reads (next p q) cs rest ↔ ∃ mid, Reads p cs mid ∧ Reads q mid rest := by
  constructor
  · intro h
    cases h with
    | next hp hq => exact ⟨_, hp, hq⟩
  · rintro ⟨mid, hp, hq⟩
    exact .next hp hq

theorem reads_choice : Reads (choice p q) cs rest ↔ Reads p cs rest ∨ Reads q cs rest := by
  constructor
  · intro h
    cases h with
    | left h => exact .inl h
    | right h => exact .inr h
  · rintro (h | h)
    · exact .left h
    · exact .right h

theorem reads_notNext : Reads (notNext kind) cs rest ↔
    rest = cs ∧ ∀ c, cs.head? = some c → kind c = false := by
  constructor
  · intro h
    cases h with
    | notNext h => exact ⟨rfl, h⟩
  · rintro ⟨rfl, h⟩
    exact .notNext h

theorem reads_endOfInput : Reads endOfInput cs rest ↔ cs = [] ∧ rest = [] := by
  constructor
  · rintro ⟨⟩
    exact ⟨rfl, rfl⟩
  · rintro ⟨rfl, rfl⟩
    exact .endOfInput

theorem reads_expression : Reads expression cs rest ↔ Reads operands cs rest := by
  constructor
  · intro h
    cases h with
    | expression h => exact h
  · exact .expression

theorem reads_empty : Reads empty cs rest ↔ rest = cs := by
  rw [empty, reads_text]
  exact eq_comm

theorem reads_opt : Reads (opt p) cs rest ↔ Reads p cs rest ∨ rest = cs := by
  rw [opt, reads_choice, reads_empty]

theorem reads_oneOf {ps : List Pattern} : Reads (oneOf ps) cs rest ↔ ∃ p ∈ ps, Reads p cs rest := by
  induction ps with
  | nil => simp [oneOf, never, reads_one]
  | cons p ps ih =>
    rw [oneOf, List.foldr_cons, reads_choice]
    simp only [List.mem_cons, exists_eq_or_imp]
    exact or_congr_right ih

theorem reads_anyOf {options : String} :
    Reads (anyOf options) cs rest ↔ ∃ c ∈ options.toList, cs = c :: rest := by
  simp [anyOf, reads_one]

theorem reads_spaced : Reads (spaced p q) cs rest ↔
    ∃ after before, Reads p cs after ∧ Reads blanks after before ∧ Reads q before rest := by
  simp only [spaced, reads_next]
  constructor
  · rintro ⟨after, hp, before, hblanks, hq⟩
    exact ⟨after, before, hp, hblanks, hq⟩
  · rintro ⟨after, before, hp, hblanks, hq⟩
    exact ⟨after, hp, before, hblanks, hq⟩

/-- Induction over the repetitions of a pattern. -/
theorem Reads.many_induction {motive : List Char → Prop} (h : Reads (many p) cs rest)
    (stop : motive rest)
    (again : ∀ cs mid, Reads p cs mid → Reads (many p) mid rest → motive mid → motive cs) :
    motive cs := by
  generalize hq : many p = q at h
  induction h with
  | stop p' cs => exact stop
  | again h hmany _ ih =>
    cases hq
    exact again _ _ h hmany (ih stop again rfl)
  | _ => cases hq

theorem reads_many_one :
    Reads (many (one kind)) cs rest ↔ ∃ run, run.all kind = true ∧ cs = run ++ rest := by
  constructor
  · intro h
    refine h.many_induction (motive := fun cs => ∃ run, run.all kind = true ∧ cs = run ++ rest)
      ⟨[], rfl, rfl⟩ ?_
    rintro cs mid h - ⟨run, hrun, rfl⟩
    obtain ⟨c, hc, rfl⟩ := reads_one.mp h
    exact ⟨c :: run, by simp [hc, hrun], rfl⟩
  · rintro ⟨run, hrun, rfl⟩
    induction run with
    | nil => exact .stop _ _
    | cons c run ih =>
      obtain ⟨hc, hrun⟩ := (Bool.and_eq_true _ _).mp hrun
      exact .again (.one hc _) (ih hrun)

/-- What is left is the end of the text. -/
theorem Reads.suffix (h : Reads p cs rest) : rest <:+ cs := by
  induction h with
  | text word rest => exact List.suffix_append _ _
  | one => exact List.suffix_cons _ _
  | next _ _ ihp ihq => exact ihq.trans ihp
  | left _ ih => exact ih
  | right _ ih => exact ih
  | stop => exact List.suffix_refl _
  | again _ _ ihp ihq => exact ihq.trans ihp
  | notNext => exact List.suffix_refl _
  | endOfInput => exact List.suffix_refl _
  | expression _ ih => exact ih

/-- No look ahead of the pattern minds the character behind it. -/
def Passes (c : Char) : Pattern → Prop
  | text _ | one _ => True
  | next p q | choice p q => p.Passes c ∧ q.Passes c
  | many p => p.Passes c
  | notNext kind => kind c = false
  | endOfInput | expression => False

/-- What was said of the heads of two rests holds with the same text in front of them. -/
theorem head_append_or {rest' : List Char} {P : Char → Prop}
    (h : rest'.head? = rest.head? ∨ ∀ c, rest'.head? = some c → P c) (text : List Char) :
    (text ++ rest').head? = (text ++ rest).head? ∨ ∀ c, (text ++ rest').head? = some c → P c := by
  cases text with
  | nil => exact h
  | cons => exact .inl rfl

/-- A text can be read before another rest, if that begins alike or with a character that no look
ahead minds. -/
theorem Reads.before {rest' text : List Char} (h : Reads p cs rest) (htext : cs = text ++ rest)
    (hrest : rest'.head? = rest.head? ∨ ∀ c, rest'.head? = some c → p.Passes c) :
    Reads p (text ++ rest') rest' := by
  induction h generalizing text rest' with
  | text word rest =>
    rw [← List.append_cancel_right htext]
    exact .text word rest'
  | @one kind c hc rest =>
    obtain rfl : [c] = text := List.append_cancel_right (by simpa using htext)
    exact .one hc rest'
  | next hp hq ihp ihq =>
    obtain ⟨more, rfl⟩ := hq.suffix
    obtain ⟨front, rfl⟩ := hp.suffix
    obtain rfl : front ++ more = text := List.append_cancel_right (by simpa using htext)
    have hmore := head_append_or (hrest.imp_right fun h c hc => (h c hc).1) more
    rw [List.append_assoc]
    exact .next (ihp rfl hmore) (ihq rfl (hrest.imp_right fun h c hc => (h c hc).2))
  | left _ ih => exact .left (ih htext (hrest.imp_right fun h c hc => (h c hc).1))
  | right _ ih => exact .right (ih htext (hrest.imp_right fun h c hc => (h c hc).2))
  | stop p cs =>
    obtain rfl : text = [] := List.self_eq_append_left.mp htext
    exact .stop p rest'
  | again hp hmany ihp ihq =>
    obtain ⟨more, rfl⟩ := hmany.suffix
    obtain ⟨front, rfl⟩ := hp.suffix
    obtain rfl : front ++ more = text := List.append_cancel_right (by simpa using htext)
    rw [List.append_assoc]
    exact .again (ihp rfl (head_append_or hrest more)) (ihq rfl hrest)
  | @notNext kind cs h =>
    obtain rfl : text = [] := List.self_eq_append_left.mp htext
    refine .notNext fun c hc => ?_
    rcases hrest with heq | hpass
    · exact h c (heq ▸ hc)
    · exact hpass c hc
  | endOfInput =>
    obtain rfl : text = [] := List.self_eq_append_left.mp htext
    cases rest' with
    | nil => exact .endOfInput
    | cons c cs =>
      rcases hrest with heq | hpass
      · cases heq
      · exact (hpass c rfl).elim
  | expression _ ih =>
    refine .expression (ih htext (hrest.imp_right fun hpass c hc => ?_))
    exact (hpass c hc).elim

end Pattern

end GuardCode
