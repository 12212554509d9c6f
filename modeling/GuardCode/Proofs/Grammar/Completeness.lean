import GuardCode.Proofs.Grammar.Matching
import GuardCode.Proofs.Grammar.Phrases

/-! The text of a regular phrase is matched as that phrase. -/
namespace GuardCode.Grammar

open Matcher

/-- What can follow an expression in the text of a phrase. -/
def Stops (rest : List Char) : Prop := ∀ c, rest.head? = some c → c = ')' ∨ c = ','

/-- What can follow an operand: it continues no name and no number, and is no argument list. -/
structure Closes (rest : List Char) : Prop where
  ends : Token.Ends rest
  point : rest.head? ≠ some '.'
  noCall : (rest.dropWhile Token.isSpace).head? ≠ some '('

/-- The literal tokens as they are written. -/
inductive Spelled : LiteralKind → List Char → Prop where
  | null : Spelled .null "null".toList
  | true : Spelled .boolean "true".toList
  | false : Spelled .boolean "false".toList
  | integer {sign digits suffix : List Char} (hsign : sign = [] ∨ sign = ['-'])
      (hne : digits ≠ []) (hall : digits.all Char.isDigit) (hsuffix : suffix ∈ Token.suffixes) :
      Spelled .integer (sign ++ (digits ++ suffix))
  | character {unit : List Char}
      (h : ∀ rest, Token.quotedUnit '\'' (unit ++ '\'' :: rest) = some ('\'' :: rest)) :
      Spelled .character ('\'' :: (unit ++ ['\'']))
  | string {body : List Char}
      (h : ∀ rest, Token.quotedUnits '"' (body ++ '"' :: rest) = '"' :: rest) :
      Spelled .string ('"' :: (body ++ ['"']))

section Rests

variable {rest : List Char}

theorem solid_of_head {c : Char} (h : rest.head? = some c) (hc : Token.isSpace c = false) :
    rest.dropWhile Token.isSpace = rest := by
  cases rest with
  | nil => cases h
  | cons d cs =>
    cases h
    exact List.dropWhile_cons_of_neg (by simp [hc])

theorem Stops.solid (h : Stops rest) : rest.dropWhile Token.isSpace = rest := by
  cases hhead : rest.head? with
  | none => simp_all
  | some c =>
    rcases h c hhead with rfl | rfl
    all_goals exact solid_of_head hhead (by decide)

theorem Stops.closes (h : Stops rest) : Closes rest where
  ends := fun c hc => by
    rcases h c hc with rfl | rfl <;> decide
  point := fun hc => by
    rcases h _ hc with heq | heq <;> cases heq
  noCall := by
    rw [h.solid]
    intro hc
    rcases h _ hc with heq | heq <;> cases heq

theorem stops_nil : Stops [] := nofun

theorem stops_close (rest : List Char) : Stops (')' :: rest) := by
  rintro c hc
  cases hc
  exact .inl rfl

theorem stops_comma (rest : List Char) : Stops (',' :: rest) := by
  rintro c hc
  cases hc
  exact .inr rfl

theorem ends_open (rest : List Char) : Token.Ends ('(' :: rest) := by
  rintro c hc
  cases hc
  decide

end Rests

/-! Operators. -/

section Operators

variable {rest : List Char}

theorem refuses_symbol {symbol : String} {c : Char} {w : List Char} (hsymbol : symbol.toList = c :: w)
    (h : rest.head? ≠ some c) : Refuses (Matcher.symbol symbol) rest := by
  refine refuses_token ?_
  rw [hsymbol]
  exact Token.word_of_head_ne h

/-- The first character of an operator. -/
theorem symbol_head (op : BinaryOp) : ∃ c w, op.symbol.toList = c :: w ∧
    Token.isSpace c = false ∧ c ∉ [')', ',', '('] := by
  cases op <;> exact ⟨_, _, rfl, by decide, by decide⟩

theorem refuses_operator (h : Stops rest) : Refuses operator rest := by
  refine refuses_choice fun m hm => ?_
  obtain ⟨op, -, rfl⟩ := List.mem_map.mp hm
  obtain ⟨c, w, hsymbol, -, hc⟩ := symbol_head op
  refine (refuses_symbol hsymbol fun hhead => ?_).map.rule
  rcases h c hhead with rfl | rfl
  all_goals exact absurd hc (by decide)

/-- A word that does not begin a text is not found where the text goes on differently. -/
theorem word_eq_none {w text : List Char} (hrest : ∀ c, rest.head? = some c → c ∉ w)
    (h : w.isPrefixOf text = false) : Token.word w (text ++ rest) = none := by
  induction w generalizing text with
  | nil => simp at h
  | cons c w ih =>
    cases text with
    | nil =>
      refine Token.word_of_head_ne fun hc => ?_
      exact hrest c hc List.mem_cons_self
    | cons d text =>
      simp only [List.cons_append, Token.word]
      split
      · next heq =>
        subst heq
        exact ih (fun e he hmem => hrest e he (List.mem_cons_of_mem _ hmem)) (by simpa using h)
      · rfl

/-- The same of a word whose first character is not in doubt. -/
theorem word_eq_none_of_tail {w text : List Char} (hne : text ≠ [])
    (hrest : ∀ c, rest.head? = some c → c ∉ w.tail) (h : w.isPrefixOf text = false) :
    Token.word w (text ++ rest) = none := by
  cases w with
  | nil => simp at h
  | cons c w =>
    cases text with
    | nil => exact absurd rfl hne
    | cons d text =>
      simp only [List.cons_append, Token.word]
      split
      · next heq =>
        subst heq
        exact word_eq_none hrest (by simpa using h)
      · rfl

/-- No operator that is tried earlier begins a later one. -/
theorem operators_ordered : ∀ op ∈ operators, ∀ earlier ∈ operators.takeWhile (· ≠ op),
    earlier.symbol.toList.isPrefixOf op.symbol.toList = false := by
  decide

/-- The characters that can make a longer operator of a shorter one. -/
def Prolongs (c : Char) : Prop := c ∈ ['|', '&', '=', '<', '>']

instance : DecidablePred Prolongs := fun c =>
  inferInstanceAs (Decidable (c ∈ ['|', '&', '=', '<', '>']))

theorem prolongs_of_tail (op : BinaryOp) {c : Char} (h : c ∈ op.symbol.toList.tail) :
    Prolongs c := by
  have htail : ∀ d ∈ op.symbol.toList.tail, Prolongs d := by
    cases op <;> exact Token.forall_of_all (by decide)
  exact htail c h

theorem takes_operator (op : BinaryOp) (hrest : ∀ c, rest.head? = some c → ¬Prolongs c) :
    Takes operator op.symbol.toList rest fun found => found = op := by
  have hmem : op ∈ operators := by cases op <;> decide
  have hne : op.symbol.toList ≠ [] := by cases op <;> decide
  refine takes_choice hmem (fun earlier hearlier => ?_) ?_
  · have hnone : Token.word earlier.symbol.toList (op.symbol.toList ++ rest) = none :=
      word_eq_none_of_tail hne (fun c hc htail => hrest c hc (prolongs_of_tail earlier htail))
        (operators_ordered op hmem earlier hearlier)
    exact (refuses_token hnone).map.rule
  · have htoken : Takes (symbol op.symbol) op.symbol.toList rest fun lexeme =>
        lexeme.text = op.symbol.toList := takes_token (Token.word_append _ _)
    have hfound : Takes ((fun _ => op) <$> symbol op.symbol) op.symbol.toList rest
        fun found => found = op := htoken.map fun _ _ => rfl
    exact hfound.rule

end Operators

/-! Names and literals. -/

section Primaries

variable {nested : Matcher Phrase} {rest text : List Char}

theorem refuses_grouped (h : rest.head? ≠ some '(') : Refuses (grouped nested) rest :=
  (Refuses.position_bind fun _ => (refuses_symbol rfl h).bind).rule

theorem refuses_capabilityCall (h : rest.head? ≠ some '@') :
    Refuses (capabilityCall nested) rest :=
  (Refuses.position_bind fun _ => (refuses_symbol rfl h).bind).rule

theorem refuses_methodCall_of_noName (h : Token.name rest = none) :
    Refuses (methodCall nested) rest :=
  (Refuses.position_bind fun _ => (refuses_token h).rule.bind).rule

theorem takes_name (hname : Token.isName text) (hrest : Token.Ends rest) :
    Takes name text rest fun lexeme => lexeme.text = text :=
  (takes_token (Token.name_append hname hrest)).rule

/-- A name without arguments is no call. -/
theorem refuses_methodCall (hname : Token.isName text) (hrest : Closes rest) :
    Refuses (methodCall nested) (text ++ rest) := by
  refine (Refuses.position_bind fun _ => ?_).rule
  refine (takes_name hname hrest.ends).bind_refuses fun _ _ => Refuses.skip_bind ?_
  exact (refuses_symbol (c := '(') rfl hrest.noCall).bind.bind

theorem takes_literalOf {kind : LiteralKind} (h : literalScan kind (text ++ rest) = some rest) :
    Takes (literalOf kind) text rest fun p => p.bare = .literal kind ⟨⟨0, 0⟩, text⟩ := by
  refine ((takes_token h).map fun lexeme hlexeme => ?_).rule
  simp [Phrase.bare, Lexeme.bare, hlexeme]

theorem refuses_literalOf {kind : LiteralKind} (h : literalScan kind rest = none) :
    Refuses (literalOf kind) rest :=
  (refuses_token h).map.rule

/-- A literal is taken where the kinds that are tried before its own refuse. -/
theorem takes_literal_of {kind : LiteralKind}
    (hbefore : ∀ earlier ∈ [LiteralKind.null, .boolean, .float, .integer, .character,
      .string].takeWhile (· ≠ kind), literalScan earlier (text ++ rest) = none)
    (h : literalScan kind (text ++ rest) = some rest) :
    Takes literal text rest fun p => p.bare = .literal kind ⟨⟨0, 0⟩, text⟩ := by
  have hmem : kind ∈ [LiteralKind.null, .boolean, .float, .integer, .character, .string] := by
    cases kind <;> decide
  exact takes_choice hmem (fun earlier he => refuses_literalOf (hbefore earlier he))
    (takes_literalOf h)

/-- Keywords are found at names only. -/
theorem keyword_of_head {c : Char} (hc : c ∉ ['n', 't', 'f']) (cs : List Char) :
    Token.null (c :: cs) = none ∧ Token.boolean (c :: cs) = none := by
  have hne : ∀ d ∈ ['n', 't', 'f'], (c :: cs).head? ≠ some d := by
    intro d hd heq
    cases heq
    exact hc hd
  have hnull : Token.word "null".toList (c :: cs) = none :=
    Token.word_of_head_ne (hne 'n' (by decide))
  have htrue : Token.word "true".toList (c :: cs) = none :=
    Token.word_of_head_ne (hne 't' (by decide))
  have hfalse : Token.word "false".toList (c :: cs) = none :=
    Token.word_of_head_ne (hne 'f' (by decide))
  constructor
  · simp only [Token.null, hnull, Option.bind_none]
  · simp only [Token.boolean, htrue, hfalse]
    rfl

theorem number_of_head {c : Char} (hminus : c ≠ '-') (hdigit : c.isDigit = false)
    (cs : List Char) : Token.float (c :: cs) = none ∧ Token.integer (c :: cs) = none := by
  have hnone : Token.digits (Token.skipOne ['-'] (c :: cs)) = none := by
    simp [Token.skipOne, hminus, Token.digits, hdigit]
  constructor
  · simp only [Token.float, hnone]
    rfl
  · simp only [Token.integer, hnone]
    rfl

/-- What is no beginning of a call and no parenthesis is left to literals and names. -/
theorem takes_primary {found : Phrase → Prop} (hopen : (text ++ rest).head? ≠ some '(')
    (hat : (text ++ rest).head? ≠ some '@') (hcall : Refuses (methodCall nested) (text ++ rest))
    (h : Takes (orElse literal (Phrase.name <$> name)) text rest found) :
    Takes (primary nested) text rest found := by
  refine (refuses_grouped hopen).orElse_takes ?_
  refine (refuses_capabilityCall hat).orElse_takes ?_
  refine hcall.orElse_takes ?_
  -- the choice ends in a failure
  have hsame : orElse (Phrase.name <$> name) failure = (Phrase.name <$> name) := by
    funext c far
    simp only [orElse]
    generalize (Phrase.name <$> name) c far = outcome
    obtain ⟨found?, far'⟩ := outcome
    cases found? <;> rfl
  rwa [← hsame] at h

/-- Tokens that start with a character no name starts with. -/
theorem takes_primary_of_head {found : Phrase → Prop} {c : Char} {cs : List Char}
    (hc : c ∉ ['(', '@']) (hname : Token.isNameStart c = false)
    (h : Takes literal (c :: cs) rest found) : Takes (primary nested) (c :: cs) rest found := by
  have hnone : Token.name (c :: cs ++ rest) = none := by simp [Token.name, hname]
  refine takes_primary ?_ ?_ (refuses_methodCall_of_noName hnone) h.orElse
  · rintro heq
    cases heq
    exact hc (by decide)
  · rintro heq
    cases heq
    exact hc (by decide)

/-- Tokens that are spelled like names. -/
theorem takes_primary_of_name {found : Phrase → Prop} (hname : Token.isName text)
    (hrest : Closes rest) (h : Takes (orElse literal (Phrase.name <$> name)) text rest found) :
    Takes (primary nested) text rest found :=
  takes_primary (Token.head_ne_of_isName hname (by decide) rest)
    (Token.head_ne_of_isName hname (by decide) rest) (refuses_methodCall hname hrest) h

theorem takes_keyword {kind : LiteralKind} (hname : Token.isName text) (hrest : Closes rest)
    (h : Takes literal text rest fun p => p.bare = .literal kind ⟨⟨0, 0⟩, text⟩) :
    Takes (primary nested) text rest fun p => p.bare = .literal kind ⟨⟨0, 0⟩, text⟩ :=
  takes_primary_of_name hname hrest h.orElse

/-- An integer starts with a minus or a digit. -/
theorem integer_head {sign digits : List Char} (hsign : sign = [] ∨ sign = ['-'])
    (hne : digits ≠ []) (hall : digits.all Char.isDigit) (suffix : List Char) :
    ∃ c cs, sign ++ (digits ++ suffix) = c :: cs ∧ (c = '-' ∨ c.isDigit) := by
  rcases hsign with rfl | rfl
  · cases digits with
    | nil => exact absurd rfl hne
    | cons d ds =>
      obtain ⟨hd, -⟩ := (Bool.and_eq_true _ _).mp hall
      exact ⟨d, ds ++ suffix, rfl, .inr hd⟩
  · exact ⟨'-', digits ++ suffix, rfl, .inl rfl⟩

theorem takes_integer {sign digits suffix : List Char} (hsign : sign = [] ∨ sign = ['-'])
    (hne : digits ≠ []) (hall : digits.all Char.isDigit) (hsuffix : suffix ∈ Token.suffixes)
    (hrest : Closes rest) :
    Takes (primary nested) (sign ++ (digits ++ suffix)) rest
      fun p => p.bare = .literal .integer ⟨⟨0, 0⟩, sign ++ (digits ++ suffix)⟩ := by
  have hfloat := Token.float_append hsign hne hall hsuffix hrest.ends hrest.point
  have hinteger := Token.integer_append hsign hne hall hsuffix hrest.ends
  obtain ⟨c, cs, htext, hc⟩ := integer_head hsign hne hall suffix
  have happend : sign ++ (digits ++ (suffix ++ rest)) = c :: cs ++ rest := by
    rw [← htext]
    simp
  rw [happend] at hfloat hinteger
  have hother : ∀ d ∈ ['(', '@', 'n', 't', 'f'], c ≠ d := by
    rintro d hd rfl
    rcases hc with rfl | hc
    · exact absurd hd (by decide)
    · rcases List.mem_cons.mp hd with rfl | hd
      · exact absurd hc (by decide)
      · simp only [List.mem_cons, List.not_mem_nil, or_false] at hd
        rcases hd with rfl | rfl | rfl | rfl <;> exact absurd hc (by decide)
  have hstart : Token.isNameStart c = false := by
    rcases hc with rfl | hc
    · decide
    · exact Token.isNameStart_of_isDigit hc
  rw [htext]
  refine takes_primary_of_head ?_ hstart (takes_literal_of ?_ hinteger)
  · simp [hother '(' (by decide), hother '@' (by decide)]
  · have hkeyword := keyword_of_head (c := c) (by
      simp [hother 'n' (by decide), hother 't' (by decide), hother 'f' (by decide)]) (cs ++ rest)
    simp only [List.cons_append] at hfloat ⊢
    simp [literalScan, hkeyword, hfloat]

theorem takes_character {unit : List Char}
    (h : ∀ rest, Token.quotedUnit '\'' (unit ++ '\'' :: rest) = some ('\'' :: rest)) :
    Takes (primary nested) ('\'' :: (unit ++ ['\''])) rest
      fun p => p.bare = .literal .character ⟨⟨0, 0⟩, '\'' :: (unit ++ ['\''])⟩ := by
  have hkeyword := keyword_of_head (c := '\'') (by decide) (unit ++ '\'' :: rest)
  have hnumber := number_of_head (c := '\'') (by decide) (by decide) (unit ++ '\'' :: rest)
  refine takes_primary_of_head (by decide) (by decide) (takes_literal_of ?_ ?_)
  · simp [literalScan, hkeyword, hnumber]
  · simp [literalScan, Token.character, h, Token.word]

theorem takes_string {body : List Char}
    (h : ∀ rest, Token.quotedUnits '"' (body ++ '"' :: rest) = '"' :: rest) :
    Takes (primary nested) ('"' :: (body ++ ['"'])) rest
      fun p => p.bare = .literal .string ⟨⟨0, 0⟩, '"' :: (body ++ ['"'])⟩ := by
  have hkeyword := keyword_of_head (c := '"') (by decide) (body ++ '"' :: rest)
  have hnumber := number_of_head (c := '"') (by decide) (by decide) (body ++ '"' :: rest)
  refine takes_primary_of_head (by decide) (by decide) (takes_literal_of ?_ ?_)
  · simp [literalScan, hkeyword, hnumber, Token.character]
  · simp [literalScan, Token.string, h, Token.word]

theorem takes_spelled {kind : LiteralKind} (h : Spelled kind text) (hrest : Closes rest) :
    Takes (primary nested) text rest fun p => p.bare = .literal kind ⟨⟨0, 0⟩, text⟩ := by
  have hends := hrest.ends
  cases h with
  | null =>
    refine takes_keyword (by decide) hrest (takes_literal_of (by simp) ?_)
    exact Token.null_append (by decide) hends
  | true =>
    have hnull : Token.null ("true".toList ++ rest) = none := Token.null_append (by decide) hends
    refine takes_keyword (by decide) hrest (takes_literal_of ?_ ?_)
    · simpa [literalScan] using hnull
    · exact Token.boolean_append (by decide) hends
  | false =>
    have hnull : Token.null ("false".toList ++ rest) = none := Token.null_append (by decide) hends
    refine takes_keyword (by decide) hrest (takes_literal_of ?_ ?_)
    · simpa [literalScan] using hnull
    · exact Token.boolean_append (by decide) hends
  | integer hsign hne hall hsuffix => exact takes_integer hsign hne hall hsuffix hrest
  | character h => exact takes_character h
  | string h => exact takes_string h

/-- A name that is no keyword stands for itself. -/
theorem takes_plainName (hname : Token.isName text) (hkeyword : text ∉ Token.keywords)
    (hrest : Closes rest) :
    Takes (primary nested) text rest fun p => p.bare = .name ⟨⟨0, 0⟩, text⟩ := by
  have hall := Token.all_isNameChar_of_isName hname
  have hends := hrest.ends
  simp only [Token.keywords, List.mem_cons, List.not_mem_nil, or_false, not_or] at hkeyword
  have hnull := Token.null_append hall hends
  have hboolean := Token.boolean_append hall hends
  simp only [hkeyword, or_self, if_false] at hnull hboolean
  refine takes_primary_of_name hname hrest (Refuses.orElse_takes ?_ ?_)
  · cases text with
    | nil => cases hname
    | cons c cs =>
      obtain ⟨hc, -⟩ := (Bool.and_eq_true _ _).mp hname
      have hne : ∀ d, Token.isNameStart d = false → c ≠ d := by
        rintro d hd rfl
        simp [hc] at hd
      have hdigit : c.isDigit = false := by
        cases hdigit : c.isDigit with
        | false => rfl
        | true => simp [Token.isNameStart_of_isDigit hdigit] at hc
      have hnumber := number_of_head (hne '-' (by decide)) hdigit (cs ++ rest)
      refine refuses_choice fun m hm => ?_
      obtain ⟨kind, -, rfl⟩ := List.mem_map.mp hm
      refine refuses_literalOf ?_
      cases kind with
      | null => exact hnull
      | boolean => exact hboolean
      | float => exact hnumber.1
      | integer => exact hnumber.2
      | character => simp [literalScan, Token.character, hne '\'' (by decide)]
      | string => simp [literalScan, Token.string, hne '"' (by decide)]
  · exact (takes_name hname hends).map fun lexeme hlexeme => by
      simp [Phrase.bare, Lexeme.bare, hlexeme]

end Primaries

/-! Calls and groups. -/

section Calls

variable {nested : Matcher Phrase} {text rest : List Char}

/-- The text of a phrase is taken as that phrase wherever something allowed follows. -/
def Matches (m : Matcher Phrase) (follows : List Char → Prop) (p : Phrase) : Prop :=
  ∀ rest, follows rest → Takes m p.text rest fun q => q.bare = p.bare

/-- A text that no blank begins. -/
def Solid (text : List Char) : Prop := ∃ c cs, text = c :: cs ∧ Token.isSpace c = false

theorem Solid.append (h : Solid text) (rest : List Char) :
    (text ++ rest).dropWhile Token.isSpace = text ++ rest := by
  obtain ⟨c, cs, rfl, hc⟩ := h
  exact solid_of_head (c := c) rfl hc

theorem solid_of_isName (h : Token.isName text) : Solid text := by
  cases text with
  | nil => cases h
  | cons c cs =>
    obtain ⟨hc, -⟩ := (Bool.and_eq_true _ _).mp h
    exact ⟨c, cs, rfl, Token.not_space_of_isNameChar (Token.isNameChar_of_isNameStart hc)⟩

theorem solid_close (rest : List Char) :
    (')' :: rest).dropWhile Token.isSpace = ')' :: rest :=
  (stops_close rest).solid

theorem takes_grouped {found : Phrase → Prop} (hsolid : Solid text)
    (h : Takes nested text (')' :: rest) found) :
    Takes (grouped nested) ('(' :: (text ++ [')'])) rest
      fun p => ∃ span inner, p = .group span inner ∧ found inner := by
  refine (Takes.position_bind fun start => Takes.symbol_bind rfl (Takes.skip_bind ?_ ?_)).rule
  · rw [List.append_assoc]
    exact hsolid.append _
  · refine Takes.bind h fun inner hinner => Takes.skip_bind (solid_close rest) ?_
    refine Takes.symbol_bind rfl (Takes.position_bind fun stop => ?_)
    exact takes_pure ⟨_, inner, rfl, hinner⟩

theorem moreText_eq (ps : List Phrase) :
    Phrase.moreText ps = spelled [] (fun p => ',' :: ' ' :: p.text) ps := by
  induction ps with
  | nil => rfl
  | cons p ps ih => simp [Phrase.moreText, spelled, ih]

/-- Arguments behind a comma. -/
theorem repeatable_arguments {ps : List Phrase} (hsolid : ∀ p ∈ ps, Solid p.text)
    (h : ∀ p ∈ ps, Matches nested Stops p) :
    Repeatable (do let _ ← symbol ","; skip; nested) [] (fun p => ',' :: ' ' :: p.text)
      Phrase.bare Phrase.bare Stops ps where
  blank := rfl
  nonempty := fun _ _ => List.cons_ne_nil _ _
  solid := fun _ _ _ => solid_of_head (c := ',') rfl (by decide)
  opens := fun _ _ _ => stops_comma _
  takes := fun p hp after hafter =>
    Takes.symbol_bind rfl (Takes.blank_bind ((hsolid p hp).append after) (h p hp after hafter))

theorem takes_arguments {p : Phrase} {ps : List Phrase} (hsolid : ∀ a ∈ p :: ps, Solid a.text)
    (h : ∀ a ∈ p :: ps, Matches nested Stops a) :
    Takes (arguments nested) (Phrase.argumentText (p :: ps)) (')' :: rest)
      fun qs => qs.map Phrase.bare = (p :: ps).map Phrase.bare := by
  obtain ⟨hp, hps⟩ := List.forall_mem_cons.mp h
  have hrepeat := repeatable_arguments (List.forall_mem_cons.mp hsolid).2 hps
  have hrefuse : Refuses (do let _ ← symbol ","; skip; nested) (')' :: rest) :=
    (refuses_symbol (c := ',') rfl (by simp)).bind
  have hmore := takes_followers hrepeat (stops_close rest) (solid_close rest) hrefuse
  have hfollows := hrepeat.follows_spelled (stops_close rest)
  rw [Phrase.argumentText, moreText_eq]
  refine (hp _ hfollows).bind fun q hq => hmore.bind_nil fun qs hqs => takes_pure ?_
  rw [List.map_cons, List.map_cons, hq, hqs]

theorem takes_argumentList {args : List Phrase} (hsolid : ∀ a ∈ args, Solid a.text)
    (h : ∀ a ∈ args, Matches nested Stops a) (hempty : Refuses nested (')' :: rest)) :
    Takes (argumentList nested) ('(' :: (Phrase.argumentText args ++ [')'])) rest
      fun qs => qs.map Phrase.bare = args.map Phrase.bare := by
  have hend : ∀ found? : Option (List Phrase),
      (found?.getD []).map Phrase.bare = args.map Phrase.bare →
      Takes (do skip; let _ ← symbol ")"; return found?.getD []) [')'] rest
        fun qs => qs.map Phrase.bare = args.map Phrase.bare := fun found? hfound =>
    Takes.skip_bind (solid_close rest) (Takes.symbol_bind rfl (takes_pure hfound))
  refine Takes.symbol_bind rfl ?_
  cases args with
  | nil =>
    refine Takes.skip_bind (solid_close rest) ?_
    have hnone : Takes (optional (arguments nested)) [] ([')'] ++ rest) fun found? =>
        found? = none := takes_optional_none hempty.bind
    refine hnone.bind fun found? hfound => hend found? ?_
    rw [hfound]
    rfl
  | cons p ps =>
    have hhead : Solid (Phrase.argumentText (p :: ps)) := by
      obtain ⟨c, cs, hp, hc⟩ := hsolid p List.mem_cons_self
      exact ⟨c, cs ++ Phrase.moreText ps, by simp [Phrase.argumentText, hp], hc⟩
    refine Takes.skip_bind ?_ ?_
    · rw [List.append_assoc]
      exact hhead.append _
    · refine Takes.bind (takes_arguments hsolid h).optional fun found? hfound => hend found? ?_
      obtain ⟨qs, rfl, hqs⟩ := hfound
      exact hqs

theorem takes_methodCall (span : Span) {callee : Lexeme} {args : List Phrase}
    (hname : Token.isName callee.text)
    (hargs : ∀ rest, Takes (argumentList nested) ('(' :: (Phrase.argumentText args ++ [')'])) rest
      fun qs => qs.map Phrase.bare = args.map Phrase.bare) :
    Matches (methodCall nested) Closes (.method span callee args) := by
  intro rest _
  refine (Takes.position_bind fun start => ?_).rule
  refine (takes_name hname (ends_open _)).bind fun lexeme hlexeme => ?_
  refine Takes.skip_bind (solid_of_head (c := '(') rfl (by decide)) ?_
  refine (hargs rest).bind_nil fun qs hqs => Takes.position_bind fun stop => takes_pure ?_
  simp [Phrase.bare, Lexeme.bare, hlexeme, Phrase.bareAll_eq_map, hqs]

theorem takes_capabilityCall (span : Span) {callee : Lexeme} {args : List Phrase}
    (hname : Token.isName callee.text)
    (hargs : ∀ rest, Takes (argumentList nested) ('(' :: (Phrase.argumentText args ++ [')'])) rest
      fun qs => qs.map Phrase.bare = args.map Phrase.bare) :
    Matches (capabilityCall nested) Closes (.capability span callee args) := by
  intro rest _
  have hsolid : Solid callee.text := solid_of_isName hname
  refine (Takes.position_bind fun start => Takes.symbol_bind rfl ?_).rule
  refine Takes.skip_bind (by rw [List.append_assoc]; exact hsolid.append _) ?_
  refine (takes_name hname (ends_open _)).bind fun lexeme hlexeme => ?_
  refine Takes.skip_bind (solid_of_head (c := '(') rfl (by decide)) ?_
  refine (hargs rest).bind_nil fun qs hqs => Takes.position_bind fun stop => takes_pure ?_
  simp [Phrase.bare, Lexeme.bare, hlexeme, Phrase.bareAll_eq_map, hqs]

end Calls

/-! Expressions. -/

section Expressions

variable {p : Phrase} {rest : List Char}

theorem refuses_expression_close (depth : Nat) (rest : List Char) :
    Refuses (expression depth) (')' :: rest) := by
  cases depth with
  | zero => exact refuses_failure
  | succ depth =>
    have hkeyword := keyword_of_head (c := ')') (by decide) rest
    have hnumber := number_of_head (c := ')') (by decide) (by decide) rest
    have hliteral : Refuses literal (')' :: rest) := by
      refine refuses_choice fun m hm => ?_
      obtain ⟨kind, -, rfl⟩ := List.mem_map.mp hm
      refine refuses_literalOf ?_
      cases kind with
      | null => exact hkeyword.1
      | boolean => exact hkeyword.2
      | float => exact hnumber.1
      | integer => exact hnumber.2
      | character => rfl
      | string => rfl
    have hname : Token.name (')' :: rest) = none := rfl
    have hprimary : Refuses (primary (expression depth)) (')' :: rest) :=
      (refuses_grouped (by simp)).orElse <| (refuses_capabilityCall (by simp)).orElse <|
        (refuses_methodCall_of_noName hname).orElse <| hliteral.orElse <|
          (refuses_token hname).rule.map.orElse refuses_failure
    exact hprimary.bind.rule

/-- The first character of a phrase is no blank. -/
theorem solid_text (hp : p.Regular Spelled) : Solid p.text := by
  induction hp with
  | binary _ _ _ _ ihl _ =>
    obtain ⟨c, cs, htext, hc⟩ := ihl
    exact ⟨c, _, by rw [Phrase.text, htext, List.cons_append], hc⟩
  | group => exact ⟨'(', _, rfl, by decide⟩
  | name hname _ => exact solid_of_isName hname
  | @literal kind lexeme h =>
    simp only [Phrase.text]
    generalize lexeme.text = text at h
    cases h with
    | null => exact ⟨'n', _, rfl, by decide⟩
    | true => exact ⟨'t', _, rfl, by decide⟩
    | false => exact ⟨'f', _, rfl, by decide⟩
    | integer hsign hne hall _ =>
      obtain ⟨c, cs, htext, hc⟩ := integer_head hsign hne hall _
      refine ⟨c, cs, htext, ?_⟩
      rcases hc with rfl | hc
      · decide
      · exact Token.not_space_of_isNameChar (Token.isNameChar_of_isDigit hc)
    | character => exact ⟨'\'', _, rfl, by decide⟩
    | string => exact ⟨'"', _, rfl, by decide⟩
  | method hname _ _ =>
    obtain ⟨c, cs, htext, hc⟩ := solid_of_isName hname
    exact ⟨c, _, by rw [Phrase.text, htext, List.cons_append], hc⟩
  | capability => exact ⟨'@', _, rfl, by decide⟩

theorem regular_operands {literals : LiteralKind → List Char → Prop} (hp : p.Regular literals) :
    ∀ x ∈ p.operands, x.Regular literals := by
  induction hp with
  | binary _ _ _ _ ihl ihr =>
    intro x hx
    rcases Phrase.mem_operands_binary.mp hx with hx | hx
    · exact ihl x hx
    · exact ihr x hx
  | group h => simpa [Phrase.operands, Phrase.first, Phrase.others] using Phrase.Regular.group h
  | name hname hkeyword =>
    simpa [Phrase.operands, Phrase.first, Phrase.others] using Phrase.Regular.name hname hkeyword
  | literal h => simpa [Phrase.operands, Phrase.first, Phrase.others] using Phrase.Regular.literal h
  | method hname hargs =>
    simpa [Phrase.operands, Phrase.first, Phrase.others] using Phrase.Regular.method hname hargs
  | capability hname hargs =>
    simpa [Phrase.operands, Phrase.first, Phrase.others] using Phrase.Regular.capability hname hargs

/-- The later operands of a chain, each behind a blank and its operator. -/
theorem repeatable_operands {nested : Matcher Phrase} {items : List (BinaryOp × Phrase)}
    (hsolid : ∀ item ∈ items, Solid item.2.text)
    (h : ∀ item ∈ items, Matches (primary nested) Closes item.2) :
    Repeatable (do let op ← operator; skip; let operand ← primary nested; return (op, operand))
      [' '] Phrase.itemText (fun found => (found.1, found.2.bare))
      (fun item => (item.1, item.2.bare)) Closes items where
  blank := by decide
  nonempty := fun item _ => by simp [Phrase.itemText]
  solid := fun item _ after => by
    obtain ⟨c, w, hsymbol, hc, -⟩ := symbol_head item.1
    exact solid_of_head (by rw [Phrase.itemText, hsymbol]; rfl) hc
  opens := fun item _ after => by
    obtain ⟨c, w, hsymbol, hc, hclose⟩ := symbol_head item.1
    refine ⟨fun d hd => by cases hd; decide, by simp, ?_⟩
    have hdrop : ([' '] ++ (Phrase.itemText item ++ after)).dropWhile Token.isSpace =
        Phrase.itemText item ++ after := by
      rw [List.singleton_append, List.dropWhile_cons_of_pos (by decide)]
      exact solid_of_head (by rw [Phrase.itemText, hsymbol]; rfl) hc
    rw [hdrop, Phrase.itemText, hsymbol]
    rintro heq
    cases heq
    exact absurd hclose (by decide)
  takes := fun item hitem after hafter => by
    have hop : Takes operator item.1.symbol.toList (' ' :: item.2.text ++ after) fun op =>
        op = item.1 := takes_operator item.1 fun c hc => by cases hc; decide
    refine Takes.bind hop fun op hop => ?_
    refine Takes.blank_bind ((hsolid item hitem).append after) ?_
    refine (h item hitem after hafter).bind_nil fun q hq => takes_pure ?_
    rw [hop, hq]

/-- A chain of operands is matched when every operand is. -/
theorem matches_expression (hp : p.Regular Spelled)
    (h : ∀ x ∈ p.operands, ∀ depth, x.levels ≤ depth →
      Matches (primary (expression depth)) Closes x)
    {depth : Nat} (hdepth : p.levels < depth) : Matches (expression depth) Stops p := by
  obtain ⟨depth, rfl⟩ := Nat.exists_eq_succ_of_ne_zero (Nat.ne_of_gt (Nat.zero_lt_of_lt hdepth))
  have hlevels : p.first.levels ≤ depth ∧ ∀ item ∈ p.others, item.2.levels ≤ depth := by
    rw [← Phrase.levels_ofChain_le, Phrase.ofChain_others hp.arranged]
    omega
  have hitems : ∀ item ∈ p.others, item.2 ∈ p.operands := fun item hitem =>
    List.mem_cons_of_mem _ (List.mem_map_of_mem hitem)
  have hregular := regular_operands hp
  have hrepeat := repeatable_operands
    (fun item hitem => solid_text (hregular _ (hitems item hitem)))
    (fun item hitem => h _ (hitems item hitem) depth (hlevels.2 item hitem))
  intro rest hrest
  have hothers := takes_followers hrepeat hrest.closes hrest.solid (refuses_operator hrest).bind
  have hfirst := h p.first List.mem_cons_self depth hlevels.1 _
    (hrepeat.follows_spelled hrest.closes)
  rw [Phrase.text_eq_chain]
  refine (hfirst.bind fun q hq => hothers.bind_nil fun items hitems => takes_pure ?_).rule
  rw [Phrase.bare_ofChain, hq, hitems, ← Phrase.bare_ofChain, Phrase.ofChain_others hp.arranged]

theorem takes_args {args : List Phrase} (hargs : ∀ a ∈ args, a.Regular Spelled)
    (h : ∀ a ∈ args, ∀ x ∈ a.operands, ∀ depth, x.levels ≤ depth →
      Matches (primary (expression depth)) Closes x)
    {depth : Nat} (hdepth : Phrase.levelsAll args + 1 ≤ depth) (rest : List Char) :
    Takes (argumentList (expression depth)) ('(' :: (Phrase.argumentText args ++ [')'])) rest
      fun qs => qs.map Phrase.bare = args.map Phrase.bare := by
  have hlevels := Phrase.levelsAll_le.mp (Nat.le_refl (Phrase.levelsAll args))
  refine takes_argumentList (fun a ha => solid_text (hargs a ha)) (fun a ha => ?_)
    (refuses_expression_close depth rest)
  have hle := hlevels a ha
  exact matches_expression (hargs a ha) (h a ha) (by omega)

theorem matches_operands (hp : p.Regular Spelled) : ∀ x ∈ p.operands, ∀ depth,
    x.levels ≤ depth → Matches (primary (expression depth)) Closes x := by
  induction hp with
  | binary _ _ _ _ ihl ihr =>
    intro x hx
    rcases Phrase.mem_operands_binary.mp hx with hx | hx
    · exact ihl x hx
    · exact ihr x hx
  | @group span inner h ih =>
    rw [Phrase.operands_of_isOperand rfl, List.forall_mem_singleton]
    intro depth hdepth rest _
    have hinner : Matches (expression depth) Stops inner :=
      matches_expression h ih (Nat.lt_of_succ_le hdepth)
    refine ((takes_grouped (solid_text h) (hinner _ (stops_close rest))).mono ?_).orElse
    rintro _ ⟨span', inner', rfl, heq⟩
    simp [Phrase.bare, heq]
  | name hname hkeyword =>
    rw [Phrase.operands_of_isOperand rfl, List.forall_mem_singleton]
    exact fun depth _ rest hrest => takes_plainName hname hkeyword hrest
  | literal h =>
    rw [Phrase.operands_of_isOperand rfl, List.forall_mem_singleton]
    exact fun depth _ rest hrest => takes_spelled h hrest
  | @method span callee args hname hargs ih =>
    rw [Phrase.operands_of_isOperand rfl, List.forall_mem_singleton]
    intro depth hdepth rest hrest
    have hcall := takes_methodCall span hname (takes_args hargs ih hdepth) rest hrest
    have hhead : ∀ c, Token.isNameStart c = false →
        ((Phrase.method span callee args).text ++ rest).head? ≠ some c := by
      intro c hc
      rw [Phrase.text, List.append_assoc]
      exact Token.head_ne_of_isName hname hc _
    refine Refuses.orElse_takes (refuses_grouped (hhead '(' (by decide))) ?_
    exact Refuses.orElse_takes (refuses_capabilityCall (hhead '@' (by decide))) hcall.orElse
  | @capability span callee args hname hargs ih =>
    rw [Phrase.operands_of_isOperand rfl, List.forall_mem_singleton]
    intro depth hdepth rest hrest
    have hcall := takes_capabilityCall span hname (takes_args hargs ih hdepth) rest hrest
    exact Refuses.orElse_takes (refuses_grouped (by simp [Phrase.text])) hcall.orElse

end Expressions

/-! Whole texts. -/

section Texts

variable {p : Phrase}

/-- Every level of nesting has a parenthesis of its own. -/
theorem levels_le_count (p : Phrase) : p.levels ≤ p.text.count '(' := by
  have hargs : ∀ args : List Phrase, (∀ a ∈ args, a.levels ≤ a.text.count '(') →
      Phrase.levelsAll args ≤ (Phrase.argumentText args).count '(' := by
    intro args h
    cases args with
    | nil => exact Nat.zero_le _
    | cons p ps =>
      obtain ⟨hp, hps⟩ := List.forall_mem_cons.mp h
      have hmore : Phrase.levelsAll ps ≤ (Phrase.moreText ps).count '(' := by
        clear h hp
        induction ps with
        | nil => exact Nat.zero_le _
        | cons q qs ih =>
          obtain ⟨hq, hqs⟩ := List.forall_mem_cons.mp hps
          have hrest := ih hqs
          simp [Phrase.levelsAll, Phrase.moreText]
          omega
      simp only [Phrase.levelsAll, Phrase.argumentText, List.count_append]
      omega
  induction p with
  | binary op left right ihl ihr =>
    simp [Phrase.levels, Phrase.text]
    omega
  | group span inner ih => simpa [Phrase.levels, Phrase.text] using ih
  | name lexeme => exact Nat.zero_le _
  | literal kind lexeme => exact Nat.zero_le _
  | method span callee args ih =>
    have hall := hargs args ih
    simp [Phrase.levels, Phrase.text]
    omega
  | capability span callee args ih =>
    have hall := hargs args ih
    simp [Phrase.levels, Phrase.text]
    omega

theorem phrase_of_run {source : List Char} {q : Phrase} {c' : Cursor}
    (h : (main (depthOf source) ⟨source, 0⟩ {}).1 = some (q, c')) : phrase source = .ok q := by
  simp only [phrase, runAt]
  generalize main (depthOf source) ⟨source, 0⟩ {} = outcome at h
  obtain ⟨found?, far⟩ := outcome
  subst h
  rfl

/-- The text of a regular phrase spells that phrase. -/
theorem phrase_text (hp : p.Regular Spelled) :
    ∃ q, phrase p.text = .ok q ∧ q.bare = p.bare := by
  have hdepth : p.levels < depthOf p.text := Nat.lt_succ_of_le (levels_le_count p)
  have hexpr : Matches (expression (depthOf p.text)) Stops p :=
    matches_expression hp (matches_operands hp) hdepth
  have hend : ∀ q : Phrase, q.bare = p.bare →
      Takes (do skip; endOfInput; return q) [] [] fun found => found.bare = p.bare := by
    intro q hq position
    exact ⟨q, _, hq, fun far => rfl⟩
  have hmain : Takes (main (depthOf p.text)) p.text [] fun q => q.bare = p.bare := by
    refine (Takes.skip_bind ((solid_text hp).append []) ?_).rule
    exact (hexpr [] stops_nil).bind_nil hend
  obtain ⟨q, after, hq, hrun⟩ := hmain 0
  have hrun' := hrun {}
  rw [List.append_nil] at hrun'
  exact ⟨q, phrase_of_run hrun', hq⟩

end Texts

end GuardCode.Grammar
