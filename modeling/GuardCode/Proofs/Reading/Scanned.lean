import GuardCode.Proofs.Grammar.Matching
import GuardCode.Proofs.Grammar.Scanning
import GuardCode.Proofs.Reading.Looseness

/-! What is scanned as a literal can be read. The escapes that the grammar lets through are those that
are read back, a character literal holds one character, and a float is digits with a fraction or a power
of ten, so of all literals only integers are refused, and these for their size. -/
namespace GuardCode

open Pattern

/-! ## Quoted text -/

namespace Text

theorem shortEscape?_of_isEscapable {c : Char} (h : Token.isEscapable c = true) :
    ∃ d, shortEscape? c = some d := by
  simp only [Token.isEscapable, Bool.or_eq_true, beq_iff_eq] at h
  obtain (((((rfl | rfl) | rfl) | rfl) | rfl) | rfl) | rfl := h
  all_goals exact ⟨_, rfl⟩

variable {quote : Char} {cs rest : List Char}

/-- One unit between quotes is read as one character, whatever stands behind it. -/
theorem unescape_unit (h : Pattern.Reads (quotedUnit quote) cs rest) :
    ∃ unit c, cs = unit ++ rest ∧
      ∀ behind, unescape (unit ++ behind) = (unescape behind).map (c :: ·) := by
  rcases reads_quotedUnit.mp h with ⟨c, hc, rfl⟩ | ⟨c, -, hbackslash, rfl⟩
  · obtain ⟨d, hd⟩ := shortEscape?_of_isEscapable hc
    exact ⟨['\\', c], d, rfl, unescape_short hd⟩
  · exact ⟨[c], c, rfl, unescape_plain hbackslash⟩

theorem unescape_units (h : Pattern.Reads (.many (quotedUnit quote)) cs rest) :
    ∃ units body, cs = units ++ rest ∧ unescape units = some body := by
  refine h.many_induction
    (motive := fun cs => ∃ units body, cs = units ++ rest ∧ unescape units = some body) ?stop ?again
  case stop => exact ⟨[], [], rfl, rfl⟩
  case again =>
    rintro cs mid hunit - ⟨units, body, rfl, hbody⟩
    obtain ⟨unit, c, rfl, hread⟩ := unescape_unit hunit
    refine ⟨unit ++ units, c :: body, by rw [List.append_assoc], ?_⟩
    rw [hread, hbody]
    rfl

end Text

namespace Grammar

variable {text : List Char}

/-- Between the quotes of a string stands what can be read. -/
theorem IsToken.unescapes_string (h : IsToken .string text) :
    ∃ units body, text = '"' :: (units ++ ['"']) ∧ Text.unescape units = some body := by
  obtain ⟨after, hopen, hbehind⟩ := reads_next.mp (isToken_iff.mp h)
  obtain ⟨before, hunits, hclose⟩ := reads_next.mp hbehind
  obtain ⟨units, body, rfl, hbody⟩ := Text.unescape_units hunits
  obtain rfl := reads_text.mp hopen
  obtain rfl := reads_text.mp hclose
  exact ⟨units, body, rfl, hbody⟩

theorem IsToken.unescapes_character (h : IsToken .character text) :
    ∃ unit c, text = '\'' :: (unit ++ ['\'']) ∧ Text.unescape unit = some [c] := by
  obtain ⟨after, hopen, hbehind⟩ := reads_next.mp (isToken_iff.mp h)
  obtain ⟨before, hunit, hclose⟩ := reads_next.mp hbehind
  obtain ⟨unit, c, rfl, hread⟩ := Text.unescape_unit hunit
  obtain rfl := reads_text.mp hopen
  obtain rfl := reads_text.mp hclose
  have hbody : Text.unescape unit = some [c] := by
    have := hread []
    rwa [List.append_nil] at this
  exact ⟨unit, c, rfl, hbody⟩

end Grammar

/-! ## Floats -/

theorem Text.readNat?_isSome {ds : List Char} (hne : ds ≠ []) (hall : ds.all Char.isDigit = true) :
    ∃ n, Text.readNat? ds = some n := by
  have hempty : ds.isEmpty = false := by simpa using hne
  simp [Text.readNat?, hempty, hall]

namespace Decimal

/-- A power of ten can be read. -/
theorem readExponent?_isSome {cs : List Char} (h : Pattern.Reads Pattern.exponent cs []) :
    ∃ power, readExponent? cs = some power := by
  obtain ⟨after, hmark, hbehind⟩ := reads_next.mp h
  obtain ⟨before, hsign, hdigits⟩ := reads_next.mp hbehind
  obtain ⟨c, hc, rfl⟩ := reads_anyOf.mp hmark
  obtain ⟨ds, hne, hall, rfl⟩ := reads_digits.mp hdigits
  rw [List.append_nil] at hsign
  obtain ⟨n, hn⟩ := Text.readNat?_isSome hne hall
  have hmark : c = 'e' ∨ c = 'E' := by simpa using hc
  simp only [readExponent?, if_pos hmark]
  rcases reads_opt.mp hsign with hsign | rfl
  · obtain ⟨s, hs, rfl⟩ := reads_anyOf.mp hsign
    have hs : s = '+' ∨ s = '-' := by simpa using hs
    rcases hs with rfl | rfl
    · exact ⟨n, by simp [hn]⟩
    · exact ⟨-n, by simp [hn]⟩
  · split
    · simp at hall
    · simp at hall
    · exact ⟨n, by simp [hn]⟩

/-- Digits with a fraction or a power of ten behind them can be read. -/
theorem readUnsigned?_isSome {whole part : List Char} (hne : whole ≠ [])
    (hall : whole.all Char.isDigit = true)
    (hpart : Pattern.Reads Pattern.fraction part [] ∨ Pattern.Reads Pattern.exponent part [])
    (negative : Bool) : ∃ d, readUnsigned? negative (whole ++ part) = some d := by
  have hempty : whole.isEmpty = false := by simpa using hne
  rcases hpart with hpart | hpart
  · obtain ⟨after, hpoint, hbehind⟩ := reads_next.mp hpart
    obtain ⟨before, hdigits, hexponent⟩ := reads_next.mp hbehind
    obtain rfl := reads_text.mp hpoint
    obtain ⟨ds, -, hds, rfl⟩ := reads_digits.mp hdigits
    have hpoint : NoDigit (".".toList ++ (ds ++ before)) := by
      rintro c ⟨⟩
      decide
    have hpower : NoDigit before ∧ ∃ power, readExponent? before = some power := by
      rcases reads_opt.mp hexponent with hexponent | rfl
      · refine ⟨?_, readExponent?_isSome hexponent⟩
        obtain ⟨c, tail, rfl, hc⟩ := hexponent.head_exponent
        rintro d ⟨⟩
        rcases hc with rfl | rfl <;> decide
      · exact ⟨nofun, 0, rfl⟩
    obtain ⟨hend, power, hpower⟩ := hpower
    simp only [readUnsigned?, Token.takeWhile_run hall hpoint, Token.dropWhile_run hall hpoint]
    exact ⟨_, by simp [hempty, Token.dropWhile_run hds hend, hpower]; rfl⟩
  · obtain ⟨power, hpower⟩ := readExponent?_isSome hpart
    obtain ⟨c, tail, rfl, hc⟩ := hpart.head_exponent
    have hend : NoDigit (c :: tail) := by
      rintro d ⟨⟩
      rcases hc with rfl | rfl <;> decide
    have hplain : c ≠ '.' := by rcases hc with rfl | rfl <;> decide
    simp only [readUnsigned?, Token.takeWhile_run hall hend, Token.dropWhile_run hall hend]
    exact ⟨_, by simp [hempty, hplain, hpower]; rfl⟩

end Decimal

namespace Binary

variable {f : Format}

/-- What can be read without a sign can be read with a minus, or with none, in front of it. -/
theorem read?_isSome {sign : List Char} {d : Char} {ds : List Char} (hsign : sign = [] ∨ sign = ['-'])
    (hd : d.isDigit = true)
    (h : ∀ negative, ∃ x, Decimal.readUnsigned? negative (d :: ds) = some x) :
    ∃ x : Binary f, read? (sign ++ d :: ds) = some x := by
  have hplus : d ≠ '+' := by rintro rfl; exact absurd hd (by decide)
  have hminus : d ≠ '-' := by rintro rfl; exact absurd hd (by decide)
  have hbody : ∀ negative, ∃ x : Binary f,
      (let word := String.ofList ((d :: ds).map Char.toLower)
        if word = "inf" ∨ word = "infinity" then some (infinite negative)
        else if word = "nan" then some nan
        else (Decimal.readUnsigned? negative (d :: ds)).map ofDecimal) = some x := by
    intro negative
    obtain ⟨x, hx⟩ := h negative
    simp only [hx]
    split
    · exact ⟨_, rfl⟩
    · split
      · exact ⟨_, rfl⟩
      · exact ⟨_, rfl⟩
  rcases hsign with rfl | rfl
  · obtain ⟨x, hx⟩ := hbody false
    exact ⟨x, by simpa [read?, hplus, hminus] using hx⟩
  · obtain ⟨x, hx⟩ := hbody true
    exact ⟨x, by simpa [read?] using hx⟩

end Binary

namespace Grammar

variable {text : List Char}

theorem last_digit {ds : List Char} (hne : ds ≠ []) (hall : ds.all Char.isDigit = true)
    (front : List Char) : ∃ d, (front ++ ds).getLast? = some d ∧ d.isDigit = true := by
  refine ⟨ds.getLast hne, ?_, List.all_eq_true.mp hall _ (List.getLast_mem hne)⟩
  rw [List.getLast?_append, List.getLast?_eq_some_getLast hne]
  rfl

theorem exponent_last {part : List Char} (h : Pattern.Reads exponent part []) (front : List Char) :
    ∃ d, (front ++ part).getLast? = some d ∧ d.isDigit = true := by
  obtain ⟨after, hmark, hbehind⟩ := reads_next.mp h
  obtain ⟨before, hsign, hdigits⟩ := reads_next.mp hbehind
  obtain ⟨c, -, rfl⟩ := reads_anyOf.mp hmark
  obtain ⟨ds, hne, hall, rfl⟩ := reads_digits.mp hdigits
  rw [List.append_nil] at hsign
  rcases reads_opt.mp hsign with hsign | rfl
  · obtain ⟨s, -, rfl⟩ := reads_anyOf.mp hsign
    have := last_digit hne hall (front ++ [c, s])
    rwa [List.append_assoc] at this
  · have := last_digit hne hall (front ++ [c])
    rwa [List.append_assoc] at this

theorem fraction_last {part : List Char} (h : Pattern.Reads fraction part []) (front : List Char) :
    ∃ d, (front ++ part).getLast? = some d ∧ d.isDigit = true := by
  obtain ⟨after, hpoint, hbehind⟩ := reads_next.mp h
  obtain ⟨before, hdigits, hexponent⟩ := reads_next.mp hbehind
  obtain rfl := reads_text.mp hpoint
  obtain ⟨ds, hne, hall, rfl⟩ := reads_digits.mp hdigits
  rcases reads_opt.mp hexponent with hexponent | rfl
  · have := exponent_last hexponent (front ++ ('.' :: ds))
    rwa [List.append_assoc] at this
  · have := last_digit hne hall (front ++ ['.'])
    rw [List.append_assoc] at this
    simpa using this

/-- A float token is a number that can be read in every format, which ends in a digit, and perhaps an
`f` behind it. -/
theorem IsToken.float_parts (h : IsToken .float text) : ∃ number suffix, text = number ++ suffix ∧
    (suffix = [] ∨ suffix = ['f']) ∧ (∃ d, number.getLast? = some d ∧ d.isDigit = true) ∧
      ∀ f : Format, ∃ x : Binary f, Binary.read? number = some x := by
  obtain ⟨unsigned, hsign, h⟩ := reads_next.mp (isToken_iff.mp h)
  obtain ⟨whole, hdigits, h⟩ := reads_next.mp h
  obtain ⟨mid, hparts, h⟩ := reads_next.mp h
  obtain ⟨after, hsuffix, hend⟩ := reads_next.mp h
  obtain ⟨rfl, -⟩ := reads_nameEnd.mp hend
  have hsuffix : mid = [] ∨ mid = ['f'] := by
    rcases reads_opt.mp hsuffix with hsuffix | rfl
    · obtain ⟨c, hc, rfl⟩ := reads_anyOf.mp hsuffix
      obtain rfl : c = 'f' := by simpa using hc
      exact .inr rfl
    · exact .inl rfl
  have hsign : ∃ sign, text = sign ++ unsigned ∧ (sign = [] ∨ sign = ['-']) := by
    rcases reads_opt.mp hsign with hsign | rfl
    · obtain ⟨c, hc, rfl⟩ := reads_anyOf.mp hsign
      obtain rfl : c = '-' := by simpa using hc
      exact ⟨['-'], rfl, .inr rfl⟩
    · exact ⟨[], rfl, .inl rfl⟩
  -- the part behind the digits is read in the same way where the text ends with it
  have hparts : ∃ part, whole = part ++ mid ∧
      (Pattern.Reads fraction part [] ∨ Pattern.Reads exponent part []) := by
    obtain ⟨part, rfl⟩ := hparts.suffix
    refine ⟨part, rfl, ?_⟩
    simp only [reads_oneOf, List.mem_cons, List.not_mem_nil, or_false, exists_eq_or_imp,
      exists_eq_left] at hparts
    rcases hparts with hparts | hparts
    · have halone : Pattern.Reads fraction (part ++ []) [] := hparts.before rfl (.inr nofun)
      rw [List.append_nil] at halone
      exact .inl halone
    · have halone : Pattern.Reads exponent (part ++ []) [] := hparts.before rfl (.inr nofun)
      rw [List.append_nil] at halone
      exact .inr halone
  obtain ⟨sign, rfl, hminus⟩ := hsign
  obtain ⟨part, rfl, hpart⟩ := hparts
  obtain ⟨ds, hne, hall, rfl⟩ := reads_digits.mp hdigits
  refine ⟨sign ++ (ds ++ part), mid, by simp, hsuffix, ?_, fun f => ?_⟩
  · rw [← List.append_assoc]
    rcases hpart with hpart | hpart
    · exact fraction_last hpart _
    · exact exponent_last hpart _
  · have hread := Decimal.readUnsigned?_isSome hne hall hpart
    obtain ⟨d, digits, rfl⟩ := List.exists_cons_of_ne_nil hne
    exact Binary.read?_isSome hminus ((Bool.and_eq_true _ _).mp hall).1 hread

/-! ## What a rule matches -/

variable {kind : LiteralKind} {cs : List Char} {lexeme : Lexeme}

/-- What the rule of a literal matches at the start of a text is one. -/
theorem isToken_of_matched (h : matched (literalRule kind) cs = .ok lexeme) :
    IsToken kind lexeme.text := by
  have hrule : ofRule (depthOf cs) (literalRule kind) = (fun _ => ()) <$> literalOf kind := by
    cases kind <;> rfl
  obtain ⟨found, hfound, rfl⟩ := Reading.map_eq_ok h
  rw [hrule] at hfound
  simp only [runAt] at hfound
  split at hfound
  · next found' far hrun =>
    cases hfound
    have hmatch : Matcher.Finds ((fun _ => ()) <$> literalOf kind) ⟨cs, 0⟩ found.1 found.2 :=
      ⟨_, by rw [hrun]⟩
    obtain ⟨p, hliteral, -⟩ := Matcher.finds_map hmatch
    obtain ⟨token, htoken, -⟩ := Matcher.finds_map (Matcher.finds_rule hliteral)
    obtain ⟨text, heq, hscanned⟩ := isToken_of_scan (Matcher.finds_token htoken).1
    have htext : (Cursor.lexeme ⟨cs, 0⟩ found.2).text = text := by
      have hrest : cs = text ++ found.2.rest := heq
      simp [Cursor.lexeme, hrest]
    rw [htext]
    exact hscanned
  · cases hfound

end Grammar

namespace Reading

variable {text : List Char}

theorem float_of_isToken (h : Grammar.IsToken .float text) : ∃ read, float text = .ok read := by
  obtain ⟨number, suffix, rfl, hsuffix, ⟨d, hlast, hd⟩, hread⟩ := h.float_parts
  obtain ⟨x, hx⟩ := hread .single
  obtain ⟨y, hy⟩ := hread .double
  unfold float
  rcases hsuffix with rfl | rfl
  · have hdigit : number.getLast? ≠ some 'f' := by
      rw [hlast]
      rintro ⟨⟩
      exact absurd hd (by decide)
    rw [List.append_nil, if_neg hdigit, hy]
    exact ⟨_, rfl⟩
  · rw [if_pos (by simp), List.dropLast_concat, hx]
    exact ⟨_, rfl⟩

/-- Of the literals that the grammar lets through only integers are refused. -/
theorem literal_error {kind : LiteralKind} {fault : LiteralFault} (h : Grammar.IsToken kind text)
    (hfault : literal kind text = .error fault) :
    kind = .integer ∧ (fault = .beyond64Bits ∨ ∃ type, fault = .beyondSuffix type) := by
  cases kind with
  | null => cases hfault
  | boolean => cases hfault
  | float =>
    obtain ⟨read, hread⟩ := float_of_isToken h
    rw [literal, hread] at hfault
    cases hfault
  | character =>
    obtain ⟨unit, c, rfl, hunit⟩ := h.unescapes_character
    simp only [literal, body_between hunit] at hfault
    cases hfault
  | string =>
    obtain ⟨units, cs, rfl, hunits⟩ := h.unescapes_string
    simp only [literal, body_between hunits] at hfault
    cases hfault
  | integer =>
    refine ⟨rfl, ?_⟩
    simp only [literal, integer] at hfault
    split at hfault
    · cases hfault
      exact .inl rfl
    · split at hfault
      · cases hfault
      · split at hfault
        · cases hfault
        · cases hfault
          exact .inr ⟨_, rfl⟩
      · split at hfault
        · cases hfault
        · cases hfault
          exact .inr ⟨_, rfl⟩
      · split at hfault
        · cases hfault
        · cases hfault

end Reading
end GuardCode
