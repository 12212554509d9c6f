import GuardCode.Grammar.Matcher
import GuardCode.Proofs.Grammar.Patterns

/-! The scanners of tokens against their patterns. A number, a keyword or a quoted text can be read in
one way only, and that is the way of its scanner; of a name the scanner takes the longest reading. -/
namespace GuardCode.Pattern

variable {cs rest : List Char}

theorem word_iff {w : String} : Token.word w.toList cs = some rest ↔ Reads (text w) cs rest := by
  rw [reads_text]
  constructor
  · exact Token.eq_of_word
  · rintro rfl
    exact Token.word_append _ _

theorem reads_nameEnd : Reads nameEnd cs rest ↔ rest = cs ∧ Token.Ends cs := reads_notNext

theorem boundary_iff : Token.boundary cs = some rest ↔ Reads nameEnd cs rest := by
  rw [reads_nameEnd]
  constructor
  · exact Token.of_boundary
  · rintro ⟨rfl, hends⟩
    exact Token.boundary_of_ends hends

/-! ## Names and keywords -/

theorem reads_name : Reads name cs rest ↔ ∃ n, Token.isName n ∧ cs = n ++ rest := by
  simp only [name, reads_next, reads_one, reads_many_one]
  constructor
  · rintro ⟨mid, ⟨c, hc, rfl⟩, run, hrun, rfl⟩
    exact ⟨c :: run, by simp [Token.isName, hc, hrun], rfl⟩
  · rintro ⟨n, hn, rfl⟩
    cases n with
    | nil => cases hn
    | cons c run =>
      obtain ⟨hc, hrun⟩ := (Bool.and_eq_true _ _).mp hn
      exact ⟨run ++ rest, ⟨c, hc, rfl⟩, run, hrun, rfl⟩

theorem name_iff : Token.name cs = some rest ↔ Reads name cs rest ∧ Token.Ends rest := by
  rw [reads_name]
  constructor
  · intro h
    obtain ⟨n, heq, hname, hends⟩ := Token.of_name h
    exact ⟨⟨n, hname, heq⟩, hends⟩
  · rintro ⟨⟨n, hname, rfl⟩, hends⟩
    exact Token.name_append hname hends

theorem null_iff : Token.null cs = some rest ↔ Reads null cs rest := by
  simp only [Token.null, Option.bind_eq_some_iff, word_iff, boundary_iff, null, reads_next]

theorem boolean_iff : Token.boolean cs = some rest ↔ Reads boolean cs rest := by
  have hwords : ∀ mid, (Token.word "true".toList cs <|> Token.word "false".toList cs) = some mid ↔
      Reads (oneOf [text "true", text "false"]) cs mid := by
    intro mid
    simp only [reads_oneOf, List.mem_cons, List.not_mem_nil, or_false, exists_eq_or_imp,
      exists_eq_left, ← word_iff]
    cases htrue : Token.word "true".toList cs with
    | none => simp
    | some after =>
      have hfalse : Token.word "false".toList cs = none := by
        rw [Token.eq_of_word htrue]
        rfl
      rw [hfalse]
      simp
  simp only [Token.boolean, Option.bind_eq_some_iff, hwords, boundary_iff, boolean, reads_next]

/-! ## Numbers -/

/-- No digit comes next. -/
def NoDigit (rest : List Char) : Prop := ∀ c, rest.head? = some c → c.isDigit = false

theorem reads_digits :
    Reads digits cs rest ↔ ∃ ds, ds ≠ [] ∧ ds.all Char.isDigit = true ∧ cs = ds ++ rest := by
  simp only [digits, atLeastOne, reads_next, reads_one, reads_many_one]
  constructor
  · rintro ⟨mid, ⟨c, hc, rfl⟩, run, hrun, rfl⟩
    exact ⟨c :: run, by simp, by simp [hc, hrun], rfl⟩
  · rintro ⟨ds, hne, hall, rfl⟩
    cases ds with
    | nil => exact absurd rfl hne
    | cons c run =>
      obtain ⟨hc, hrun⟩ := (Bool.and_eq_true _ _).mp hall
      exact ⟨run ++ rest, ⟨c, hc, rfl⟩, run, hrun, rfl⟩

theorem digits_iff : Token.digits cs = some rest ↔ Reads digits cs rest ∧ NoDigit rest := by
  rw [reads_digits]
  constructor
  · intro h
    cases cs with
    | nil => cases h
    | cons c cs =>
      simp only [Token.digits] at h
      split at h
      · next hc =>
        cases h
        refine ⟨⟨c :: cs.takeWhile Char.isDigit, by simp, ?_, ?_⟩, fun d hd => ?_⟩
        · rw [List.all_cons, hc, Bool.true_and]
          exact List.all_takeWhile
        · rw [List.cons_append, List.takeWhile_append_dropWhile]
        · have hhead := List.head?_dropWhile_not Char.isDigit cs
          simpa [hd] using hhead
      · cases h
  · rintro ⟨⟨ds, hne, hall, rfl⟩, hrest⟩
    exact Token.digits_append hne hall hrest

/-- The text at which digits begin. -/
theorem Reads.head_digit (h : Reads digits cs rest) : ∃ c tail, cs = c :: tail ∧ c.isDigit := by
  obtain ⟨ds, hne, hall, rfl⟩ := reads_digits.mp h
  cases ds with
  | nil => exact absurd rfl hne
  | cons c run => exact ⟨c, run ++ rest, rfl, ((Bool.and_eq_true _ _).mp hall).1⟩

/-- Something that may stand before digits is passed where it is there. -/
theorem skipOne_digits (options : String) (hoptions : ∀ c ∈ options.toList, c.isDigit = false) :
    (∃ mid, Reads (opt (anyOf options)) cs mid ∧ Reads digits mid rest) ↔
      Reads digits (Token.skipOne options.toList cs) rest := by
  simp only [reads_opt, reads_anyOf]
  cases cs with
  | nil => simp [Token.skipOne]
  | cons c cs =>
    simp only [Token.skipOne, List.contains_eq_mem, decide_eq_true_eq]
    by_cases hc : c ∈ options.toList
    · rw [if_pos hc]
      constructor
      · rintro ⟨mid, ⟨d, -, heq⟩ | rfl, hdigits⟩
        · cases heq
          exact hdigits
        · obtain ⟨d, tail, heq, hd⟩ := hdigits.head_digit
          cases heq
          simp [hoptions c hc] at hd
      · exact fun h => ⟨cs, .inl ⟨c, hc, rfl⟩, h⟩
    · rw [if_neg hc]
      constructor
      · rintro ⟨mid, ⟨d, hd, heq⟩ | rfl, hdigits⟩
        · cases heq
          exact absurd hd hc
        · exact hdigits
      · exact fun h => ⟨c :: cs, .inr rfl, h⟩

/-- Something that may stand at the end of a number is passed where it is there: if it were not, the
number would not end. -/
theorem skipOne_end (options : String) (hoptions : ∀ c ∈ options.toList, Token.isNameChar c = true) :
    (∃ mid, Reads (opt (anyOf options)) cs mid ∧ Reads nameEnd mid rest) ↔
      Token.boundary (Token.skipOne options.toList cs) = some rest := by
  simp only [reads_opt, reads_anyOf, boundary_iff]
  cases cs with
  | nil => simp [Token.skipOne]
  | cons c cs =>
    simp only [Token.skipOne, List.contains_eq_mem, decide_eq_true_eq]
    by_cases hc : c ∈ options.toList
    · rw [if_pos hc]
      constructor
      · rintro ⟨mid, ⟨d, -, heq⟩ | rfl, hend⟩
        · cases heq
          exact hend
        · have hstops := (reads_nameEnd.mp hend).2 c rfl
          simp [hoptions c hc] at hstops
      · exact fun h => ⟨cs, .inl ⟨c, hc, rfl⟩, h⟩
    · rw [if_neg hc]
      constructor
      · rintro ⟨mid, ⟨d, hd, heq⟩ | rfl, hend⟩
        · cases heq
          exact absurd hd hc
        · exact hend
      · exact fun h => ⟨c :: cs, .inr rfl, h⟩

/-- Behind a number stands one of the characters that may end it, or no name character at all. -/
theorem head_of_end {p : Char → Bool} (options : String) (hoptions : ∀ c ∈ options.toList, p c = false)
    (hnames : ∀ c, p c = true → Token.isNameChar c = true)
    (h : Token.boundary (Token.skipOne options.toList cs) = some rest) :
    ∀ c, cs.head? = some c → p c = false := by
  intro c hc
  cases cs with
  | nil => cases hc
  | cons d cs =>
    obtain rfl : d = c := by simpa using hc
    simp only [Token.skipOne, List.contains_eq_mem, decide_eq_true_eq] at h
    by_cases hmem : d ∈ options.toList
    · exact hoptions d hmem
    · rw [if_neg hmem] at h
      have hends := (Token.of_boundary h).2 d rfl
      cases hp : p d with
      | false => rfl
      | true => simp [hnames d hp] at hends

theorem integer_iff : Token.integer cs = some rest ↔ Reads integer cs rest := by
  have hsign : ∀ mid, (∃ after, Reads (opt (anyOf "-")) cs after ∧ Reads digits after mid) ↔
      Reads digits (Token.skipOne ['-'] cs) mid :=
    fun mid => skipOne_digits "-" (Token.forall_of_all (by decide))
  have hend : ∀ mid, (∃ after, Reads (opt (anyOf "Lsb")) mid after ∧ Reads nameEnd after rest) ↔
      Token.boundary (Token.skipOne ['L', 's', 'b'] mid) = some rest :=
    fun mid => skipOne_end "Lsb" (Token.forall_of_all (by decide))
  have hreads : Reads integer cs rest ↔ ∃ mid, Reads digits (Token.skipOne ['-'] cs) mid ∧
      Token.boundary (Token.skipOne ['L', 's', 'b'] mid) = some rest := by
    simp only [integer, reads_next, ← hsign, ← hend]
    constructor
    · rintro ⟨after, hafter, mid, hdigits, hrest⟩
      exact ⟨mid, ⟨after, hafter, hdigits⟩, hrest⟩
    · rintro ⟨mid, ⟨after, hafter, hdigits⟩, hrest⟩
      exact ⟨after, hafter, mid, hdigits, hrest⟩
  rw [hreads]
  simp only [Token.integer, bind, Option.bind_eq_some_iff, digits_iff]
  constructor
  · rintro ⟨mid, ⟨hdigits, -⟩, hrest⟩
    exact ⟨mid, hdigits, hrest⟩
  · rintro ⟨mid, hdigits, hrest⟩
    exact ⟨mid, ⟨hdigits, head_of_end "Lsb" (Token.forall_of_all (by decide))
      (fun c => Token.isNameChar_of_isDigit) hrest⟩, hrest⟩

/-- No power of ten comes next. -/
def NoPower (rest : List Char) : Prop := ∀ c, rest.head? = some c → c ≠ 'e' ∧ c ≠ 'E'

theorem exponent_iff : Token.exponent cs = some rest ↔ Reads exponent cs rest ∧ NoDigit rest := by
  have hsign : ∀ mid, (∃ after, Reads (opt (anyOf "+-")) mid after ∧ Reads digits after rest) ↔
      Reads digits (Token.skipOne ['+', '-'] mid) rest :=
    fun mid => skipOne_digits "+-" (Token.forall_of_all (by decide))
  simp only [exponent, reads_next, reads_anyOf, hsign]
  cases cs with
  | nil => simp [Token.exponent]
  | cons c cs =>
    simp only [Token.exponent]
    by_cases hc : c = 'e' ∨ c = 'E'
    · rw [if_pos hc, digits_iff]
      refine and_congr_left fun _ => ⟨fun h => ⟨cs, ⟨c, by simpa using hc, rfl⟩, h⟩, ?_⟩
      rintro ⟨mid, ⟨d, -, heq⟩, hdigits⟩
      cases heq
      exact hdigits
    · rw [if_neg hc]
      constructor
      · intro h
        cases h
      · rintro ⟨⟨mid, ⟨d, hd, heq⟩, -⟩, -⟩
        cases heq
        exact absurd (by simpa using hd) hc

theorem Reads.head_exponent (h : Reads exponent cs rest) :
    ∃ c tail, cs = c :: tail ∧ (c = 'e' ∨ c = 'E') := by
  obtain ⟨mid, hmark, -⟩ := reads_next.mp h
  obtain ⟨c, hc, rfl⟩ := reads_anyOf.mp hmark
  exact ⟨c, mid, rfl, by simpa using hc⟩

theorem exponent_eq_none (h : NoPower cs) : Token.exponent cs = none := by
  cases cs with
  | nil => rfl
  | cons c cs =>
    obtain ⟨he, hE⟩ := h c rfl
    simp [Token.exponent, he, hE]

theorem reads_of_fraction (h : Token.fraction cs = some rest) : Reads fraction cs rest := by
  unfold Token.fraction at h
  split at h
  · next after =>
    obtain ⟨mid, hdigits, rfl⟩ := Option.map_eq_some_iff.mp h
    obtain ⟨hdigits, -⟩ := digits_iff.mp hdigits
    refine .next (reads_text.mpr rfl) (.next hdigits (reads_opt.mpr ?_))
    cases hexponent : Token.exponent mid with
    | none => exact .inr rfl
    | some rest => exact .inl (exponent_iff.mp hexponent).1
  · cases h

theorem fraction_of_reads (h : Reads fraction cs rest) (hdigit : NoDigit rest)
    (hpower : NoPower rest) : Token.fraction cs = some rest := by
  obtain ⟨after, hpoint, hbehind⟩ := reads_next.mp h
  obtain ⟨mid, hdigits, hexponent⟩ := reads_next.mp hbehind
  obtain rfl := reads_text.mp hpoint
  show (Token.digits after).map (fun rest => (Token.exponent rest).getD rest) = some rest
  rw [Option.map_eq_some_iff]
  refine ⟨mid, digits_iff.mpr ⟨hdigits, ?_⟩, ?_⟩
  · rcases reads_opt.mp hexponent with hexponent | rfl
    · obtain ⟨c, tail, rfl, hc⟩ := hexponent.head_exponent
      rintro d ⟨⟩
      rcases hc with rfl | rfl <;> decide
    · exact hdigit
  · rcases reads_opt.mp hexponent with hexponent | rfl
    · rw [exponent_iff.mpr ⟨hexponent, hdigit⟩]
      rfl
    · rw [exponent_eq_none hpower]
      rfl

theorem float_iff : Token.float cs = some rest ↔ Reads float cs rest := by
  have hsign : ∀ mid, (∃ after, Reads (opt (anyOf "-")) cs after ∧ Reads digits after mid) ↔
      Reads digits (Token.skipOne ['-'] cs) mid :=
    fun mid => skipOne_digits "-" (Token.forall_of_all (by decide))
  have hend : ∀ mid, (∃ after, Reads (opt (anyOf "f")) mid after ∧ Reads nameEnd after rest) ↔
      Token.boundary (Token.skipOne ['f'] mid) = some rest :=
    fun mid => skipOne_end "f" (Token.forall_of_all (by decide))
  have hreads : Reads float cs rest ↔ ∃ whole mid, Reads digits (Token.skipOne ['-'] cs) whole ∧
      (Reads fraction whole mid ∨ Reads exponent whole mid) ∧
        Token.boundary (Token.skipOne ['f'] mid) = some rest := by
    simp only [float, reads_next, ← hsign, ← hend, reads_oneOf, List.mem_cons, List.not_mem_nil,
      or_false, exists_eq_or_imp, exists_eq_left]
    constructor
    · rintro ⟨after, hafter, whole, hdigits, mid, hparts, hrest⟩
      exact ⟨whole, mid, ⟨after, hafter, hdigits⟩, hparts, hrest⟩
    · rintro ⟨whole, mid, ⟨after, hafter, hdigits⟩, hparts, hrest⟩
      exact ⟨after, hafter, whole, hdigits, mid, hparts, hrest⟩
  rw [hreads]
  simp only [Token.float, bind, Option.bind_eq_some_iff, digits_iff]
  constructor
  · rintro ⟨whole, ⟨hdigits, -⟩, mid, hparts, hrest⟩
    refine ⟨whole, mid, hdigits, ?_, hrest⟩
    cases hfraction : Token.fraction whole with
    | some after =>
      rw [hfraction] at hparts
      cases hparts
      exact .inl (reads_of_fraction hfraction)
    | none =>
      rw [hfraction] at hparts
      exact .inr (exponent_iff.mp hparts).1
  · rintro ⟨whole, mid, hdigits, hparts, hrest⟩
    -- What ends the number cannot continue it.
    have hdigit : NoDigit mid := head_of_end "f" (Token.forall_of_all (by decide))
      (fun c => Token.isNameChar_of_isDigit) hrest
    have hpower : NoPower mid := by
      intro c hc
      have hkind := head_of_end "f" (p := fun c => c == 'e' || c == 'E') (Token.forall_of_all (by decide))
        (by
          intro c hc
          simp only [Bool.or_eq_true, beq_iff_eq] at hc
          rcases hc with rfl | rfl <;> decide) hrest c hc
      simpa using hkind
    rcases hparts with hfraction | hexponent
    · have hwhole : NoDigit whole := by
        obtain ⟨after, hpoint, -⟩ := reads_next.mp hfraction
        obtain rfl := reads_text.mp hpoint
        rintro d ⟨⟩
        decide
      exact ⟨whole, ⟨hdigits, hwhole⟩, mid, by rw [fraction_of_reads hfraction hdigit hpower]; rfl,
        hrest⟩
    · obtain ⟨c, tail, rfl, hc⟩ := hexponent.head_exponent
      have hwhole : NoDigit (c :: tail) := by
        rintro d ⟨⟩
        rcases hc with rfl | rfl <;> decide
      have hnone : Token.fraction (c :: tail) = none := by
        rcases hc with rfl | rfl <;> rfl
      refine ⟨c :: tail, ⟨hdigits, hwhole⟩, mid, ?_, hrest⟩
      rw [hnone]
      exact exponent_iff.mpr ⟨hexponent, hdigit⟩

/-! ## Quoted text -/

theorem reads_quotedUnit {quote : Char} : Reads (quotedUnit quote) cs rest ↔
    (∃ c, Token.isEscapable c = true ∧ cs = '\\' :: c :: rest) ∨
      ∃ c, c ≠ quote ∧ c ≠ '\\' ∧ cs = c :: rest := by
  have hescapable : ∀ c, c ∈ "\"\\'ntr0".toList ↔ Token.isEscapable c = true := by
    intro c
    simp [Token.isEscapable, or_assoc]
  rw [quotedUnit, reads_choice]
  refine or_congr ?_ ?_
  · simp only [escape, reads_next, reads_text, reads_anyOf, hescapable]
    constructor
    · rintro ⟨mid, rfl, c, hc, rfl⟩
      exact ⟨c, hc, rfl⟩
    · rintro ⟨c, hc, rfl⟩
      exact ⟨c :: rest, rfl, c, hc, rfl⟩
  · simp only [reads_next, reads_notNext, reads_one, decide_eq_false_iff_not, not_or]
    constructor
    · rintro ⟨mid, ⟨rfl, hkind⟩, c, -, rfl⟩
      exact ⟨c, (hkind c rfl).1, (hkind c rfl).2, rfl⟩
    · rintro ⟨c, hquote, hbackslash, rfl⟩
      refine ⟨c :: rest, ⟨rfl, ?_⟩, c, trivial, rfl⟩
      rintro d ⟨⟩
      exact ⟨hquote, hbackslash⟩

theorem quotedUnit_iff {quote : Char} :
    Token.quotedUnit quote cs = some rest ↔ Reads (quotedUnit quote) cs rest := by
  rw [reads_quotedUnit]
  cases cs with
  | nil => simp [Token.quotedUnit]
  | cons c cs =>
    by_cases hc : c = '\\'
    · subst hc
      -- a backslash is read as part of an escape only
      have hplain : ¬∃ d, d ≠ quote ∧ d ≠ '\\' ∧ '\\' :: cs = d :: rest := by
        rintro ⟨d, -, hd, heq⟩
        cases heq
        exact hd rfl
      rw [or_iff_left hplain]
      cases cs with
      | nil => simp [Token.quotedUnit]
      | cons d cs =>
        have hunit : Token.quotedUnit quote ('\\' :: d :: cs) =
            if Token.isEscapable d then some cs else none := rfl
        rw [hunit, Option.ite_none_right_eq_some, Option.some.injEq]
        constructor
        · rintro ⟨hd, rfl⟩
          exact ⟨d, hd, rfl⟩
        · rintro ⟨e, he, heq⟩
          cases heq
          exact ⟨he, rfl⟩
    · have hescape : ¬∃ d, Token.isEscapable d = true ∧ c :: cs = '\\' :: d :: rest := by
        rintro ⟨d, -, heq⟩
        cases heq
        exact hc rfl
      rw [or_iff_right hescape]
      rw [Token.quotedUnit_plain hc, Option.ite_none_left_eq_some, Option.some.injEq]
      constructor
      · rintro ⟨hquote, rfl⟩
        exact ⟨c, hquote, hc, rfl⟩
      · rintro ⟨d, hquote, -, heq⟩
        cases heq
        exact ⟨hquote, rfl⟩

theorem character_iff : Token.character cs = some rest ↔ Reads character cs rest := by
  simp only [character, reads_next, ← quotedUnit_iff, ← word_iff]
  unfold Token.character
  split
  · next body =>
    rw [Option.bind_eq_some_iff]
    constructor
    · rintro ⟨mid, hunit, hword⟩
      exact ⟨body, Token.word_append ['\''] body, mid, hunit, hword⟩
    · rintro ⟨after, hquote, mid, hunit, hword⟩
      cases hquote
      exact ⟨mid, hunit, hword⟩
  · next hne =>
    refine ⟨nofun, ?_⟩
    rintro ⟨after, hquote, -⟩
    exact absurd (Token.eq_of_word hquote) (hne after)

theorem shortens_quotedUnit {quote : Char} (h : Reads (quotedUnit quote) cs rest) :
    rest.length < cs.length := by
  rcases reads_quotedUnit.mp h with ⟨c, -, rfl⟩ | ⟨c, -, -, rfl⟩
  · exact Nat.lt_succ_of_lt (Nat.lt_succ_self _)
  · exact Nat.lt_succ_self _

/-- The scanner passes as many units as there are. -/
theorem reads_quotedUnits (quote : Char) (cs : List Char) :
    Reads (many (quotedUnit quote)) cs (Token.quotedUnits quote cs) := by
  rw [Token.quotedUnits_eq]
  cases hunit : Token.quotedUnit quote cs with
  | none => exact .stop _ _
  | some rest =>
    have hreads := quotedUnit_iff.mp hunit
    have hshort := shortens_quotedUnit hreads
    exact .again hreads (reads_quotedUnits quote rest)
termination_by cs.length

/-- Behind the last unit stands the quote, so no reading can stop before it. -/
theorem quotedUnits_of_reads {quote : Char} (hquote : quote ≠ '\\')
    (h : Reads (many (quotedUnit quote)) cs (quote :: rest)) :
    Token.quotedUnits quote cs = quote :: rest := by
  refine h.many_induction (motive := fun cs => Token.quotedUnits quote cs = quote :: rest) ?_ ?_
  · rw [Token.quotedUnits_eq, Token.quotedUnit_plain hquote, if_pos rfl]
    rfl
  · intro cs mid hunit _ ih
    rw [Token.quotedUnits_eq, quotedUnit_iff.mpr hunit]
    exact ih

theorem string_iff : Token.string cs = some rest ↔ Reads string cs rest := by
  simp only [string, reads_next, ← word_iff]
  unfold Token.string
  split
  · next body =>
    constructor
    · intro h
      exact ⟨body, Token.word_append ['"'] body, _, reads_quotedUnits '"' body, h⟩
    · rintro ⟨after, hquote, mid, hunits, hword⟩
      cases hquote
      obtain rfl : mid = '"' :: rest := Token.eq_of_word hword
      rw [quotedUnits_of_reads (by decide) hunits]
      exact hword
  · next hne =>
    refine ⟨nofun, ?_⟩
    rintro ⟨after, hquote, -⟩
    exact absurd (Token.eq_of_word hquote) (hne after)

/-! ## Literals -/

/-- The pattern of a kind of literals. -/
def ofLiteral : LiteralKind → Pattern
  | .null => null
  | .boolean => boolean
  | .float => float
  | .integer => integer
  | .character => character
  | .string => string

theorem literalScan_iff (kind : LiteralKind) :
    Grammar.literalScan kind cs = some rest ↔ Reads (ofLiteral kind) cs rest := by
  cases kind with
  | null => exact null_iff
  | boolean => exact boolean_iff
  | float => exact float_iff
  | integer => exact integer_iff
  | character => exact character_iff
  | string => exact string_iff

/-- After any literal may come what is no part of a name and no quote. -/
theorem passes_ofLiteral (kind : LiteralKind) {c : Char} (hname : Token.isNameChar c = false)
    (hquote : c ∉ ['"', '\'', '\\']) : (ofLiteral kind).Passes c := by
  simp only [List.mem_cons, List.not_mem_nil, or_false, not_or] at hquote
  cases kind <;>
    simp [ofLiteral, Passes, null, boolean, float, integer, character, string, oneOf, opt, anyOf,
      never, empty, digits, atLeastOne, fraction, exponent, quotedUnit, escape, nameEnd, hname, hquote]

end GuardCode.Pattern

namespace GuardCode.Grammar

open Pattern

/-- The texts of the literals of a kind. -/
def IsToken (kind : LiteralKind) (text : List Char) : Prop := literalScan kind text = some []

variable {kind : LiteralKind} {text cs rest : List Char}

theorem isToken_iff : IsToken kind text ↔ Reads (ofLiteral kind) text [] := literalScan_iff kind

/-- What is scanned as a literal is one by itself. -/
theorem isToken_of_scan (h : literalScan kind cs = some rest) :
    ∃ text, cs = text ++ rest ∧ IsToken kind text := by
  have hreads := (literalScan_iff kind).mp h
  obtain ⟨text, rfl⟩ := hreads.suffix
  have halone : Reads (ofLiteral kind) (text ++ []) [] := hreads.before rfl (.inr nofun)
  rw [List.append_nil] at halone
  exact ⟨text, rfl, isToken_iff.mpr halone⟩

theorem IsToken.scan (h : IsToken kind text)
    (hrest : ∀ c, rest.head? = some c → Token.isNameChar c = false ∧ c ∉ ['"', '\'', '\\']) :
    literalScan kind (text ++ rest) = some rest := by
  rw [literalScan_iff]
  refine (isToken_iff.mp h).before (by simp) (.inr fun c hc => ?_)
  exact passes_ofLiteral kind (hrest c hc).1 (hrest c hc).2

end GuardCode.Grammar
