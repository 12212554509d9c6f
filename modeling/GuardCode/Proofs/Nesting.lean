import GuardCode.Nesting
import GuardCode.Proofs.Grammar.Tokens

/-! The check of nested parentheses token by token: a token other than a parenthesis leaves the count
as it is, and quoted text is passed as a whole. -/
namespace GuardCode.Nesting

/-- No parenthesis opens a level beyond the limit, `depth` levels being open. -/
def Fits (limit depth : Nat) (quotes : Quotes) (cs : List Char) : Prop :=
  ∀ position, tooDeep? limit cs position depth quotes = none

variable {limit depth : Nat} {quotes : Quotes} {cs rest : List Char}

/-- The position only shows in the answer. -/
theorem tooDeep?_eq_none_iff (p p' : Nat) :
    tooDeep? limit cs p depth quotes = none ↔ tooDeep? limit cs p' depth quotes = none := by
  induction cs generalizing p p' depth quotes with
  | nil => simp [tooDeep?]
  | cons c cs ih =>
    cases quotes with
    | escaped quote => exact ih _ _
    | inside quote =>
      simp only [tooDeep?]
      split
      · exact ih _ _
      · split <;> exact ih _ _
    | outside =>
      simp only [tooDeep?]
      split
      · exact ih _ _
      · split
        · split
          · simp
          · exact ih _ _
        · split <;> exact ih _ _

theorem fits_iff (position : Nat) :
    Fits limit depth quotes cs ↔ tooDeep? limit cs position depth quotes = none :=
  ⟨fun h => h position, fun h _ => (tooDeep?_eq_none_iff _ position).2 h⟩

theorem check_eq_ok : check limit cs = .ok () ↔ Fits limit 0 .outside cs := by
  rw [fits_iff 0, check]
  cases tooDeep? limit cs 0 0 .outside <;> simp

theorem check_eq_error {e : ParseError} : check limit cs = .error e ↔
    ∃ position, tooDeep? limit cs 0 0 .outside = some position ∧
      e = ⟨.tooDeep limit, ⟨position, position + 1⟩⟩ := by
  rw [check]
  cases tooDeep? limit cs 0 0 .outside <;> simp [eq_comm]

/-- What is found is a parenthesis of the text. -/
theorem open_of_tooDeep {position found : Nat}
    (h : tooDeep? limit cs position depth quotes = some found) :
    ∃ front back, cs = front ++ '(' :: back ∧ found = position + byteLength front := by
  induction cs generalizing position depth quotes with
  | nil => cases h
  | cons c cs ih =>
    have hlater : ∀ {depth' quotes'},
        tooDeep? limit cs (position + c.utf8Size) depth' quotes' = some found →
          ∃ front back, c :: cs = front ++ '(' :: back ∧ found = position + byteLength front := by
      intro depth' quotes' hfound
      obtain ⟨front, back, rfl, rfl⟩ := ih hfound
      exact ⟨c :: front, back, rfl, Nat.add_assoc _ _ _⟩
    cases quotes with
    | escaped quote => exact hlater h
    | inside quote =>
      simp only [tooDeep?] at h
      split at h
      · exact hlater h
      · split at h <;> exact hlater h
    | outside =>
      simp only [tooDeep?] at h
      split at h
      · exact hlater h
      · split at h
        · next hopen =>
          split at h
          · cases h
            exact ⟨[], cs, by rw [hopen]; rfl, rfl⟩
          · exact hlater h
        · split at h <;> exact hlater h

theorem fits_nil : Fits limit depth quotes [] := fun _ => rfl

/-! Single characters. -/

/-- Whether a character is neither a parenthesis nor a quote. -/
def isPlain (c : Char) : Bool := !(['"', '\'', '(', ')'].contains c)

theorem fits_cons_plain {c : Char} (hc : isPlain c) :
    Fits limit depth .outside (c :: cs) ↔ Fits limit depth .outside cs := by
  rw [fits_iff 0, fits_iff (0 + c.utf8Size)]
  simp only [isPlain, Bool.not_eq_true', List.contains_eq_mem, List.mem_cons, List.not_mem_nil,
    or_false, decide_eq_false_iff_not, not_or] at hc
  simp [tooDeep?, hc.1, hc.2.1, hc.2.2.1, hc.2.2.2]

theorem fits_open : Fits limit depth .outside ('(' :: cs) ↔
    depth + 1 ≤ limit ∧ Fits limit (depth + 1) .outside cs := by
  rw [fits_iff 0, fits_iff (0 + '('.utf8Size)]
  by_cases h : limit < depth + 1
  · simp only [tooDeep?, h]
    constructor
    · nofun
    · intro hle
      omega
  · have hle : depth + 1 ≤ limit := by omega
    simp [tooDeep?, h, hle]

theorem fits_close :
    Fits limit (depth + 1) .outside (')' :: cs) ↔ Fits limit depth .outside cs := by
  rw [fits_iff 0, fits_iff (0 + ')'.utf8Size)]
  simp [tooDeep?]

theorem fits_quote {quote : Char} (hquote : quote = '"' ∨ quote = '\'') :
    Fits limit depth .outside (quote :: cs) ↔ Fits limit depth (.inside quote) cs := by
  rw [fits_iff 0, fits_iff (0 + quote.utf8Size)]
  simp [tooDeep?, hquote]

theorem fits_unquote {quote : Char} (hquote : quote ≠ '\\') :
    Fits limit depth (.inside quote) (quote :: cs) ↔ Fits limit depth .outside cs := by
  rw [fits_iff 0, fits_iff (0 + quote.utf8Size)]
  simp [tooDeep?, hquote]

theorem fits_escape {quote c : Char} :
    Fits limit depth (.inside quote) ('\\' :: c :: cs) ↔ Fits limit depth (.inside quote) cs := by
  rw [fits_iff 0, fits_iff (0 + '\\'.utf8Size + c.utf8Size)]
  simp [tooDeep?]

theorem fits_cons_inside {quote c : Char} (hbackslash : c ≠ '\\') (hquote : c ≠ quote) :
    Fits limit depth (.inside quote) (c :: cs) ↔ Fits limit depth (.inside quote) cs := by
  rw [fits_iff 0, fits_iff (0 + c.utf8Size)]
  simp [tooDeep?, hbackslash, hquote]

/-! Runs of plain characters. -/

/-- Only plain characters stand before the rest. -/
def Passes (cs rest : List Char) : Prop := ∃ run, cs = run ++ rest ∧ run.all isPlain

theorem Passes.refl : Passes cs cs := ⟨[], rfl, rfl⟩

theorem Passes.trans {between : List Char} (h : Passes cs between) (h' : Passes between rest) :
    Passes cs rest := by
  obtain ⟨run, rfl, hrun⟩ := h
  obtain ⟨run', rfl, hrun'⟩ := h'
  exact ⟨run ++ run', by simp, by simp [hrun, hrun']⟩

theorem Passes.cons {c : Char} (hc : isPlain c) (h : Passes cs rest) : Passes (c :: cs) rest := by
  obtain ⟨run, rfl, hrun⟩ := h
  exact ⟨c :: run, rfl, by simp [hc, hrun]⟩

theorem Passes.fits (h : Passes cs rest) :
    Fits limit depth .outside cs ↔ Fits limit depth .outside rest := by
  obtain ⟨run, rfl, hrun⟩ := h
  induction run with
  | nil => rfl
  | cons c run ih =>
    obtain ⟨hc, hrun⟩ := (Bool.and_eq_true _ _).mp hrun
    rw [List.cons_append, fits_cons_plain hc, ih hrun]

theorem passes_dropWhile {p : Char → Bool} (hp : ∀ c, p c → isPlain c) (cs : List Char) :
    Passes cs (cs.dropWhile p) := by
  refine ⟨cs.takeWhile p, List.takeWhile_append_dropWhile.symm, ?_⟩
  rw [List.all_eq_true]
  intro c hc
  exact hp c (List.all_eq_true.mp List.all_takeWhile c hc)

theorem isPlain_of_not_mem {c : Char} (h : c ∉ ['"', '\'', '(', ')']) : isPlain c := by
  simpa [isPlain] using h

/-- A kind of characters that has no quote and no parenthesis. -/
theorem isPlain_of_kind {p : Char → Bool} (hp : ['"', '\'', '(', ')'].all fun c => !p c) (c : Char)
    (hc : p c) : isPlain c := by
  refine isPlain_of_not_mem fun hmem => ?_
  have hnot := List.all_eq_true.mp hp c hmem
  simp [hc] at hnot

theorem isPlain_space (c : Char) (h : Token.isSpace c) : isPlain c :=
  isPlain_of_kind (by decide) c h

theorem isPlain_digit (c : Char) (h : c.isDigit) : isPlain c := isPlain_of_kind (by decide) c h

theorem isPlain_nameChar (c : Char) (h : Token.isNameChar c) : isPlain c :=
  isPlain_of_kind (by decide) c h

theorem isPlain_nameStart (c : Char) (h : Token.isNameStart c) : isPlain c :=
  isPlain_of_kind (by decide) c h

/-! The scanners of plain tokens. -/

theorem passes_word {w : List Char} (hw : w.all isPlain) (h : Token.word w cs = some rest) :
    Passes cs rest :=
  ⟨w, Token.eq_of_word h, hw⟩

theorem passes_boundary (h : Token.boundary cs = some rest) : Passes cs rest := by
  obtain ⟨rfl, -⟩ := Token.of_boundary h
  exact .refl

theorem passes_skipOne {options : List Char} (hoptions : options.all isPlain) (cs : List Char) :
    Passes cs (Token.skipOne options cs) := by
  cases cs with
  | nil => exact .refl
  | cons c cs =>
    simp only [Token.skipOne]
    split
    · next hc =>
      exact Passes.refl.cons (List.all_eq_true.mp hoptions c (by simpa using hc))
    · exact .refl

theorem passes_digits (h : Token.digits cs = some rest) : Passes cs rest := by
  cases cs with
  | nil => cases h
  | cons c cs =>
    simp only [Token.digits] at h
    split at h
    · next hc =>
      cases h
      exact (passes_dropWhile isPlain_digit cs).cons (isPlain_digit c hc)
    · cases h

theorem passes_name (h : Token.name cs = some rest) : Passes cs rest := by
  cases cs with
  | nil => cases h
  | cons c cs =>
    simp only [Token.name] at h
    split at h
    · next hc =>
      cases h
      exact (passes_dropWhile isPlain_nameChar cs).cons (isPlain_nameStart c hc)
    · cases h

theorem passes_null (h : Token.null cs = some rest) : Passes cs rest := by
  obtain ⟨after, hword, hboundary⟩ := Option.bind_eq_some_iff.mp h
  exact (passes_word (by decide) hword).trans (passes_boundary hboundary)

theorem passes_boolean (h : Token.boolean cs = some rest) : Passes cs rest := by
  obtain ⟨after, hword, hboundary⟩ := Option.bind_eq_some_iff.mp h
  refine Passes.trans ?_ (passes_boundary hboundary)
  cases htrue : Token.word "true".toList cs with
  | none =>
    rw [htrue] at hword
    exact passes_word (by decide) hword
  | some between =>
    rw [htrue] at hword
    cases hword
    exact passes_word (by decide) htrue

theorem passes_integer (h : Token.integer cs = some rest) : Passes cs rest := by
  obtain ⟨after, hdigits, hboundary⟩ := Option.bind_eq_some_iff.mp h
  exact (passes_skipOne (by decide) cs).trans ((passes_digits hdigits).trans
    ((passes_skipOne (by decide) after).trans (passes_boundary hboundary)))

theorem passes_exponent (h : Token.exponent cs = some rest) : Passes cs rest := by
  cases cs with
  | nil => cases h
  | cons c cs =>
    simp only [Token.exponent] at h
    split at h
    · next hc =>
      have hplain : isPlain c := by rcases hc with rfl | rfl <;> decide
      exact ((passes_skipOne (by decide) cs).trans (passes_digits h)).cons hplain
    · cases h

theorem passes_fraction (h : Token.fraction cs = some rest) : Passes cs rest := by
  unfold Token.fraction at h
  split at h
  · next after =>
    obtain ⟨whole, hdigits, rfl⟩ := Option.map_eq_some_iff.mp h
    refine Passes.cons (by decide) ((passes_digits hdigits).trans ?_)
    cases hexponent : Token.exponent whole with
    | none => exact .refl
    | some after => exact passes_exponent hexponent
  · cases h

theorem passes_float (h : Token.float cs = some rest) : Passes cs rest := by
  obtain ⟨whole, hdigits, h⟩ := Option.bind_eq_some_iff.mp h
  obtain ⟨after, hparts, hboundary⟩ := Option.bind_eq_some_iff.mp h
  have hpart : Passes whole after := by
    cases hfraction : Token.fraction whole with
    | none =>
      rw [hfraction] at hparts
      exact passes_exponent hparts
    | some between =>
      rw [hfraction] at hparts
      cases hparts
      exact passes_fraction hfraction
  exact (passes_skipOne (by decide) cs).trans ((passes_digits hdigits).trans
    (hpart.trans ((passes_skipOne (by decide) after).trans (passes_boundary hboundary))))

/-! Quoted tokens. -/

theorem fits_quotedUnit {quote : Char} (h : Token.quotedUnit quote cs = some rest) :
    Fits limit depth (.inside quote) cs ↔ Fits limit depth (.inside quote) rest := by
  unfold Token.quotedUnit at h
  split at h
  · cases h
  · split at h
    · cases h
      exact fits_escape
    · cases h
  · next c cs' _ =>
    split at h
    · cases h
    · next hc =>
      cases h
      exact fits_cons_inside (fun heq => hc (.inr heq)) (fun heq => hc (.inl heq))

theorem fits_quotedUnits (quote : Char) (cs : List Char) :
    Fits limit depth (.inside quote) cs ↔
      Fits limit depth (.inside quote) (Token.quotedUnits quote cs) := by
  fun_induction Token.quotedUnits quote cs with
  | case1 => rfl
  | case2 c cs hc ih => rw [fits_escape, ih]
  | case3 => rfl
  | case4 => rfl
  | case5 c cs _ hc ih =>
    rw [fits_cons_inside (fun heq => hc (.inr heq)) (fun heq => hc (.inl heq)), ih]

theorem fits_character (h : Token.character cs = some rest) :
    Fits limit depth .outside cs ↔ Fits limit depth .outside rest := by
  unfold Token.character at h
  split at h
  · obtain ⟨after, hunit, hword⟩ := Option.bind_eq_some_iff.mp h
    have hafter : after = '\'' :: rest := Token.eq_of_word hword
    rw [fits_quote (.inr rfl), fits_quotedUnit hunit, hafter, fits_unquote (by decide)]
  · cases h

theorem fits_string (h : Token.string cs = some rest) :
    Fits limit depth .outside cs ↔ Fits limit depth .outside rest := by
  unfold Token.string at h
  split at h
  · next body =>
    have hafter : Token.quotedUnits '"' body = '"' :: rest := Token.eq_of_word h
    rw [fits_quote (.inl rfl), fits_quotedUnits, hafter, fits_unquote (by decide)]
  · cases h

end GuardCode.Nesting
