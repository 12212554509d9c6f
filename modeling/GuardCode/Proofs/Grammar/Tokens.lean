import GuardCode.Grammar.Token

/-! The tokens of a text that is put together from tokens: each scanner takes its own token back, as
long as what follows does not continue it. -/
namespace GuardCode.Token

/-- What holds of each of a few characters. -/
theorem forall_of_all {p : Char → Prop} [DecidablePred p] {cs : List Char}
    (h : cs.all fun c => p c) : ∀ c ∈ cs, p c := by
  simpa using h

/-- No name character comes next. -/
def Ends (rest : List Char) : Prop := ∀ c, rest.head? = some c → isNameChar c = false

def isName : List Char → Bool
  | [] => false
  | c :: cs => isNameStart c && cs.all isNameChar

/-- The names that stand for literals. -/
def keywords : List (List Char) := ["null".toList, "true".toList, "false".toList]

theorem isNameChar_of_isNameStart {c : Char} (h : isNameStart c) : isNameChar c := by
  simp only [isNameStart, isNameChar, Char.isAlphanum, Bool.or_eq_true] at h ⊢
  rcases h with h | h
  · exact .inl (.inl h)
  · exact .inr h

theorem isNameChar_of_isDigit {c : Char} (h : c.isDigit) : isNameChar c := by
  simp [isNameChar, Char.isAlphanum, h]

theorem not_space_of_isNameChar {c : Char} (h : isNameChar c) : isSpace c = false := by
  have hne : ∀ d, isNameChar d = false → c ≠ d := by
    rintro d hd rfl
    simp [h] at hd
  simp [isSpace, hne ' ' (by decide), hne '\t' (by decide), hne '\r' (by decide),
    hne '\n' (by decide)]

theorem isNameStart_of_isDigit {c : Char} (h : c.isDigit) : isNameStart c = false := by
  have hunderscore : c ≠ '_' := by
    rintro rfl
    exact absurd h (by decide)
  simp only [Char.isDigit, Bool.and_eq_true, decide_eq_true_eq, UInt32.le_iff_toNat_le, ge_iff_le]
    at h
  have hnine : '9'.val.toNat = 57 := rfl
  have hA : 'A'.val.toNat = 65 := rfl
  have ha : 'a'.val.toNat = 97 := rfl
  have halpha : c.isAlpha =
      (decide (c.val ≥ 'A'.val ∧ c.val ≤ 'Z'.val) ||
        (decide (c.val ≥ 'a'.val) && decide (c.val ≤ 'z'.val))) := rfl
  simp only [isNameStart, halpha, Bool.or_eq_false_iff, Bool.and_eq_false_iff,
    decide_eq_false_iff_not, UInt32.le_iff_toNat_le, ge_iff_le, beq_eq_false_iff_ne]
  exact ⟨⟨by omega, by omega⟩, hunderscore⟩

theorem all_isNameChar_of_isName {n : List Char} (h : isName n) : n.all isNameChar := by
  cases n with
  | nil => rfl
  | cons c cs =>
    obtain ⟨hc, hcs⟩ := (Bool.and_eq_true _ _).mp h
    rw [List.all_cons, isNameChar_of_isNameStart hc, hcs]
    rfl

/-- A name starts with no other character than one that starts names. -/
theorem head_ne_of_isName {n : List Char} (h : isName n) {c : Char} (hc : isNameStart c = false)
    (rest : List Char) : (n ++ rest).head? ≠ some c := by
  cases n with
  | nil => cases h
  | cons d cs =>
    obtain ⟨hd, -⟩ := (Bool.and_eq_true _ _).mp h
    rintro heq
    cases heq
    simp [hc] at hd

theorem Ends.not_digit {rest : List Char} (h : Ends rest) {c : Char} (hc : rest.head? = some c) :
    c.isDigit = false := by
  cases hdigit : c.isDigit with
  | false => rfl
  | true => exact absurd (isNameChar_of_isDigit hdigit) (by simp [h c hc])

/-- A run of characters of one kind, with something else behind it. -/
theorem dropWhile_run {p : Char → Bool} {run rest : List Char} (hrun : run.all p)
    (hrest : ∀ c, rest.head? = some c → p c = false) : (run ++ rest).dropWhile p = rest := by
  rw [List.dropWhile_append_of_pos (by simpa using hrun)]
  cases rest with
  | nil => rfl
  | cons c cs => rw [List.dropWhile_cons_of_neg (by simp [hrest c rfl])]

theorem takeWhile_run {p : Char → Bool} {run rest : List Char} (hrun : run.all p)
    (hrest : ∀ c, rest.head? = some c → p c = false) : (run ++ rest).takeWhile p = run := by
  rw [List.takeWhile_append_of_pos (by simpa using hrun)]
  cases rest with
  | nil => simp
  | cons c cs => rw [List.takeWhile_cons_of_neg (by simp [hrest c rfl]), List.append_nil]

/-! Fixed text. -/

theorem word_append (w rest : List Char) : word w (w ++ rest) = some rest := by
  induction w with
  | nil => rfl
  | cons c w ih => simp [word, ih]

theorem eq_of_word {w cs rest : List Char} (h : word w cs = some rest) : cs = w ++ rest := by
  fun_induction word w cs with
  | case1 cs =>
    cases h
    rfl
  | case2 w ws cs ih => simp [ih h]
  | case3 => cases h
  | case4 => cases h

theorem word_of_head_ne {c : Char} {w cs : List Char} (h : cs.head? ≠ some c) :
    word (c :: w) cs = none := by
  cases cs with
  | nil => rfl
  | cons d cs => simp_all [word, eq_comm]

theorem boundary_of_ends {rest : List Char} (h : Ends rest) : boundary rest = some rest := by
  cases rest with
  | nil => rfl
  | cons c cs => simp [boundary, h c rfl]

theorem of_boundary {cs rest : List Char} (h : boundary cs = some rest) : rest = cs ∧ Ends cs := by
  cases cs with
  | nil =>
    cases h
    exact ⟨rfl, nofun⟩
  | cons c cs =>
    simp only [boundary] at h
    split at h
    · cases h
    · next hc =>
      cases h
      refine ⟨rfl, fun d hd => ?_⟩
      cases hd
      simpa using hc

/-! Words that no name character may follow. -/

section Keywords

variable {w n rest : List Char}

/-- Fixed text is found at a name only if it is the whole name. -/
theorem word_boundary (hw : w.all isNameChar) (hn : n.all isNameChar) (hrest : Ends rest) :
    (word w (n ++ rest)).bind boundary = if n = w then some rest else none := by
  split
  · next heq =>
    subst heq
    rw [word_append]
    exact boundary_of_ends hrest
  · next hne =>
    rw [Option.bind_eq_none_iff]
    intro after hafter
    cases hboundary : boundary after with
    | none => rfl
    | some r =>
      obtain ⟨-, hends⟩ := of_boundary hboundary
      have htake := congrArg (List.takeWhile isNameChar) (eq_of_word hafter)
      rw [takeWhile_run hn hrest, takeWhile_run hw hends] at htake
      exact absurd htake hne

theorem null_append (hn : n.all isNameChar) (hrest : Ends rest) :
    null (n ++ rest) = if n = "null".toList then some rest else none :=
  word_boundary (by decide) hn hrest

theorem boolean_append (hn : n.all isNameChar) (hrest : Ends rest) :
    boolean (n ++ rest) =
      if n = "true".toList ∨ n = "false".toList then some rest else none := by
  have htrue := word_boundary (w := "true".toList) (by decide) hn hrest
  have hfalse := word_boundary (w := "false".toList) (by decide) hn hrest
  unfold boolean
  cases hword : word "true".toList (n ++ rest) with
  | none =>
    rw [hword, Option.bind_none] at htrue
    have hne : n ≠ "true".toList := by
      rintro rfl
      simp at htrue
    simp only [hne, false_or]
    exact hfalse
  | some after =>
    rw [hword] at htrue
    have hne : n ≠ "false".toList := by
      rintro rfl
      cases hword
    simp only [hne, or_false]
    exact htrue

theorem name_append (hn : isName n) (hrest : Ends rest) : name (n ++ rest) = some rest := by
  cases n with
  | nil => cases hn
  | cons c cs =>
    obtain ⟨hc, hcs⟩ := (Bool.and_eq_true _ _).mp hn
    simp [name, hc, dropWhile_run hcs hrest]

end Keywords

/-- What the name scanner takes is a name, and it takes all of it. -/
theorem of_name {cs rest : List Char} (h : name cs = some rest) :
    ∃ n, cs = n ++ rest ∧ isName n ∧ Ends rest := by
  cases cs with
  | nil => cases h
  | cons c cs =>
    simp only [name] at h
    split at h
    · next hc =>
      cases h
      refine ⟨c :: cs.takeWhile isNameChar, ?_, ?_, ?_⟩
      · rw [List.cons_append, List.takeWhile_append_dropWhile]
      · simp only [isName, hc, Bool.true_and]
        exact List.all_takeWhile
      · intro d hd
        have hhead := List.head?_dropWhile_not isNameChar cs
        simpa [hd] using hhead
    · cases h

/-! Numbers. -/

section Numbers

variable {sign digits suffix rest : List Char}

theorem digits_append (hne : digits ≠ []) (hall : digits.all Char.isDigit)
    (hrest : ∀ c, rest.head? = some c → c.isDigit = false) :
    Token.digits (digits ++ rest) = some rest := by
  cases digits with
  | nil => exact absurd rfl hne
  | cons d ds =>
    obtain ⟨hd, hds⟩ := (Bool.and_eq_true _ _).mp hall
    simp [Token.digits, hd, dropWhile_run hds hrest]

theorem skipOne_sign (hsign : sign = [] ∨ sign = ['-']) (hne : digits ≠ [])
    (hall : digits.all Char.isDigit) :
    skipOne ['-'] (sign ++ (digits ++ rest)) = digits ++ rest := by
  rcases hsign with rfl | rfl
  · cases digits with
    | nil => exact absurd rfl hne
    | cons d ds =>
      obtain ⟨hd, -⟩ := (Bool.and_eq_true _ _).mp hall
      have hminus : d ≠ '-' := by
        rintro rfl
        exact absurd hd (by decide)
      simp [skipOne, hminus]
  · simp [skipOne]

/-- The type suffixes of integers, and none. -/
def suffixes : List (List Char) := [[], ['L'], ['s'], ['b']]

theorem suffix_cases (h : suffix ∈ suffixes) :
    suffix = [] ∨ suffix = ['L'] ∨ suffix = ['s'] ∨ suffix = ['b'] := by
  simpa [suffixes] using h

theorem not_digit_suffix (hsuffix : suffix ∈ suffixes) (hrest : Ends rest) {c : Char}
    (hc : (suffix ++ rest).head? = some c) : c.isDigit = false := by
  rcases suffix_cases hsuffix with rfl | rfl | rfl | rfl
  · exact hrest.not_digit hc
  all_goals
    cases hc
    decide

theorem skipOne_suffix (hsuffix : suffix ∈ suffixes) (hrest : Ends rest) :
    skipOne ['L', 's', 'b'] (suffix ++ rest) = rest := by
  rcases suffix_cases hsuffix with rfl | rfl | rfl | rfl
  · cases rest with
    | nil => rfl
    | cons c cs =>
      have hc := hrest c rfl
      have hL : c ≠ 'L' := by rintro rfl; exact absurd hc (by decide)
      have hs : c ≠ 's' := by rintro rfl; exact absurd hc (by decide)
      have hb : c ≠ 'b' := by rintro rfl; exact absurd hc (by decide)
      simp [skipOne, hL, hs, hb]
  all_goals simp [skipOne]

theorem integer_append (hsign : sign = [] ∨ sign = ['-']) (hne : digits ≠ [])
    (hall : digits.all Char.isDigit) (hsuffix : suffix ∈ suffixes) (hrest : Ends rest) :
    integer (sign ++ (digits ++ (suffix ++ rest))) = some rest := by
  have hdigits := digits_append hne hall fun _ => not_digit_suffix hsuffix hrest
  simp [integer, skipOne_sign hsign hne hall, hdigits, skipOne_suffix hsuffix hrest,
    boundary_of_ends hrest]

/-- An integer that no point follows is not the beginning of a float. -/
theorem float_append (hsign : sign = [] ∨ sign = ['-']) (hne : digits ≠ [])
    (hall : digits.all Char.isDigit) (hsuffix : suffix ∈ suffixes) (hrest : Ends rest)
    (hpoint : rest.head? ≠ some '.') :
    float (sign ++ (digits ++ (suffix ++ rest))) = none := by
  have hdigits := digits_append hne hall fun _ => not_digit_suffix hsuffix hrest
  have hfraction : fraction (suffix ++ rest) = none := by
    rcases suffix_cases hsuffix with rfl | rfl | rfl | rfl
    · cases rest with
      | nil => rfl
      | cons c cs =>
        have hc : c ≠ '.' := fun h => hpoint (by rw [h]; rfl)
        simp [fraction, hc]
    all_goals rfl
  have hexponent : exponent (suffix ++ rest) = none := by
    rcases suffix_cases hsuffix with rfl | rfl | rfl | rfl
    · cases rest with
      | nil => rfl
      | cons c cs =>
        have hc := hrest c rfl
        have he : c ≠ 'e' := by rintro rfl; exact absurd hc (by decide)
        have hE : c ≠ 'E' := by rintro rfl; exact absurd hc (by decide)
        simp [exponent, he, hE]
    all_goals rfl
  simp [float, skipOne_sign hsign hne hall, hdigits, hfraction, hexponent]

end Numbers

/-- A character that begins no escape stands for itself. -/
theorem quotedUnit_plain {c : Char} (hc : c ≠ '\\') (quote : Char) (cs : List Char) :
    quotedUnit quote (c :: cs) = if c = quote then none else some cs := by
  simp [quotedUnit, hc]

/-- Units are passed one by one. -/
theorem quotedUnits_eq (quote : Char) (cs : List Char) :
    quotedUnits quote cs = ((quotedUnit quote cs).map (quotedUnits quote)).getD cs := by
  fun_cases quotedUnits quote cs with
  | case1 => rfl
  | case2 c cs hc => simp [quotedUnit, hc]
  | case3 c cs hc => simp [quotedUnit, hc]
  | case4 c cs hne hc => simp [quotedUnit, hc]
  | case5 c cs hne hc => simp [quotedUnit, hc]

end GuardCode.Token
