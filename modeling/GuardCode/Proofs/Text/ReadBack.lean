import GuardCode.Text.Numeral
import GuardCode.Text.Quoted

/-! Written numerals and quoted texts are read back. A character that is written by its number is
the exception: no short escape stands for it. -/
namespace GuardCode.Text

/-! Numerals. -/

theorem all_isDigit_toDigits (n : Nat) : (Nat.toDigits 10 n).all Char.isDigit := by
  rw [List.all_eq_true]
  intro c hc
  exact Nat.isDigit_of_mem_toDigits (by decide) (by decide) hc

theorem readNat?_toDigits (n : Nat) : readNat? (Nat.toDigits 10 n) = some n := by
  have hvalue : digitsValue (Nat.toDigits 10 n) = n := Nat.ofDigitChars_ten_toDigits
  simp [readNat?, all_isDigit_toDigits, hvalue]

theorem digitChar_of_isDigit {c : Char} (h : c.isDigit) :
    Nat.digitChar (c.toNat - '0'.toNat) = c ∧ c.toNat - '0'.toNat < 10 := by
  obtain ⟨hzero, hnine⟩ := Char.isDigit_iff_toNat.mp h
  have hlt : c.toNat - '0'.toNat < 10 := by
    have : '0'.toNat = 48 := rfl
    have : '9'.toNat = 57 := rfl
    omega
  refine ⟨Char.toNat_inj.mp ?_, hlt⟩
  rw [Nat.toNat_digitChar_of_lt_ten hlt]
  exact Nat.add_sub_cancel' hzero

/-- Digits behind a number that is not zero only make it longer. -/
theorem toDigits_ofDigitChars {cs : List Char} (hcs : cs.all Char.isDigit) {n : Nat} (hn : 0 < n) :
    Nat.toDigits 10 (Nat.ofDigitChars 10 cs n) = Nat.toDigits 10 n ++ cs := by
  induction cs generalizing n with
  | nil => simp
  | cons c cs ih =>
    obtain ⟨hc, hcs⟩ := (Bool.and_eq_true _ _).mp hcs
    obtain ⟨hchar, hlt⟩ := digitChar_of_isDigit hc
    have hlonger := Nat.toDigits_append_toDigits (by decide : 1 < 10) hn hlt
    rw [Nat.toDigits_of_lt_base hlt, hchar] at hlonger
    rw [Nat.ofDigitChars_cons, ih hcs (by omega), ← hlonger, List.append_assoc,
      List.singleton_append]

theorem head?_toDigits {n : Nat} (hn : 0 < n) : (Nat.toDigits 10 n).head? ≠ some '0' := by
  induction n using Nat.strongRecOn with
  | _ n ih =>
    by_cases hsmall : n < 10
    · have hne : n ≠ 0 := by omega
      simp [Nat.toDigits_of_lt_base hsmall, hne]
    · have hrest := ih (n / 10) (by omega) (by omega)
      obtain ⟨d, ds, hds⟩ := List.exists_cons_of_ne_nil (Nat.toDigits_ne_nil (n := n / 10) (b := 10))
      rw [Nat.toDigits_of_base_le (by decide) (by omega), hds]
      rwa [hds] at hrest

/-- A number is written without leading zeros. -/
theorem no_leading_zero (n : Nat) :
    ¬((Nat.toDigits 10 n).length > 1 ∧ (Nat.toDigits 10 n).head? = some '0') := by
  rintro ⟨hlength, hhead⟩
  rcases Nat.eq_zero_or_pos n with rfl | hn
  · simp at hlength
  · exact head?_toDigits hn hhead

/-- A numeral without leading zeros is the one that its number is written with. -/
theorem toDigits_of_readNat? {cs : List Char} {n : Nat} (h : readNat? cs = some n)
    (hzero : ¬(cs.length > 1 ∧ cs.head? = some '0')) : Nat.toDigits 10 n = cs := by
  simp only [readNat?] at h
  split at h
  · cases h
  · next hdigits =>
    cases h
    simp only [Bool.or_eq_true, Bool.not_eq_true', not_or, Bool.not_eq_false] at hdigits
    cases cs with
    | nil => simp at hdigits
    | cons c cs =>
      obtain ⟨hc, hcs⟩ := (Bool.and_eq_true _ _).mp hdigits.2
      obtain ⟨hchar, hlt⟩ := digitChar_of_isDigit hc
      have hone := Nat.toDigits_of_lt_base hlt
      rw [hchar] at hone
      have hvalue : digitsValue (c :: cs) =
          Nat.ofDigitChars 10 cs (c.toNat - '0'.toNat) := by
        simp [digitsValue, Nat.ofDigitChars]
      rw [hvalue]
      cases cs with
      | nil => exact hone
      | cons d ds =>
        have hpos : 0 < c.toNat - '0'.toNat := by
          refine Nat.pos_of_ne_zero fun heq => hzero ⟨by simp, ?_⟩
          rw [heq] at hchar
          rw [← hchar]
          rfl
        rw [toDigits_ofDigitChars hcs hpos, hone, List.singleton_append]

/-- The digits that an integer is written with, without its sign. -/
def magnitude (v : Int) : List Char := Nat.toDigits 10 v.natAbs

theorem magnitude_ne_nil (v : Int) : magnitude v ≠ [] := Nat.toDigits_ne_nil

theorem all_isDigit_magnitude (v : Int) : (magnitude v).all Char.isDigit :=
  all_isDigit_toDigits _

theorem toList_int (v : Int) :
    (toString v).toList = if 0 ≤ v then magnitude v else '-' :: magnitude v := by
  rw [Int.toString_eq_repr, Int.repr_eq_if]
  by_cases hv : 0 ≤ v
  · have habs : v.toNat = v.natAbs := by omega
    simp [hv, magnitude, habs]
  · have habs : (-v).toNat = v.natAbs := by omega
    simp [hv, magnitude, habs]

theorem readInt?_toString {least greatest v : Int} (hleast : least ≤ v) (hgreatest : v ≤ greatest) :
    readInt? least greatest (toString v).toList = some v := by
  have hread : readNat? (magnitude v) = some v.natAbs := readNat?_toDigits _
  rw [toList_int]
  by_cases hv : 0 ≤ v
  · obtain ⟨d, ds, hds⟩ := List.exists_cons_of_ne_nil (magnitude_ne_nil v)
    have hdigit : d.isDigit := by
      have hall := all_isDigit_magnitude v
      rw [hds, List.all_cons, Bool.and_eq_true] at hall
      exact hall.1
    have hplus : d ≠ '+' := by rintro rfl; exact absurd hdigit (by decide)
    have hminus : d ≠ '-' := by rintro rfl; exact absurd hdigit (by decide)
    rw [if_pos hv, hds]
    rw [hds] at hread
    have hvalue : (v.natAbs : Int) = v := Int.natAbs_of_nonneg hv
    simp [readInt?, hplus, hminus, hread, hvalue, hleast, hgreatest]
  · have hneg : least < 0 := by omega
    have hvalue : -(v.natAbs : Int) = v := by omega
    generalize v.natAbs = n at hread hvalue
    rw [if_neg hv]
    simp [readInt?, hneg, hread, hvalue, hleast, hgreatest]

theorem readInt64?_toString {v : Int} (hleast : -9223372036854775808 ≤ v)
    (hgreatest : v ≤ 9223372036854775807) : readInt64? (toString v).toList = some v :=
  readInt?_toString hleast hgreatest

/-! Quoted text. -/

/-- Whether a character is written by its number between quotes of the given kind. -/
def isNumbered (quote c : Char) : Bool :=
  !(['\x00', '\t', '\r', '\n', '\\', quote].contains c) && isHidden c

/-- A character that is not written by its number stands as a short escape or as itself. -/
theorem escape_cases {quote c : Char} (hquote : quote = '"' ∨ quote = '\'')
    (hc : isNumbered quote c = false) :
    (∃ d, (escape quote c).toList = ['\\', d] ∧ shortEscape? d = some c) ∨
      (escape quote c).toList = [c] ∧ c ≠ '\\' ∧ c ≠ quote := by
  unfold escape
  split
  · next h => exact .inl ⟨'0', rfl, by rw [h]; rfl⟩
  split
  · next h => exact .inl ⟨'t', rfl, by rw [h]; rfl⟩
  split
  · next h => exact .inl ⟨'r', rfl, by rw [h]; rfl⟩
  split
  · next h => exact .inl ⟨'n', rfl, by rw [h]; rfl⟩
  split
  · next h => exact .inl ⟨'\\', rfl, by rw [h]; rfl⟩
  split
  · next h =>
    rcases hquote with rfl | rfl
    · exact .inl ⟨'"', rfl, by rw [h]; rfl⟩
    · exact .inl ⟨'\'', rfl, by rw [h]; rfl⟩
  split
  · next h0 ht hr hn hb hq hhidden => simp [isNumbered, h0, ht, hr, hn, hb, hq, hhidden] at hc
  · next hbackslash hother _ => exact .inr ⟨by simp, hbackslash, hother⟩

theorem unescape_plain {c : Char} (hc : c ≠ '\\') (cs : List Char) :
    unescape (c :: cs) = (unescape cs).map (c :: ·) := by
  simp [unescape, hc]

theorem unescape_short {c d : Char} (h : shortEscape? c = some d) (cs : List Char) :
    unescape ('\\' :: c :: cs) = (unescape cs).map (d :: ·) := by
  cases hcs : unescape cs <;> simp [unescape, h, hcs]

theorem unescape_escape {quote c : Char} (hquote : quote = '"' ∨ quote = '\'')
    (hc : isNumbered quote c = false) (rest : List Char) :
    unescape ((escape quote c).toList ++ rest) = (unescape rest).map (c :: ·) := by
  rcases escape_cases hquote hc with ⟨d, hd, hshort⟩ | ⟨hplain, hbackslash, -⟩
  · rw [hd]
    exact unescape_short hshort rest
  · rw [hplain]
    exact unescape_plain hbackslash rest

/-- The characters between the quotes of a quoted text. -/
def escaped (quote : Char) (cs : List Char) : List Char := cs.flatMap fun c => (escape quote c).toList

theorem toList_quoted (s : String) :
    (quoted s).toList = '"' :: (escaped '"' s.toList ++ ['"']) := by
  have hjoin : ∀ strings : List String,
      (String.join strings).toList = strings.flatMap String.toList := by
    intro strings
    induction strings with
    | nil => rfl
    | cons s strings ih => simp [String.join_cons, ih]
  simp [quoted, escaped, hjoin, List.flatMap_map]

theorem toList_quotedChar (c : Char) :
    (quotedChar c).toList = '\'' :: ((escape '\'' c).toList ++ ['\'']) := by
  simp [quotedChar]

theorem unescape_escaped {quote : Char} (hquote : quote = '"' ∨ quote = '\'') {cs : List Char}
    (hcs : ∀ c ∈ cs, isNumbered quote c = false) : unescape (escaped quote cs) = some cs := by
  induction cs with
  | nil => rfl
  | cons c cs ih =>
    have hc := hcs c List.mem_cons_self
    have hrest := ih fun d hd => hcs d (List.mem_cons_of_mem _ hd)
    rw [escaped, List.flatMap_cons, unescape_escape hquote hc]
    exact congrArg (Option.map (c :: ·)) hrest

end GuardCode.Text
