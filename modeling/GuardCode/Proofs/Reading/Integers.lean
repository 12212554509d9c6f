import GuardCode.Proofs.Grammar.Language
import GuardCode.Proofs.Reading.Looseness

/-! Integer literals. What an integer token denotes is what its literal stands for, in its own type and in
every type that the literal can take on: no number is wrapped or cut off. -/
namespace GuardCode

namespace Token

/-- The number that an integer token denotes, by its digits and the sign in front of them. -/
def integerValue (text : List Char) : Int :=
  let magnitude : Int := Nat.ofDigitChars 10 (text.filter Char.isDigit) 0
  if text.head? = some '-' then -magnitude else magnitude

/-- Whether an integer token ends in a letter that gives its type. -/
def isSuffixed (text : List Char) : Bool :=
  text.getLast?.any fun c => c == 'L' || c == 's' || c == 'b'

end Token

namespace Literal

/-- The number that a literal of an integral type stands for, that of a character being its code
point. -/
def integer? : Literal → Option Int
  | u8 v => some v.toNat
  | i8 v => some v.toInt
  | i16 v => some v.toInt
  | u16 v => some v.toNat
  | i32 v => some v.toInt
  | char c => some c.toNat
  | i64 v => some v.toInt
  | _ => none

end Literal

namespace Ty

/-- The integral types that a literal without a suffix takes on. -/
def isAdoptable : Ty → Bool
  | u8 | i8 | i16 | u16 | i32 | char | i64 => true
  | _ => false

theorem not_isFloat_of_isAdoptable {type : Ty} (h : type.isAdoptable) : type.isFloat = false := by
  cases type with
  | f32 | f64 => cases h
  | _ => rfl

end Ty

open Literal (integer?)
open Token (integerValue isSuffixed)

/-! ## Digits -/

section Digits

variable {sign digits suffix : List Char} {v : Int}

theorem digit_ne {c d : Char} (hc : c.isDigit) (hd : d.isDigit = false) : c ≠ d := by
  rintro rfl
  rw [hc] at hd
  cases hd

theorem integerValue_parts (hsign : sign = [] ∨ sign = ['-']) (hne : digits ≠ [])
    (hall : digits.all Char.isDigit) (hsuffix : suffix ∈ Token.suffixes) :
    integerValue (sign ++ (digits ++ suffix)) =
      if sign = [] then (Nat.ofDigitChars 10 digits 0 : Int) else -Nat.ofDigitChars 10 digits 0 := by
  have hdigits : digits.filter Char.isDigit = digits := by
    rw [List.filter_eq_self]
    exact List.all_eq_true.mp hall
  have hletters : suffix.filter Char.isDigit = [] := by
    rcases Token.suffix_cases hsuffix with rfl | rfl | rfl | rfl <;> rfl
  obtain ⟨d, ds, rfl⟩ := List.exists_cons_of_ne_nil hne
  have hd : d ≠ '-' := digit_ne ((Bool.and_eq_true _ _).mp hall).1 (by decide)
  rcases hsign with rfl | rfl
  · simp only [integerValue, List.nil_append, List.filter_append, hdigits, hletters]
    simp [hd]
  · have hminus : ['-'].filter Char.isDigit = [] := rfl
    simp only [integerValue, List.filter_append, hdigits, hletters, hminus]
    simp

/-- Numbers that 64 bits can hold. -/
def Holds64 (v : Int) : Prop := -9223372036854775808 ≤ v ∧ v ≤ 9223372036854775807

theorem readInt64?_parts (hsign : sign = [] ∨ sign = ['-'])
    (hne : digits ≠ []) (hall : digits.all Char.isDigit)
    (h : Text.readInt64? (sign ++ digits) = some v) : Holds64 v ∧
      v = if sign = [] then (Nat.ofDigitChars 10 digits 0 : Int) else -Nat.ofDigitChars 10 digits 0 := by
  have hread : Text.readNat? digits = some (Nat.ofDigitChars 10 digits 0) := by
    have hempty : digits.isEmpty = false := by simpa using hne
    simp only [Text.readNat?, hempty, hall, Bool.not_true, Bool.or_self, Bool.false_eq_true, if_false]
    rfl
  have hvalue : ∀ {w v : Int}, (if -9223372036854775808 ≤ w ∧ w ≤ 9223372036854775807 then some w
      else none) = some v → Holds64 v ∧ v = w := by
    intro w v h
    split at h
    · next hrange =>
      cases h
      exact ⟨hrange, rfl⟩
    · cases h
  obtain ⟨d, ds, rfl⟩ := List.exists_cons_of_ne_nil hne
  have hdigit := ((Bool.and_eq_true _ _).mp hall).1
  have hplus : d ≠ '+' := digit_ne hdigit (by decide)
  have hminus : d ≠ '-' := digit_ne hdigit (by decide)
  rcases hsign with rfl | rfl
  · simp only [Text.readInt64?, Text.readInt?, List.nil_append] at h
    split at h
    · next heq => exact absurd (List.cons.inj heq).1 hplus
    · next heq => exact absurd (List.cons.inj heq).1 hminus
    · simp only [hread, Option.map_some, bind, Option.bind_some] at h
      exact hvalue h
  · simp only [Text.readInt64?, Text.readInt?, List.singleton_append, hread, bind,
      Option.bind_some] at h
    exact hvalue h

/-- A letter at the end is a suffix, and a digit is none. -/
theorem suffix_parts (sign : List Char) (hne : digits ≠ []) (hall : digits.all Char.isDigit)
    (hsuffix : suffix ∈ Token.suffixes) :
    isSuffixed (sign ++ (digits ++ suffix)) = !suffix.isEmpty ∧
      ((sign ++ (digits ++ suffix)).getLast?.filter fun c => c == 'L' || c == 's' || c == 'b') =
        suffix.head? ∧
      (if suffix.head?.isSome then (sign ++ (digits ++ suffix)).dropLast
        else sign ++ (digits ++ suffix)) = sign ++ digits := by
  rcases Token.suffix_cases hsuffix with rfl | rfl | rfl | rfl
  · have hlast := List.getLast?_eq_some_getLast hne
    have hdigit := List.all_eq_true.mp hall _ (List.getLast_mem hne)
    have hL := digit_ne hdigit (d := 'L') (by decide)
    have hs := digit_ne hdigit (d := 's') (by decide)
    have hb := digit_ne hdigit (d := 'b') (by decide)
    simp [isSuffixed, List.getLast?_append, hlast, hL, hs, hb, Option.filter]
  all_goals
    have hassoc : ∀ c : Char, sign ++ (digits ++ [c]) = (sign ++ digits) ++ [c] := by simp
    simp [isSuffixed, hassoc, -List.append_assoc, Option.filter]

end Digits

/-! ## Literals -/

namespace Reading

open Grammar (IsToken)

variable {text : List Char} {l : Literal} {loose? : Option Loose} {v : Int} {type : Ty}

/-! Each integral type holds the numbers of its range. -/

theorem integer?_u8 (h : 0 ≤ v ∧ v ≤ 255) : integer? (.u8 (UInt8.ofNat v.toNat)) = some v := by
  have hlt : v.toNat < UInt8.size := by
    simp only [UInt8.size]
    omega
  simp only [integer?, UInt8.toNat_ofNat_of_lt' hlt, Int.toNat_of_nonneg h.1]

theorem integer?_u16 (h : 0 ≤ v ∧ v ≤ 65535) : integer? (.u16 (UInt16.ofNat v.toNat)) = some v := by
  have hlt : v.toNat < UInt16.size := by
    simp only [UInt16.size]
    omega
  simp only [integer?, UInt16.toNat_ofNat_of_lt' hlt, Int.toNat_of_nonneg h.1]

theorem integer?_i8 (h : -128 ≤ v ∧ v ≤ 127) : integer? (.i8 v.toInt8) = some v :=
  congrArg some (Int8.toInt_ofInt_of_le (by omega) (by omega))

theorem integer?_i16 (h : -32768 ≤ v ∧ v ≤ 32767) : integer? (.i16 v.toInt16) = some v :=
  congrArg some (Int16.toInt_ofInt_of_le (by omega) (by omega))

theorem integer?_i32 (h : -2147483648 ≤ v ∧ v ≤ 2147483647) : integer? (.i32 v.toInt32) = some v :=
  congrArg some (Int32.toInt_ofInt_of_le (by omega) (by omega))

theorem integer?_i64 (h : Holds64 v) : integer? (.i64 v.toInt64) = some v :=
  congrArg some (Int64.toInt_ofInt_of_le h.1 (Int.lt_add_one_of_le h.2))

theorem integer?_char (h : 0 ≤ v ∧ v.toNat.isValidChar) :
    integer? (.char (Char.ofNat v.toNat)) = some v := by
  have hcode : (Char.ofNat v.toNat).toNat = v.toNat := by
    rw [Char.ofNat, dif_pos h.2]
    rfl
  simp only [integer?, hcode, Int.toNat_of_nonneg h.1]

/-- What an integer token is read as. Without a suffix it is loose. -/
theorem integer_value (htoken : IsToken .integer text) (h : integer text = .ok (l, loose?)) :
    Holds64 (integerValue text) ∧ integer? l = some (integerValue text) ∧
      loose? = if isSuffixed text then none else some (.int (integerValue text)) := by
  obtain ⟨spelled, heq, hspelled⟩ := Pattern.spelled_of_integer (Grammar.isToken_iff.mp htoken)
  obtain rfl : text = spelled := by simpa using heq
  cases hspelled with
  | @integer sign digits suffix hsign hne hall hsuffix =>
    obtain ⟨hsuffixed, hletter, hdigits⟩ := suffix_parts sign hne hall hsuffix
    simp only [integer, hletter, hdigits] at h
    rw [hsuffixed, integerValue_parts hsign hne hall hsuffix]
    split at h
    · cases h
    · next v hread =>
      obtain ⟨hrange, hvalue⟩ := readInt64?_parts hsign hne hall hread
      rw [← hvalue]
      refine ⟨hrange, ?_⟩
      rcases Token.suffix_cases hsuffix with rfl | rfl | rfl | rfl
      · simp only [List.head?_nil] at h
        split at h
        · next hsmall =>
          cases h
          exact ⟨integer?_i32 hsmall, rfl⟩
        · cases h
          exact ⟨integer?_i64 hrange, rfl⟩
      · simp only [List.head?_cons] at h
        cases h
        exact ⟨integer?_i64 hrange, rfl⟩
      · simp only [List.head?_cons] at h
        split at h
        · next hsmall =>
          cases h
          exact ⟨integer?_i16 hsmall, rfl⟩
        · cases h
      · simp only [List.head?_cons] at h
        split at h
        · next hsmall =>
          cases h
          exact ⟨integer?_u8 hsmall, rfl⟩
        · cases h

theorem within_adopted {least greatest : Int} {l' : Literal}
    (h : Adoption.within least greatest v l' = .adopted l) :
    (least ≤ v ∧ v ≤ greatest) ∧ l' = l := by
  simp only [Adoption.within] at h
  split at h
  · next hrange =>
    cases h
    exact ⟨hrange, rfl⟩
  · cases h

/-- A literal that a loose integer became has the type that it met, and keeps the number unless this is
the type of a float. -/
theorem adopt_value (hv : Holds64 v) (h : (Loose.int v).adopt type = .adopted l) :
    l.type = type ∧ (type.isFloat ∨ integer? l = some v) := by
  cases type with
  | u8 =>
    obtain ⟨hrange, rfl⟩ := within_adopted h
    exact ⟨rfl, .inr (integer?_u8 hrange)⟩
  | i8 =>
    obtain ⟨hrange, rfl⟩ := within_adopted h
    exact ⟨rfl, .inr (integer?_i8 hrange)⟩
  | i16 =>
    obtain ⟨hrange, rfl⟩ := within_adopted h
    exact ⟨rfl, .inr (integer?_i16 hrange)⟩
  | u16 =>
    obtain ⟨hrange, rfl⟩ := within_adopted h
    exact ⟨rfl, .inr (integer?_u16 hrange)⟩
  | i32 =>
    obtain ⟨hrange, rfl⟩ := within_adopted h
    exact ⟨rfl, .inr (integer?_i32 hrange)⟩
  | char =>
    simp only [Loose.adopt] at h
    split at h
    · next hvalid =>
      cases h
      exact ⟨rfl, .inr (integer?_char hvalid)⟩
    · cases h
  | i64 =>
    cases h
    exact ⟨rfl, .inr (integer?_i64 hv)⟩
  | f32 | f64 =>
    cases h
    exact ⟨rfl, .inl rfl⟩
  | _ => cases h

/-- At the integral types a loose integer does not stay what it is. -/
theorem adopt_changes (htype : type.isAdoptable) : (Loose.int v).adopt type ≠ .unchanged := by
  have hwithin : ∀ least greatest l, Adoption.within least greatest v l ≠ .unchanged := by
    intro least greatest l h
    simp only [Adoption.within] at h
    split at h <;> cases h
  cases type with
  | u8 | i8 | i16 | u16 | i32 => exact hwithin _ _ _
  | char =>
    intro h
    simp only [Loose.adopt] at h
    split at h <;> cases h
  | i64 =>
    intro h
    cases h
  | _ => cases htype

end Reading

end GuardCode
