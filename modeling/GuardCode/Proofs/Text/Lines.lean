import GuardCode.Binary.Shortest
import GuardCode.Proofs.Text.ReadBack

/-! Text and its lines. Numbers and quoted strings are written on one line, so a text whose lines are
each ended by a line break is split into just these lines again. -/
namespace GuardCode.Text

/-- A text without a line break in it. -/
def OnOneLine (s : String) : Prop := '\n' ∉ s.toList

instance (s : String) : Decidable (OnOneLine s) := inferInstanceAs (Decidable (¬ _))

@[simp] theorem onOneLine_append {s t : String} :
    OnOneLine (s ++ t) ↔ OnOneLine s ∧ OnOneLine t := by
  simp [OnOneLine, not_or]

theorem onOneLine_intercalate {separator : String} {parts : List String}
    (hseparator : OnOneLine separator) (hparts : ∀ part ∈ parts, OnOneLine part) :
    OnOneLine (String.intercalate separator parts) := by
  induction parts with
  | nil => simp [OnOneLine]
  | cons part parts ih =>
    have hpart := hparts part List.mem_cons_self
    have hrest := ih fun other hother => hparts other (List.mem_cons_of_mem _ hother)
    cases parts with
    | nil => simpa using hpart
    | cons other parts =>
      rw [String.intercalate_cons_cons]
      exact onOneLine_append.mpr ⟨onOneLine_append.mpr ⟨hpart, hseparator⟩, hrest⟩

/-- Lines that are each ended by a line break, and what stands behind the last, are found again. -/
theorem lines_join {lines : List String} {last : String}
    (hlines : ∀ line ∈ lines, OnOneLine line) (hlast : OnOneLine last) :
    (String.join (lines.map (· ++ "\n")) ++ last).toList.splitOn '\n' =
      (lines ++ [last]).map String.toList := by
  have hjoined : (String.join (lines.map (· ++ "\n")) ++ last).toList =
      ['\n'].intercalate ((lines ++ [last]).map String.toList) := by
    clear hlines hlast
    induction lines with
    | nil => simp
    | cons line lines ih =>
      obtain ⟨next, rest, hnext⟩ := List.exists_cons_of_ne_nil
        (show (lines ++ [last]).map String.toList ≠ [] by simp)
      rw [List.map_cons, String.join_cons, String.append_assoc, String.toList_append, ih,
        List.cons_append, List.map_cons, hnext, List.intercalate_cons_cons]
      simp
  rw [hjoined]
  refine List.splitOn_intercalate '\n' ?_ (by simp)
  intro line hline
  obtain ⟨s, hs, rfl⟩ := List.mem_map.mp hline
  rcases List.mem_append.mp hs with hs | hs
  · exact hlines s hs
  · rw [List.mem_singleton.mp hs]
    exact hlast

/-! ## Numbers -/

/-- The digits of a number come one by one from its remainders. -/
theorem mem_toDigits {base : Nat} (hbase : 1 < base) (n : Nat) {c : Char}
    (h : c ∈ Nat.toDigits base n) : ∃ d, d < base ∧ c = Nat.digitChar d := by
  induction n using Nat.strongRecOn with
  | ind n ih =>
    rw [Nat.toDigits_eq_if hbase] at h
    split at h
    · exact ⟨n, ‹_›, List.mem_singleton.mp h⟩
    · rcases List.mem_append.mp h with h | h
      · have hpos : 0 < n := by omega
        exact ih _ (Nat.div_lt_self hpos hbase) h
      · exact ⟨n % base, Nat.mod_lt n (by omega), List.mem_singleton.mp h⟩

theorem break_not_mem_toDigits {base : Nat} (hbase : 1 < base) (hle : base ≤ 16) (n : Nat) :
    '\n' ∉ Nat.toDigits base n := by
  intro h
  obtain ⟨d, hd, hbreak⟩ := mem_toDigits hbase n h
  have hall : ∀ d < 16, '\n' ≠ Nat.digitChar d := by decide
  exact hall d (Nat.lt_of_lt_of_le hd hle) hbreak

theorem onOneLine_nat (n : Nat) : OnOneLine (toString n) := by
  have h : '\n' ∉ Nat.toDigits 10 n := break_not_mem_toDigits (by decide) (by decide) n
  simpa [OnOneLine, Nat.toString_eq_repr, Nat.repr] using h

theorem onOneLine_int (v : Int) : OnOneLine (toString v) := by
  have h : '\n' ∉ magnitude v := break_not_mem_toDigits (by decide) (by decide) v.natAbs
  rw [OnOneLine, toList_int]
  split
  · exact h
  · simp [h]

theorem onOneLine_padded {base : Nat} (hbase : 1 < base) (hle : base ≤ 16) (width n : Nat) :
    OnOneLine (padded base width n) := by
  have h := break_not_mem_toDigits hbase hle n
  simp [OnOneLine, padded, h, List.mem_replicate]

/-- The number that a hexadecimal digit in lower case stands for. -/
def hexDigit (c : Char) : Nat :=
  if c.isDigit then c.toNat - '0'.toNat else c.toNat - 'a'.toNat + 10

/-- The number that a list of hexadecimal digits denotes. -/
def hexValue (digits : List Char) : Nat :=
  digits.foldl (fun n c => 16 * n + hexDigit c) 0

theorem hexDigit_digitChar {d : Nat} (h : d < 16) : hexDigit (Nat.digitChar d) = d := by
  have hall : ∀ d < 16, hexDigit (Nat.digitChar d) = d := by decide
  exact hall d h

theorem hexValue_toDigits (n : Nat) : hexValue (Nat.toDigits 16 n) = n := by
  induction n using Nat.strongRecOn with
  | ind n ih =>
    rw [Nat.toDigits_eq_if (by decide)]
    split
    · simp [hexValue, hexDigit_digitChar ‹_›]
    · have hrest := ih (n / 16) (by omega)
      have hlast := hexDigit_digitChar (Nat.mod_lt n (show 0 < 16 by decide))
      rw [hexValue] at hrest ⊢
      rw [List.foldl_append, hrest, List.foldl_cons, List.foldl_nil, hlast]
      omega

/-- Hexadecimal digits of a number, of some width at least. -/
structure IsHex (width n : Nat) (digits : List Char) : Prop where
  wide : width ≤ digits.length
  hex : ∀ c ∈ digits, ∃ d, d < 16 ∧ c = Nat.digitChar d
  value : hexValue digits = n

theorem isHex_padded (width n : Nat) : IsHex width n (padded 16 width n).toList := by
  rw [padded, String.toList_ofList]
  constructor
  case wide => simp; omega
  case hex =>
    intro c hc
    rcases List.mem_append.mp hc with hc | hc
    · exact ⟨0, by decide, (List.mem_replicate.mp hc).2⟩
    · exact mem_toDigits (by decide) n hc
  case value =>
    have hzeros : ∀ count, hexValue (List.replicate count '0') = 0 := by
      intro count
      induction count with
      | zero => rfl
      | succ count ih => exact ih
    have hdigits := hexValue_toDigits n
    rw [hexValue] at hdigits
    rw [hexValue, List.foldl_append, ← hexValue, hzeros, hdigits]

/-! ## Quoted text -/

theorem onOneLine_escape {quote : Char} (hquote : quote ≠ '\n') (c : Char) :
    OnOneLine (escape quote c) := by
  unfold escape
  split
  · decide
  split
  · decide
  split
  · decide
  split
  · decide
  split
  · decide
  split
  · simpa [OnOneLine] using hquote.symm
  split
  · have h : '\n' ∉ Nat.toDigits 16 c.toNat := break_not_mem_toDigits (by decide) (by decide) _
    simpa [OnOneLine, hex] using h
  · rename_i hbreak _ _ _
    simpa [OnOneLine] using Ne.symm hbreak

theorem onOneLine_quoted (s : String) : OnOneLine (quoted s) := by
  rw [OnOneLine, toList_quoted, escaped]
  intro h
  simp only [List.mem_cons, List.mem_append, List.mem_flatMap] at h
  obtain h | ⟨c, -, h⟩ | h | h := h
  · exact absurd h (by decide)
  · exact onOneLine_escape (by decide) c h
  · exact absurd h (by decide)
  · cases h

end GuardCode.Text

namespace GuardCode.Binary

open Text

theorem break_not_mem_layout {digits : List Char} (h : '\n' ∉ digits) (point : Int) :
    '\n' ∉ layout digits point := by
  have htake : ∀ n, '\n' ∉ digits.take n := fun n hn => h (List.mem_of_mem_take hn)
  have hdrop : ∀ n, '\n' ∉ digits.drop n := fun n hn => h (List.mem_of_mem_drop hn)
  have hexponent : '\n' ∉ (toString (point - 1)).toList := onOneLine_int _
  intro hbreak
  unfold layout at hbreak
  split at hbreak
  · split at hbreak
    · simp [h, List.mem_replicate] at hbreak
    · simp only [List.mem_append, List.mem_cons, List.mem_replicate] at hbreak
      obtain (hwhole | ⟨-, hzero⟩) | hpoint | hfraction := hbreak
      · exact htake _ hwhole
      · exact absurd hzero (by decide)
      · exact absurd hpoint (by decide)
      · split at hfraction
        · exact absurd hfraction (by decide)
        · exact hdrop _ hfraction
  · simp only [List.mem_append, List.mem_cons] at hbreak
    obtain (hfirst | hfraction) | he | hpower := hbreak
    · exact htake _ hfirst
    · split at hfraction
      · cases hfraction
      · rcases List.mem_cons.mp hfraction with hpoint | hfraction
        · exact absurd hpoint (by decide)
        · exact hdrop _ hfraction
    · exact absurd he (by decide)
    · exact hexponent hpower

theorem onOneLine_text {f : Format} (x : Binary f) : OnOneLine x.text := by
  have hdigits : ∀ n, '\n' ∉ dropZeros (Nat.toDigits 10 n) := by
    intro n h
    rw [dropZeros, List.mem_reverse] at h
    have := List.mem_reverse.mp ((List.dropWhile_sublist _).subset h)
    exact break_not_mem_toDigits (by decide) (by decide) n this
  unfold text
  split
  · decide
  · split <;> decide
  · rename_i negative mantissa exponent _
    have hbody : OnOneLine (if mantissa = 0 then "0.0" else
        String.ofList (layout (dropZeros (Nat.toDigits 10 (shortest f mantissa exponent).1))
          ((Nat.toDigits 10 (shortest f mantissa exponent).1).length +
            (shortest f mantissa exponent).2))) := by
      split
      · decide
      · rw [OnOneLine, String.toList_ofList]
        exact break_not_mem_layout (hdigits _) _
    cases negative with
    | false => exact hbody
    | true => exact onOneLine_append.mpr ⟨by decide, hbody⟩

end GuardCode.Binary
