/-! Sets of characters given by runs of code points. -/
namespace GuardCode.Text

/-- Whether a character lies in one of the runs, each given by its first and last code point. -/
def inRanges (ranges : List (Nat × Nat)) (c : Char) : Bool :=
  ranges.any fun (first, last) => first ≤ c.toNat && c.toNat ≤ last

end GuardCode.Text
