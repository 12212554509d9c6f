/-! Decimal integers in text: an optional sign and ASCII digits, with nothing else around them. -/
namespace GuardCode.Text

/-- The number that a list of decimal digits denotes. -/
def digitsValue (cs : List Char) : Nat :=
  cs.foldl (fun n c => 10 * n + (c.toNat - '0'.toNat)) 0

/-- Reads one or more digits and nothing else. -/
def readNat? (cs : List Char) : Option Nat :=
  if cs.isEmpty || !cs.all Char.isDigit then none else some (digitsValue cs)

/-- Reads an integer of a range. A plus sign is always allowed, a minus sign only where the range
has negative numbers. -/
def readInt? (least greatest : Int) (cs : List Char) : Option Int := do
  let value : Int ←
    match cs with
    | '+' :: digits => (readNat? digits).map Int.ofNat
    | '-' :: digits =>
      if least < 0 then (readNat? digits).map fun n => -(n : Int) else none
    | digits => (readNat? digits).map Int.ofNat
  if least ≤ value ∧ value ≤ greatest then some value else none

/-- Reads an integer of 64 bits. -/
def readInt64? (cs : List Char) : Option Int :=
  readInt? (-9223372036854775808) 9223372036854775807 cs

/-- The digits of a number in the given base, with zeros in front up to the given width. -/
def padded (base width n : Nat) : String :=
  let digits := Nat.toDigits base n
  String.ofList (List.replicate (width - digits.length) '0' ++ digits)

end GuardCode.Text
