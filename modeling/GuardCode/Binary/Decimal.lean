import GuardCode.Binary.Basic
import GuardCode.Text.Numeral

/-! Decimal numbers in text and the binary numbers nearest to them. -/
namespace GuardCode

/-- Digits times a power of ten. -/
structure Decimal where
  negative : Bool
  digits : Nat
  exponent : Int
  deriving DecidableEq

namespace Decimal

/-- Reads a power of ten: nothing, or `e` with an optional sign and digits. -/
def readExponent? : List Char → Option Int
  | [] => some 0
  | c :: cs =>
    if c = 'e' ∨ c = 'E' then
      match cs with
      | '+' :: digits => (Text.readNat? digits).map Int.ofNat
      | '-' :: digits => (Text.readNat? digits).map fun n => -(n : Int)
      | digits => (Text.readNat? digits).map Int.ofNat
    else none

/-- Reads digits with an optional point among them and an optional power of ten after them; there
is at least one digit. -/
def readUnsigned? (negative : Bool) (cs : List Char) : Option Decimal := do
  let whole := cs.takeWhile Char.isDigit
  let afterWhole := cs.dropWhile Char.isDigit
  let (fraction, rest) :=
    match afterWhole with
    | '.' :: more => (more.takeWhile Char.isDigit, more.dropWhile Char.isDigit)
    | _ => ([], afterWhole)
  if whole.isEmpty && fraction.isEmpty then none
  else
    let power ← readExponent? rest
    return ⟨negative, Text.digitsValue (whole ++ fraction), power - fraction.length⟩

end Decimal

namespace Binary

variable {f : Format}

/-- The number nearest to a decimal. Where the powers alone put the decimal above every finite
number or below half the smallest one, the digits are not expanded. -/
def ofDecimal (d : Decimal) : Binary f :=
  if d.digits = 0 then zero d.negative
  else
    let point := (Nat.toDigits 10 d.digits).length + d.exponent
    if (Nat.pow 2 (f.exponentBits - 1) : Int) < point then infinite d.negative
    else if 3 * point < f.leastExponent - 1 then zero d.negative
    else
      ofRatio d.negative (d.digits * Nat.pow 10 d.exponent.toNat)
        (Nat.pow 10 (-d.exponent).toNat)

/-- Reads a decimal, or `inf`, `infinity` or `nan` in any letter case, after an optional sign. -/
def read? (cs : List Char) : Option (Binary f) :=
  let (negative, body) :=
    match cs with
    | '+' :: rest => (false, rest)
    | '-' :: rest => (true, rest)
    | _ => (false, cs)
  let word := String.ofList (body.map Char.toLower)
  if word = "inf" ∨ word = "infinity" then some (infinite negative)
  else if word = "nan" then some nan
  else (Decimal.readUnsigned? negative body).map ofDecimal

end Binary

end GuardCode
