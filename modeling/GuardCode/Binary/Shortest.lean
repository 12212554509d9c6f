import GuardCode.Binary.Basic

/-! The text of a binary number: the fewest decimal digits that read back to it, and of those the
nearest to it. Numbers from 0.0001 up to 10^16 are written out, all others with a power of ten. -/
namespace GuardCode

/-- The decimals that read back to one finite number, in quarters of its last place: all between
`low` and `high`, and the two ends as well where `closed`. -/
structure Interval where
  low : Nat
  value : Nat
  high : Nat
  closed : Bool

namespace Interval

/-- The interval of a mantissa. Below a power of two the spacing halves; a tie reads as the even
mantissa. -/
def ofMantissa (f : Format) (mantissa : Nat) (exponent : Int) : Interval where
  low := 4 * mantissa - (if mantissa = f.binade ∧ f.leastExponent < exponent then 1 else 2)
  value := 4 * mantissa
  high := 4 * mantissa + 2
  closed := decide (mantissa % 2 = 0)

/-- Whether the decimal `n` reads back, where one unit of the interval is `unit / step` decimals. -/
def holds (i : Interval) (unit step n : Nat) : Bool :=
  if i.closed then i.low * unit ≤ n * step && n * step ≤ i.high * unit
  else i.low * unit < n * step && n * step < i.high * unit

/-- The decimal nearest to the value among its two neighbours on one grid, if one reads back; of
two that are equally near, the upper. -/
def nearest? (i : Interval) (unit step : Nat) : Option Nat :=
  let below := i.value * unit / step
  match i.holds unit step below, i.holds unit step (below + 1) with
  | false, false => none
  | true, false => some below
  | false, true => some (below + 1)
  | true, true =>
    if 2 * (i.value * unit % step) < step then some below else some (below + 1)

end Interval

namespace Binary

/-- Digits before the decimal point of a positive number, negative if zeros follow the point. -/
def decimalPoint (mantissa : Nat) (exponent : Int) : Int :=
  if 0 ≤ exponent then (Nat.toDigits 10 (mantissa * Nat.pow 2 exponent.toNat)).length
  else
    let places := (-exponent).toNat
    ((Nat.toDigits 10 (mantissa * Nat.pow 10 places / Nat.pow 2 places)).length : Int) - places

/-- Tries grids of one digit more at a time, starting with grids of ten to the given power. -/
def shortestFrom (i : Interval) (exponent : Int) : Nat → Int → Nat × Int
  | 0, power => (i.value, power)
  | grids + 1, power =>
    let unit := Nat.pow 2 (exponent - 2).toNat * Nat.pow 10 (-power).toNat
    let step := Nat.pow 2 (2 - exponent).toNat * Nat.pow 10 power.toNat
    match i.nearest? unit step with
    | some n => (n, power)
    | none => shortestFrom i exponent grids (power - 1)

/-- The fewest digits that read back, and the power of ten of the last one. -/
def shortest (f : Format) (mantissa : Nat) (exponent : Int) : Nat × Int :=
  shortestFrom (.ofMantissa f mantissa exponent) exponent f.precision
    (decimalPoint mantissa exponent - 1)

/-- Writes digits whose decimal point stands after the first `point` of them. -/
def layout (digits : List Char) (point : Int) : List Char :=
  if -3 ≤ point ∧ point ≤ 16 then
    if point ≤ 0 then
      '0' :: '.' :: (List.replicate (-point).toNat '0' ++ digits)
    else
      let places := point.toNat
      let whole := digits.take places ++ List.replicate (places - digits.length) '0'
      let fraction := digits.drop places
      whole ++ '.' :: (if fraction.isEmpty then ['0'] else fraction)
  else
    let first := digits.take 1
    let fraction := digits.drop 1
    first ++ (if fraction.isEmpty then [] else '.' :: fraction) ++
      'e' :: (toString (point - 1)).toList

/-- Zeros at the end of the digits carry no value. -/
def dropZeros (digits : List Char) : List Char :=
  (digits.reverse.dropWhile (· = '0')).reverse

def text {f : Format} (x : Binary f) : String :=
  match x.exact with
  | .nan => "NaN"
  | .infinite negative => if negative then "-inf" else "inf"
  | .finite negative mantissa exponent =>
    let body :=
      if mantissa = 0 then "0.0"
      else
        let (n, power) := shortest f mantissa exponent
        let digits := Nat.toDigits 10 n
        String.ofList (layout (dropZeros digits) (digits.length + power))
    if negative then "-" ++ body else body

end Binary

end GuardCode
