import GuardCode.Binary.Basic

/-! Addition, subtraction, remainder and comparison of binary floating-point numbers. Each brings
its operands to a common exponent, works on integers, and rounds once. -/
namespace GuardCode

namespace Exact

/-- The mantissa with its sign, moved down to a lower exponent. -/
def shifted (negative : Bool) (mantissa : Nat) (exponent low : Int) : Int :=
  let n : Int := mantissa * Nat.pow 2 (exponent - low).toNat
  if negative then -n else n

/-- The order of two values; nothing is ordered against what is not a number. -/
def compare : Exact → Exact → Option Ordering
  | .nan, _ => none
  | _, .nan => none
  | .infinite a, .infinite b => some (if a = b then .eq else if a then .lt else .gt)
  | .infinite a, .finite _ _ _ => some (if a then .lt else .gt)
  | .finite _ _ _, .infinite b => some (if b then .gt else .lt)
  | .finite a m e, .finite b n k =>
    let low := min e k
    some (Ord.compare (shifted a m e low) (shifted b n k low))

end Exact

namespace Binary

variable {f : Format}

def neg (x : Binary f) : Binary f :=
  ⟨x.bits ^^^ BitVec.ofNat f.width f.signBit⟩

/-- An exact sum of zero is positive unless both operands are negative. -/
def add (x y : Binary f) : Binary f :=
  match x.exact, y.exact with
  | .nan, _ => nan
  | _, .nan => nan
  | .infinite a, .infinite b => if a = b then infinite a else nan
  | .infinite a, .finite _ _ _ => infinite a
  | .finite _ _ _, .infinite b => infinite b
  | .finite a m e, .finite b n k =>
    let low := min e k
    let sum := Exact.shifted a m e low + Exact.shifted b n k low
    if sum = 0 then zero (a && b) else ofDyadic (decide (sum < 0)) sum.natAbs low

def sub (x y : Binary f) : Binary f := add x (neg y)

/-- The remainder of truncated division; it has the sign of the dividend. -/
def rem (x y : Binary f) : Binary f :=
  match x.exact, y.exact with
  | .nan, _ => nan
  | _, .nan => nan
  | .infinite _, _ => nan
  | .finite _ _ _, .infinite _ => x
  | .finite a m e, .finite _ n k =>
    if n = 0 then nan
    else
      let low := min e k
      ofDyadic a (m * Nat.pow 2 (e - low).toNat % (n * Nat.pow 2 (k - low).toNat)) low

def compare (x y : Binary f) : Option Ordering := Exact.compare x.exact y.exact

/-- Equality of values: the two zeros are equal, and what is not a number differs from itself. -/
def equal (x y : Binary f) : Bool := compare x y == some .eq

def isZero (x : Binary f) : Bool := equal x (zero false)

end Binary

end GuardCode
