/-! Binary floating-point numbers of any format, kept as their bit patterns. A pattern is a sign
bit, a biased exponent and a fraction, and stands for an exact value; every number that an
operation makes passes through `Binary.ofRatio`, which rounds a quotient to the nearest pattern and
a tie to the even one. -/
namespace GuardCode

/-- The sizes of a format: significant bits (the leading one counted) and bits of the exponent. -/
structure Format where
  precision : Nat
  exponentBits : Nat
  deriving DecidableEq

namespace Format

def single : Format := ⟨24, 8⟩
def double : Format := ⟨53, 11⟩

/-- Bits of a pattern, the sign included. -/
def width (f : Format) : Nat := f.exponentBits + f.precision

/-- Patterns that share an exponent. -/
def binade (f : Format) : Nat := Nat.pow 2 (f.precision - 1)

/-- Values of the exponent field; the last of them is for what is not finite. -/
def exponents (f : Format) : Nat := Nat.pow 2 f.exponentBits

/-- Exponent of the last place of the smallest numbers. -/
def leastExponent (f : Format) : Int := 3 - Nat.pow 2 (f.exponentBits - 1) - f.precision

/-- The unsigned pattern of infinity; those above it are not numbers. -/
def infinity (f : Format) : Nat := (f.exponents - 1) * f.binade

/-- The bit that makes a pattern negative, by its value. -/
def signBit (f : Format) : Nat := Nat.pow 2 (f.width - 1)

end Format

structure Binary (f : Format) where
  bits : BitVec f.width
  deriving DecidableEq

abbrev Single := Binary .single
abbrev Double := Binary .double

/-- What a pattern stands for; a finite value is its mantissa times two to its exponent. -/
inductive Exact where
  | nan
  | infinite (negative : Bool)
  | finite (negative : Bool) (mantissa : Nat) (exponent : Int)
  deriving DecidableEq

namespace Binary

variable {f : Format}

def exact (x : Binary f) : Exact :=
  let n := x.bits.toNat
  let fraction := n % f.binade
  let biased := n / f.binade % f.exponents
  let negative := decide (f.signBit ≤ n)
  if biased = f.exponents - 1 then
    if fraction = 0 then .infinite negative else .nan
  else if biased = 0 then .finite negative fraction f.leastExponent
  else .finite negative (fraction + f.binade) (f.leastExponent + biased - 1)

/-- The pattern with the given sign and unsigned part. -/
def signed (negative : Bool) (magnitude : Nat) : Binary f :=
  ⟨BitVec.ofNat f.width (if negative then f.signBit + magnitude else magnitude)⟩

def zero (negative : Bool) : Binary f := signed negative 0
def infinite (negative : Bool) : Binary f := signed negative f.infinity
def nan : Binary f := signed false (f.infinity + f.binade / 2)

/-- The quotient rounded to the nearest integer, a tie to the even one. -/
def roundDiv (n d : Nat) : Nat :=
  let q := n / d
  let r := n % d
  if 2 * r < d then q else if d < 2 * r then q + 1 else q + q % 2

/-- The quotient `num / den` divided by two to the given power, as a quotient. -/
def scale (num den : Nat) (exponent : Int) : Nat × Nat :=
  if 0 ≤ exponent then (num, den * Nat.pow 2 exponent.toNat)
  else (num * Nat.pow 2 (-exponent).toNat, den)

/-- Exponent of the greatest power of two that is at most the quotient. -/
def floorLog2 (num den : Nat) : Int :=
  let guess : Int := (num.log2 : Int) - den.log2
  let (n, d) := scale num den guess
  if n < d then guess - 1 else guess

/-- The number nearest to a quotient. The exponent of the last place counts the binades below, so
a mantissa that rounds up to the next power of two carries into the exponent, and past the
greatest finite number into infinity. -/
def ofRatio (negative : Bool) (num den : Nat) : Binary f :=
  if num = 0 then zero negative
  else
    let exponent := max f.leastExponent (floorLog2 num den - (f.precision - 1 : Nat))
    let (n, d) := scale num den exponent
    signed negative
      (min f.infinity ((exponent - f.leastExponent).toNat * f.binade + roundDiv n d))

/-- The number nearest to a mantissa times a power of two. -/
def ofDyadic (negative : Bool) (mantissa : Nat) (exponent : Int) : Binary f :=
  ofRatio negative (mantissa * Nat.pow 2 exponent.toNat) (Nat.pow 2 (-exponent).toNat)

def ofInt (n : Int) : Binary f := ofRatio (decide (n < 0)) n.natAbs 1

/-- The nearest number of another format. -/
def convert {g : Format} (x : Binary f) : Binary g :=
  match x.exact with
  | .nan => nan
  | .infinite negative => infinite negative
  | .finite negative mantissa exponent => ofDyadic negative mantissa exponent

end Binary

end GuardCode
