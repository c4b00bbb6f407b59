/-!
# The size of numbers

A number with a fraction, an exponent or many digits is taken as a double: as the product of its
first digits, as many as fit in 64 bits, and a power of ten. Both factors are rounded before they
are multiplied, and so is the product. A number close to the largest double can thus be too large
although the nearest double is finite.
-/

namespace Accumulator.Json

/-- Append a decimal digit to a number. -/
def appendDigit (n : Nat) (digit : Char) : Nat :=
  10 * n + (digit.toNat - '0'.toNat)

/-- The number that decimal digits write. -/
def ofDigits (digits : List Char) : Nat :=
  digits.foldl appendDigit 0

/-- The nearest number of 53 significant bits. Of two that are equally near, the even one. -/
def roundToDouble (n : Nat) : Nat :=
  let unit := 1 <<< (n.log2 + 1 - 53)
  let quotient := n / unit
  let rest := 2 * (n % unit)
  if unit < rest || (unit = rest && quotient % 2 = 1) then (quotient + 1) * unit
  else quotient * unit

/-- A number as digits and a power of ten. -/
structure Decimal where
  significand : Nat
  exponent : Int
  deriving DecidableEq

namespace Decimal

/-- Append digits to a number up to the first that does not fit in 64 bits; the others are left. -/
def fill (n : Nat) : List Char → Nat × List Char
  | [] => (n, [])
  | c :: cs => if appendDigit n c < 2 ^ 64 then fill (appendDigit n c) cs else (n, c :: cs)

/-- The number of the digits before and after a point, and an exponent. A digit before the point
that does not fit counts as a place; one after it does not count. -/
def ofParts (whole fraction : List Char) (exponent : Int) : Decimal :=
  let (n, wholeLeft) := fill 0 whole
  let (significand, fractionLeft) := fill n fraction
  let places := fraction.length - fractionLeft.length
  { significand, exponent := exponent + wholeLeft.length - places }

/-- The largest power of ten that is a double. -/
def maxExponent : Nat := 308

/-- The number is infinite as a double: 2^1024 or more. -/
def isTooLarge (d : Decimal) : Bool :=
  if d.significand = 0 || d.exponent < 0 then false
  else if maxExponent < d.exponent then true
  else
    let power := roundToDouble (Nat.pow 10 d.exponent.toNat)
    1 <<< 1024 ≤ roundToDouble (roundToDouble d.significand * power)

end Decimal

end Accumulator.Json
