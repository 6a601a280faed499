/-!
# Decimal numbers and their written form

A decimal is a natural number scaled by a power of ten. It is written positionally, with at least
one digit on either side of the point, when its leading digit stands from `10⁻⁴` up to `10¹⁵`.
Outside that range it is written as a number with one digit before the point and a signed exponent
of at least two digits.
-/

namespace Reckoner

/-- The number `digits * 10 ^ exponent`. -/
structure Decimal where
  digits : Nat
  exponent : Int
deriving DecidableEq, Repr

namespace Decimal

/-- The digits of a natural number in base ten. -/
def digitChars (n : Nat) : List Char :=
  Nat.toDigits 10 n

/-- Digits with a point in its place, and zeros where the digits do not reach the point. -/
def positional (digits : List Char) (exponent : Int) : List Char :=
  let places := (-exponent).toNat
  let padded := List.replicate (places + 1 - digits.length) '0' ++ digits
  let whole := padded.take (padded.length - places) ++ List.replicate exponent.toNat '0'
  let fraction := padded.drop (padded.length - places)
  whole ++ '.' :: (if fraction.isEmpty then ['0'] else fraction)

/-- One digit, the other digits behind a point, and the exponent of the leading digit. -/
def scientific (digits : List Char) (leading : Int) : List Char :=
  let mantissa := match digits with
    | first :: second :: rest => first :: '.' :: second :: rest
    | short => short
  let size := digitChars leading.natAbs
  mantissa ++ 'e' :: (if leading < 0 then '-' else '+') ::
    (List.replicate (2 - size.length) '0' ++ size)

/-- The written form. -/
def chars (d : Decimal) : List Char :=
  let digits := digitChars d.digits
  let leading := d.exponent + digits.length - 1
  if -4 ≤ leading ∧ leading < 16 then positional digits d.exponent else scientific digits leading

end Decimal

end Reckoner
