import RecordStore.Double.Basic

/-!
# Rounding to the nearest double

A quotient of natural numbers is rounded to the nearest double, a tie going to the even mantissa.
Magnitudes beyond the largest double have none. Whole numbers and decimal numbers are rounded
through the quotient they are equal to, so each is rounded once.
-/

namespace RecordStore

/-- The natural number nearest to `num / den`; a tie goes to the even one. -/
def roundHalfEven (num den : Nat) : Nat :=
  let quotient := num / den
  let twice := 2 * (num % den)
  if twice < den then quotient
  else if den < twice then quotient + 1
  else if quotient % 2 = 0 then quotient
  else quotient + 1

/-- A decimal number `digits · 10 ^ exponent`. -/
structure Decimal where
  digits : Nat
  exponent : Int
deriving DecidableEq

namespace Double

/-- The smallest positive double is `1 / unitsPerOne`. -/
def unitsPerOne : Nat := Nat.pow 2 1074

/-- The double nearest to `num / den` units. The exponent leaves a mantissa of 53 bits, except below
the smallest normal number; a mantissa that rounds up to 54 bits is halved. -/
def ofUnits (negative : Bool) (num den : Nat) : Option Double :=
  let exponent := (num / den).log2 - 52
  let mantissa := roundHalfEven num (den * Nat.pow 2 exponent)
  if mantissa < Nat.pow 2 53 then ofParts? negative mantissa exponent
  else ofParts? negative (mantissa / 2) (exponent + 1)

/-- The double nearest to a whole number; beyond the largest double it is the largest. -/
def ofInt (n : Int) : Double :=
  (ofUnits (n < 0) (n.natAbs * unitsPerOne) 1).getD (largest (n < 0))

/-- The double nearest to a decimal number, if it does not overflow. Exponents far outside the range
of doubles are decided without computing the power. -/
def ofDecimal (negative : Bool) (d : Decimal) : Option Double :=
  if d.digits = 0 then some (zero negative)
  else if 400 < d.exponent then none
  else if (d.digits.log2 : Int) + 3 * d.exponent < -1100 then some (zero negative)
  else if 0 ≤ d.exponent then
    ofUnits negative (d.digits * Nat.pow 10 d.exponent.toNat * unitsPerOne) 1
  else
    ofUnits negative (d.digits * unitsPerOne) (Nat.pow 10 (-d.exponent).toNat)

end Double

end RecordStore
