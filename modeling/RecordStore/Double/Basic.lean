/-!
# Double-precision numbers

The finite numbers of the binary64 format: a sign, a mantissa of at most 53 bits and an exponent,
counted from the smallest positive number `2 ^ -1074`. Every magnitude has one mantissa and one
exponent (`normal`), so two numbers of one sign are the same number only when they are equal.

Numbers are ordered through `scaled`, their value in units of the smallest positive number, which is
a whole number; the two zeros compare as equal.
-/

namespace RecordStore

/-- A finite binary64 number, `± mantissa · 2 ^ exponent` in units of `2 ^ -1074`. -/
structure Double where
  negative : Bool
  mantissa : Nat
  exponent : Nat
  mantissa_lt : mantissa < Nat.pow 2 53
  exponent_le : exponent ≤ 2045
  normal : Nat.pow 2 52 ≤ mantissa ∨ exponent = 0
deriving DecidableEq

namespace Double

/-- The magnitude in units of `2 ^ -1074`. -/
def units (x : Double) : Nat := x.mantissa * Nat.pow 2 x.exponent

/-- The value in units of `2 ^ -1074`. -/
def scaled (x : Double) : Int := if x.negative then -(x.units : Int) else x.units

instance : Ord Double := ⟨fun a b => compare a.scaled b.scaled⟩

def zero (negative : Bool) : Double := ⟨negative, 0, 0, by decide, by decide, .inr rfl⟩

instance : Inhabited Double := ⟨zero false⟩

/-- The number, of the two zeros the positive one. -/
def withoutZeroSign (x : Double) : Double := if x.mantissa = 0 then zero false else x

/-- The number of the greatest magnitude. -/
def largest (negative : Bool) : Double :=
  ⟨negative, Nat.pow 2 53 - 1, 2045, by decide, by decide, .inl (by decide)⟩

/-- The number with the given parts, if they are those of a number. -/
def ofParts? (negative : Bool) (mantissa exponent : Nat) : Option Double :=
  if h : mantissa < Nat.pow 2 53 ∧ exponent ≤ 2045 ∧ (Nat.pow 2 52 ≤ mantissa ∨ exponent = 0) then
    some ⟨negative, mantissa, exponent, h.1, h.2.1, h.2.2⟩
  else none

end Double

end RecordStore
