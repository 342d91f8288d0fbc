import RecordStore.Text.Identifier

/-!
# Integers as text

Digits of the ASCII range, read as a natural number, and whole numbers with an optional sign. A
sign without digits is no number; leading zeros are allowed.
-/

namespace RecordStore.Text

/-- The number that a run of decimal digits writes. -/
def digitsValue (cs : List Char) : Nat := Nat.ofDigitChars 10 cs 0

/-- The number that the characters write, when they are digits and at least one of them. -/
def natural? (cs : List Char) : Option Nat :=
  if cs.isEmpty then none
  else if cs.all isDigit then some (digitsValue cs)
  else none

/-- A whole number, with an optional plus or minus sign. -/
def integer? : List Char → Option Int
  | '+' :: digits => (natural? digits).map Int.ofNat
  | '-' :: digits => (natural? digits).map fun n => -(n : Int)
  | digits => (natural? digits).map Int.ofNat

/-- A natural number, with an optional plus sign. -/
def unsigned? : List Char → Option Nat
  | '+' :: digits => natural? digits
  | digits => natural? digits

/-- The decimal digits of a number, without leading zeros. -/
def digitsOf (n : Nat) : List Char := Nat.toDigits 10 n

/-- The digits of a number, with zeros in front up to the given width. -/
def padded (width n : Nat) : List Char :=
  let digits := digitsOf n
  List.replicate (width - digits.length) '0' ++ digits

/-- The text of a whole number. -/
def ofInteger (n : Int) : List Char :=
  if n < 0 then '-' :: digitsOf n.natAbs else digitsOf n.natAbs

end RecordStore.Text
