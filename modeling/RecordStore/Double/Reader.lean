import RecordStore.Double.Rounding
import RecordStore.Text.Integer

/-!
# Reading doubles

A number in text is an optional sign, digits with at most one decimal point among, before or after
them, and an optional exponent with a sign of its own: `+.5`, `5.`, `1E-2`. It is read as the
nearest double; a number beyond the largest double is not read, nor are the names of infinities.
-/

namespace RecordStore

open Text

namespace Decimal

/-- The decimal number with the given digits before and after the point, times a power of ten. -/
def ofDigits (whole fraction : List Char) (exponent : Int) : Decimal :=
  ⟨digitsValue (whole ++ fraction), exponent - fraction.length⟩

/-- The exponent at the end of a number: nothing, or a mark and a whole number. -/
def readExponent : List Char → Option Int
  | [] => some 0
  | mark :: digits => if mark == 'e' || mark == 'E' then integer? digits else none

/-- A number without a sign. -/
def read (cs : List Char) : Option Decimal :=
  let whole := cs.takeWhile isDigit
  match cs.dropWhile isDigit with
  | '.' :: rest =>
    let fraction := rest.takeWhile isDigit
    if whole.isEmpty && fraction.isEmpty then none
    else (readExponent (rest.dropWhile isDigit)).map (ofDigits whole fraction)
  | rest =>
    if whole.isEmpty then none
    else (readExponent rest).map (ofDigits whole [])

end Decimal

namespace Double

/-- The double that the characters write. -/
def read : List Char → Option Double
  | '+' :: rest => (Decimal.read rest).bind (ofDecimal false)
  | '-' :: rest => (Decimal.read rest).bind (ofDecimal true)
  | cs => (Decimal.read cs).bind (ofDecimal false)

end Double

end RecordStore
