import RecordStore.Double.Shortest

/-!
# Writing doubles

A double is written with the digits of its shortest decimal number. Numbers from `0.00001` up to but
not including `10 ^ 16` are written with a decimal point and at least one digit on either side of
it, all others with a signed exponent: `100.0`, `0.00001`, `1.5e+16`, `1e-6`. The zeros are `0.0`
and `-0.0`.
-/

namespace RecordStore

namespace Decimal

/-- The digits without the zeros at their end; zero keeps one. -/
def significant (d : Decimal) : List Char :=
  match ((Nat.toDigits 10 d.digits).reverse.dropWhile (· == '0')).reverse with
  | [] => ['0']
  | ds => ds

/-- The place of the decimal point, counted from the front of the digits. -/
def point (d : Decimal) : Int := (Nat.toDigits 10 d.digits).length + d.exponent

end Decimal

namespace Double

/-- The points for which a number is written without an exponent. -/
def isPositional (point : Int) : Bool := -5 < point && point ≤ 16

/-- Digits with the decimal point at the given place, filled up with zeros. -/
def positional (ds : List Char) (point : Int) : List Char :=
  if point ≤ 0 then
    ['0', '.'] ++ List.replicate (-point).toNat '0' ++ ds
  else
    let n := point.toNat
    if ds.length ≤ n then ds ++ List.replicate (n - ds.length) '0' ++ ['.', '0']
    else ds.take n ++ ['.'] ++ ds.drop n

/-- Digits with the decimal point after the first one, and an exponent with its sign. -/
def scientific (ds : List Char) (exponent : Int) : List Char :=
  let mantissa := match ds with
    | [] => []
    | [d] => [d]
    | d :: rest => d :: '.' :: rest
  let sign := if exponent < 0 then '-' else '+'
  mantissa ++ 'e' :: sign :: Nat.toDigits 10 exponent.natAbs

/-- The text of a magnitude. -/
def magnitudeText (d : Decimal) : List Char :=
  if d.digits = 0 then ['0', '.', '0']
  else if isPositional d.point then positional d.significant d.point
  else scientific d.significant (d.point - 1)

/-- The text of a double. -/
def text (x : Double) : String :=
  String.ofList (if x.negative then '-' :: magnitudeText x.shortest else magnitudeText x.shortest)

end Double

end RecordStore
