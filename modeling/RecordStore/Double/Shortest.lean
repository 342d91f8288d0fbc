import RecordStore.Double.Rounding

/-!
# The shortest decimal number that reads back

Among the decimal numbers that round to a given double, the one with the fewest digits, and of
several with as few digits the nearest to the double.

A double is `units / 2 ^ 1074`, which is the decimal number `units · 5 ^ 1074 · 10 ^ -1074`. Its
first digits, for 1, 2, … 17 digits, give the two neighbours of the double on the grid of that many
digits; the first grid with a neighbour that reads back wins. The full expansion, which reads back
in any case, stands at the end of the search.
-/

namespace RecordStore.Double

/-- The decimal number that a magnitude is exactly. -/
def exact (x : Double) : Decimal := ⟨x.units * Nat.pow 5 1074, -1074⟩

/-- Whether a decimal number rounds to the given double. -/
def readsBack (x : Double) (d : Decimal) : Bool := ofDecimal x.negative d == some x

/-- The neighbours of `digits · 10 ^ -1074` among the numbers with `dropped` digits fewer, the
nearer one first; of two as near, the even one comes first. -/
def neighbours (digits dropped : Nat) : List Decimal :=
  let grid := Nat.pow 10 dropped
  let below := digits / grid
  let rest := digits % grid
  let exponent : Int := (dropped : Int) - 1074
  if 2 * rest < grid ∨ (2 * rest = grid ∧ below % 2 = 0) then
    [⟨below, exponent⟩, ⟨below + 1, exponent⟩]
  else
    [⟨below + 1, exponent⟩, ⟨below, exponent⟩]

/-- The most digits that a double may need. -/
def maxDigits : Nat := 17

/-- The candidates of 1, 2, … 17 digits. -/
def candidates (x : Double) : List Decimal :=
  let digits := x.exact.digits
  let count := (Nat.toDigits 10 digits).length
  (List.range maxDigits).flatMap fun n => neighbours digits (count - (n + 1))

/-- The shortest decimal number that reads back as the magnitude of a double. -/
def shortest (x : Double) : Decimal :=
  if x.mantissa = 0 then ⟨0, 0⟩
  else (x.candidates.find? x.readsBack).getD x.exact

end RecordStore.Double
