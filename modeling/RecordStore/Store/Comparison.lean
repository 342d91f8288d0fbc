import RecordStore.Table.ColumnType

/-!
# Comparing cells

How two values of a column compare: whole numbers exactly, numbers of which one is a double as
doubles, dates by their points in time, other text by its characters, and `false` before `true`.
Values that these rules do not cover are not comparable.

A document column knows no order, only equality of values; in every other column, equality is to
compare as equal.
-/

namespace RecordStore.ColumnType

/-- How two numbers compare. -/
def compareNumbers? (a b : Value) : Option Ordering :=
  match a.integer?, b.integer? with
  | some m, some n => some (compare m n)
  | _, _ =>
    match a.double?, b.double? with
    | some x, some y => some (compare x y)
    | _, _ => none

/-- How two values of a column compare, neither of them null. -/
def compare? (type : ColumnType) (a b : Value) : Option Ordering :=
  match a, b with
  | .string s, .string t =>
    if type = .datetime then
      match a.instant?, b.instant? with
      | some i, some j => some (compare i j)
      | _, _ => none
    else some (compare s t)
  | .bool p, .bool q => some (compare p q)
  | a, b => compareNumbers? a b

/-- Whether two values of a column are equal, neither of them null. -/
def equal (type : ColumnType) (a b : Value) : Bool :=
  if type = .json then a.same b else type.compare? a b == some .eq

end RecordStore.ColumnType
