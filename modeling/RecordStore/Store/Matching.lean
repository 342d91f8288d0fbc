import RecordStore.Predicate.Basic
import RecordStore.Store.Comparison
import RecordStore.Table.Basic
import RecordStore.Text.Pattern

/-!
# Rows that satisfy a predicate

A comparison is evaluated on the cell of its column. A null cell satisfies no comparison but those
with null itself; a cell that cannot be compared with the value satisfies none but inequality.
-/

namespace RecordStore

/-- The type of a named column; an unknown column is a document. -/
def typeIn (columns : List Column) (name : String) : ColumnType :=
  ((columns.find? (·.name == name)).map Column.type).getD .json

namespace Operator

/-- Whether a text satisfies a pattern, or a beginning, as the operator reads it. -/
def acceptsText (op : Operator) (pattern text : String) : Bool :=
  match op with
  | .like => Text.Pattern.matchesExactly pattern text
  | .ilike => Text.Pattern.matchesAnyCase pattern text
  | .startsWith => pattern.toList.isPrefixOf text.toList
  | _ => false

/-- Whether a cell that is not null satisfies the comparison with a value. -/
def holds (op : Operator) (type : ColumnType) (cell v : Value) : Bool :=
  match op with
  | .eq => type.equal cell v
  | .ne => !type.equal cell v
  | .lt => type.compare? cell v == some .lt
  | .lte => type.compare? cell v == some .lt || type.compare? cell v == some .eq
  | .gt => type.compare? cell v == some .gt
  | .gte => type.compare? cell v == some .gt || type.compare? cell v == some .eq
  | .isIn =>
    match v with
    | .array items => items.any (type.equal cell)
    | _ => false
  | .like | .ilike | .startsWith =>
    match cell, v with
    | .string text, .string pattern => op.acceptsText pattern text
    | _, _ => false

/-- Whether a cell satisfies the comparison with a value. -/
def accepts (op : Operator) (type : ColumnType) (cell v : Value) : Bool :=
  match op, v with
  | .eq, .null => cell.isNull
  | .ne, .null => !cell.isNull
  | op, v => !cell.isNull && op.holds type cell v

end Operator

mutual

/-- Whether a row satisfies a predicate. -/
def Predicate.holds (columns : List Column) (row : Record) : Predicate → Bool
  | .compare column op v => op.accepts (typeIn columns column) (row.cell column) v
  | .and ps => Predicate.allHold columns row ps

def Predicate.allHold (columns : List Column) (row : Record) : List Predicate → Bool
  | [] => true
  | p :: ps => p.holds columns row && Predicate.allHold columns row ps

end

namespace Predicate

theorem allHold_eq_all (columns : List Column) (row : Record) (ps : List Predicate) :
    allHold columns row ps = ps.all (holds columns row) := by
  induction ps with
  | nil => rfl
  | cons p ps ih => rw [allHold, ih, List.all_cons]

/-- A conjunction holds when all its parts do. -/
theorem holds_and (columns : List Column) (row : Record) (ps : List Predicate) :
    holds columns row (and ps) = ps.all (holds columns row) := by
  rw [holds, allHold_eq_all]

end Predicate

end RecordStore
