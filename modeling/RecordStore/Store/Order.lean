import RecordStore.Plan.Basic
import RecordStore.Store.Matching

/-!
# The order of rows

Rows are ordered by the keys of a plan, the first key that tells them apart deciding. Null comes
after all values where a key ascends and before them where it descends; cells that cannot be
compared count as equal. The sort keeps rows that no key tells apart in the order in which they
were.

The values of a column are in a total order unless it is one of documents, and every sort that keeps
equal rows as they were has the same outcome then. Documents have none: a number and a text count as
equal, and this equality is not transitive. That the sort returns there, too, and leaves the rows in
the order of an insertion sort, is an assumption, on which no theorem about the order of rows rests.
-/

namespace RecordStore

/-- How two cells compare where a key ascends. -/
def compareCells (type : ColumnType) (a b : Value) : Ordering :=
  if a.isNull then (if b.isNull then .eq else .gt)
  else if b.isNull then .lt
  else (type.compare? a b).getD .eq

namespace SortKey

/-- How two rows compare by one key. -/
def compareRows (columns : List Column) (key : SortKey) (a b : Record) : Ordering :=
  let ascending := compareCells (typeIn columns key.column) (a.cell key.column) (b.cell key.column)
  match key.direction with
  | .asc => ascending
  | .desc => ascending.swap

end SortKey

/-- How two rows compare by several keys. -/
def compareRows (columns : List Column) (keys : List SortKey) (a b : Record) : Ordering :=
  match keys with
  | [] => .eq
  | key :: rest => (key.compareRows columns a b).then (compareRows columns rest a b)

/-- Put a row behind those that do not come after it, where the rows stand from the last to the
first. -/
def insertRow (columns : List Column) (keys : List SortKey) (row : Record) :
    List Record → List Record
  | [] => [row]
  | last :: before =>
    if compareRows columns keys row last = .lt then last :: insertRow columns keys row before
    else row :: last :: before

/-- The rows in the order of the keys, taken up one after the other. -/
def sortRows (columns : List Column) (keys : List SortKey) (rows : List Record) : List Record :=
  (rows.foldl (fun sorted row => insertRow columns keys row sorted) []).reverse

/-! ## Sorting loses nothing -/

theorem perm_insertRow (columns : List Column) (keys : List SortKey) (row : Record)
    (sorted : List Record) : (insertRow columns keys row sorted).Perm (row :: sorted) := by
  induction sorted with
  | nil => exact .refl _
  | cons last before ih =>
    unfold insertRow
    split
    · exact (ih.cons last).trans (.swap row last before)
    · exact .refl _

theorem perm_foldl_insertRow (columns : List Column) (keys : List SortKey)
    (rows sorted : List Record) :
    (rows.foldl (fun sorted row => insertRow columns keys row sorted) sorted).Perm
      (rows ++ sorted) := by
  induction rows generalizing sorted with
  | nil => exact .refl _
  | cons row rest ih =>
    have step := (perm_insertRow columns keys row sorted).append_left rest
    exact (ih (insertRow columns keys row sorted)).trans (step.trans List.perm_middle)

/-- The sorted rows are the given ones. -/
theorem perm_sortRows (columns : List Column) (keys : List SortKey) (rows : List Record) :
    (sortRows columns keys rows).Perm rows := by
  have folded := perm_foldl_insertRow columns keys rows []
  rw [List.append_nil] at folded
  exact (List.reverse_perm _).trans folded

end RecordStore
