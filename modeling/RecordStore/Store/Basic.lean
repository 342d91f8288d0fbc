import RecordStore.Store.Order

/-!
# Stored tables

A store holds tables by name. A stored table has the columns with which it was created, its rows in
the order in which they were inserted, and the next number for a generated key.
-/

namespace RecordStore

structure StoredTable where
  columns : List Column
  rows : List Record := []
  nextId : Int := 1

structure Store where
  tables : NameMap StoredTable := {}

namespace StoredTable

/-- The rows that satisfy a predicate, in the order of the table. -/
def matching (t : StoredTable) (p : Predicate) : List Record := t.rows.filter (p.holds t.columns)

/-- The places of the rows that satisfy a predicate. -/
def places (t : StoredTable) (p : Predicate) : List Nat :=
  (t.rows.zipIdx.filter fun row => p.holds t.columns row.1).map Prod.snd

/-- A row cut to some of its columns. -/
def cut (columns : List String) (row : Record) : Record :=
  .ofList (columns.map fun name => (name, row.cell name))

/-- A part of a list, for a limit and a number of items before it. -/
def window {α : Type} (limit : Option Nat) (offset : Nat) (items : List α) : List α :=
  match limit with
  | some n => (items.drop offset).take n
  | none => items.drop offset

/-- The rows of a plan. -/
def select (t : StoredTable) (plan : Plan) : List Record :=
  (window plan.limit plan.offset (sortRows t.columns plan.order (t.matching plan.predicate))).map
    (cut plan.columns)

end StoredTable

namespace Store

/-- Create a table, unless there is one of its name. -/
def create (s : Store) (table : Table) : Store :=
  if s.tables.contains table.name then s
  else ⟨s.tables.insert table.name { columns := table.columns }⟩

/-- The rows of a table, none if it does not exist. -/
def rows (s : Store) (table : String) : List Record :=
  ((s.tables.get? table).map StoredTable.rows).getD []

/-- The stored table of a name. -/
def table (s : Store) (name : String) : Except StorageError StoredTable :=
  match s.tables.get? name with
  | some t => .ok t
  | none => .error (.unknownTable name)

def put (s : Store) (name : String) (t : StoredTable) : Store := ⟨s.tables.insert name t⟩

end Store

end RecordStore
