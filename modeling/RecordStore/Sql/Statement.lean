import RecordStore.Plan.Basic
import RecordStore.Sql.Condition

/-!
# Statements

Reading, counting, inserting, changing and removing the rows of a table, as text with places for
parameters. What a statement says about columns, order and page is in its text; every value is a
parameter. Values are listed in the order of the table's columns, assignments in that of the record.
-/

namespace RecordStore.Sql

structure Statement where
  text : List Piece
  params : List Bind

/-- The text of a statement. -/
def Statement.sql (s : Statement) : String := render s.text

/-- The statement of a step that starts without parameters. -/
def build (step : Binding (List Piece)) : Except StorageError Statement :=
  (step.run []).map fun (text, params) => ⟨text, params⟩

/-- The clause for a predicate; one that holds of every row has none. -/
def whereClause (table : Table) (p : Predicate) : Binding (List Piece) :=
  if p.isAlways then return []
  else do
    let condition ← Condition.ofPredicate table p
    return .word " WHERE " :: condition.pieces

def directionWord : SortDirection → String
  | .asc => " ASC"
  | .desc => " DESC"

def orderClause (keys : List SortKey) : List Piece :=
  if keys.isEmpty then []
  else .word " ORDER BY " ::
    joined ", " (keys.map fun k => [.name k.column, .word (directionWord k.direction)])

def limitClause (limit : Option Nat) : List Piece :=
  match limit with
  | some n => [.word " LIMIT ", .number (toString n)]
  | none => []

def offsetClause (offset : Nat) : List Piece :=
  if offset = 0 then [] else [.word " OFFSET ", .number (toString offset)]

/-- Read the rows of a plan. -/
def select (schema : String) (plan : Plan) : Except StorageError Statement := build do
  let columns ← plan.columns.mapM fun name => (columnOf plan.table name : Except _ _)
  let condition ← whereClause plan.table plan.predicate
  return [.word "SELECT "] ++ joined ", " (columns.map fun c => [.name c.name])
    ++ [.word " FROM "] ++ qualified schema plan.table.name ++ condition
    ++ orderClause plan.order ++ limitClause plan.limit ++ offsetClause plan.offset

/-- Count the rows that satisfy a predicate. -/
def count (schema : String) (table : Table) (p : Predicate) :
    Except StorageError Statement := build do
  let condition ← whereClause table p
  return [.word "SELECT COUNT(*) FROM "] ++ qualified schema table.name ++ condition

/-- The parameter for a column of a record, if the record has the column. -/
def columnValue (r : Record) (c : Column) : Binding (Option (Column × Nat)) :=
  match r.get? c.name with
  | none => return none
  | some v => do
    let place ← push (← Bind.ofValue c.name c.type v)
    return some (c, place)

/-- The columns of a record with the places of their values, in the order of the table. -/
def valuesOf (table : Table) (r : Record) : Binding (List (Column × Nat)) := do
  r.keys.forM fun name => discard (columnOf table name : Except _ _)
  let values ← table.columns.mapM (columnValue r)
  return values.filterMap id

def columnList (values : List (Column × Nat)) : List Piece :=
  joined ", " (values.map fun v => [.name v.1.name])

def placeList (values : List (Column × Nat)) : List Piece :=
  joined ", " (values.map fun v => [.placeholder v.2])

/-- Insert a row and return its key; the columns that the record lacks take their defaults. -/
def insert (schema : String) (table : Table) (r : Record) :
    Except StorageError Statement := build do
  let values ← valuesOf table r
  let into := [.word "INSERT INTO "] ++ qualified schema table.name
  let returning := [.word " RETURNING ", .name table.primaryKey]
  if values.isEmpty then return into ++ [.word " DEFAULT VALUES"] ++ returning
  else
    return into ++ [.word " ("] ++ columnList values ++ [.word ") VALUES ("] ++ placeList values
      ++ [.word ")"] ++ returning

/-- What an insertion does when the key is there already. -/
def conflictClause (assigned : List String) : List Piece :=
  if assigned.isEmpty then [.word "DO NOTHING"]
  else .word "DO UPDATE SET " ::
    joined ", " (assigned.map fun name => [.name name, .word " = EXCLUDED.", .name name])

/-- Insert a row, or overwrite the columns of the row with its key. -/
def upsert (schema : String) (table : Table) (r : Record) : Except StorageError Statement :=
  if !r.contains table.primaryKey then .error (.encode table.primaryKey .keyMissing)
  else build do
    let values ← valuesOf table r
    let assigned := (values.map (·.1.name)).filter (· != table.primaryKey)
    return [.word "INSERT INTO "] ++ qualified schema table.name ++ [.word " ("]
      ++ columnList values ++ [.word ") VALUES ("] ++ placeList values ++ [.word ") ON CONFLICT ("]
      ++ [.name table.primaryKey, .word ") "] ++ conflictClause assigned

/-- The assignment of one entry of a record. -/
def assignment (table : Table) (entry : String × Value) : Binding (List Piece) := do
  let c ← (columnOf table entry.1 : Except _ _)
  let place ← push (← Bind.ofValue c.name c.type entry.2)
  return [.name c.name, .word " = ", .placeholder place]

/-- Assign the entries of a record to the rows that satisfy a predicate. -/
def update (schema : String) (table : Table) (p : Predicate) (r : Record) :
    Except StorageError Statement :=
  if r.isEmpty then .error (.encode table.primaryKey .noAssignments)
  else build do
    let assignments ← r.entries.mapM (assignment table)
    let condition ← whereClause table p
    return [.word "UPDATE "] ++ qualified schema table.name ++ [.word " SET "]
      ++ joined ", " assignments ++ condition

/-- Remove the rows that satisfy a predicate. -/
def delete (schema : String) (table : Table) (p : Predicate) :
    Except StorageError Statement := build do
  let condition ← whereClause table p
  return [.word "DELETE FROM "] ++ qualified schema table.name ++ condition

end RecordStore.Sql
