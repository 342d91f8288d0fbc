import RecordStore.Store.Basic

/-!
# New and changed rows

How a record becomes a row, and the rules that a row must keep before it may stand in its table:

* a column that takes no null, and the key, holds a value;
* the value of a unique column, and of the key, is in no other row;
* the value of a column that points at another table is in that table;
* no other row has the same values in all columns of a group that is unique together.

The columns are looked at in order, each for all its rules, and the groups at the end.
-/

namespace RecordStore

namespace StoredTable

/-- Fail if a record has a column that the table has not. -/
def checkColumns (t : StoredTable) (record : Record) : Except Violation Unit :=
  match record.keys.find? fun name => !t.columns.any (·.name == name) with
  | some name => .error (.unknownColumn name)
  | none => .ok ()

/-- The value with which a column that a record lacks is filled: the next number, the default, the
current time, or null. -/
def filling (now : Value) (nextId : Int) (c : Column) : Value :=
  if c.autoIncrement then .int nextId
  else c.default?.getD (if c.defaultNow then now else .null)

/-- The number that comes after another one of 64 bits; after the greatest comes the least. -/
def successor (n : Int) : Int := (n + 1).bmod (Nat.pow 2 64)

/-- The next number after a column of generated numbers: past the one that was just used up, or, if
that is more, past the one that the record gave. -/
def numberAfter (nextId : Int) (given : Option Value) : Int :=
  match given with
  | none => successor nextId
  | some v =>
    match v.integer? with
    | some n => max nextId (successor n)
    | none => nextId

/-- One more column of a new row, with the next number after it. -/
def fillColumn (now : Value) (record : Record) (state : Record × Int) (c : Column) : Record × Int :=
  let given := record.get? c.name
  (state.1.insert c.name (given.getD (filling now state.2 c)),
    if c.autoIncrement then numberAfter state.2 given else state.2)

/-- The row that a record becomes, and the next number after it. -/
def fill (t : StoredTable) (now : Value) (record : Record) : Record × Int :=
  t.columns.foldl (fillColumn now record) ({}, t.nextId)

/-- A row with one more cell changed. -/
def assignCell (row : Record) (entry : String × Value) : Except Violation Record :=
  if row.contains entry.1 then .ok (row.insert entry.1 entry.2)
  else .error (.unknownColumn entry.1)

/-- A row with cells changed to those of a record. -/
def assign (row : Record) (record : Record) : Except Violation Record :=
  record.entries.foldlM assignCell row

end StoredTable

namespace Column

/-- Whether a row has the value in this column. -/
def isHeldBy (c : Column) (name : String) (v : Value) (row : Record) : Bool :=
  (row.get? name).any fun other => c.type.equal other v

/-- Whether the value must differ from those of all other rows. -/
def isExclusive (c : Column) : Bool := c.unique || c.primaryKey

end Column

namespace Store

/-- A rule of a table that is broken. -/
def violated {α : Type} (table : String) (v : Violation) : Except StorageError α :=
  .error (.constraint table v)

/-- Fail if the value that a column refers to is not there. -/
def checkReference (s : Store) (table : String) (c : Column) (v : Value) :
    Except StorageError Unit :=
  match c.references with
  | none => .ok ()
  | some key => do
    let target ← s.table key.table
    if target.rows.any (c.isHeldBy key.column v) then .ok ()
    else violated table (.missingReference c.name v key.table)

/-- Check one cell of a row against the rules of its column. -/
def checkCell (s : Store) (table : String) (others : List Record) (row : Record) (c : Column) :
    Except StorageError Unit :=
  let v := row.cell c.name
  if v.isNull then
    if !c.nullable || c.primaryKey then violated table (.nullValue c.name) else .ok ()
  else if c.isExclusive && others.any (c.isHeldBy c.name v) then
    violated table (.duplicateKey c.name)
  else s.checkReference table c v

/-- Whether two rows have the same values in all columns of a group, none of them null. -/
def sharesGroup (group : List String) (row other : Record) : Bool :=
  group.all fun name => !(row.cell name).isNull && (other.get? name).any (·.same (row.cell name))

def checkGroup (table : String) (others : List Record) (row : Record) (group : List String) :
    Except StorageError Unit :=
  if others.any (sharesGroup group row) then violated table (.duplicateGroup group) else .ok ()

/-- Check a row against the rules of its table, beside the other rows of the table. -/
def checkRules (s : Store) (table : Table) (columns : List Column) (others : List Record)
    (row : Record) : Except StorageError Unit := do
  columns.forM (s.checkCell table.name others row)
  table.uniqueGroups.forM (checkGroup table.name others row)

end Store

end RecordStore
