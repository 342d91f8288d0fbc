import RecordStore.Store.Row

/-!
# Transactions

A transaction works on a copy of the store. Its changes become those of the store when it is
committed, and are dropped otherwise; once it is committed or rolled back it takes no more
statements. A statement that fails may leave changes in the copy, so the copy of a failed
transaction is to be dropped.

A statement fails when a fault was injected for it; the fault is used up by that, whatever becomes
of the transaction.
-/

namespace RecordStore

/-- A statement on a table that is made to fail once. -/
structure Fault where
  op : FaultOp
  table : String
deriving DecidableEq

/-- The store and the faults that wait for their statements. -/
structure Database where
  store : Store := {}
  faults : List Fault := []

structure Transaction where
  /-- what the store is if the transaction ends now -/
  committed : Store
  work : Store
  isOpen : Bool
  faults : List Fault

/-- A step of a transaction. A step that fails keeps what it has changed in the copy. -/
abbrev Action := ExceptT Error (StateM Transaction)

/-- Steps that also work on a document in place. A step that fails leaves the document as it is by
then. -/
abbrev InPlace := ExceptT Error (StateT Record (StateM Transaction))

/-- A step that leaves the document alone. -/
def InPlace.lift {α : Type} (step : Action α) : InPlace α := ExceptT.mk (StateT.lift step.run)

namespace Transaction

variable {α : Type}

/-- A transaction on a database. -/
def begin (db : Database) : Transaction := ⟨db.store, db.store, true, db.faults⟩

/-- The database after a transaction. -/
def database (tx : Transaction) : Database := ⟨tx.committed, tx.faults⟩

/-- A result that needs no transaction. -/
def result (r : Except Error α) : Action α := ExceptT.mk (pure r)

/-- A result of the store. -/
def storage (r : Except StorageError α) : Action α := result (r.mapError .storage)

/-- Fail once the transaction has ended. -/
def demandOpen : Action Unit := do
  if !(← get).isOpen then throw (.storage .transactionFinished)

/-- Fail if a fault waits for the statement, and use the fault up. -/
def spendFault (op : FaultOp) (table : String) : Action Unit := do
  let tx ← get
  let fault : Fault := ⟨op, table⟩
  if tx.faults.contains fault then
    set { tx with faults := tx.faults.erase fault }
    throw (.storage (.injected op table))

/-- The table of a name in the copy. -/
def stored (name : String) : Action StoredTable := do
  demandOpen
  storage ((← get).work.table name)

/-- Change the table of a name in the copy. -/
def put (name : String) (t : StoredTable) : Action Unit :=
  modify fun tx => { tx with work := tx.work.put name t }

/-- Check a row of a table beside the other rows. -/
def checkRules (table : Table) (columns : List Column) (others : List Record) (row : Record) :
    Action Unit := do
  storage ((← get).work.checkRules table columns others row)

/-- A broken rule of a table. -/
def violation (table : Table) (r : Except Violation α) : Action α :=
  storage (r.mapError (.constraint table.name))

/-! ## Statements -/

/-- The rows of a plan. -/
def select (plan : Plan) : Action (List Record) := do
  return (← stored plan.table.name).select plan

/-- The number of rows that satisfy a predicate. -/
def count (table : Table) (p : Predicate) : Action Nat := do
  return ((← stored table.name).matching p).length

/-- Put a new row at the end of its table, filled up from a record. Its numbers are used up even if
the row is refused. -/
def append (now : Time.Instant) (table : Table) (record : Record) : Action Record := do
  let t ← stored table.name
  violation table (t.checkColumns record)
  let (row, nextId) := t.fill (.string now.text) record
  let t := { t with nextId := nextId }
  put table.name t
  checkRules table t.columns t.rows row
  put table.name { t with rows := t.rows ++ [row] }
  return row

/-- Change the row at a place to have the cells of a record. -/
def change (table : Table) (record : Record) (place : Nat) : Action Unit := do
  let t ← stored table.name
  match t.rows[place]? with
  | none => return ()
  | some old =>
    let row ← violation table (StoredTable.assign old record)
    checkRules table t.columns (t.rows.eraseIdx place) row
    put table.name { t with rows := t.rows.set place row }

/-- Insert a row and return its key. -/
def insert (now : Time.Instant) (table : Table) (record : Record) : Action Value := do
  demandOpen
  spendFault .insert table.name
  let row ← append now table record
  return row.cell table.primaryKey

/-- Insert a row, or change the row that has its key. -/
def upsert (now : Time.Instant) (table : Table) (record : Record) : Action Unit := do
  demandOpen
  spendFault .insert table.name
  let t ← stored table.name
  match t.places (.eq table.primaryKey (record.cell table.primaryKey)) with
  | place :: _ => change table record place
  | [] => discard (append now table record)

/-- Change the rows that satisfy a predicate, one after the other, and return their number. -/
def update (table : Table) (p : Predicate) (record : Record) : Action Nat := do
  demandOpen
  spendFault .update table.name
  let hits := (← stored table.name).places p
  hits.forM (change table record)
  return hits.length

/-- Remove the rows that satisfy a predicate and return their number. -/
def delete (table : Table) (p : Predicate) : Action Nat := do
  demandOpen
  spendFault .delete table.name
  let t ← stored table.name
  put table.name { t with rows := t.rows.filter fun row => !p.holds t.columns row }
  return (t.matching p).length

/-- Make the changes those of the store. -/
def commit : Action Unit := do
  demandOpen
  modify fun tx => { tx with committed := tx.work, isOpen := false }

/-- Drop the changes. -/
def rollback : Action Unit := do
  demandOpen
  modify fun tx => { tx with work := {}, isOpen := false }

end Transaction

namespace Database

/-- Run steps in a transaction of their own, which is committed unless one of them fails. -/
def transact {α : Type} (db : Database) (steps : Action α) : Except Error α × Database :=
  let (result, tx) :=
    ((do let a ← steps; Transaction.commit; return a : Action α).run).run (.begin db)
  (result, tx.database)

/-- Run steps on a document in a transaction of their own, and return the document as they leave
it. -/
def transactInPlace {α : Type} (db : Database) (steps : InPlace α) (doc : Record) :
    (Except Error α × Record) × Database :=
  let ((result, left), tx) :=
    (((do let a ← steps; InPlace.lift Transaction.commit; return a : InPlace α).run).run doc).run
      (.begin db)
  ((result, left), tx.database)

/-- Make the next statement of a kind on a table fail. -/
def failNext (db : Database) (op : FaultOp) (table : String) : Database :=
  { db with faults := db.faults ++ [⟨op, table⟩] }

def createTable (db : Database) (table : Table) : Database :=
  { db with store := db.store.create table }

/-- Create the tables of a schema that do not exist. -/
def applySchema (db : Database) (schema : Schema) : Database :=
  schema.physical.foldl createTable db

end Database

end RecordStore
