import RecordStore.Change
import RecordStore.Plan.OfRequest
import RecordStore.Schema.OfDomain

/-!
# The catalog of resources

What a service asks of its resources: finding records, inserting, updating, replacing and removing
them. A catalog holds the compiled tables and the settings; the database is given to each operation
and returned by it. Every operation is one transaction, but an insertion of several documents, which
is one for each.
-/

namespace RecordStore

structure Catalog where
  schema : Schema
  settings : Settings

/-- What became of an insertion: the keys or the failure that ended it, and the documents as they
are after it. -/
structure Insertion where
  ids : Except Error (List Value)
  docs : List Record

namespace Catalog

/-- The catalog of a domain. -/
def ofDomain (settings : Settings) (domain : Domain) : Except SchemaError Catalog :=
  (Schema.ofDomain settings domain).map (⟨·, settings⟩)

variable {α : Type}

/-- A transaction whose steps can only be taken if a preparation succeeds. -/
def transactWith {β : Type} (db : Database) (prepared : Except Error β) (steps : β → Action α) :
    Except Error α × Database :=
  match prepared with
  | .ok b => db.transact (steps b)
  | .error e => (.error e, db)

/-! ## Reading -/

/-- The plan of a request on a resource, narrowed by a lookup. -/
def plan (catalog : Catalog) (resource : String) (request : Request) (lookup : Filter) :
    Except Error Plan := do
  let table ← catalog.schema.table resource
  Plan.ofRequestAndLookup catalog.settings table request lookup

/-- The records that a request asks for, narrowed by a lookup. -/
def find (catalog : Catalog) (resource : String) (request : Request) (lookup : Filter)
    (db : Database) : Except Error Page × Database :=
  transactWith db (catalog.plan resource request lookup)
    (Fetch.page catalog.schema catalog.settings)

/-- The first record that a request asks for, narrowed by a lookup. -/
def findFirst (catalog : Catalog) (resource : String) (request : Request) (lookup : Filter)
    (db : Database) : Except Error (Option Record) × Database :=
  transactWith db (catalog.plan resource request lookup)
    (Fetch.first? catalog.schema catalog.settings)

/-- The plan for the row with a key, whether it is visible or not, with all its lists. -/
def rawPlan (catalog : Catalog) (resource : String) (id : Value) : Except Error Plan := do
  let table ← catalog.schema.table resource
  let p ← Predicate.ofFilter { table with defaultFilter := {} } (Change.keyFilter table .eq id)
    .lookup true
  return { Plan.scan table p with relations := table.listNames }

/-- The record with a key, whether it is visible or not. -/
def findStored (catalog : Catalog) (resource : String) (id : Value) (db : Database) :
    Except Error (Option Record) × Database :=
  transactWith db (catalog.rawPlan resource id) (Fetch.first? catalog.schema catalog.settings)

/-- The plan for the visible rows whose keys are in a list. -/
def listPlan (catalog : Catalog) (resource : String) (ids : List Value)
    (projection : Option Projection) : Except Error Plan := do
  let table ← catalog.schema.table resource
  let p ← Predicate.ofFilter table (Change.keyFilter table .isIn (.array ids)) .lookup false
  let (columns, relations) ← Plan.columnsAndLists table projection
  let order ← Plan.orderOf table []
  return ⟨table, p, columns, relations, order, none, 0⟩

/-- The visible records whose keys are in a list. -/
def findByKeys (catalog : Catalog) (resource : String) (ids : List Value)
    (projection : Option Projection) (db : Database) : Except Error (List Record) × Database :=
  transactWith db (catalog.listPlan resource ids projection)
    (Fetch.records catalog.schema catalog.settings)

/-- The table of a resource with the condition that its visible rows satisfy. -/
def visible (catalog : Catalog) (resource : String) : Except Error (Table × Predicate) := do
  let table ← catalog.schema.table resource
  let p ← Predicate.ofFilter table [] .lookup false
  return (table, p)

/-- Whether a resource has no visible record. -/
def isEmpty (catalog : Catalog) (resource : String) (db : Database) :
    Except Error Bool × Database :=
  transactWith db (catalog.visible resource) fun (table, p) => do
    return (← Transaction.count table p) == 0

/-- Pipelines are not supported. -/
def aggregate (_catalog : Catalog) (db : Database) : Except Error (List Record) × Database :=
  (.error (.notSupported "aggregate"), db)

/-! ## Changing -/

/-- Insert documents, each in a transaction of its own, up to the first that fails. -/
def insertAll (catalog : Catalog) (table : Table) (now : Time.Instant) :
    List Record → Database → Insertion × Database
  | [], db => (⟨.ok [], []⟩, db)
  | doc :: docs, db =>
    match db.transactInPlace (Change.insertInPlace catalog.schema table now) doc with
    | ((.error e, left), db) => (⟨.error e, left :: docs⟩, db)
    | ((.ok id, stamped), db) =>
      let (rest, db) := catalog.insertAll table now docs db
      (⟨rest.ids.map (id :: ·), stamped :: rest.docs⟩, db)

/-- Insert documents into a resource. -/
def insert (catalog : Catalog) (resource : String) (now : Time.Instant) (docs : List Record)
    (db : Database) : Insertion × Database :=
  match catalog.schema.table resource with
  | .error e => (⟨.error e, docs⟩, db)
  | .ok table => catalog.insertAll table now docs db

/-- Change the fields of the record with an identifier to those of a document. -/
def update (catalog : Catalog) (resource : String) (now : Time.Instant) (id : Value) (doc : Record)
    (db : Database) : Except Error Unit × Database :=
  transactWith db (catalog.schema.table resource) fun table =>
    Change.update catalog.schema table now id doc

/-- Make the record with an identifier the one that a document gives. -/
def replace (catalog : Catalog) (resource : String) (now : Time.Instant) (id : Value) (doc : Record)
    (db : Database) : Except Error Unit × Database :=
  transactWith db (catalog.schema.table resource) fun table =>
    Change.replace catalog.schema table now id doc

/-- Remove the visible records that a lookup finds, and return their number. -/
def remove (catalog : Catalog) (resource : String) (now : Time.Instant) (lookup : Filter)
    (db : Database) : Except Error Nat × Database :=
  transactWith db (catalog.schema.table resource) fun table =>
    Change.remove catalog.schema table now lookup

end Catalog

end RecordStore
