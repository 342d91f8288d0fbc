import RecordStore.Document
import RecordStore.Fetch
import RecordStore.Predicate.OfFilter

/-!
# Changes

Inserting, updating, replacing and removing the records of a resource, as steps of one transaction
each.

* Columns of doubles are given doubles, whatever numbers a document has (`withDoubles`).
* A document is stored as a row and, for each of its lists, as links (`rowOf`, `listsOf`). Links are
  written anew only when the list differs from what is stored.
* A replaced record keeps nothing of the old one but the times of its creation and last change,
  where the document does not give them.
* Records are removed by raising their flag where the table has one; else the rows go, and with them
  the links at either end.
-/

namespace RecordStore

namespace Change

/-- A record with the number in a column of doubles as a double. -/
def withDouble (r : Record) (c : Column) : Record :=
  match (r.get? c.name).bind Value.double? with
  | some x => r.insert c.name (.float x)
  | none => r

/-- A record with the numbers in columns of doubles as doubles. -/
def withDoubles (table : Table) (r : Record) : Record :=
  (table.columns.filter (·.type == .float)).foldl withDouble r

/-- The fields of a document that are columns of its row. -/
def rowOf (table : Table) (doc : Record) : Record :=
  .ofList (doc.entries.filter fun entry => (table.listField? entry.1).isNone)

/-- The keys that a list field holds. -/
def memberValues : Value → List Value
  | .array items => items
  | _ => []

/-- The lists of a document, in its order. -/
def listsOf (table : Table) (doc : Record) : List (ListField × List Value) :=
  doc.entries.filterMap fun entry =>
    (table.listField? entry.1).map fun m => (m, memberValues entry.2)

/-- The columns that are stamped with the current time. -/
def stampColumns : List String := [createdColumn, updatedColumn]

/-- A record with a value for a column that it lacks. -/
def withMissing (v : Value) (r : Record) (name : String) : Record :=
  if r.contains name then r else r.insert name v

/-! ## Links -/

/-- The row of a link table. -/
def linkRow (m : ListField) (owner member : Value) : Record :=
  .ofList [(m.ownerColumn, owner), (m.memberColumn, member)]

/-- Link an owner to members, in order. -/
def addLinks (schema : Schema) (now : Time.Instant) (m : ListField) (owner : Value)
    (members : List Value) : Action Unit := do
  let link ← Transaction.result (schema.linkTable m.linkTable)
  members.forM fun member => discard (Transaction.insert now link (linkRow m owner member))

/-- Make the links of an owner those to the given members, unless they are already. -/
def setLinks (schema : Schema) (now : Time.Instant) (m : ListField) (owner : Value)
    (members : List Value) : Action Unit := do
  let current ← Fetch.membersByOwner schema m [owner]
  if Value.sameItems (Fetch.membersOf current owner) members then return ()
  else
    let link ← Transaction.result (schema.linkTable m.linkTable)
    discard (Transaction.delete link (.eq m.ownerColumn owner))
    addLinks schema now m owner members

/-! ## Keys -/

/-- The filter for the row with a key. -/
def keyFilter (table : Table) (op : Operator) (v : Value) : Filter := [⟨table.primaryKey, op, v⟩]

/-- The key of the visible row with an identifier, as it is stored. -/
def visibleKey (table : Table) (id : Value) : Action (Option Value) := do
  let p ← Transaction.result (Predicate.ofFilter table (keyFilter table .eq id) .lookup false)
  let rows ← Transaction.select
    { Plan.scan table p with columns := [table.primaryKey], limit := some 1 }
  return rows.head?.bind (·.get? table.primaryKey)

/-- An identifier as a key of the table. -/
def keyFor (table : Table) (id : Value) : Except Error Value :=
  match table.keyColumn? with
  | none => .error (.notFound (.primaryKey table.resource))
  | some c =>
    let key := c.type.interpret id
    if key.isNull || !c.type.accepts key
      then reject (.invalidIdentifier table.resource) else .ok key

/-! ## Changes of one record -/

/-- Insert the document at hand and return its key. The document has its numbers as doubles once it
was found valid, and its key and its times once everything is stored. -/
def insertInPlace (schema : Schema) (table : Table) (now : Time.Instant) : InPlace Value := do
  InPlace.lift (Transaction.result (Document.check schema table (← get)))
  modify (withDoubles table)
  let doc ← get
  let row := stampColumns.foldl (withMissing (.string now.text)) (rowOf table doc)
  let id ← InPlace.lift (Transaction.insert now table row)
  InPlace.lift ((listsOf table doc).forM fun (m, members) => addLinks schema now m id members)
  modify fun doc => stampColumns.foldl (fun d name => d.insert name (row.cell name))
    (doc.insert table.primaryKey id)
  return id

/-- Change the fields of the visible record with an identifier to those of a document. Its key
stays, and the time of its last change is the current one. -/
def update (schema : Schema) (table : Table) (now : Time.Instant) (id : Value) (doc : Record) :
    Action Unit := do
  match ← visibleKey table id with
  | none => throw (.notFound (.row table.resource id))
  | some key =>
    Transaction.result (Document.checkPartial schema table doc)
    let row := ((withDoubles table (rowOf table doc)).erase table.primaryKey).insert updatedColumn
      (.string now.text)
    discard (Transaction.update table (.eq table.primaryKey key) row)
    (listsOf table doc).forM fun (m, members) => setLinks schema now m key members

/-- The cell of a replaced row: the key, the document's value, the stored or the current time, the
default, or null. -/
def replacedCell (table : Table) (now : Time.Instant) (key : Value) (stored : Option Record)
    (fields : Record) (c : Column) : Value :=
  if c.name = table.primaryKey then key
  else match fields.get? c.name with
    | some v => v
    | none =>
      if stampColumns.contains c.name then
        match (stored.bind (·.get? c.name)).filter (!·.isNull) with
        | some v => v
        | none => .string now.text
      else c.default?.getD .null

/-- Make the record with an identifier the one that a document gives, whether there was one before
or not. -/
def replace (schema : Schema) (table : Table) (now : Time.Instant) (id : Value) (doc : Record) :
    Action Unit := do
  Transaction.result (Document.check schema table doc)
  let key ← Transaction.result (keyFor table id)
  let stored ← Transaction.select
    { Plan.scan table (.eq table.primaryKey key) with limit := some 1 }
  let fields := withDoubles table (rowOf table doc)
  let row : Record := .ofList
    (table.columns.map fun c => (c.name, replacedCell table now key stored.head? fields c))
  Transaction.upsert now table row
  let lists := listsOf table doc
  table.lists.forM fun m =>
    setLinks schema now m key (((lists.find? (·.1.field == m.field)).map Prod.snd).getD [])

/-! ## Removing -/

/-- Raise the flag of the rows that satisfy a predicate. -/
def flagDeleted (table : Table) (now : Time.Instant) (deleted : String) (p : Predicate) :
    Action Nat :=
  Transaction.update table p
    (.ofList [(deleted, .bool true), (updatedColumn, .string now.text)])

/-- Remove the rows that satisfy a predicate, and the links to and from them. -/
def removeRows (schema : Schema) (table : Table) (p : Predicate) : Action Nat := do
  let rows ← Transaction.select { Plan.scan table p with columns := [table.primaryKey] }
  let keys := rows.filterMap (·.get? table.primaryKey)
  if keys.isEmpty then return 0
  else
    (schema.linksTo table.name).forM fun (link, column) =>
      discard (Transaction.delete link (.compare column .isIn (.array keys)))
    Transaction.delete table (.compare table.primaryKey .isIn (.array keys))

/-- Remove the visible records that a lookup finds, and return their number. -/
def remove (schema : Schema) (table : Table) (now : Time.Instant) (lookup : Filter) :
    Action Nat := do
  let p ← Transaction.result (Predicate.ofFilter table lookup .lookup false)
  match table.deletedColumn with
  | some deleted => flagDeleted table now deleted p
  | none => removeRows schema table p

end Change

end RecordStore
