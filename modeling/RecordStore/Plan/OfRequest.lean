import RecordStore.Plan.Basic
import RecordStore.Predicate.OfFilter
import RecordStore.Settings

/-!
# From requests to plans

A request is judged against the table of its resource and becomes a plan.

* `columnsAndLists` is the projection; the key and the automatic fields are never dropped.
* `orderOf` is the requested order or that of the datasource, with the key last, so that no two rows
  are left in the order of the store.
* `windowOf` is the window of the page, of which none is larger than the settings allow.
-/

namespace RecordStore

namespace Plan

/-- The rows of a page, as a number of rows and the number of rows before them. -/
def windowOf (settings : Settings) (table : Table) (p : Pagination) : Option Nat × Nat :=
  if !table.paginated then (none, 0)
  else
    let asked := (p.maxResults.filter (0 < ·)).getD settings.pageSize
    let size := min asked settings.pageLimit
    (some size, min ((p.page - 1) * size) maxUnsigned64)

/-- The projection that applies: the requested one, else that of the datasource; an empty one is
none. -/
def projectionOf (table : Table) (requested : Option Projection) :
    Except Error (Option Projection) :=
  match requested.filter (!·.isEmpty) with
  | some p => .ok (some p)
  | none =>
    match table.defaultProjection with
    | some r => (Projection.ofRecord r).map fun p => if p.isEmpty then none else some p
    | none => .ok none

/-- Whether a projection leaves a field in the record. -/
def keeps (table : Table) (p : Projection) (included : Bool) (field : String) : Bool :=
  field == table.primaryKey || table.autoFields.contains field
    || (p.any (·.1 == field)) == included

/-- The columns and the lists of a record. -/
def columnsAndLists (table : Table) (requested : Option Projection) :
    Except Error (List String × List String) := do
  match ← projectionOf table requested with
  | none => return (table.columnNames, table.listNames)
  | some p =>
    match p.find? fun entry => !table.hasField entry.1 with
    | some (field, _) => reject (.unknownProjectionField field)
    | none =>
      let included := p.head?.any Prod.snd
      if p.any (·.2 != included) then reject .mixedProjection
      else
        return (table.columnNames.filter (keeps table p included),
          table.listNames.filter (keeps table p included))

/-- The key of a requested sort. -/
def sortKey (table : Table) (entry : String × SortDirection) : Except Error SortKey :=
  if table.hasColumn entry.1 then .ok ⟨entry.1, entry.2⟩
  else reject (.unknownSortField entry.1)

/-- The key of a datasource's sort, descending for a negative number. -/
def defaultKey (entry : String × Int) : SortKey :=
  ⟨entry.1, if entry.2 < 0 then .desc else .asc⟩

/-- The order with the primary key as its last key, unless it is a key already. -/
def withPrimaryKey (table : Table) (keys : List SortKey) : List SortKey :=
  if keys.any (·.column == table.primaryKey) then keys else keys ++ [⟨table.primaryKey, .asc⟩]

/-- The order of the records. -/
def orderOf (table : Table) (sort : List (String × SortDirection)) : Except Error (List SortKey) :=
  if sort.isEmpty then .ok (withPrimaryKey table (table.defaultSort.map defaultKey))
  else (sort.mapM (sortKey table)).map (withPrimaryKey table)

/-- The plan of a request. -/
def ofRequest (settings : Settings) (table : Table) (request : Request) : Except Error Plan := do
  let condition ← Predicate.ofFilter table request.filter .client request.showDeleted
  let (columns, relations) ← columnsAndLists table request.projection
  let keys ← orderOf table request.sort
  let (limit, offset) := windowOf settings table request.pagination
  return ⟨table, condition, columns, relations, keys, limit, offset⟩

/-- The plan of a request, narrowed by a lookup. -/
def ofRequestAndLookup (settings : Settings) (table : Table) (request : Request) (lookup : Filter) :
    Except Error Plan := do
  let p ← ofRequest settings table request
  if lookup.isEmpty then return p
  else
    let narrowed ← lookup.mapM (Predicate.ofEntry table)
    return { p with predicate := .all (p.predicate :: narrowed) }

end Plan

end RecordStore
