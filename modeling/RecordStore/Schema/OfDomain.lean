import RecordStore.Domain.Validity
import RecordStore.Filter
import RecordStore.Settings
import RecordStore.Table.Basic

/-!
# From a domain to its tables

A valid domain is compiled in four steps, each going through the resources in order of declaration:

1. the tables of the resources that have one, without the columns that point at other resources
   (`ownTable`);
2. those columns, typed as the keys they hold, and the lists that need a link table (`relate`);
3. the link tables (`linkTables`);
4. the aliases, which take the table of their source and their own read options (`aliasTable`).

The first fault is reported. The read options of a table are checked in the step that builds it.
-/

namespace RecordStore

namespace Compile

/-! ## Tables of resources -/

/-- The names that a resource's own fields may not have. -/
def reservedNames (settings : Settings) (resource : Resource) : List String :=
  [createdColumn, updatedColumn]
    ++ (if resource.softDelete then [settings.deletedField] else [])
    ++ (if resource.keyFields.isEmpty then [settings.idField] else [])

/-- The column of a field that points at no other resource. -/
def plainColumn (resource field : String) (spec : Field) (type : ColumnType) :
    Except SchemaError Column :=
  if spec.default?.any fun v => !type.accepts v then .error (.invalidDefault resource field)
  else if spec.primaryKey then
    .ok {
      name := field, type := type, nullable := false, unique := true, primaryKey := true,
      autoIncrement := type == .integer }
  else
    .ok {
      name := field, type := type, nullable := spec.isNullable, unique := spec.unique,
      default? := spec.default?, required := spec.required, minLength := spec.minLength,
      maxLength := spec.maxLength }

/-- The column of a field, unless the field points at another resource. -/
def ownColumn (resource : String) (reserved : List String) (entry : String × Field) :
    Except SchemaError (Option Column) :=
  let (field, spec) := entry
  if reserved.contains field then .error (.reservedField resource field)
  else match ColumnType.ofName? spec.typeName with
    | none => .error (.unknownType resource field spec.typeName)
    | some type =>
      if spec.target.isSome then
        if spec.primaryKey then .error (.relationPrimaryKey resource field) else .ok none
      else (plainColumn resource field spec type).map some

/-- Check the fields by which a datasource filters and sorts. -/
def checkDatasource (table : Table) (resource : String) (datasource : Datasource) :
    Except SchemaError Unit := do
  let filterFields := ((datasource.filter.map NameMap.keys).getD []).map fun key =>
    String.ofList (FilterKey.beforeFirst key.toList)
  match filterFields.find? fun field => !table.hasColumn field with
  | some field => .error (.invalidDatasource resource (.filterOnUnknownField field))
  | none => .ok ()
  match (datasource.defaultSort.getD []).find? fun entry => !table.hasColumn entry.1 with
  | some (field, _) => .error (.invalidDatasource resource (.sortOnUnknownField field))
  | none => .ok ()

/-- The table with the read options of a resource. A datasource that has no filter or no sort leaves
that of the table. -/
def withOptions (table : Table) (name : String) (resource : Resource) :
    Except SchemaError Table := do
  let table := { table with
    allowedFilters := .ofList resource.allowedFilters
    autoFields := resource.autoFields
    paginated := resource.paginated }
  match resource.datasource with
  | none => return table
  | some datasource =>
    checkDatasource table name datasource
    return { table with
      defaultFilter := datasource.filter.getD table.defaultFilter
      defaultProjection := datasource.projection
      defaultSort := datasource.defaultSort.getD table.defaultSort }

/-- The key column of a table that declares none. -/
def identityColumns (settings : Settings) (resource : Resource) :
    Except SchemaError (List Column) :=
  if resource.keyFields.isEmpty then do
    demandIdentifier settings.idField
    return [.identity settings.idField]
  else return []

/-- The flag column of a soft-deleted resource. -/
def flagColumns (settings : Settings) (resource : Resource) : Except SchemaError (List Column) :=
  if resource.softDelete then do
    demandIdentifier settings.deletedField
    return [.deletedFlag settings.deletedField]
  else return []

/-- The table of a resource, without the columns that point at other resources. -/
def ownTable (settings : Settings) (entry : String × Resource) : Except SchemaError Table := do
  let (name, resource) := entry
  if 1 < resource.keyFields.length then
    throw (.multiplePrimaryKeys name resource.keyFields)
  let identity ← identityColumns settings resource
  let own ← resource.fields.entries.mapM (ownColumn name (reservedNames settings resource))
  let flags ← flagColumns settings resource
  let table : Table := {
    resource := name
    name := name
    kind := .resource
    columns := identity ++ own.filterMap id
      ++ [.timestamp createdColumn, .timestamp updatedColumn] ++ flags
    primaryKey := resource.keyFields.head?.getD settings.idField
    deletedColumn := if resource.softDelete then some settings.deletedField else none
    lists := []
    uniqueGroups := []
    allowedFilters := .all
    autoFields := []
    defaultFilter := {}
    defaultProjection := none
    defaultSort := []
    paginated := true }
  withOptions table name resource

/-! ## References -/

/-- A list field that needs a link table. -/
structure LinkNeed where
  owner : String
  field : String
  target : String

/-- What a field that points at another resource adds to its table or needs beside it. -/
inductive Reference where
  | column (column : Column)
  | link (need : LinkNeed)

def Reference.column? : Reference → Option Column
  | .column c => some c
  | .link _ => none

def Reference.need? : Reference → Option LinkNeed
  | .column _ => none
  | .link need => some need

/-- The key column of a table. -/
def keyOf (table : Table) : Except SchemaError Column :=
  match table.keyColumn? with
  | some column => .ok column
  | none => .error (.invalidIdentifier table.primaryKey)

/-- The table to which a relation points; an alias stands for its source. -/
def targetTable (domain : Domain) (bases : List Table) (owner : String) (relation : Relation) :
    Except SchemaError Table :=
  let table? := (domain.get? relation.target).bind fun resource =>
    bases.find? (·.resource == resource.source.getD relation.target)
  match table? with
  | some table => .ok table
  | none => .error (.unknownResource owner relation.field relation.target)

/-- The column that holds the key of a row of another table. -/
def referenceColumn (relation : Relation) (target : Table) (key : Column) : Column := {
  name := relation.field, type := key.type, nullable := relation.spec.isNullable,
  unique := relation.spec.unique, required := relation.spec.required,
  references := some ⟨target.name, key.name⟩ }

def reference (domain : Domain) (bases : List Table) (owner : String) (relation : Relation) :
    Except SchemaError Reference := do
  let target ← targetTable domain bases owner relation
  let key ← keyOf target
  match relation.spec.cardinality with
  | .one => return .column (referenceColumn relation target key)
  | .many => return .link ⟨owner, relation.field, target.resource⟩

/-- The references of a resource. -/
def relate (domain : Domain) (bases : List Table) (entry : String × Resource) :
    Except SchemaError (List Reference) :=
  entry.2.relations.mapM (reference domain bases entry.1)

def withReferences (table : Table) (references : List Reference) : Table :=
  { table with columns := table.columns ++ references.filterMap Reference.column? }

/-! ## Link tables -/

/-- The columns of a link table with the keys of owner and member. Their names differ, whatever the
resources and the field are called. -/
def linkColumnNames (settings : Settings) (need : LinkNeed) : String × String :=
  let named (s : String) := s ++ "_" ++ settings.idField
  let ownerColumn := named need.owner
  let memberColumn := named need.target
  let memberColumn := if memberColumn = ownerColumn then named need.field else memberColumn
  let memberColumn :=
    if memberColumn = ownerColumn then named (need.field ++ "_target") else memberColumn
  (ownerColumn, memberColumn)

/-- The column of a link table that points at a row. -/
def linkColumn (name : String) (table : Table) (key : Column) : Column := {
  name := name, type := key.type, nullable := false, required := true,
  references := some ⟨table.name, key.name⟩ }

/-- The table for a list field and what its owner keeps about it. -/
def tableFor (settings : Settings) (bases : List Table) (need : LinkNeed) :
    Except SchemaError (Table × ListField) := do
  let name := need.owner ++ "_" ++ need.target
  let (ownerColumn, memberColumn) := linkColumnNames settings need
  [name, ownerColumn, memberColumn].forM demandIdentifier
  match bases.find? (·.resource == need.owner), bases.find? (·.resource == need.target) with
  | some owner, some target =>
    let ownerKey ← keyOf owner
    let targetKey ← keyOf target
    let table : Table := {
      resource := name
      name := name
      kind := .link
      columns := [
        .identity settings.idField,
        linkColumn ownerColumn owner ownerKey,
        linkColumn memberColumn target targetKey,
        .timestamp createdColumn,
        .timestamp updatedColumn]
      primaryKey := settings.idField
      deletedColumn := none
      lists := []
      uniqueGroups := [[ownerColumn, memberColumn]]
      allowedFilters := .all
      autoFields := []
      defaultFilter := {}
      defaultProjection := none
      defaultSort := []
      paginated := false }
    return (table, ⟨need.field, need.target, name, ownerColumn, memberColumn⟩)
  | _, _ => throw (.unknownResource need.owner need.field need.target)

/-- A link table with the need it serves. -/
structure BuiltLink where
  need : LinkNeed
  table : Table
  list : ListField

/-- One more link table; its name must not be taken by another table. -/
def addLink (settings : Settings) (bases : List Table) (built : List BuiltLink) (need : LinkNeed) :
    Except SchemaError (List BuiltLink) := do
  let (table, list) ← tableFor settings bases need
  if (bases.map Table.name).contains table.name
    || (built.map (·.table.name)).contains table.name then
    throw (.duplicateLinkTable table.name)
  return built ++ [⟨need, table, list⟩]

/-- The link tables, in the order in which the fields are declared. -/
def linkTables (settings : Settings) (bases : List Table) (needs : List LinkNeed) :
    Except SchemaError (List BuiltLink) :=
  needs.foldlM (addLink settings bases) []

def withLists (links : List BuiltLink) (table : Table) : Table :=
  { table with lists :=
      (links.filter (·.need.owner == table.resource)).map BuiltLink.list }

/-! ## Aliases -/

/-- The table by which an alias is read. -/
def aliasTable (bases : List Table) (entry : String × Resource) (source : String) :
    Except SchemaError Table :=
  match bases.find? (·.resource == source) with
  | some table => withOptions { table with resource := entry.1 } entry.1 entry.2
  | none => .error (.invalidDatasource entry.1 (.unknownSource source))

end Compile

open Compile in
/-- Compile a domain. -/
def Schema.ofDomain (settings : Settings) (domain : Domain) : Except SchemaError Schema := do
  domain.check
  let own := domain.entries.filter fun entry => !entry.2.isAlias
  let plain ← own.mapM (ownTable settings)
  let references ← own.mapM (relate domain plain)
  let related := plain.zipWith withReferences references
  let links ← linkTables settings related (references.flatMap (·.filterMap Reference.need?))
  let bases := related.map (withLists links)
  let aliases ← (domain.entries.filterMap fun entry =>
    entry.2.source.map fun source => (entry, source)).mapM fun (entry, source) =>
      aliasTable bases entry source
  return ⟨bases, links.map BuiltLink.table, aliases⟩

end RecordStore
