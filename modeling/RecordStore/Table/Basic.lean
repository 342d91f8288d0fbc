import RecordStore.Error
import RecordStore.NameMap

/-!
# Tables

A table is what a resource is compiled to: its columns, its primary key, the lists that link tables
hold for it, and how it is read. A link table has one row for each member of a list, with the key of
the owner and the key of the member.

A `Schema` holds the tables of a domain: the tables of resources that have one (`bases`), the link
tables (`links`), and the aliases, which share the table of their source under their own read
options.
-/

namespace RecordStore

/-- The column of another table that a column points at. -/
structure ForeignKey where
  table : String
  column : String
deriving DecidableEq

structure Column where
  name : String
  type : ColumnType
  nullable : Bool := true
  unique : Bool := false
  default? : Option Value := none
  /-- whether a missing value is the current time -/
  defaultNow : Bool := false
  primaryKey : Bool := false
  /-- whether a missing value is the next number -/
  autoIncrement : Bool := false
  required : Bool := false
  minLength : Option Nat := none
  maxLength : Option Nat := none
  references : Option ForeignKey := none
deriving Inhabited

/-- The columns with the times of a row's creation and of its last change. -/
def createdColumn : String := "_created"

def updatedColumn : String := "_updated"

namespace Column

/-- A column of numbers that are generated, and the primary key. -/
def identity (name : String) : Column :=
  { name := name, type := .integer, nullable := false, unique := true, primaryKey := true,
    autoIncrement := true }

/-- A column that is stamped with the current time. -/
def timestamp (name : String) : Column :=
  { name := name, type := .datetime, nullable := false, defaultNow := true }

/-- The flag of soft-deleted rows. -/
def deletedFlag (name : String) : Column :=
  { name := name, type := .boolean, nullable := false, default? := some (.bool false) }

/-- Whether a missing value is filled in. -/
def hasDefault (c : Column) : Bool := c.default?.isSome || c.defaultNow || c.autoIncrement

end Column

inductive TableKind where
  | resource
  | link
deriving DecidableEq

/-- A field that lists keys of another resource, which a link table holds. -/
structure ListField where
  field : String
  target : String
  linkTable : String
  /-- the column of the link table with the key of the row that owns the list -/
  ownerColumn : String
  /-- the column of the link table with the key of the member -/
  memberColumn : String
deriving DecidableEq

/-- The fields on which a client may filter. -/
inductive Filterable where
  | all
  | only (fields : List String)
deriving DecidableEq

namespace Filterable

/-- A star among the fields allows all. -/
def ofList (fields : List String) : Filterable :=
  if fields.contains "*" then .all else .only fields

def allows (allowed : Filterable) (field : String) : Bool :=
  match allowed with
  | .all => true
  | .only fields => fields.contains field

end Filterable

structure Table where
  /-- the resource, or for a link table its own name -/
  resource : String
  /-- the table in the store; for an alias, that of its source -/
  name : String
  kind : TableKind
  columns : List Column
  primaryKey : String
  deletedColumn : Option String
  lists : List ListField
  /-- groups of columns that no two rows share the values of -/
  uniqueGroups : List (List String)
  allowedFilters : Filterable
  autoFields : List String
  defaultFilter : Record
  defaultProjection : Option Record
  defaultSort : List (String × Int)
  paginated : Bool

namespace Table

def column? (t : Table) (name : String) : Option Column := t.columns.find? (·.name == name)

def hasColumn (t : Table) (name : String) : Bool := (t.column? name).isSome

def keyColumn? (t : Table) : Option Column := t.column? t.primaryKey

def columnNames (t : Table) : List String := t.columns.map Column.name

def listField? (t : Table) (field : String) : Option ListField :=
  t.lists.find? (·.field == field)

/-- The fields that link tables hold. -/
def listNames (t : Table) : List String := t.lists.map ListField.field

/-- Whether a name is that of a column or of a list. -/
def hasField (t : Table) (name : String) : Bool := t.hasColumn name || (t.listField? name).isSome

def isSoftDelete (t : Table) : Bool := t.deletedColumn.isSome

end Table

/-- The tables of a domain. -/
structure Schema where
  bases : List Table
  links : List Table
  aliases : List Table

namespace Schema

/-- The tables by which resources are read, in the order in which they were compiled. -/
def resources (s : Schema) : List Table := s.bases ++ s.aliases

/-- The tables in the store, in the order in which they are created. -/
def physical (s : Schema) : List Table := s.bases ++ s.links

def table? (s : Schema) (resource : String) : Option Table :=
  s.resources.find? (·.resource == resource)

def link? (s : Schema) (name : String) : Option Table := s.links.find? (·.name == name)

/-- The table by which a resource is read. -/
def table (s : Schema) (resource : String) : Except Error Table :=
  match s.table? resource with
  | some t => .ok t
  | none => .error (.notFound (.resource resource))

def linkTable (s : Schema) (name : String) : Except Error Table :=
  match s.link? name with
  | some t => .ok t
  | none => .error (.notFound (.linkTable name))

/-- The columns of link tables that point at rows of a table. -/
def linksTo (s : Schema) (table : String) : List (Table × String) :=
  s.links.flatMap fun link =>
    (link.columns.filter fun c => c.references.any (·.table == table)).map fun c => (link, c.name)

end Schema

end RecordStore
