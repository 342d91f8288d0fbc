import RecordStore.Json.Value
import RecordStore.Text.Fold

/-!
# Domains

A domain declares the resources of an application: the fields of each, how they are read, and which
fields point at other resources. A resource with a source is an alias; it has no fields of its own
and reads the table of its source through its own options.
-/

namespace RecordStore

/-- One field of a resource. The name of its type is looked up when the domain is compiled. -/
structure Field where
  typeName : String
  required : Bool := false
  unique : Bool := false
  /-- whether null may be stored; the opposite of `required`, when unset -/
  nullable : Option Bool := none
  default? : Option Value := none
  primaryKey : Bool := false
  minLength : Option Nat := none
  maxLength : Option Nat := none
  /-- the resource that the field points at -/
  target : Option String := none
deriving Inhabited

/-- How a field that points at a resource is stored. -/
inductive Cardinality where
  /-- the field holds the key of one row -/
  | one
  /-- the field lists keys, which a link table holds -/
  | many
deriving DecidableEq

/-- Where a resource reads from, and what it applies to every read. -/
structure Datasource where
  source : Option String := none
  filter : Option Record := none
  projection : Option Record := none
  defaultSort : Option (List (String × Int)) := none
deriving Inhabited

structure Resource where
  fields : NameMap Field := {}
  softDelete : Bool := false
  allowedFilters : List String := ["*"]
  /-- fields that no projection drops -/
  autoFields : List String := []
  datasource : Option Datasource := none
  paginated : Bool := true
deriving Inhabited

/-- All resources of an application, by name. -/
abbrev Domain := NameMap Resource

namespace Field

def isList (spec : Field) : Bool := Text.lowerAscii spec.typeName == "list"

/-- How the field is stored when it points at a resource. -/
def cardinality (spec : Field) : Cardinality := if spec.isList then .many else .one

/-- Whether null may be stored in the field. -/
def isNullable (spec : Field) : Bool := spec.nullable.getD !spec.required

end Field

/-- A field of a resource that points at another one. -/
structure Relation where
  field : String
  spec : Field
  target : String

namespace Resource

/-- The resource whose table this one reads, if it is an alias. -/
def source (r : Resource) : Option String := r.datasource.bind Datasource.source

def isAlias (r : Resource) : Bool := r.source.isSome

/-- The fields that point at resources, in order of declaration. -/
def relations (r : Resource) : List Relation :=
  r.fields.entries.filterMap fun (name, spec) => spec.target.map (⟨name, spec, ·⟩)

/-- The fields declared as primary key. -/
def keyFields (r : Resource) : List String :=
  (r.fields.entries.filter fun entry => entry.2.primaryKey).map Prod.fst

end Resource

end RecordStore
