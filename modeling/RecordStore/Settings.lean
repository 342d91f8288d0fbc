import RecordStore.SchemaError
import RecordStore.Text.Blank
import RecordStore.Text.Integer

/-!
# Settings

The settings of a catalog, and how they are taken from variables: a variable that is not set leaves
its setting as it is, numbers may have blanks around them, and an empty date format is none.
-/

namespace RecordStore

open Text

structure Settings where
  /-- the key column of a table that declares none -/
  idField : String := "id"
  /-- the column that flags a soft-deleted row -/
  deletedField : String := "_deleted"
  /-- the page size of a request that asks for none -/
  pageSize : Nat := 25
  /-- the greatest page size -/
  pageLimit : Nat := 50
  /-- how date values are shown; as they are stored, when unset -/
  dateFormat : Option String := none
  databaseUrl : String := "postgres://localhost/resources"
  /-- the database schema that holds the tables -/
  databaseSchema : String := "public"
deriving DecidableEq, Inhabited

namespace Settings

/-- The number that a variable holds, an unsigned one of 64 bits. -/
def number (name text : String) : Except SchemaError Nat :=
  match unsigned? (trim text).toList with
  | some n => if n < Nat.pow 2 64 then .ok n else .error (.load (.badNumber name text))
  | none => .error (.load (.badNumber name text))

/-- A number setting, or its default when the variable is not set. -/
def numberOr (lookup : String → Option String) (name : String) (default : Nat) :
    Except SchemaError Nat :=
  match lookup name with
  | some text => number name text
  | none => .ok default

/-- The settings that variables give. Of two bad numbers the page size is reported. -/
def ofVariables (lookup : String → Option String) : Except SchemaError Settings := do
  let unset : Settings := {}
  let pageSize ← numberOr lookup "PAGINATION_DEFAULT" unset.pageSize
  let pageLimit ← numberOr lookup "PAGINATION_LIMIT" unset.pageLimit
  return {
    idField := (lookup "ID_FIELD").getD unset.idField
    deletedField := (lookup "DELETED_FIELD").getD unset.deletedField
    pageSize := pageSize
    pageLimit := pageLimit
    dateFormat := (lookup "DATE_FORMAT").filter fun format => format != ""
    databaseUrl := (lookup "DATABASE_URL").getD unset.databaseUrl
    databaseSchema := (lookup "DB_SCHEMA").getD unset.databaseSchema
  }

end Settings

end RecordStore
