/-!
# Faults of a domain and of the settings

What makes a domain or the settings unusable, found before the first request. `message` is the one
place that words them.
-/

namespace RecordStore

/-- What is wrong with a datasource. -/
inductive DatasourceFault where
  | unknownSource (source : String)
  | declaresSchema (source : String)
  | sourceIsAlias (source : String)
  | filterOnUnknownField (field : String)
  | sortOnUnknownField (field : String)
deriving DecidableEq

/-- Why a domain document, a setting or a date format cannot be taken. -/
inductive LoadFault where
  /-- the document is missing, is no JSON text, or has a value of the wrong kind -/
  | unreadable
  | duplicateName (name : String)
  | badNumber (setting text : String)
  | badDateFormat (format : String)
deriving DecidableEq

inductive SchemaError where
  | unknownType (resource field typeName : String)
  | unknownResource (resource field target : String)
  | multiplePrimaryKeys (resource : String) (fields : List String)
  | relationPrimaryKey (resource field : String)
  | invalidIdentifier (name : String)
  | duplicateLinkTable (table : String)
  | invalidDefault (resource field : String)
  | reservedField (resource field : String)
  | invalidDatasource (resource : String) (fault : DatasourceFault)
  | load (fault : LoadFault)
deriving DecidableEq

def DatasourceFault.message : DatasourceFault → String
  | .unknownSource source => s!"unknown source '{source}'"
  | .declaresSchema source => s!"an alias of '{source}' cannot declare its own schema"
  | .sourceIsAlias source => s!"source '{source}' is itself an alias"
  | .filterOnUnknownField field => s!"filter on unknown field '{field}'"
  | .sortOnUnknownField field => s!"default sort on unknown field '{field}'"

def LoadFault.message : LoadFault → String
  | .unreadable => "unreadable domain document"
  | .duplicateName name => s!"duplicate key '{name}'"
  | .badNumber setting text => s!"{setting} must be a non-negative integer, got '{text}'"
  | .badDateFormat format => s!"invalid date_format '{format}'"

/-- Names between double quotes, in brackets. -/
def quotedNames (names : List String) : String :=
  "[" ++ ", ".intercalate (names.map fun name => "\"" ++ name ++ "\"") ++ "]"

def SchemaError.message : SchemaError → String
  | .unknownType resource field typeName =>
    s!"unknown field type '{typeName}' for {resource}.{field}"
  | .unknownResource resource field target =>
    s!"{resource}.{field} references unknown resource '{target}'"
  | .multiplePrimaryKeys resource fields =>
    s!"resource '{resource}' declares more than one primary key: " ++ quotedNames fields
  | .relationPrimaryKey resource field =>
    s!"{resource}.{field} cannot be both primary key and a relation"
  | .invalidIdentifier name => s!"invalid identifier: '{name}'"
  | .duplicateLinkTable table => s!"duplicate link table: {table}"
  | .invalidDefault resource field => s!"default of {resource}.{field} does not match its type"
  | .reservedField resource field => s!"{resource}.{field} collides with a synthesized column"
  | .invalidDatasource resource fault => s!"datasource of '{resource}': " ++ fault.message
  | .load fault => "config load: " ++ fault.message

end RecordStore
