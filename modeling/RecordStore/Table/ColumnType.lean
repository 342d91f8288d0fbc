import RecordStore.Json.Value
import RecordStore.Text.Fold
import RecordStore.Time.Timestamp

/-!
# Column types

The types that a column can have, the names under which a domain declares them, and the values that
a column of each type takes. Null is taken by every type; whether a column may hold it is another
question.
-/

namespace RecordStore

/-- The point in time that a string writes. -/
def Value.instant? (v : Value) : Option Time.Instant :=
  (v.text?.bind Time.Timestamp.ofText?).map Time.Timestamp.instant

inductive ColumnType where
  | text
  | boolean
  | integer
  | float
  | datetime
  | json
deriving DecidableEq, Inhabited

namespace ColumnType

/-- The type that a name declares, in any case. A list that points at a resource is no column. -/
def ofName? (name : String) : Option ColumnType :=
  match Text.lowerAscii name with
  | "string" => some .text
  | "boolean" => some .boolean
  | "integer" => some .integer
  | "float" => some .float
  | "number" => some .float
  | "datetime" => some .datetime
  | "dict" => some .json
  | "list" => some .json
  | _ => none

/-- The type in the database. -/
def sqlName : ColumnType → String
  | .text => "TEXT"
  | .boolean => "BOOLEAN"
  | .integer => "BIGINT"
  | .float => "DOUBLE PRECISION"
  | .datetime => "TIMESTAMPTZ"
  | .json => "JSONB"

/-- The type in a message about a document. -/
def description : ColumnType → String
  | .text => "string"
  | .boolean => "boolean"
  | .integer => "integer"
  | .float => "float"
  | .datetime => "datetime"
  | .json => "dict or list"

/-- Whether a column of this type takes the value. -/
def accepts : ColumnType → Value → Bool
  | _, .null => true
  | .text, .string _ => true
  | .boolean, .bool _ => true
  | .integer, .int n => isSigned64 n
  | .float, .int _ => true
  | .float, .float _ => true
  | .datetime, v => v.instant?.isSome
  | .json, _ => true
  | _, _ => false

end ColumnType

end RecordStore
