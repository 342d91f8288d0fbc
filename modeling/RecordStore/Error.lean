import RecordStore.Json.Printer
import RecordStore.Predicate.Operator
import RecordStore.SchemaError
import RecordStore.Table.ColumnType

/-!
# Failures of a request

What can keep a request from being answered, told apart by its cause: the request or document is
rejected before it reaches the store (`Rejection`), what it names is not there (`Missing`), or the
store refuses it (`StorageError`). The messages are worded in one place each.
-/

namespace RecordStore

/-- Why a request or a document is rejected. -/
inductive Rejection where
  | unparsableWhere
  | whereNotObject
  | unparsableSort (text : String)
  | sortDirection (direction : Int) (field : String)
  | unparsableProjection
  | projectionFlag (field : String)
  | filterNotAllowed (field : String)
  | unknownFilterField (field : String)
  | documentOperator (field : String)
  | listExpected (field : String)
  | notTextField (field : String)
  | patternNotText (field : String)
  | orderWithNull (field : String)
  | notScalar (field : String)
  | typeMismatch (field : String)
  | unknownProjectionField (field : String)
  | mixedProjection
  | unknownSortField (field : String)
  | invalidIdentifier (resource : String)
  | missingField (field : String)
  | nullField (field : String)
  | wrongType (field : String) (expected : ColumnType)
  | tooLong (field : String) (greatest : Nat)
  | tooShort (field : String) (least : Nat)
  | notList (field : String)
  | wrongMember (field : String) (keyType : ColumnType) (target : String)
  | unknownField (field : String)
deriving DecidableEq

/-- What a request names and does not exist. -/
inductive Missing where
  | resource (name : String)
  | linkTable (name : String)
  | row (resource : String) (id : Value)
  | primaryKey (resource : String)

/-- A rule of a table that a row would break. -/
inductive Violation where
  | unknownColumn (column : String)
  | nullValue (column : String)
  | duplicateKey (column : String)
  | missingReference (column : String) (value : Value) (table : String)
  | duplicateGroup (columns : List String)

/-- Why a statement cannot be written for the database. -/
inductive EncodeFault where
  | wrongType (value : Value) (type : ColumnType)
  | unknownColumn (table : String)
  | wrongOperand (value : Value) (op : Operator)
  | keyMissing
  | noAssignments
  | listOnDocument

/-- The statements that can be made to fail. -/
inductive FaultOp where
  | insert
  | update
  | delete
deriving DecidableEq

inductive StorageError where
  | constraint (table : String) (violation : Violation)
  | encode (column : String) (fault : EncodeFault)
  | unknownTable (table : String)
  | transactionFinished
  | injected (op : FaultOp) (table : String)

inductive Error where
  | schema (error : SchemaError)
  | validation (rejection : Rejection)
  | notFound (missing : Missing)
  | storage (error : StorageError)
  | notSupported (operation : String)

def Rejection.message : Rejection → String
  | .unparsableWhere => "unable to parse `where` clause"
  | .whereNotObject => "`where` clause must be an object"
  | .unparsableSort text => s!"unable to parse sort '{text}'"
  | .sortDirection direction field => s!"invalid sort direction {direction} for '{field}'"
  | .unparsableProjection => "unable to parse `projection`"
  | .projectionFlag field => s!"projection value for '{field}' must be 0, 1, true or false"
  | .filterNotAllowed field => s!"filter on '{field}' not allowed"
  | .unknownFilterField field => s!"unknown filter field '{field}'"
  | .documentOperator field => s!"'{field}' is a document field and supports only equality"
  | .listExpected field => s!"'{field}__in' expects a list"
  | .notTextField field => s!"'{field}' is not a text field"
  | .patternNotText field => s!"pattern for '{field}' must be a string"
  | .orderWithNull field => s!"cannot order-compare '{field}' with null"
  | .notScalar field => s!"filter value for '{field}' must be a scalar"
  | .typeMismatch field => s!"filter value for '{field}' does not match its type"
  | .unknownProjectionField field => s!"unknown projection field '{field}'"
  | .mixedProjection => "projection cannot mix inclusion and exclusion"
  | .unknownSortField field => s!"unknown sort field '{field}'"
  | .invalidIdentifier resource => s!"invalid identifier for '{resource}'"
  | .missingField field => s!"{field} is required"
  | .nullField field => s!"{field} cannot be null"
  | .wrongType field expected => s!"{field} must be of " ++ expected.description ++ " type"
  | .tooLong field greatest => s!"{field} must be at most {greatest} long"
  | .tooShort field least => s!"{field} must be at least {least} long"
  | .notList field => s!"{field} must be a list"
  | .wrongMember field keyType target =>
    s!"{field} members must be " ++ keyType.description ++ s!" identifiers of '{target}'"
  | .unknownField field => s!"unknown field '{field}'"

def Missing.message : Missing → String
  | .resource name => s!"resource '{name}'"
  | .linkTable name => s!"link table '{name}'"
  | .row name id => s!"{name} '{id}'"
  | .primaryKey name => s!"primary key of '{name}'"

def Violation.message : Violation → String
  | .unknownColumn column => s!"column '{column}' does not exist"
  | .nullValue column => s!"null value in column '{column}'"
  | .duplicateKey column => s!"duplicate key value for '{column}'"
  | .missingReference column value table => s!"'{column}' = {value} is not present in '{table}'"
  | .duplicateGroup columns => "duplicate key value for (" ++ ", ".intercalate columns ++ ")"

def EncodeFault.message : EncodeFault → String
  | .wrongType value type => s!"{value} is not a valid " ++ type.sqlName
  | .unknownColumn table => s!"no such column on table '{table}'"
  | .wrongOperand value op => s!"{value} is not a valid operand for " ++ op.name
  | .keyMissing => "upsert requires the primary key"
  | .noAssignments => "update without assignments"
  | .listOnDocument => "list membership is not supported on JSON columns"

def FaultOp.name : FaultOp → String
  | .insert => "Insert"
  | .update => "Update"
  | .delete => "Delete"

def StorageError.message : StorageError → String
  | .constraint table violation => s!"constraint violation on {table}: " ++ violation.message
  | .encode column fault => s!"cannot encode value for column '{column}': " ++ fault.message
  | .unknownTable table => s!"unknown table: {table}"
  | .transactionFinished => "transaction already finished"
  | .injected op table => "injected fault: " ++ op.name ++ s!" on '{table}'"

def Error.message : Error → String
  | .schema error => error.message
  | .validation rejection => "validation: " ++ rejection.message
  | .notFound missing => "not found: " ++ missing.message
  | .storage error => error.message
  | .notSupported operation => s!"operation not supported by this data layer: {operation}"

/-- Fail with the reason why a request is rejected. -/
def reject {α : Type} (rejection : Rejection) : Except Error α := .error (.validation rejection)

end RecordStore
