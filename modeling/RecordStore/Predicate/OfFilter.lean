import RecordStore.Double.Reader
import RecordStore.Filter
import RecordStore.Predicate.Basic
import RecordStore.Table.Basic
import RecordStore.Text.Blank

/-!
# From filters to predicates

A filter is judged against the table of its resource and becomes a predicate on the rows of the
table. Text that is given for a number or a truth value is taken for what it spells
(`ColumnType.interpret`).

`Predicate.ofFilter` is the conjunction of the filter, of the filter of the datasource, and of the
rule that deleted rows are hidden; the rule gives way when deleted rows are asked for, or when
either filter is about the flag itself.
-/

namespace RecordStore

/-- Who filters: a client is held to the allowed filters, a lookup is not. -/
inductive FilterSource where
  | client
  | lookup
deriving DecidableEq

/-- The value as the column's type would have it, if it is a text that spells such a value. -/
def ColumnType.interpret (type : ColumnType) (v : Value) : Value :=
  match type, v with
  | .integer, .string s =>
    match Text.integer? (Text.trimChars s.toList) with
    | some n => if isSigned64 n then .int n else v
    | none => v
  | .float, .string s =>
    match Double.read (Text.trimChars s.toList) with
    | some x => .float x
    | none => v
  | .boolean, .string s =>
    match Text.lowerAscii s with
    | "true" => .bool true
    | "false" => .bool false
    | _ => v
  | _, _ => v

namespace Predicate

/-- The value with which a column is compared. -/
def scalar (field : String) (type : ColumnType) (v : Value) : Except Error Value :=
  let v := type.interpret v
  if type ≠ .json ∧ (v.isArray || v.isObject) = true then reject (.notScalar field)
  else if type.accepts v then .ok v
  else reject (.typeMismatch field)

/-- The list with whose items a column is compared. -/
def listOperand (field : String) (type : ColumnType) : Value → Except Error Value
  | .array items => (items.mapM (scalar field type)).map .array
  | _ => reject (.listExpected field)

/-- The pattern with which a column is compared. -/
def patternOperand (field : String) (type : ColumnType) : Value → Except Error Value
  | .string s => if type = .text then .ok (.string s) else reject (.notTextField field)
  | _ => if type = .text then reject (.patternNotText field) else reject (.notTextField field)

/-- The scalar with which a column is compared; nothing is before or after null. -/
def scalarOperand (field : String) (type : ColumnType) (op : Operator) (v : Value) :
    Except Error Value := do
  let v ← scalar field type v
  if op.ordersValues && v.isNull then reject (.orderWithNull field) else return v

/-- The value with which an operator compares a column. -/
def operand (field : String) (type : ColumnType) (op : Operator) (v : Value) : Except Error Value :=
  if op = .isIn then listOperand field type v
  else if op.takesPattern then patternOperand field type v
  else scalarOperand field type op v

/-- The comparison that a filter entry asks for. -/
def ofEntry (table : Table) (entry : FilterEntry) : Except Error Predicate :=
  match table.column? entry.field with
  | none => reject (.unknownFilterField entry.field)
  | some column =>
    if column.type = .json ∧ (entry.op = .isIn ∨ entry.op.ordersValues = true) then
      reject (.documentOperator entry.field)
    else
      (operand entry.field column.type entry.op entry.value).map
        (Predicate.compare column.name entry.op)

/-- The comparison that an entry of a client or of a lookup asks for. -/
def ofSourceEntry (table : Table) (source : FilterSource) (entry : FilterEntry) :
    Except Error Predicate :=
  if source = .client ∧ table.allowedFilters.allows entry.field = false then
    reject (.filterNotAllowed entry.field)
  else ofEntry table entry

/-- The rule that deleted rows are hidden, where it applies. -/
def visibility (table : Table) (filter defaults : Filter) (showDeleted : Bool) : List Predicate :=
  match table.deletedColumn with
  | some deleted =>
    if !showDeleted && !filter.references deleted && !defaults.references deleted then
      [.eq deleted (.bool false)]
    else []
  | none => []

/-- The condition of a filter on the rows of a resource. -/
def ofFilter (table : Table) (filter : Filter) (source : FilterSource) (showDeleted : Bool) :
    Except Error Predicate := do
  let asked ← filter.mapM (ofSourceEntry table source)
  let defaults := Filter.ofRecord table.defaultFilter
  let given ← defaults.mapM (ofEntry table)
  return .all (asked ++ given ++ visibility table filter defaults showDeleted)

end Predicate

end RecordStore
