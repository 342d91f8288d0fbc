import RecordStore.Error

/-!
# Parameters of a statement

The values that a statement sends beside its text, each with the type of its column, so that a null
has a type too. A document column takes any value as it is; every other column takes the values that
its type accepts, and no others.
-/

namespace RecordStore.Sql

inductive Bind where
  | text (value : Option String)
  | bool (value : Option Bool)
  | integer (value : Option Int)
  | float (value : Option Double)
  | timestamp (value : Option Time.Instant)
  | json (value : Option Value)
  | texts (values : List String)
  | bools (values : List Bool)
  | integers (values : List Int)
  | floats (values : List Double)
  | timestamps (values : List Time.Instant)

namespace Bind

/-- What a value is for a column, or the fault that it is none. -/
def demand {α : Type} (column : String) (type : ColumnType) (v : Value) :
    Option α → Except StorageError α
  | some a => .ok a
  | none => .error (.encode column (.wrongType v type))

/-- The parameter for a null in a column. -/
def null : ColumnType → Bind
  | .text => .text none
  | .boolean => .bool none
  | .integer => .integer none
  | .float => .float none
  | .datetime => .timestamp none
  | .json => .json none

/-- The parameter for a value in a column. -/
def ofValue (column : String) (type : ColumnType) (v : Value) : Except StorageError Bind :=
  if v.isNull then .ok (null type)
  else match type with
    | .text => (demand column type v v.text?).map fun s => .text (some s)
    | .boolean => (demand column type v v.bool?).map fun b => .bool (some b)
    | .integer => (demand column type v v.integer?).map fun n => .integer (some n)
    | .float => (demand column type v v.double?).map fun x => .float (some x)
    | .datetime => (demand column type v v.instant?).map fun i => .timestamp (some i)
    | .json => .ok (.json (some v))

/-- The parameter for a list of values of a column; none of them may be null. -/
def ofValues (column : String) (type : ColumnType) (items : List Value) :
    Except StorageError Bind :=
  match type with
  | .text => (items.mapM fun v => demand column type v v.text?).map .texts
  | .boolean => (items.mapM fun v => demand column type v v.bool?).map .bools
  | .integer => (items.mapM fun v => demand column type v v.integer?).map .integers
  | .float => (items.mapM fun v => demand column type v v.double?).map .floats
  | .datetime => (items.mapM fun v => demand column type v v.instant?).map .timestamps
  | .json => .error (.encode column .listOnDocument)

end Bind

end RecordStore.Sql
