import RecordStore.Error
import RecordStore.Json.Reader

/-!
# Filters

A filter is a conjunction of entries, each comparing a field with a value. It is written as an
object whose keys carry the operator: `age__lt` compares the field `age`, and a key without a known
suffix is equality with the field of that whole name. The suffix is what follows the last double
underscore.
-/

namespace RecordStore

structure FilterEntry where
  field : String
  op : Operator
  value : Value

abbrev Filter := List FilterEntry

namespace FilterKey

/-- The characters before and after the last double underscore. -/
def splitLast : List Char → Option (List Char × List Char)
  | [] => none
  | c :: rest =>
    match splitLast rest with
    | some (before, after) => some (c :: before, after)
    | none =>
      match c, rest with
      | '_', '_' :: after => some ([], after)
      | _, _ => none

/-- The characters before the first double underscore, or all of them. -/
def beforeFirst : List Char → List Char
  | [] => []
  | '_' :: '_' :: _ => []
  | c :: rest => c :: beforeFirst rest

/-- The field and the operator of a key. -/
def read (key : String) : String × Operator :=
  match splitLast key.toList with
  | some (field, suffixed) =>
    match Operator.ofSuffix? (String.ofList suffixed) with
    | some op => if field.isEmpty then (key, .eq) else (String.ofList field, op)
    | none => (key, .eq)
  | none => (key, .eq)

end FilterKey

/-- The entry that a key and its value write. -/
def FilterEntry.ofKey (key : String) (value : Value) : FilterEntry :=
  let (field, op) := FilterKey.read key
  ⟨field, op, value⟩

namespace Filter

/-- The entries of an object, in order. -/
def ofRecord (r : Record) : Filter := r.entries.map fun entry => .ofKey entry.1 entry.2

/-- The filter that a text writes; only an object does. -/
def ofText (text : String) : Except Error Filter :=
  match Json.read text with
  | some (.object members) => .ok (members.map fun entry => .ofKey entry.1 entry.2)
  | some _ => reject .whereNotObject
  | none => reject .unparsableWhere

/-- The filter that asks for both. -/
def and (f g : Filter) : Filter := f ++ g

/-- Whether an entry compares the field. -/
def references (f : Filter) (field : String) : Bool := f.any (·.field == field)

/-- The value with which the first equality on the field compares. -/
def equalityValue? (f : Filter) (field : String) : Option Value :=
  (f.find? fun e => e.field == field && e.op == .eq).map FilterEntry.value

end Filter

end RecordStore
