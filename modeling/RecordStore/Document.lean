import RecordStore.Table.Basic

/-!
# Documents

What a document must be to be stored as a row of a table and the lists beside it. A whole document
has a value for every field that needs one; the fields of any document exist, and their values are
of the right type and length. Required fields are looked at first, in the order of the table, then
the fields of the document in its own order.
-/

namespace RecordStore

namespace Document

/-- Whether a document lacks a value that the column needs. -/
def lacks (doc : Record) (c : Column) : Bool :=
  !c.hasDefault && (doc.cell c.name).isNull && (c.required || !c.nullable)

/-- The characters of a text or the items of a list. -/
def length? : Value → Option Nat
  | .string s => some s.length
  | .array items => some items.length
  | _ => none

/-- Check the length of a value that has one. -/
def checkLength (c : Column) (v : Value) : Except Error Unit :=
  match length? v with
  | none => .ok ()
  | some n => do
    match c.maxLength with
    | some greatest => if greatest < n then reject (.tooLong c.name greatest)
    | none => .ok ()
    match c.minLength with
    | some least => if n < least then reject (.tooShort c.name least)
    | none => .ok ()

/-- Check the value of a column. -/
def checkValue (c : Column) (v : Value) : Except Error Unit :=
  if v.isNull then
    if c.nullable then .ok () else reject (.nullField c.name)
  else if !c.type.accepts v then reject (.wrongType c.name c.type)
  else checkLength c v

/-- The type of the keys that a list holds. -/
def memberType (schema : Schema) (m : ListField) : Except Error ColumnType :=
  (schema.table m.target).map fun target => (target.keyColumn?.map Column.type).getD .integer

/-- Check the value of a list field: null, or keys of the target. -/
def checkMembers (schema : Schema) (m : ListField) (v : Value) : Except Error Unit :=
  match v with
  | .null => .ok ()
  | .array items => do
    let type ← memberType schema m
    if items.all fun item => !item.isNull && type.accepts item then .ok ()
    else reject (.wrongMember m.field type m.target)
  | _ => reject (.notList m.field)

/-- Check one field of a document. -/
def checkField (schema : Schema) (table : Table) (entry : String × Value) : Except Error Unit :=
  match table.column? entry.1 with
  | some c => checkValue c entry.2
  | none =>
    match table.listField? entry.1 with
    | some m => checkMembers schema m entry.2
    | none => reject (.unknownField entry.1)

/-- Check the fields that a document has. -/
def checkPartial (schema : Schema) (table : Table) (doc : Record) : Except Error Unit :=
  doc.entries.forM (checkField schema table)

/-- Check a whole document. -/
def check (schema : Schema) (table : Table) (doc : Record) : Except Error Unit :=
  match table.columns.find? (lacks doc) with
  | some c => reject (.missingField c.name)
  | none => checkPartial schema table doc

end Document

end RecordStore
