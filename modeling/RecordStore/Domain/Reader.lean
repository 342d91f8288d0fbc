import RecordStore.Domain.Basic
import RecordStore.Json.Reader
import RecordStore.SchemaError

/-!
# Reading domain documents

A domain is written as a JSON object of resources. A structure (a resource, a field, a datasource, a
relation) is an object of its parts, of which unknown ones are skipped and none may be repeated, or
an array of its parts in order, from which parts may be missing at the end. A part that may be
missing for good may also be null.

Names of resources, and names of fields within one resource, may not be repeated. Such a repetition
is reported by its name, and any other fault only as an unreadable document; reading goes through
the document in order and stops at the first fault of either kind. A repetition is noticed when the
repeated entry has been read.
-/

namespace RecordStore

open Json

namespace Domain

/-- A result of reading, or the first fault. -/
abbrev Reading (α : Type) := Except LoadFault α

variable {α σ : Type}

/-! ## Plain values -/

/-- A result that may be missing because the document is at fault. -/
def orUnreadable : Option α → Reading α
  | some a => .ok a
  | none => .error .unreadable

/-- Fail where the text broke off inside a container. -/
def expectClosed (closed : Bool) : Reading Unit :=
  if closed then .ok () else .error .unreadable

def readBool : Node → Reading Bool
  | .bool b => .ok b
  | _ => .error .unreadable

def readText : Node → Reading String
  | .string text => orUnreadable text
  | _ => .error .unreadable

/-- A whole number within bounds; a literal with a point or an exponent is none, nor is `-0`. -/
def readInteger (least greatest : Int) : Node → Reading Int
  | .number literal =>
    match literal.value? with
    | some (.int n) => if least ≤ n ∧ n ≤ greatest then .ok n else .error .unreadable
    | _ => .error .unreadable
  | _ => .error .unreadable

/-- A length: an unsigned number of 32 bits. -/
def readLength (node : Node) : Reading Nat :=
  (readInteger 0 (Nat.pow 2 32 - 1) node).map Int.toNat

def readSigned64 : Node → Reading Int := readInteger (-Nat.pow 2 63) (Nat.pow 2 63 - 1)

/-- A part that may be null. -/
def readOptional (read : Node → Reading α) : Node → Reading (Option α)
  | .null => .ok none
  | node => (read node).map some

def readList (read : Node → Reading α) : Node → Reading (List α)
  | .array items closed => do
    let values ← items.mapM read
    expectClosed closed
    return values
  | _ => .error .unreadable

/-- The containers that stand around a data value of a field and of a datasource. -/
def fieldDepth : Nat := 4

def datasourceDepth : Nat := 3

/-- The default of a field, any data value. -/
def readDefault (node : Node) : Reading Value := orUnreadable (node.value? (maxDepth - fieldDepth))

/-- A filter or a projection of a datasource: an object of data values. -/
def readRecord (node : Node) : Reading Record :=
  match node.value? (maxDepth - datasourceDepth) with
  | some (.object members) => .ok (NameMap.ofList members)
  | _ => .error .unreadable

/-- An item of a default sort: a field and a number, in an array of two. -/
def readSortItem : Node → Reading (String × Int)
  | .array [field, direction] closed => do
    let field ← readText field
    let direction ← readSigned64 direction
    expectClosed closed
    return (field, direction)
  | _ => .error .unreadable

/-! ## Structures -/

/-- A part of a structure: its name, whether it must be there, and how it changes the structure. -/
structure Part (σ : Type) where
  name : String
  required : Bool
  read : Node → σ → Reading σ

/-- A part that may be left out. -/
def optional (name : String) (read : Node → Reading α) (set : σ → α → σ) : Part σ :=
  ⟨name, false, fun node s => (read node).map (set s)⟩

/-- A part that must be there. -/
def mandatory (name : String) (read : Node → Reading α) (set : σ → α → σ) : Part σ :=
  ⟨name, true, fun node s => (read node).map (set s)⟩

/-- Read one member of a structure, given the names read so far. -/
def readMember (parts : List (Part σ)) (state : σ × List String) (member : Option String × Node) :
    Reading (σ × List String) := do
  let name ← orUnreadable member.1
  match parts.find? (·.name == name) with
  | none => return state
  | some part =>
    if state.2.contains name then .error .unreadable
    else
      let s ← part.read member.2 state.1
      return (s, name :: state.2)

/-- Read a structure that is given as an object. -/
def readMembers (parts : List (Part σ)) (initial : σ) (members : List (Option String × Node))
    (closed : Bool) : Reading σ := do
  let (s, names) ← members.foldlM (readMember parts) (initial, [])
  expectClosed closed
  if parts.all fun part => !part.required || names.contains part.name then return s
  else .error .unreadable

/-- Read a structure that is given as an array. -/
def readItems (parts : List (Part σ)) (initial : σ) (items : List Node) (closed : Bool) :
    Reading σ := do
  let s ← (parts.zip items).foldlM (fun s (part, node) => part.read node s) initial
  expectClosed closed
  if parts.length < items.length then .error .unreadable
  else if (parts.drop items.length).any (·.required) then .error .unreadable
  else return s

def readStructure (parts : List (Part σ)) (initial : σ) : Node → Reading σ
  | .object members closed => readMembers parts initial members closed
  | .array items closed => readItems parts initial items closed
  | _ => .error .unreadable

/-! ## Named entries -/

/-- Read one more entry; its name must be new. -/
def readEntry (read : Node → Reading α) (m : NameMap α) (member : Option String × Node) :
    Reading (NameMap α) := do
  let name ← orUnreadable member.1
  let value ← read member.2
  if m.contains name then .error (.duplicateName name) else return m.insert name value

/-- An object whose names are all different. -/
def readEntries (read : Node → Reading α) : Node → Reading (NameMap α)
  | .object members closed => do
    let m ← members.foldlM (readEntry read) {}
    expectClosed closed
    return m
  | _ => .error .unreadable

/-! ## The parts of a domain -/

def relationParts : List (Part String) := [mandatory "resource" readText fun _ name => name]

def fieldParts : List (Part Field) := [
  mandatory "type" readText fun s v => { s with typeName := v },
  optional "required" readBool fun s v => { s with required := v },
  optional "unique" readBool fun s v => { s with unique := v },
  optional "nullable" (readOptional readBool) fun s v => { s with nullable := v },
  optional "default" (readOptional readDefault) fun s v => { s with default? := v },
  optional "primary_key" readBool fun s v => { s with primaryKey := v },
  optional "minlength" (readOptional readLength) fun s v => { s with minLength := v },
  optional "maxlength" (readOptional readLength) fun s v => { s with maxLength := v },
  optional "data_relation" (readOptional (readStructure relationParts ""))
    fun s v => { s with target := v }]

def datasourceParts : List (Part Datasource) := [
  optional "source" (readOptional readText) fun s v => { s with source := v },
  optional "filter" (readOptional readRecord) fun s v => { s with filter := v },
  optional "projection" (readOptional readRecord) fun s v => { s with projection := v },
  optional "default_sort" (readOptional (readList readSortItem))
    fun s v => { s with defaultSort := v }]

def readField : Node → Reading Field := readStructure fieldParts { typeName := "" }

def resourceParts : List (Part Resource) := [
  optional "schema" (readEntries readField) fun s v => { s with fields := v },
  optional "soft_delete" readBool fun s v => { s with softDelete := v },
  optional "allowed_filters" (readList readText) fun s v => { s with allowedFilters := v },
  optional "auto_fields" (readList readText) fun s v => { s with autoFields := v },
  optional "datasource" (readOptional (readStructure datasourceParts {}))
    fun s v => { s with datasource := v },
  optional "pagination" readBool fun s v => { s with paginated := v }]

def readResource : Node → Reading Resource := readStructure resourceParts {}

/-- The domain that a document writes. -/
def ofDocument (document : Document) : Reading Domain := do
  let root ← orUnreadable document.root
  let domain ← readEntries readResource root
  expectClosed document.ended
  return domain

/-- The domain that a text writes. -/
def ofText (text : String) : Reading Domain := ofDocument (Document.ofText text)

end Domain

end RecordStore
