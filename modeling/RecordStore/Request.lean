import RecordStore.Filter
import RecordStore.Text.Blank

/-!
# Requests

What a client asks of a resource: a filter, a sort, a projection and a page. The texts of a request
are read here; what they say about the resource is judged by `Plan.ofRequest`.

A sort is written as names with commas between them, a minus standing for a descending one, or as a
list of pairs of a name and `1` or `-1`, in JSON or with round brackets and single quotes.
-/

namespace RecordStore

inductive SortDirection where
  | asc
  | desc
deriving DecidableEq

/-- Ascending is written `1`, descending `-1`. -/
def SortDirection.ofInt? (n : Int) : Option SortDirection :=
  if n = 1 then some .asc else if n = -1 then some .desc else none

/-- Fields with the flag whether they are included. -/
abbrev Projection := List (String × Bool)

structure Pagination where
  maxResults : Option Nat := none
  /-- counted from one; zero is the first page too -/
  page : Nat := 0
deriving DecidableEq

/-- The texts of a request. -/
structure RawRequest where
  filter : Option String := none
  sort : Option String := none
  projection : Option String := none
  maxResults : Option Nat := none
  page : Option Nat := none
  showDeleted : Bool := false

structure Request where
  filter : Filter := []
  sort : List (String × SortDirection) := []
  projection : Option Projection := none
  pagination : Pagination := {}
  showDeleted : Bool := false

namespace SortText

/-- The parts of a text between commas. -/
def commaParts : List Char → List (List Char)
  | [] => [[]]
  | c :: rest =>
    match commaParts rest with
    | [] => [[c]]
    | part :: parts => if c == ',' then [] :: part :: parts else (c :: part) :: parts

/-- A character of a list of pairs as it is written in JSON. -/
def jsonChar : Char → Char
  | '(' => '['
  | ')' => ']'
  | '\'' => '"'
  | c => c

/-- A pair of a name and a whole number. -/
def pair? : Value → Option (String × Int)
  | .array [.string field, .int direction] =>
    if isSigned64 direction then some (field, direction) else none
  | _ => none

/-- The pairs that a list of pairs writes. -/
def pairs? (text : String) : Option (List (String × Int)) :=
  match Json.read (String.ofList (text.toList.map jsonChar)) with
  | some (.array items) => items.mapM pair?
  | _ => none

def direct (pair : String × Int) : Except Error (String × SortDirection) :=
  match SortDirection.ofInt? pair.2 with
  | some direction => .ok (pair.1, direction)
  | none => reject (.sortDirection pair.2 pair.1)

/-- One name of a sort in text, from the trimmed text. -/
def name (text : String) (part : List Char) : Except Error (String × SortDirection) :=
  let (field, direction) : List Char × SortDirection := match Text.trimChars part with
    | '-' :: field => (field, .desc)
    | field => (field, .asc)
  if field.isEmpty then reject (.unparsableSort text) else .ok (String.ofList field, direction)

/-- The sort that a text writes. -/
def read (text : String) : Except Error (List (String × SortDirection)) :=
  let text := Text.trim text
  match text.toList with
  | [] => .ok []
  | '[' :: _ =>
    match pairs? text with
    | some pairs => pairs.mapM direct
    | none => reject (.unparsableSort text)
  | cs => (commaParts cs).mapM (name text)

end SortText

namespace Projection

/-- Whether a field is included: a truth value, or the numbers one and zero. -/
def flag (entry : String × Value) : Except Error (String × Bool) :=
  match entry.2 with
  | .bool b => .ok (entry.1, b)
  | .int n =>
    if n = 1 then .ok (entry.1, true)
    else if n = 0 then .ok (entry.1, false)
    else reject (.projectionFlag entry.1)
  | _ => reject (.projectionFlag entry.1)

def ofRecord (r : Record) : Except Error Projection := r.entries.mapM flag

/-- The projection that a text writes. -/
def ofText (text : String) : Except Error Projection :=
  match Json.read text with
  | some (.object members) => members.mapM flag
  | _ => reject .unparsableProjection

end Projection

namespace Request

/-- The filter of a request; a blank text is none. -/
def filterOfText (text : Option String) : Except Error Filter :=
  match text.map Text.trim with
  | some text => if text == "" then .ok [] else Filter.ofText text
  | none => .ok []

/-- The request that texts write. Of several that cannot be read, the filter is reported before the
sort, and the sort before the projection. -/
def ofRaw (raw : RawRequest) : Except Error Request := do
  let filter ← filterOfText raw.filter
  let sort ← (raw.sort.map SortText.read).getD (.ok [])
  let projection ← raw.projection.mapM Projection.ofText
  return {
    filter := filter
    sort := sort
    projection := projection
    pagination := ⟨raw.maxResults, raw.page.getD 1⟩
    showDeleted := raw.showDeleted
  }

end Request

end RecordStore
