import RecordStore.Json.Token

/-!
# The tree of a JSON text

How the tokens of a text fit together, and nothing about what they mean: a node keeps the literals
of its numbers, the repetitions among its names, and strings that stand for no text.

A text need not be well formed to have a tree. The tree holds all that was complete before the first
fault, and the containers that the fault left open say so (`closed`). A reader that goes through the
tree in order therefore meets, of two mistakes in a text, the one that comes first.

The tokens are read one at a time with a stack of the containers that are still open (`Frame`).
-/

namespace RecordStore.Json

/-- A value as it is written. A name or a text is missing when its string stands for no text. -/
inductive Node where
  | null
  | bool (b : Bool)
  | number (literal : NumberLiteral)
  | string (text : Option String)
  | array (items : List Node) (closed : Bool)
  | object (members : List (Option String × Node)) (closed : Bool)
deriving Inhabited

/-- A text as far as it can be read: its first value, and whether nothing but blanks follows. -/
structure Document where
  root : Option Node
  ended : Bool

namespace Node

/-- A container that is still open: what is complete in it, last first, and for an object the name
whose value is being read. -/
inductive Frame where
  | items (done : List Node)
  | members (done : List (Option String × Node)) (key : Option String)

/-- What may come next. -/
inductive State where
  /-- a value -/
  | value (outer : List Frame)
  /-- the first item of an array, or its end -/
  | firstItem (outer : List Frame)
  /-- the first name of an object, or its end -/
  | firstKey (outer : List Frame)
  /-- a name, after the given members of an object -/
  | key (done : List (Option String × Node)) (outer : List Frame)
  /-- the colon after a name -/
  | colon (done : List (Option String × Node)) (key : Option String) (outer : List Frame)
  /-- a separator or the end of the innermost open container, after the given node -/
  | after (node : Node) (outer : List Frame)

/-- The container that ends here with the given last part. -/
def Frame.close (frame : Frame) (last : Option Node) (closed : Bool) : Node :=
  match frame with
  | .items done => .array (last.toList ++ done).reverse closed
  | .members done key => .object ((last.toList.map (key, ·)) ++ done).reverse closed

/-- The tree that is left when the text breaks off inside the given containers. -/
def abandon : Option Node → List Frame → Option Node
  | last, [] => last
  | last, frame :: outer => abandon (some (frame.close last false)) outer

/-- The tree that is left when the text breaks off in the given state. -/
def State.abandoned : State → Option Node
  | .value outer => abandon none outer
  | .firstItem outer => abandon (some (.array [] false)) outer
  | .firstKey outer => abandon (some (.object [] false)) outer
  | .key done outer => abandon (some (.object done.reverse false)) outer
  | .colon done _ outer => abandon (some (.object done.reverse false)) outer
  | .after node outer => abandon (some node) outer

/-- The state after the first token of a value. -/
def State.begin (outer : List Frame) : Token → Option State
  | .null => some (.after .null outer)
  | .bool b => some (.after (.bool b) outer)
  | .number literal => some (.after (.number literal) outer)
  | .string text => some (.after (.string text) outer)
  | .openBracket => some (.firstItem outer)
  | .openBrace => some (.firstKey outer)
  | _ => none

/-- The state after one more token, unless the token cannot stand there. -/
def State.next : State → Token → Option State
  | .value outer, t => begin outer t
  | .firstItem outer, .closeBracket => some (.after (.array [] true) outer)
  | .firstItem outer, t => begin (.items [] :: outer) t
  | .firstKey outer, .closeBrace => some (.after (.object [] true) outer)
  | .firstKey outer, .string name => some (.colon [] name outer)
  | .key done outer, .string name => some (.colon done name outer)
  | .colon done name outer, .colon => some (.value (.members done name :: outer))
  | .after node (.items done :: outer), .comma => some (.value (.items (node :: done) :: outer))
  | .after node (.members done name :: outer), .comma => some (.key ((name, node) :: done) outer)
  | .after node (.items done :: outer), .closeBracket =>
    some (.after (Frame.close (.items done) (some node) true) outer)
  | .after node (.members done name :: outer), .closeBrace =>
    some (.after (Frame.close (.members done name) (some node) true) outer)
  | _, _ => none

/-- Read the tokens of one value and report what is left of them. -/
def run : State → List Token → Option Node × List Token
  | .after node [], rest => (some node, rest)
  | s, [] => (s.abandoned, [])
  | s, t :: rest =>
    match s.next t with
    | some s' => run s' rest
    | none => (s.abandoned, t :: rest)

end Node

/-- The tree of the tokens. -/
def Document.ofTokens (ts : List Token) : Document :=
  match Node.run (.value []) ts with
  | (root, rest) => ⟨root, rest.isEmpty⟩

/-- The tree of a text. -/
def Document.ofText (text : String) : Document := ofTokens (Token.scan text.toList)

end RecordStore.Json
