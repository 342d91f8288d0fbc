import RecordStore.Json.Node
import RecordStore.Double.Reader
import RecordStore.Json.Value

/-!
# Reading data values

What the tree of a JSON text means as a value. A whole number is kept as one when it fits 64 bits,
with or without a sign; any other number is a double, and so is `-0`. Of a repeated name the first
place and the last value count. A number beyond the doubles, half a surrogate pair, an open
container or too many nested ones are no value.
-/

namespace RecordStore.Json

/-- The most containers that may be nested. -/
def maxDepth : Nat := 127

/-- The number that a literal writes. -/
def NumberLiteral.value? (l : NumberLiteral) : Option Value :=
  let double := (Double.ofDecimal l.negative
    (Decimal.ofDigits l.whole (l.fraction.getD []) (l.exponent.getD 0))).map Value.float
  if l.fraction.isSome || l.exponent.isSome then double
  else
    let n := Text.digitsValue l.whole
    if l.negative then
      if n ≠ 0 ∧ n ≤ Nat.pow 2 63 then some (.int (-n)) else double
    else if n ≤ maxUnsigned64 then some (.int n) else double

namespace Node

mutual

/-- The value of a node in which at most `depth` containers are nested. -/
def value? (depth : Nat) : Node → Option Value
  | .null => some .null
  | .bool b => some (.bool b)
  | .number literal => literal.value?
  | .string text => text.map .string
  | .array items closed =>
    if depth = 0 || !closed then none else (values? (depth - 1) items).map .array
  | .object members closed =>
    if depth = 0 || !closed then none
    else (members? (depth - 1) members).map fun ms => .object (NameMap.ofList ms).entries

def values? (depth : Nat) : List Node → Option (List Value)
  | [] => some []
  | node :: rest => do
    let v ← value? depth node
    let vs ← values? depth rest
    return v :: vs

def members? (depth : Nat) : List (Option String × Node) → Option (List (String × Value))
  | [] => some []
  | (name, node) :: rest => do
    let name ← name
    let v ← value? depth node
    let vs ← members? depth rest
    return (name, v) :: vs

end

end Node

/-- The value that a whole text writes. -/
def read (text : String) : Option Value :=
  let document := Document.ofText text
  if document.ended then document.root.bind (Node.value? maxDepth) else none

end RecordStore.Json
