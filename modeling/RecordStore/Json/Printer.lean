import RecordStore.Double.Notation
import RecordStore.Json.Value
import RecordStore.Text.Integer

/-!
# Writing data values

The compact text of a value, without blanks: in a string the quote, the backslash and the control
characters are escaped, all else stands as it is.
-/

namespace RecordStore

namespace Json

def hexDigit (n : Nat) : Char := (Nat.digitChar n)

/-- A character as it stands in a string. -/
def escapedChar (c : Char) : List Char :=
  match c with
  | '"' => ['\\', '"']
  | '\\' => ['\\', '\\']
  | '\x08' => ['\\', 'b']
  | '\x0c' => ['\\', 'f']
  | '\n' => ['\\', 'n']
  | '\r' => ['\\', 'r']
  | '\t' => ['\\', 't']
  | c =>
    if c.toNat < 0x20 then
      ['\\', 'u', '0', '0', hexDigit (c.toNat / 16), hexDigit (c.toNat % 16)]
    else [c]

/-- A text between quotes. -/
def quoted (s : String) : List Char := '"' :: (s.toList.flatMap escapedChar ++ ['"'])

end Json

namespace Value

mutual

/-- The characters of a value. -/
def render : Value → List Char
  | .null => ['n', 'u', 'l', 'l']
  | .bool true => ['t', 'r', 'u', 'e']
  | .bool false => ['f', 'a', 'l', 's', 'e']
  | .int n => Text.ofInteger n
  | .float x => x.text.toList
  | .string s => Json.quoted s
  | .array items => '[' :: (renderItems items ++ [']'])
  | .object members => '{' :: (renderMembers members ++ ['}'])

/-- Items with commas between them. -/
def renderItems : List Value → List Char
  | [] => []
  | [v] => render v
  | v :: rest => render v ++ ',' :: renderItems rest

/-- Members with commas between them. -/
def renderMembers : List (String × Value) → List Char
  | [] => []
  | [(name, v)] => Json.quoted name ++ ':' :: render v
  | (name, v) :: rest => Json.quoted name ++ ':' :: (render v ++ ',' :: renderMembers rest)

end

/-- The compact text of a value. -/
def text (v : Value) : String := String.ofList v.render

instance : ToString Value := ⟨text⟩

end Value

end RecordStore
