/-!
# Identifiers

A name that may stand for a table or a column: a letter or an underscore, then letters, digits and
underscores, all of the ASCII range, and at most 63 bytes in all.
-/

namespace RecordStore.Text

/-- The longest name, in bytes, that a database keeps apart from others. -/
def maxIdentifierBytes : Nat := 63

def isLetter (c : Char) : Bool :=
  ('a' ≤ c && c ≤ 'z') || ('A' ≤ c && c ≤ 'Z')

def isDigit (c : Char) : Bool := '0' ≤ c && c ≤ '9'

/-- A character with which an identifier may begin. -/
def startsIdentifier (c : Char) : Bool := isLetter c || c == '_'

/-- A character that may follow in an identifier. -/
def continuesIdentifier (c : Char) : Bool := startsIdentifier c || isDigit c

/-- The shape of an identifier, without its length. -/
def hasIdentifierShape : List Char → Bool
  | [] => false
  | first :: rest => startsIdentifier first && rest.all continuesIdentifier

/-- Whether a name is an identifier. -/
def isIdentifier (name : String) : Bool :=
  decide (name.utf8ByteSize ≤ maxIdentifierBytes) && hasIdentifierShape name.toList

end RecordStore.Text
