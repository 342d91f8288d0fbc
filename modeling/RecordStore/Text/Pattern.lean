import RecordStore.Text.Fold

/-!
# Text patterns

A pattern describes whole texts: `%` stands for any run of characters, `_` for exactly one, and a
backslash takes the character after it literally. A backslash at the end of a pattern stands for
nothing.

* `tokens` reads a pattern.
* `accepts` follows all ways to spread a text over the tokens at once: it keeps the list of the
  rests that may remain, longest first, so that a run of any length adds the tails of the first.
* `escape` writes a text so that it stands for itself in a pattern.
-/

namespace RecordStore.Text

/-- One step of a pattern. -/
inductive PatternToken where
  | run
  | one
  | literal (c : Char)
deriving DecidableEq

namespace Pattern

/-- The steps that a pattern describes. -/
def tokens : List Char → List PatternToken
  | [] => []
  | '%' :: rest => .run :: tokens rest
  | '_' :: rest => .one :: tokens rest
  | ['\\'] => []
  | '\\' :: c :: rest => .literal c :: tokens rest
  | c :: rest => .literal c :: tokens rest

/-- The rest of a text after its first character, if `accept` takes that character. -/
def takeOne (accept : Char → Bool) : List Char → Option (List Char)
  | [] => none
  | c :: rest => if accept c then some rest else none

/-- All rests of a text, from the whole to the empty one. -/
def suffixes : List Char → List (List Char)
  | [] => [[]]
  | c :: rest => (c :: rest) :: suffixes rest

/-- The rests that may remain after one more token. The rests are suffixes of one text, longest
first, so the suffixes of the first are all there are. -/
def advance (same : Char → Char → Bool) (rests : List (List Char)) : PatternToken → List (List Char)
  | .run => match rests with
    | [] => []
    | longest :: _ => suffixes longest
  | .one => rests.filterMap (takeOne fun _ => true)
  | .literal c => rests.filterMap (takeOne (same c))

/-- Whether the tokens can be spread over the whole text, where `same` compares a literal with a
character. -/
def accepts (same : Char → Char → Bool) (ts : List PatternToken) (text : List Char) : Bool :=
  (ts.foldl (advance same) [text]).any List.isEmpty

/-- Whether a text is one that a pattern describes. -/
def isMatch (same : Char → Char → Bool) (pattern text : String) : Bool :=
  accepts same (tokens pattern.toList) text.toList

/-- Whether a text is one that a pattern describes, letter for letter. -/
def matchesExactly (pattern text : String) : Bool := isMatch (· == ·) pattern text

/-- Whether a text is one that a pattern describes apart from the case of letters. -/
def matchesAnyCase (pattern text : String) : Bool := isMatch sameLetter pattern text

/-- Whether a character means more than itself in a pattern. -/
def isSpecial (c : Char) : Bool := c == '%' || c == '_' || c == '\\'

/-- The pattern in which each character stands for itself. -/
def escapeChars : List Char → List Char
  | [] => []
  | c :: rest => if isSpecial c then '\\' :: c :: escapeChars rest else c :: escapeChars rest

/-- The pattern that describes just the given text. -/
def escape (s : String) : String := String.ofList (escapeChars s.toList)

end Pattern

end RecordStore.Text
