/-!
# The text of a statement

A statement is put together from pieces that know what they stand for, and becomes text at the very
end. Names stand between double quotes and literals between single ones; a quote of the same kind
inside is written twice.
-/

namespace RecordStore.Sql

inductive Piece where
  /-- fixed text of the statement -/
  | word (text : String)
  /-- an identifier -/
  | name (name : String)
  /-- a string literal -/
  | literal (text : String)
  /-- a number -/
  | number (text : String)
  /-- the place of a parameter, counted from one -/
  | placeholder (n : Nat)
deriving DecidableEq

/-- The characters of a text with every quote written twice. -/
def doubled (quote : Char) : List Char → List Char
  | [] => []
  | c :: rest => if c = quote then quote :: quote :: doubled quote rest else c :: doubled quote rest

/-- A text between quotes. -/
def enclosed (quote : Char) (text : String) : List Char :=
  quote :: (doubled quote text.toList ++ [quote])

def Piece.render : Piece → List Char
  | .word text => text.toList
  | .name s => enclosed '"' s
  | .literal text => enclosed '\'' text
  | .number text => text.toList
  | .placeholder n => '$' :: Nat.toDigits 10 n

/-- The text that pieces make up. -/
def render (pieces : List Piece) : String := String.ofList (pieces.flatMap Piece.render)

/-- Lists of pieces with a fixed text between them. -/
def joined (separator : String) (parts : List (List Piece)) : List Piece :=
  List.intercalate [.word separator] parts

/-- A table in its database schema. -/
def qualified (schema table : String) : List Piece := [.name schema, .word ".", .name table]

end RecordStore.Sql
