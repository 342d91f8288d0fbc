import RecordStore.Predicate.Basic
import RecordStore.Sql.Bind
import RecordStore.Sql.Piece
import RecordStore.Table.Basic
import RecordStore.Text.Pattern

/-!
# Conditions of a statement

A predicate on the rows of a table becomes a condition of a statement: comparisons with null ask
whether a cell is null, a list is compared with `= ANY`, a text at the start of a cell becomes a
pattern, and every value goes into the parameters. An empty list holds nothing, so its condition is
`FALSE`.

`Condition.ofPredicate` collects the parameters in the order of their places; `Condition.pieces` is
the text, in which the parts of a conjunction stand in round brackets.
-/

namespace RecordStore.Sql

/-- A comparison of a column with one parameter. -/
inductive Comparator where
  | eq
  | ne
  | lt
  | lte
  | gt
  | gte
  | like
  | ilike
deriving DecidableEq

inductive Condition where
  | always
  | never
  | isNull (column : String)
  | isNotNull (column : String)
  | isAny (column : String) (place : Nat)
  | compare (column : String) (comparator : Comparator) (place : Nat)
  | and (parts : List Condition)

/-- A step that may add parameters to those of a statement. -/
abbrev Binding := StateT (List Bind) (Except StorageError)

/-- Add a parameter and return its place. -/
def push (bind : Bind) : Binding Nat := fun params => .ok (params.length + 1, params ++ [bind])

/-- The column of a table with the given name. -/
def columnOf (table : Table) (name : String) : Except StorageError Column :=
  match table.column? name with
  | some c => .ok c
  | none => .error (.encode name (.unknownColumn table.name))

def Comparator.symbol : Comparator → String
  | .eq => "="
  | .ne => "<>"
  | .lt => "<"
  | .lte => "<="
  | .gt => ">"
  | .gte => ">="
  | .like => "LIKE"
  | .ilike => "ILIKE"

/-- The comparison for an operator, if it has one value. -/
def Comparator.ofOperator? : Operator → Option Comparator
  | .eq => some .eq
  | .ne => some .ne
  | .lt => some .lt
  | .lte => some .lte
  | .gt => some .gt
  | .gte => some .gte
  | .like => some .like
  | .ilike => some .ilike
  | .startsWith => none
  | .isIn => none

namespace Condition

/-- The condition that a column compares with a value. -/
def ofComparison (c : Column) (op : Operator) (v : Value) : Binding Condition :=
  match op, v with
  | .eq, .null => return .isNull c.name
  | .ne, .null => return .isNotNull c.name
  | .isIn, .array items =>
    if items.isEmpty then return .never
    else do
      let place ← push (← Bind.ofValues c.name c.type items)
      return .isAny c.name place
  | .startsWith, .string s => do
    let place ← push (.text (some (Text.Pattern.escape s ++ "%")))
    return .compare c.name .like place
  | op, v =>
    match Comparator.ofOperator? op with
    | none => throw (.encode c.name (.wrongOperand v op))
    | some comparator => do
      let place ← push (← Bind.ofValue c.name c.type v)
      return .compare c.name comparator place

mutual

/-- The condition for a predicate on the rows of a table. -/
def ofPredicate (table : Table) : Predicate → Binding Condition
  | .compare column op v => do
    let c ← columnOf table column
    ofComparison c op v
  | .and [] => return .always
  | .and ps => .and <$> ofPredicates table ps

def ofPredicates (table : Table) : List Predicate → Binding (List Condition)
  | [] => return []
  | p :: ps => do
    let c ← ofPredicate table p
    let cs ← ofPredicates table ps
    return c :: cs

end

mutual

/-- The text of a condition. -/
def pieces : Condition → List Piece
  | .always => [.word "TRUE"]
  | .never => [.word "FALSE"]
  | .isNull column => [.name column, .word " IS NULL"]
  | .isNotNull column => [.name column, .word " IS NOT NULL"]
  | .isAny column place => [.name column, .word " = ANY(", .placeholder place, .word ")"]
  | .compare column comparator place =>
    [.name column, .word " ", .word comparator.symbol, .word " ", .placeholder place]
  | .and parts => conjunction parts

/-- The parts of a conjunction, each in round brackets. -/
def conjunction : List Condition → List Piece
  | [] => []
  | [c] => .word "(" :: (pieces c ++ [.word ")"])
  | c :: cs => .word "(" :: (pieces c ++ .word ") AND " :: conjunction cs)

end

end Condition

end RecordStore.Sql
