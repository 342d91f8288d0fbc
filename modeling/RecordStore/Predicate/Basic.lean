import RecordStore.Json.Value
import RecordStore.Predicate.Operator

/-!
# Predicates

A condition on the rows of a table: a comparison of a column with a value, or a conjunction. The
empty conjunction holds of every row. `Predicate.all` builds a conjunction without nesting, as far
as its parts are not nested themselves.
-/

namespace RecordStore

inductive Predicate where
  | compare (column : String) (op : Operator) (value : Value)
  | and (parts : List Predicate)
deriving Inhabited

namespace Predicate

/-- The condition that holds of every row. -/
def always : Predicate := .and []

def eq (column : String) (value : Value) : Predicate := .compare column .eq value

/-- The parts of a conjunction, or the comparison itself. -/
def parts : Predicate → List Predicate
  | .and ps => ps
  | leaf => [leaf]

/-- The conjunction of conditions, with the parts of conjunctions in their place. -/
def all (ps : List Predicate) : Predicate :=
  match ps.flatMap parts with
  | [p] => p
  | flat => .and flat

def isAlways : Predicate → Bool
  | .and [] => true
  | _ => false

mutual

/-- The comparisons of a condition, from left to right. -/
def leaves : Predicate → List Predicate
  | .and ps => leavesOfAll ps
  | .compare column op value => [.compare column op value]

def leavesOfAll : List Predicate → List Predicate
  | [] => []
  | p :: ps => leaves p ++ leavesOfAll ps

end

theorem leavesOfAll_eq_flatMap (ps : List Predicate) : leavesOfAll ps = ps.flatMap leaves := by
  induction ps with
  | nil => rfl
  | cons p ps ih => rw [leavesOfAll, ih, List.flatMap_cons]

/-- The comparisons of a conjunction are those of its parts. -/
theorem leaves_and (ps : List Predicate) : (and ps).leaves = ps.flatMap leaves := by
  rw [leaves, leavesOfAll_eq_flatMap]

/-- The column that a comparison is about. -/
def column? : Predicate → Option String
  | .compare column _ _ => some column
  | .and _ => none

/-- Whether a comparison of the condition is about the column. -/
def references (p : Predicate) (column : String) : Bool :=
  p.leaves.any fun leaf => leaf.column? == some column

end Predicate

end RecordStore
