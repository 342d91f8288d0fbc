/-!
# Operators of a filter

How a filter compares a field with a value, and the suffix that a key carries for it. Equality has
no suffix.
-/

namespace RecordStore

inductive Operator where
  | eq
  | ne
  | lt
  | lte
  | gt
  | gte
  | like
  | ilike
  | startsWith
  | isIn
deriving DecidableEq, Inhabited

namespace Operator

/-- The operators that have a suffix. -/
def suffixes : List (String × Operator) := [
  ("ne", .ne), ("lt", .lt), ("lte", .lte), ("gt", .gt), ("gte", .gte), ("like", .like),
  ("ilike", .ilike), ("startswith", .startsWith), ("in", .isIn)]

def ofSuffix? (name : String) : Option Operator := suffixes.lookup name

/-- Whether the value is a text pattern. -/
def takesPattern : Operator → Bool
  | .like | .ilike | .startsWith => true
  | _ => false

def ordersValues : Operator → Bool
  | .lt | .lte | .gt | .gte => true
  | _ => false

/-- The operator in a message about a value that it cannot take. -/
def name : Operator → String
  | .eq => "Eq"
  | .ne => "Ne"
  | .lt => "Lt"
  | .lte => "Lte"
  | .gt => "Gt"
  | .gte => "Gte"
  | .like => "Like"
  | .ilike => "ILike"
  | .startsWith => "StartsWith"
  | .isIn => "In"

end Operator

end RecordStore
