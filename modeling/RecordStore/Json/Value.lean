import RecordStore.Double.Rounding
import RecordStore.NameMap

/-!
# Data values

The values that records hold and requests bring. Whole numbers and doubles are kept apart: `1` and
`1.0` are different values, though a column may compare them as numbers. The members of an object
keep their order, but the order says nothing about equality: values are the `same` when their
canonical forms are.
-/

namespace RecordStore

inductive Value where
  | null
  | bool (b : Bool)
  | int (n : Int)
  | float (x : Double)
  | string (s : String)
  | array (items : List Value)
  | object (members : List (String × Value))
deriving Inhabited

/-- A stored row or a document: values by field name, in order. -/
abbrev Record := NameMap Value

/-- Whether a whole number is a signed number of 64 bits. -/
def isSigned64 (n : Int) : Bool := -Nat.pow 2 63 ≤ n && n < Nat.pow 2 63

/-- The greatest unsigned number of 64 bits. -/
def maxUnsigned64 : Nat := Nat.pow 2 64 - 1

namespace Value

mutual

/-- Whether two values are alike, the order of members included. -/
def alike : Value → Value → Bool
  | .null, .null => true
  | .bool a, .bool b => a == b
  | .int a, .int b => a == b
  | .float a, .float b => a == b
  | .string a, .string b => a == b
  | .array xs, .array ys => alikeItems xs ys
  | .object xs, .object ys => alikeMembers xs ys
  | _, _ => false

def alikeItems : List Value → List Value → Bool
  | [], [] => true
  | x :: xs, y :: ys => alike x y && alikeItems xs ys
  | _, _ => false

def alikeMembers : List (String × Value) → List (String × Value) → Bool
  | [], [] => true
  | (m, x) :: xs, (n, y) :: ys => m == n && alike x y && alikeMembers xs ys
  | _, _ => false

end

mutual

/-- Values are alike in the decided sense exactly if they are equal; by recursion on the value,
beside its items and its members. -/
theorem alike_iff : ∀ a b : Value, alike a b = true ↔ a = b
  | .null, b => by cases b <;> simp [alike]
  | .bool _, b => by cases b <;> simp [alike]
  | .int _, b => by cases b <;> simp [alike]
  | .float _, b => by cases b <;> simp [alike]
  | .string _, b => by cases b <;> simp [alike]
  | .array xs, b => by
    cases b with
    | array ys => simp [alike, alikeItems_iff xs ys]
    | _ => simp [alike]
  | .object xs, b => by
    cases b with
    | object ys => simp [alike, alikeMembers_iff xs ys]
    | _ => simp [alike]

theorem alikeItems_iff : ∀ xs ys : List Value, alikeItems xs ys = true ↔ xs = ys
  | [], ys => by cases ys <;> simp [alikeItems]
  | x :: xs, ys => by
    cases ys with
    | nil => simp [alikeItems]
    | cons y ys => simp [alikeItems, alike_iff x y, alikeItems_iff xs ys]

theorem alikeMembers_iff : ∀ xs ys : List (String × Value), alikeMembers xs ys = true ↔ xs = ys
  | [], ys => by cases ys <;> simp [alikeMembers]
  | (m, x) :: xs, ys => by
    cases ys with
    | nil => simp [alikeMembers]
    | cons y ys =>
      obtain ⟨n, y⟩ := y
      simp [alikeMembers, alike_iff x y, alikeMembers_iff xs ys]

end

instance : DecidableEq Value := fun a b => decidable_of_iff _ (alike_iff a b)

/-- Put a member before the first whose name comes after its own. -/
def placeMember (member : String × Value) : List (String × Value) → List (String × Value)
  | [] => [member]
  | other :: rest =>
    if member.1 < other.1 then member :: other :: rest else other :: placeMember member rest

mutual

/-- The value with the members of its objects in the order of their names, and zero without its
sign. -/
def canonical : Value → Value
  | .float x => .float x.withoutZeroSign
  | .array items => .array (canonicalItems items)
  | .object members => .object (canonicalMembers members)
  | v => v

def canonicalItems : List Value → List Value
  | [] => []
  | v :: rest => canonical v :: canonicalItems rest

def canonicalMembers : List (String × Value) → List (String × Value)
  | [] => []
  | (name, v) :: rest => placeMember (name, canonical v) (canonicalMembers rest)

end

/-- Equality of values, the order of members apart. The two zeros of doubles are equal. -/
def same (a b : Value) : Bool := a.canonical = b.canonical

/-- Whether two lists have the same items in the same order. -/
def sameItems (xs ys : List Value) : Bool := canonicalItems xs = canonicalItems ys

def isNull : Value → Bool
  | .null => true
  | _ => false

def isArray : Value → Bool
  | .array _ => true
  | _ => false

def isObject : Value → Bool
  | .object _ => true
  | _ => false

/-- The text of a string. -/
def text? : Value → Option String
  | .string s => some s
  | _ => none

def bool? : Value → Option Bool
  | .bool b => some b
  | _ => none

/-- A whole number of 64 bits with a sign. -/
def integer? : Value → Option Int
  | .int n => if isSigned64 n then some n else none
  | _ => none

/-- Any number, rounded to a double. -/
def double? : Value → Option Double
  | .int n => some (.ofInt n)
  | .float x => some x
  | _ => none

end Value

/-- The value under a name, or null when the record has none. -/
def Record.cell (r : Record) (name : String) : Value := (r.get? name).getD .null

end RecordStore
