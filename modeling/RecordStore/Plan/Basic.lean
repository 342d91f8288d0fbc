import RecordStore.Predicate.Basic
import RecordStore.Request
import RecordStore.Table.Basic

/-!
# Plans

What is read for one request: the rows of a table that satisfy a predicate, in an order, cut to a
page, with some of the columns and some of the lists that link tables hold.
-/

namespace RecordStore

structure SortKey where
  column : String
  direction : SortDirection
deriving DecidableEq

structure Plan where
  table : Table
  predicate : Predicate
  columns : List String
  /-- the lists to load from link tables -/
  relations : List String
  order : List SortKey
  limit : Option Nat
  offset : Nat

/-- All columns and no lists of the rows that satisfy a predicate, in the order of the key. -/
def Plan.scan (table : Table) (predicate : Predicate) : Plan where
  table := table
  predicate := predicate
  columns := table.columnNames
  relations := []
  order := [⟨table.primaryKey, .asc⟩]
  limit := none
  offset := 0

end RecordStore
