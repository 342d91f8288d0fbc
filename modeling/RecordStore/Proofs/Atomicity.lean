import Mathlib.Data.List.Forall2
import RecordStore.Catalog
import RecordStore.Proofs.Change
import RecordStore.Proofs.Document
import RecordStore.Proofs.Run

/-!
# Changes happen as a whole or not at all

A transaction that fails is dropped with everything that its statements did, so a change that fails
leaves the store as it was. An insertion of several documents is one transaction for each of them:
if it fails, the documents before the one that was refused stay inserted. Documents are worked on in
place, so the refused one may be left with its numbers as doubles.

* **`Stamped`** — a document tells what the row stored for it has as key and as times.
* **`DiffersInDoubles`** — a document is another one with some numbers written as doubles.
* **`insertAll_error`** — an insertion that fails is an insertion that succeeds, then a document
  that is refused, then documents that nobody looked at.
-/

namespace RecordStore

open RecordStore.Action

/-! ## Numbers as doubles -/

namespace Change

/-- A record differs from another one at most in that numbers of columns of doubles are doubles. -/
structure DiffersInDoubles (table : Table) (r new : Record) : Prop where
  keys_eq : new.keys = r.keys
  cells : ∀ name, new.get? name = r.get? name
    ∨ ∃ c ∈ table.columns, c.name = name ∧ c.type = .float
      ∧ ∃ x, (r.get? name).bind Value.double? = some x ∧ new.get? name = some (.float x)

theorem DiffersInDoubles.refl (table : Table) (r : Record) : DiffersInDoubles table r r :=
  ⟨rfl, fun _ => .inl rfl⟩

/-- Numbers that are given for columns of doubles are all that changes. -/
theorem differsInDoubles_withDoubles (table : Table) (r : Record) :
    DiffersInDoubles table r (withDoubles table r) := by
  refine ⟨keys_withDoubles table r, fun name => ?_⟩
  rw [get?_withDoubles]
  split
  · rename_i hname
    obtain ⟨c, hc, hcname, htype⟩ := mem_doubleNames.1 hname
    cases hx : (r.get? name).bind Value.double? with
    | some x =>
      obtain ⟨v, hv, hdouble⟩ := Option.bind_eq_some_iff.1 hx
      refine .inr ⟨c, hc, hcname, htype, x, rfl, ?_⟩
      rw [hv, Option.map_some, Value.asDouble_of_double? hdouble]
    -- no number is given, and any other value stays as it is
    | none =>
      cases hv : r.get? name with
      | none => exact .inl rfl
      | some v =>
        rw [hv, Option.bind_some] at hx
        rw [Option.map_some, Value.asDouble_of_none hx]
        exact .inl rfl
  · exact .inl rfl

theorem differsInDoubles_refused (schema : Schema) (table : Table) (doc : Record) :
    DiffersInDoubles table doc (refused schema table doc) := by
  unfold refused
  split
  · exact differsInDoubles_withDoubles table doc
  · exact .refl table doc

end Change

/-! ## Insertions only add rows -/

/-- Rows are only added, at the end of their tables. -/
def Store.Grows (s s' : Store) : Prop := ∀ name, s.rows name <+: s'.rows name

theorem Store.Grows.refl (s : Store) : s.Grows s := fun _ => List.prefix_refl _

theorem Store.Grows.trans {a b c : Store} (hab : a.Grows b) (hbc : b.Grows c) : a.Grows c :=
  fun name => (hab name).trans (hbc name)

namespace Transaction

variable {now : Time.Instant} {table : Table} {record row : Record} {tx tx' : Transaction}

/-- An appended row stands at the end of its table. -/
theorem grows_of_append (h : Yields (append now table record) tx row tx') :
    tx.work.Grows tx'.work ∧ row ∈ tx'.work.rows table.name := by
  obtain ⟨-, t, next, ht, -, -, -, rfl⟩ := yields_append.1 h
  constructor
  · intro name
    rw [work_onto, Store.rows_put]
    split
    · rename_i heq
      rw [heq, Store.rows_of_get? ht]
      exact List.prefix_append _ _
    · exact List.prefix_refl _
  · simp [Store.rows_put]

end Transaction

namespace Change

variable {schema : Schema} {table : Table} {now : Time.Instant} {tx tx' : Transaction}

theorem grows_of_addLinks {m : ListField} {owner : Value} {members : List Value}
    (h : Yields (addLinks schema now m owner members) tx () tx') : tx.work.Grows tx'.work := by
  obtain ⟨link, -, hrun⟩ := yields_addLinks.1 h
  -- the invariant: the store has only grown since the links began
  refine forM_induction (P := fun mid => tx.work.Grows mid.work) ?_ (.refl _) hrun
  intro member _ mid mid' hmid hstep
  obtain ⟨id, hinsert⟩ := yields_discard.1 hstep
  obtain ⟨-, row, happend, -⟩ := Transaction.yields_insert.1 hinsert
  exact hmid.trans (Transaction.grows_of_append happend).1

/-! ## What an inserted document is told -/

/-- A document has the key, and the times, of a row that is stored. -/
def Stamped (s : Store) (table : Table) (id : Value) (doc : Record) : Prop :=
  doc.get? table.primaryKey = some id
    ∧ ∃ row ∈ s.rows table.name, row.cell table.primaryKey = id
      ∧ ∀ name ∈ stampColumns, doc.get? name = some (row.cell name)

theorem Stamped.of_grows {s s' : Store} {id : Value} {doc : Record} (h : Stamped s table id doc)
    (hgrows : s.Grows s') : Stamped s' table id doc := by
  obtain ⟨hkey, row, hrow, hid, htimes⟩ := h
  exact ⟨hkey, row, (hgrows table.name).subset hrow, hid, htimes⟩

/-- Both stamps are in the row that is inserted, given by the document or by the clock. -/
theorem get?_insertedRow (doc : Record) {name : String} (h : name ∈ stampColumns) :
    (insertedRow table now doc).get? name = some ((insertedRow table now doc).cell name) := by
  refine Record.get?_of_mem_keys ?_
  have hmissing (v : Value) (r : Record) (added other : String) :
      other ∈ (withMissing v r added).keys ↔ other = added ∨ other ∈ r.keys := by
    unfold withMissing
    split
    · rename_i hcontains
      rw [NameMap.contains_iff] at hcontains
      exact ⟨.inr, fun h => h.elim (fun heq => heq ▸ hcontains) id⟩
    · exact NameMap.mem_keys_insert r added other v
  unfold insertedRow
  -- both stamps were added unless they were there
  simp only [stampColumns, List.foldl_cons, List.foldl_nil, hmissing]
  simp only [stampColumns, List.mem_cons, List.not_mem_nil, or_false] at h
  rcases h with rfl | rfl
  · exact .inr (.inl rfl)
  · exact .inl rfl

/-- A column of the inserted row that the document or the clock gives is stored as it is given. -/
theorem cell_of_append {record row : Record}
    (h : Yields (Transaction.append now table record) tx row tx') {name : String}
    (hname : name ∈ record.keys) : row.cell name = record.cell name := by
  obtain ⟨-, t, next, -, hcolumns, hfill, -, -⟩ := Transaction.yields_append.1 h
  have hcolumn := (StoredTable.checkColumns_eq_ok_iff t record).1 hcolumns name hname
  have hgiven := StoredTable.fill_given t (.string now.text) record
    (Record.get?_of_mem_keys hname) hcolumn
  rw [hfill] at hgiven
  exact Record.cell_eq_of_get? hgiven

theorem get?_stamped (doc : Record) (id : Value) {name : String} (h : name ∈ stampColumns) :
    (stamped table now doc id).get? name = some ((insertedRow table now doc).cell name) := by
  have hne : createdColumn ≠ updatedColumn := by decide
  simp only [stampColumns, List.mem_cons, List.not_mem_nil, or_false] at h
  unfold stamped
  simp only [stampColumns, List.foldl_cons, List.foldl_nil]
  rcases h with rfl | rfl
  · rw [NameMap.get?_insert_of_ne _ _ hne, NameMap.get?_insert_self]
  · rw [NameMap.get?_insert_self]

theorem get?_stamped_of_not_mem (doc : Record) (id : Value) {name : String}
    (h : name ∉ stampColumns) :
    (stamped table now doc id).get? name
      = ((withDoubles table doc).insert table.primaryKey id).get? name := by
  simp only [stampColumns, List.mem_cons, List.not_mem_nil, or_false, not_or] at h
  unfold stamped
  simp only [stampColumns, List.foldl_cons, List.foldl_nil]
  rw [NameMap.get?_insert_of_ne _ _ h.2, NameMap.get?_insert_of_ne _ _ h.1]

/-- An inserted document is stamped with what is stored for it, and no row is lost. -/
theorem stamped_of_insert {doc new : Record} {id : Value}
    (h : Yields (insert schema table now doc) tx (id, new) tx') :
    tx.work.Grows tx'.work ∧ Stamped tx'.work table id new := by
  obtain ⟨-, ⟨mid, hinsert, hlinks⟩, rfl⟩ := yields_insert.1 h
  obtain ⟨-, row, happend, rfl⟩ := Transaction.yields_insert.1 hinsert
  obtain ⟨hgrows, hrow⟩ := Transaction.grows_of_append happend
  have hrest : mid.work.Grows tx'.work :=
    forM_induction (P := fun tx => mid.work.Grows tx.work)
      (fun _ _ _ _ hmid hstep => hmid.trans (grows_of_addLinks hstep)) (.refl _) hlinks
  have htimes (name : String) (hname : name ∈ stampColumns) :
      (insertedRow table now doc).cell name = row.cell name :=
    (cell_of_append happend
      ((NameMap.mem_keys_iff _ _).2 (by rw [get?_insertedRow doc hname]; rfl))).symm
  -- the links come after the row, and only add rows
  refine ⟨hgrows.trans hrest, Stamped.of_grows ⟨?_, row, hrow, rfl, ?_⟩ hrest⟩
  · -- a key under the name of a time is that time, in the row as in the document
    by_cases hkey : table.primaryKey ∈ stampColumns
    · rw [get?_stamped doc _ hkey, htimes _ hkey]
    · rw [get?_stamped_of_not_mem doc _ hkey, NameMap.get?_insert_self]
  · intro name hname
    rw [get?_stamped doc _ hname, htimes name hname]

end Change

/-! ## Insertions of several documents -/

namespace Catalog

variable {catalog : Catalog} {table : Table} {now : Time.Instant} {db : Database}

/-- The insertion of one document, as a transaction. -/
abbrev insertOne (catalog : Catalog) (table : Table) (now : Time.Instant) (doc : Record)
    (db : Database) : Except Error (Value × Record) × Database :=
  db.transact (Change.insert catalog.schema table now doc)

/-- If the first document is refused, it is left as a refused one, and nobody looks at those after
it. -/
theorem insertAll_cons_error {doc : Record} {docs : List Record} {e : Error}
    (h : (catalog.insertOne table now doc db).1 = .error e) :
    catalog.insertAll table now (doc :: docs) db
      = (⟨.error e, Change.refused catalog.schema table doc :: docs⟩,
        (catalog.insertOne table now doc db).2) := by
  rw [insertAll_cons]
  rcases hone : db.transact (Change.insert catalog.schema table now doc) with ⟨_ | _, db'⟩
  · rw [insertOne, hone] at h
    obtain rfl := Except.error.inj h
    rw [insertOne, hone]
  · simp [insertOne, hone] at h

/-- If the first document is inserted, the others are inserted into the database that it leaves. -/
theorem insertAll_cons_ok {doc new : Record} {docs : List Record} {id : Value}
    (h : (catalog.insertOne table now doc db).1 = .ok (id, new)) :
    catalog.insertAll table now (doc :: docs) db
      = (⟨(catalog.insertAll table now docs
        (catalog.insertOne table now doc db).2).1.ids.map (id :: ·),
          new :: (catalog.insertAll table now docs (catalog.insertOne table now doc db).2).1.docs⟩,
        (catalog.insertAll table now docs (catalog.insertOne table now doc db).2).2) := by
  rw [insertAll_cons]
  rcases hone : db.transact (Change.insert catalog.schema table now doc) with ⟨_ | ⟨id', new'⟩, db'⟩
  · simp [insertOne, hone] at h
  · rw [insertOne, hone] at h
    obtain ⟨rfl, rfl⟩ := Prod.mk.inj (Except.ok.inj h)
    rw [insertOne, hone]

/-- A document that is inserted makes one transaction, whose work is what is stored. -/
theorem yields_of_insertOne {doc new : Record} {id : Value}
    (h : (catalog.insertOne table now doc db).1 = .ok (id, new)) :
    ∃ tx, Yields (Change.insert catalog.schema table now doc) (.begin db) (id, new) tx
      ∧ (catalog.insertOne table now doc db).2.store = tx.work := by
  obtain ⟨tx, hrun, hdb⟩ := Database.transact_ok h
  exact ⟨tx, hrun, by rw [insertOne, hdb]⟩

/-- A document that is refused leaves the store as it is. -/
theorem store_insertOne_error {doc : Record} {e : Error}
    (h : (catalog.insertOne table now doc db).1 = .error e) :
    (catalog.insertOne table now doc db).2.store = db.store :=
  Database.store_transact_error (Change.keepsCommitted_insert doc) h

theorem snd_insertAll_singleton (catalog : Catalog) (table : Table) (now : Time.Instant)
    (doc : Record) (db : Database) :
    (catalog.insertAll table now [doc] db).2 = (catalog.insertOne table now doc db).2 := by
  cases h : (catalog.insertOne table now doc db).1 with
  | error e => rw [insertAll_cons_error h]
  | ok new => rw [insertAll_cons_ok h]; rfl

/-- Documents that are all inserted are inserted one by one, and each is stamped. -/
theorem insertAll_ok {docs : List Record} {ids : List Value}
    (h : (catalog.insertAll table now docs db).1.ids = .ok ids) :
    (catalog.insertAll table now docs db).2
        = docs.foldl (fun db doc => (catalog.insertAll table now [doc] db).2) db
      ∧ (catalog.insertAll table now docs db).1.docs = docs.zipWith (Change.stamped table now) ids
      ∧ ids.length = docs.length
      ∧ db.store.Grows (catalog.insertAll table now docs db).2.store
      ∧ List.Forall₂ (Change.Stamped (catalog.insertAll table now docs db).2.store table) ids
          (catalog.insertAll table now docs db).1.docs := by
  -- on the documents, from the database that the first of them leaves
  induction docs generalizing db ids with
  | nil =>
    obtain rfl : [] = ids := Except.ok.inj h
    exact ⟨rfl, rfl, rfl, .refl _, .nil⟩
  | cons doc docs ih =>
    rw [List.foldl_cons, snd_insertAll_singleton]
    cases hone : (catalog.insertOne table now doc db).1 with
    | error e => simp [insertAll_cons_error hone] at h
    | ok stamped =>
      obtain ⟨id, new⟩ := stamped
      rw [insertAll_cons_ok hone] at h ⊢
      obtain ⟨rest, hrest, rfl⟩ := map_eq_ok_iff.1 h
      obtain ⟨hfold, hdocs, hlength, hgrows, hstamped⟩ := ih hrest
      obtain ⟨tx, hrun, hstore⟩ := yields_of_insertOne hone
      obtain ⟨-, -, hnewdoc⟩ := Change.yields_insert.1 hrun
      obtain ⟨hfirst, hnew⟩ := Change.stamped_of_insert hrun
      rw [← hstore] at hfirst hnew
      refine ⟨hfold, ?_, congrArg Nat.succ hlength, hfirst.trans hgrows,
        .cons (hnew.of_grows hgrows) hstamped⟩
      rw [List.zipWith_cons_cons, hdocs, hnewdoc]

/-- Where an insertion of several documents fails: the documents before are all inserted, the one
that is refused ends the insertion, and nobody looks at those after it. -/
theorem insertAll_error {docs : List Record} {e : Error}
    (h : (catalog.insertAll table now docs db).1.ids = .error e) :
    ∃ done doc rest ids, docs = done ++ doc :: rest
      ∧ (catalog.insertAll table now done db).1.ids = .ok ids
      ∧ (catalog.insertOne table now doc (catalog.insertAll table now done db).2).1 = .error e
      ∧ (catalog.insertAll table now docs db).2
          = (catalog.insertOne table now doc (catalog.insertAll table now done db).2).2
      ∧ (catalog.insertAll table now docs db).1.docs
          = (catalog.insertAll table now done db).1.docs
            ++ Change.refused catalog.schema table doc :: rest := by
  induction docs generalizing db with
  | nil => simp [insertAll] at h
  | cons doc docs ih =>
    cases hone : (catalog.insertOne table now doc db).1 with
    -- the first document is the one that is refused
    | error e' =>
      rw [insertAll_cons_error hone] at h ⊢
      obtain rfl : e' = e := Except.error.inj h
      exact ⟨[], doc, docs, [], rfl, rfl, hone, rfl, rfl⟩
    | ok stamped =>
      obtain ⟨id, new⟩ := stamped
      rw [insertAll_cons_ok hone] at h ⊢
      have hrest : (catalog.insertAll table now docs (catalog.insertOne table now doc db).2).1.ids
          = .error e :=
        map_eq_error_iff.1 h
      obtain ⟨done, refused, rest, ids, rfl, hids, hfail, hdb, hdocs⟩ := ih hrest
      refine ⟨doc :: done, refused, rest, id :: ids, rfl, ?_⟩
      rw [insertAll_cons_ok hone]
      exact ⟨by rw [hids]; rfl, hfail, hdb, by rw [hdocs]; rfl⟩

/-- How an insertion that fails ends: nothing is done on an unknown resource, and else it is as if
only the documents before the refused one had been given, one at a time. -/
inductive InsertionEnds (catalog : Catalog) (resource : String) (now : Time.Instant)
    (docs : List Record) (db : Database) (e : Error) : Prop
  | unknownResource
      (hresource : catalog.schema.table resource = .error e)
      (hnothing : catalog.insert resource now docs db = (⟨.error e, docs⟩, db))
  | refused {table : Table} {done rest stored : List Record} {doc left : Record} {ids : List Value}
      {prior : Database}
      (hresource : catalog.schema.table resource = .ok table)
      (hdocs : docs = done ++ doc :: rest)
      (hdone : catalog.insert resource now done db = (⟨.ok ids, stored⟩, prior))
      (hsingly : prior = done.foldl (fun db doc => (catalog.insert resource now [doc] db).2) db)
      (hrefused : (catalog.insert resource now [doc] prior).1.ids = .error e)
      (hstore : (catalog.insert resource now docs db).2.store = prior.store)
      (hout : (catalog.insert resource now docs db).1.docs = stored ++ left :: rest)
      (hlength : ids.length = done.length)
      (hstored : stored = done.zipWith (Change.stamped table now) ids)
      (hstamped : List.Forall₂ (Change.Stamped prior.store table) ids stored)
      (hleft : Change.DiffersInDoubles table doc left)

/-- An insertion that fails ends at an unknown resource or at a document that is refused. -/
theorem insert_error {resource : String} {docs : List Record} {e : Error}
    (h : (catalog.insert resource now docs db).1.ids = .error e) :
    catalog.InsertionEnds resource now docs db e := by
  cases htable : catalog.schema.table resource with
  -- the resource is looked up once, before all documents
  | error e' =>
    have hinsert : catalog.insert resource now docs db = (⟨.error e', docs⟩, db) := by
      rw [insert, htable]
    rw [hinsert] at h
    obtain rfl : e' = e := Except.error.inj h
    exact .unknownResource htable hinsert
  | ok table =>
    have hinsert (docs : List Record) (db : Database) :
        catalog.insert resource now docs db = catalog.insertAll table now docs db := by
      rw [insert, htable]
    rw [hinsert] at h
    obtain ⟨done, doc, rest, ids, hdocs, hids, hfail, hdb, hout⟩ := insertAll_error h
    obtain ⟨hsingly, hstored, hlength, -, hstamped⟩ := insertAll_ok hids
    refine .refused htable hdocs ?_ ?_ ?_ ?_ ?_
      hlength hstored hstamped (Change.differsInDoubles_refused catalog.schema table doc)
    · rw [hinsert, ← hids]
    · simp only [hinsert]
      exact hsingly
    · rw [hinsert, insertAll_cons_error hfail]
    · rw [hinsert, hdb, store_insertOne_error hfail]
    · rw [hinsert, hout]

/-- A transaction that can only start if a preparation succeeds leaves the store if it fails. -/
theorem store_transactWith_error {α β : Type} {prepared : Except Error β} {steps : β → Action α}
    (hkeeps : ∀ b, Keeps Transaction.committed (steps b)) {e : Error}
    (h : (transactWith db prepared steps).1 = .error e) :
    (transactWith db prepared steps).2.store = db.store := by
  cases prepared with
  | error e' => rfl
  | ok b => exact Database.store_transact_error (hkeeps b) h

/-- **A change that fails leaves the store as it was**, whatever made it fail; an insertion of
several documents does so from the refused document on. -/
theorem failed_changes_leave_the_store (catalog : Catalog) (resource : String) (now : Time.Instant)
    (db : Database) (e : Error) :
    (∀ id doc, (catalog.update resource now id doc db).1 = .error e →
        (catalog.update resource now id doc db).2.store = db.store)
      ∧ (∀ id doc, (catalog.replace resource now id doc db).1 = .error e →
        (catalog.replace resource now id doc db).2.store = db.store)
      ∧ (∀ lookup, (catalog.remove resource now lookup db).1 = .error e →
        (catalog.remove resource now lookup db).2.store = db.store)
      ∧ (∀ docs, (catalog.insert resource now docs db).1.ids = .error e →
        catalog.InsertionEnds resource now docs db e) := by
  refine ⟨fun id doc h => ?_, fun id doc h => ?_, fun lookup h => ?_, fun docs h => insert_error h⟩
  · exact store_transactWith_error (fun _ => Change.keepsCommitted_update id doc) h
  · exact store_transactWith_error (fun _ => Change.keepsCommitted_replace id doc) h
  · exact store_transactWith_error (fun _ => Change.keepsCommitted_remove lookup) h

/-- Nobody has the key 9, and people have no field but their badge. -/
theorem refused_people_leave_the_store :
    (∃ e, (sampleCatalog.update "person" ⟨3, 0⟩ (.int 9) {} (sampleCatalog.run sampleSteps)).1
      = .error e
        ∧ (sampleCatalog.update "person" ⟨3, 0⟩ (.int 9) {} (sampleCatalog.run sampleSteps)).2.store
          = (sampleCatalog.run sampleSteps).store)
      ∧ ∃ e, sampleCatalog.InsertionEnds "person" ⟨3, 0⟩ [{}, .ofList [("name", .null)], {}]
        (sampleCatalog.run sampleSteps) e := by
  have herror {α : Type} {result : Except Error α} (h : result.toOption.isNone = true) :
      ∃ e, result = .error e := by
    cases result with
    | error e => exact ⟨e, rfl⟩
    | ok x => cases h
  have hupdate : (sampleCatalog.update "person" ⟨3, 0⟩ (.int 9) {}
      (sampleCatalog.run sampleSteps)).1.toOption.isNone = true := by
    decide +kernel
  have hinsert : (sampleCatalog.insert "person" ⟨3, 0⟩ [{}, .ofList [("name", .null)], {}]
      (sampleCatalog.run sampleSteps)).1.ids.toOption.isNone = true := by
    decide +kernel
  obtain ⟨e, hupdate⟩ := herror hupdate
  obtain ⟨e', hinsert⟩ := herror hinsert
  exact ⟨⟨e, hupdate, (failed_changes_leave_the_store sampleCatalog "person" _ _ e).1 _ _ hupdate⟩,
    e', (failed_changes_leave_the_store sampleCatalog "person" _ _ e').2.2.2 _ hinsert⟩

end Catalog

end RecordStore
