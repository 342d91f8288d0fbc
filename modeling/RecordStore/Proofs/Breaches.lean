import Mathlib.Data.List.Induction
import RecordStore.Proofs.Generated
import RecordStore.Proofs.Keys

/-!
# What breaks a property of stores

Some properties are kept by all changes but those that store certain things. What these are is said
of one change: of the table it is of, and of the document and the identifier that it is given. The
rest is the same for every property: a change that fails stores nothing, an insertion stores its
documents one after the other and only adds rows, and nothing else writes what clients give.

* **`Breach`** — what the changes may store that breaks a property.
* **`Catalog.BrokenBy`** — a change keeps the property if and only if it stores no such thing.
* **`Catalog.Breaches`** — an operation that succeeds and does.
* **`Catalog.BrokenOnlyBy.kept_iff`** — a property is kept throughout a run if and only if no
  operation of it does.
-/

namespace RecordStore

open RecordStore.Action

/-- What a change may store, of a table and of what it is given for it. -/
structure Breach where
  insert : Table → Record → Prop
  update : Table → Record → Prop
  replace : Table → Value → Record → Prop

namespace Catalog

/-- A change that succeeds and is a breach. An insertion stores its documents one by one, up to the
first that is refused. -/
inductive Breaches (catalog : Catalog) (b : Breach) (db : Database) : Step → Prop
  | insert {now : Time.Instant} {resource : String} {docs done : List Record} {doc : Record}
      {ids : List Value} {table : Table} (htable : catalog.schema.table resource = .ok table)
      (hdocs : done ++ [doc] <+: docs)
      (hstored : (catalog.insert resource now (done ++ [doc]) db).1.ids = .ok ids)
      (hbreach : b.insert table doc) : Breaches catalog b db (now, .insert resource docs)
  | update {now : Time.Instant} {resource : String} {id : Value} {doc : Record} {table : Table}
      (htable : catalog.schema.table resource = .ok table)
      (hstored : (catalog.update resource now id doc db).1 = .ok ())
      (hbreach : b.update table doc) : Breaches catalog b db (now, .update resource id doc)
  | replace {now : Time.Instant} {resource : String} {id : Value} {doc : Record} {table : Table}
      (htable : catalog.schema.table resource = .ok table)
      (hstored : (catalog.replace resource now id doc db).1 = .ok ())
      (hbreach : b.replace table id doc) : Breaches catalog b db (now, .replace resource id doc)

/-- The steps of a change of some table break a property if and only if the table is one at which
they do. -/
def BrokenBy {α : Type} (catalog : Catalog) (P : Store → Prop) (steps : Table → Action α)
    (broken : Table → Prop) : Prop :=
  ∀ table, ∀ base ∈ catalog.schema.bases, table.SharesRows base → ∀ tx x tx',
    tx.work.Regular catalog.schema → tx.work.KeysApart catalog.schema → P tx.work →
      Yields (steps table) tx x tx' → (P tx'.work ↔ ¬ broken table)

/-- The changes break a property by what they store, and by nothing else. Rows that are added do not
mend it. -/
structure BrokenOnlyBy (catalog : Catalog) (b : Breach) (P : Store → Prop) : Prop where
  empty : P {}
  creates : ∀ s s', P s → s.Creates catalog.schema s' → P s'
  of_grows : ∀ s s', s.Grows s' → P s' → P s
  insert : ∀ now doc, catalog.BrokenBy P (fun table => Change.insert catalog.schema table now doc)
    fun table => b.insert table doc
  update :
    ∀ now id doc, catalog.BrokenBy P (fun table => Change.update catalog.schema table now id doc)
    fun table => b.update table doc
  replace :
    ∀ now id doc, catalog.BrokenBy P (fun table => Change.replace catalog.schema table now id doc)
    fun table => b.replace table id doc
  remove : ∀ now lookup, catalog.KeptBy P fun table => Change.remove catalog.schema table now lookup

namespace BrokenOnlyBy

variable {catalog : Catalog} {b : Breach} {P : Store → Prop} {db : Database} {now : Time.Instant}

/-- On the documents, from the database that the one before them leaves: the property is broken by
the first document that breaks it. -/
theorem insertAll_iff (hbroken : catalog.BrokenOnlyBy b P) (hco : catalog.schema.Coherent)
    {table base : Table} (hbase : base ∈ catalog.schema.bases) (hshares : table.SharesRows base)
    {docs : List Record} (hregular : db.store.Regular catalog.schema)
    (hkeys : db.store.KeysApart catalog.schema) (h : P db.store) :
    P (catalog.insertAll table now docs db).2.store
      ↔ ∀ done doc ids, done ++ [doc] <+: docs →
        (catalog.insertAll table now (done ++ [doc]) db).1.ids = .ok ids →
          ¬ b.insert table doc := by
  -- on the documents; each transaction starts where the one before was committed
  induction docs generalizing db with
  | nil => exact iff_of_true h fun done doc ids hprefix => by simp at hprefix
  | cons first docs ih =>
    cases hone : (catalog.insertOne table now first db).1 with
    | error e =>
      rw [insertAll_cons_error hone, store_insertOne_error hone]
      refine iff_of_true h fun done doc ids hprefix hstored => ?_
      rcases List.prefix_cons_iff.1 hprefix with hnil | ⟨rest, hrest, -⟩
      · simp at hnil
      · rw [hrest, insertAll_cons_error hone] at hstored
        cases hstored
    | ok stamped =>
      obtain ⟨id, new⟩ := stamped
      obtain ⟨tx, hrun, hstore⟩ := yields_of_insertOne hone
      have hfirst :=
        hbroken.insert now first table base hbase hshares (.begin db) _ tx hregular hkeys h hrun
      have hregular' := hregular.turns hco (turns_of_insert hco hbase hshares hrun)
      have hkeys' := keysApart_of_insert hco hregular hbase hshares hkeys hrun
      rw [← hstore] at hfirst hregular' hkeys'
      rw [insertAll_cons_ok hone]
      constructor
      · intro hall done doc ids hprefix hstored
        have hkept := hbroken.of_grows _ _ (grows_insertAll docs _) hall
        rcases List.prefix_cons_iff.1 hprefix with hnil | ⟨rest, hrest, hrestprefix⟩
        · simp at hnil
        cases done with
        | nil =>
          obtain ⟨rfl, -⟩ := List.cons.inj hrest
          exact hfirst.1 hkept
        | cons other done =>
          obtain ⟨rfl, rfl⟩ := List.cons.inj hrest
          rw [List.cons_append, insertAll_cons_ok hone] at hstored
          obtain ⟨ids', hids, -⟩ := map_eq_ok_iff.1 hstored
          exact (ih hregular' hkeys' hkept).1 hall done doc ids' hrestprefix hids
      · intro hnot
        have hkept := hfirst.2 (hnot [] first [id] (by simp) (by
          rw [List.nil_append, insertAll_cons_ok hone]
          rfl))
        refine (ih hregular' hkeys' hkept).2 fun done doc ids hprefix hids => ?_
        refine hnot (first :: done) doc (id :: ids) (by simpa using hprefix) ?_
        rw [List.cons_append, insertAll_cons_ok hone, hids]
        rfl

theorem insert_iff (hbroken : catalog.BrokenOnlyBy b P) (hco : catalog.schema.Coherent)
    (hregular : db.store.Regular catalog.schema) (hkeys : db.store.KeysApart catalog.schema)
    (h : P db.store) (resource : String) (docs : List Record) :
    P (catalog.insert resource now docs db).2.store
      ↔ ¬ catalog.Breaches b db (now, .insert resource docs) := by
  cases htable : catalog.schema.table resource with
  | error e =>
    have hinsert : catalog.insert resource now docs db = (⟨.error e, docs⟩, db) := by
      rw [Catalog.insert, htable]
    rw [hinsert]
    refine iff_of_true h fun hbreaches => ?_
    cases hbreaches with
    | insert htable' => cases htable.symm.trans htable'
  | ok table =>
    obtain ⟨base, hbase, hshares⟩ := hco.shared table (Schema.mem_of_table htable).1
    have hinsert (docs : List Record) :
        catalog.insert resource now docs db = catalog.insertAll table now docs db := by
      rw [Catalog.insert, htable]
    rw [hinsert, hbroken.insertAll_iff hco hbase hshares hregular hkeys h]
    constructor
    · intro hnot hbreaches
      cases hbreaches with
      | insert htable' hdocs hstored hbreach =>
        obtain rfl := Except.ok.inj (htable.symm.trans htable')
        exact hnot _ _ _ hdocs (hinsert _ ▸ hstored) hbreach
    · exact fun hnot done doc ids hdocs hstored hbreach =>
        hnot (.insert htable hdocs ((hinsert _).symm ▸ hstored) hbreach)

/-- A change that is one transaction keeps the property if it fails or is no breach. -/
theorem transactWith_iff {α : Type} (hco : catalog.schema.Coherent)
    (hregular : db.store.Regular catalog.schema) (hkeys : db.store.KeysApart catalog.schema)
    (h : P db.store) {resource : String} {steps : Table → Action α} {broken : Table → Prop}
    (hcommitted : ∀ table, Keeps Transaction.committed (steps table))
    (hsteps : catalog.BrokenBy P steps broken) :
    P (transactWith db (catalog.schema.table resource) steps).2.store
      ↔ ∀ table x, catalog.schema.table resource = .ok table →
        (transactWith db (catalog.schema.table resource) steps).1 = .ok x → ¬ broken table := by
  cases htable : catalog.schema.table resource with
  | error e => exact iff_of_true h nofun
  | ok table =>
    obtain ⟨base, hbase, hshares⟩ := hco.shared table (Schema.mem_of_table htable).1
    show P (db.transact (steps table)).2.store
      ↔ ∀ other x, Except.ok table = .ok other →
        (db.transact (steps table)).1 = .ok x → ¬ broken other
    cases hrun : (db.transact (steps table)).1 with
    | error e =>
      rw [Database.store_transact_error (hcommitted table) hrun]
      exact iff_of_true h nofun
    | ok x =>
      obtain ⟨tx, hyields, hdb⟩ := Database.transact_ok hrun
      rw [hdb, hsteps table base hbase hshares (.begin db) x tx hregular hkeys h hyields]
      constructor
      · intro hnot other _ hother _
        exact Except.ok.inj hother ▸ hnot
      · exact fun hnot => hnot table x rfl rfl

/-- **An operation keeps the property if and only if it is no breach.** -/
theorem perform_iff (hbroken : catalog.BrokenOnlyBy b P) (hco : catalog.schema.Coherent)
    (hregular : db.store.Regular catalog.schema) (hkeys : db.store.KeysApart catalog.schema)
    (h : P db.store) (step : Step) :
    P (catalog.perform db step).store ↔ ¬ catalog.Breaches b db step := by
  obtain ⟨now, op⟩ := step
  cases op with
  | createTables =>
    exact iff_of_true (hbroken.creates _ _ h (creates_applySchema db catalog.schema)) (by rintro ⟨⟩)
  | failNext op table => exact iff_of_true h (by rintro ⟨⟩)
  | insert resource docs => exact hbroken.insert_iff hco hregular hkeys h resource docs
  | update resource id doc =>
    refine (transactWith_iff hco hregular hkeys h (fun _ => Change.keepsCommitted_update id doc)
      (hbroken.update now id doc)).trans ?_
    constructor
    · intro hnot hbreaches
      cases hbreaches with
      | update htable hstored hbreach => exact hnot _ _ htable hstored hbreach
    · exact fun hnot table _ htable hstored hbreach => hnot (.update htable hstored hbreach)
  | replace resource id doc =>
    refine (transactWith_iff hco hregular hkeys h (fun _ => Change.keepsCommitted_replace id doc)
      (hbroken.replace now id doc)).trans ?_
    constructor
    · intro hnot hbreaches
      cases hbreaches with
      | replace htable hstored hbreach => exact hnot _ _ htable hstored hbreach
    · exact fun hnot table _ htable hstored hbreach => hnot (.replace htable hstored hbreach)
  | remove resource lookup =>
    refine iff_of_true (store_transactWith (R := fun a b => a.Regular catalog.schema → P a → P b)
      (fun _ _ ha => ha) hco (fun _ => Change.keepsCommitted_remove lookup)
      (fun table base hbase hshares n tx hrun hregular h => ?_) hregular h) (by rintro ⟨⟩)
    exact hbroken.remove now lookup table base hbase hshares (.begin db) n tx hregular h hrun
  | _ =>
    rw [store_perform_of_reads rfl]
    exact iff_of_true h (by rintro ⟨⟩)

/-- **A property is kept throughout a run if and only if no operation of the run is a breach.** -/
theorem kept_iff (hbroken : catalog.BrokenOnlyBy b P) (hco : catalog.schema.Coherent)
    (steps : List Step) :
    (∀ done, done <+: steps → P (catalog.run done).store)
      ↔ ∀ done step, done ++ [step] <+: steps → ¬ catalog.Breaches b (catalog.run done) step := by
  have hstep (done : List Step) (step : Step) (hdone : P (catalog.run done).store) :
      P (catalog.run (done ++ [step])).store ↔ ¬ catalog.Breaches b (catalog.run done) step := by
    rw [run_append]
    exact hbroken.perform_iff hco (regular_run hco done) (keysApart_run hco done) hdone step
  constructor
  · intro hkept done step hprefix
    exact (hstep done step (hkept done ((List.prefix_append done [step]).trans hprefix))).1
      (hkept (done ++ [step]) hprefix)
  · intro hnone done hprefix
    -- on the run from its end, each prefix having kept the property before
    induction done using List.reverseRecOn with
    | nil => exact hbroken.empty
    | append_singleton done step ih =>
      have hdone := ih ((List.prefix_append done [step]).trans hprefix)
      exact (hstep done step hdone).2 (hnone done step hprefix)

end BrokenOnlyBy

end Catalog

end RecordStore
