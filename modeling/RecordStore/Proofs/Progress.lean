import Mathlib.Data.List.Induction
import RecordStore.Proofs.Atomicity
import RecordStore.Proofs.Pointing
import RecordStore.Proofs.Turns

/-!
# How the tables of a run develop

An operation creates the tables that are missing, or it turns the tables once, or it is an
insertion, which turns them once for each document and only adds rows. What is said here holds
whatever names the settings give.

* **`Store.Progress`** — what one operation makes of a store.
* **`Store.Regular`** — the tables are those of the schema, all or none of them, and the numbers
  among their keys are those that the columns take.
* **`Catalog.regular_run`** — every run leaves a regular store.
* **`Catalog.kept_of_run`** — what every change keeps is true after every run.
-/

namespace RecordStore

open RecordStore.Action

/-- The tables are those of the schema, all or none, and their keys are plain. -/
structure Store.Regular (schema : Schema) (s : Store) : Prop where
  columns_eq : ∀ table ∈ schema.physical, ∀ t, s.tables.get? table.name = some t →
    t.columns = table.columns ∧ isSigned64 t.nextId = true
  plain : ∀ base ∈ schema.bases, ∀ k, base.keyColumn? = some k → ∀ row ∈ s.rows base.name,
    k.Plain (row.cell base.primaryKey)
  complete : (∀ name, s.tables.get? name = none)
    ∨ ∀ table ∈ schema.physical, (s.tables.get? table.name).isSome = true

/-- Where there is one table, there are all tables of the schema. -/
theorem Store.Regular.exists_table {schema : Schema} {s : Store} (h : s.Regular schema)
    {name : String} {t : StoredTable} (ht : s.tables.get? name = some t) {table : Table}
    (htable : table ∈ schema.physical) : ∃ u, s.tables.get? table.name = some u := by
  rcases h.complete with hnone | hall
  · rw [hnone] at ht
    cases ht
  · exact Option.isSome_iff_exists.1 (hall table htable)

/-- A stored table is the link table of a list of a resource. -/
structure StoredTable.LinkOf (schema : Schema) (base : Table) (m : ListField) (link : Table)
    (k : Column) (t : StoredTable) : Prop where
  base_mem : base ∈ schema.bases
  list_mem : m ∈ base.lists
  link_eq : schema.linkTable m.linkTable = .ok link
  key_eq : base.keyColumn? = some k
  columns_eq : t.columns = link.columns
  counter : isSigned64 t.nextId = true

/-- Where there is the table of a resource, there are the link tables of its lists. -/
theorem Store.Regular.exists_linkOf {schema : Schema} {base : Table} {s : Store}
    (h : s.Regular schema) (hco : schema.Coherent) (hbase : base ∈ schema.bases) {t : StoredTable}
    (ht : s.tables.get? base.name = some t) {m : ListField} (hm : m ∈ base.lists) {k : Column}
    (hk : base.keyColumn? = some k) :
    ∃ link u, s.tables.get? link.name = some u ∧ u.LinkOf schema base m link k := by
  obtain ⟨link, hlink⟩ := hco.link_of_list hbase (.refl base) hm
  have hphysical := Schema.mem_physical_of_link (Schema.mem_of_linkTable hlink).1
  obtain ⟨u, hu⟩ := h.exists_table ht hphysical
  obtain ⟨hcolumns, hcounter⟩ := h.columns_eq link hphysical u hu
  exact ⟨link, u, hu, hbase, hm, hlink, hk, hcolumns, hcounter⟩

/-- Whichever resource of the table it is, there are the link tables of its lists. -/
theorem Store.Regular.exists_links {schema : Schema} {table base : Table} {s : Store}
    (h : s.Regular schema) (hco : schema.Coherent) (hbase : base ∈ schema.bases)
    (hshares : table.SharesRows base) {t : StoredTable} (ht : s.tables.get? base.name = some t) :
    ∀ m ∈ table.lists, ∃ link u, schema.linkTable m.linkTable = .ok link
      ∧ s.tables.get? link.name = some u := by
  intro m hm
  obtain ⟨k, hk, -⟩ := hco.keyed base (Schema.mem_physical_of_base hbase)
  obtain ⟨link, u, hu, hlinkof⟩ := h.exists_linkOf hco hbase ht (hshares.lists ▸ hm) hk
  exact ⟨link, u, hlinkof.link_eq, hu⟩

/-- What becomes of the link table of a list that is written. -/
theorem Store.ListsTurn.turned {schema : Schema} {base : Table} {s s' : Store}
    (hco : schema.Coherent) (hbase : base ∈ schema.bases) (hregular : s.Regular schema)
    {t t' : StoredTable} (ht : s.tables.get? base.name = some t) {k : Column}
    (hk : base.keyColumn? = some k) {α : Type} {items : List α} {list : α → ListField}
    {R : α → Table → StoredTable → StoredTable → Prop}
    (h : (s.put base.name t').ListsTurn schema items list R s') {x : α} (hx : x ∈ items)
    (hm : list x ∈ base.lists) :
    ∃ link u u', s.tables.get? link.name = some u ∧ s'.tables.get? link.name = some u'
      ∧ u.LinkOf schema base (list x) link k ∧ R x link u u' := by
  obtain ⟨link, u, hu, hlinkof⟩ := hregular.exists_linkOf hco hbase ht hm hk
  have hne := (hco.base_ne_link hbase (Schema.mem_of_linkTable hlinkof.link_eq).1).symm
  have hput : (s.put base.name t').tables.get? link.name = some u := by
    rw [Store.get?_put, if_neg hne, hu]
  obtain ⟨u', hu', hR⟩ := h.own x hx link hlinkof.link_eq u hput
  exact ⟨link, u, u', hu, hu', hlinkof, hR⟩

/-! ## Turning keeps a store regular -/

namespace StoredTable

/-- What is true of the rows of a table and of every row that is filled up for it stays true. -/
theorem Adds.forall {P : Record → Prop} {groups : List (List String)} {now : Value}
    {t t' : StoredTable} {records : List Record} (h : t.Adds groups now records t')
    (hcounter : isSigned64 t.nextId = true) (hold : ∀ row ∈ t.rows, P row)
    (hnew : ∀ n, isSigned64 n = true → ∀ record ∈ records,
      P (fill { columns := t.columns, nextId := n } now record).1) :
    isSigned64 t'.nextId = true ∧ ∀ row ∈ t'.rows, P row := by
  induction h with
  | nil => exact ⟨hcounter, hold⟩
  | @cons t t' record row records next s hfill _ _ ih =>
    have hrow : row = (t.fill now record).1 := by rw [hfill]
    have hnext : next = (t.fill now record).2 := by rw [hfill]
    refine ih ?_ ?_ fun n hn r hr => hnew n hn r (List.mem_cons_of_mem _ hr)
    · rw [hnext]
      exact fill_counter t now record hcounter
    · intro r hr
      rcases List.mem_append.1 hr with hr | hr
      · exact hold r hr
      · rw [List.mem_singleton.1 hr, hrow]
        exact hnew t.nextId hcounter record List.mem_cons_self

/-- Adding rows keeps a counter that is a 64-bit number. -/
theorem Adds.counter {groups : List (List String)} {now : Value} {t t' : StoredTable}
    {records : List Record} (h : t.Adds groups now records t')
    (hcounter : isSigned64 t.nextId = true) : isSigned64 t'.nextId = true :=
  (h.forall (P := fun _ => True) hcounter (fun _ _ => trivial) fun _ _ _ _ => trivial).1

/-- A cell is the record's, or what fills a column of the name. -/
theorem fill_cell_or {t : StoredTable} (hcounter : isSigned64 t.nextId = true) (now : Value)
    (record : Record) (name : String) (hname : name ∈ t.columns.map Column.name) :
    ∃ c ∈ t.columns, c.name = name ∧ ∃ n, isSigned64 n = true
      ∧ (t.fill now record).1.cell name = (record.get? name).getD (filling now n c) := by
  have hfold (columns : List Column) (state : Record × Int) (hstate : isSigned64 state.2 = true)
      (hname : name ∈ columns.map Column.name) :
      ∃ c ∈ columns, c.name = name ∧ ∃ n, isSigned64 n = true
        ∧ (columns.foldl (fillColumn now record) state).1.get? name
          = some ((record.get? name).getD (filling now n c)) := by
    -- on the columns; the last one of the name writes the cell
    induction columns generalizing state with
    | nil => simp at hname
    | cons c rest ih =>
      rw [List.foldl_cons]
      by_cases hrest : name ∈ rest.map Column.name
      · obtain ⟨d, hd, hdname, hcell⟩ := ih _ (fillColumn_counter c hstate) hrest
        exact ⟨d, List.mem_cons_of_mem _ hd, hdname, hcell⟩
      · obtain rfl : name = c.name := by simpa [hrest] using hname
        refine ⟨c, List.mem_cons_self, rfl, state.2, hstate, ?_⟩
        rw [get?_fillColumns_of_not_mem _ hrest]
        simp [fillColumn]
  obtain ⟨c, hc, hcname, n, hn, hcell⟩ := hfold t.columns ({}, t.nextId) hcounter hname
  exact ⟨c, hc, hcname, n, hn, Record.cell_eq_of_get? hcell⟩

end StoredTable

section Regular

variable {schema : Schema} {now : Value} {s s' : Store}

theorem Table.KeepsNumber.plain {table : Table} {k : Column} {old row : Record}
    (h : table.KeepsNumber k old row) (hold : k.Plain (old.cell table.primaryKey)) :
    k.Plain (row.cell table.primaryKey) := by
  rcases h with hsame | hnone | ⟨-, haccepts⟩
  · rw [hsame]
    exact hold
  · exact Column.plain_of_none hnone
  · exact Column.plain_of_accepts haccepts

/-- What is filled into the key is no number, or the next one. -/
theorem Schema.Coherent.plain_filling (hco : schema.Coherent) {base : Table}
    (hbase : base ∈ schema.bases) {k c : Column} (hk : base.keyColumn? = some k)
    (hc : c ∈ base.columns) (hname : c.name = base.primaryKey) {n : Int} (hn : isSigned64 n = true)
    {text : String} : k.Plain (StoredTable.filling (.string text) n c) := by
  unfold StoredTable.filling
  split
  · rename_i hnumber
    obtain ⟨hkey, htype⟩ := hco.numbered base (Schema.mem_physical_of_base hbase) c hc hnumber
    obtain rfl := Option.some.inj (hk.symm.trans hkey)
    refine Column.plain_of_accepts ?_
    rw [htype]
    exact hn
  · cases hdefault : c.default? with
    | some v =>
      obtain ⟨b, rfl⟩ := hco.key_default base hbase c hc hname v hdefault
      exact Column.plain_of_none rfl
    | none =>
      rw [Option.getD_none]
      split <;> exact Column.plain_of_none rfl

/-- **Turning the tables keeps a store regular.** -/
theorem Store.Regular.turns {now : Time.Instant} (hco : schema.Coherent) (h : s.Regular schema)
    (hturns : s.Turns schema (.string now.text) s') : s'.Regular schema := by
  have hbefore {name : String} {t' : StoredTable} (ht' : s'.tables.get? name = some t') :
      ∃ t, s.tables.get? name = some t :=
    Option.isSome_iff_exists.1 (by rw [← hturns.isSome_eq, ht']; rfl)
  refine ⟨fun table htable t' ht' => ?_, fun base hbase k hk row hrow => ?_, ?_⟩
  · obtain ⟨t, ht⟩ := hbefore ht'
    obtain ⟨hcolumns, hcounter⟩ := h.columns_eq table htable t ht
    rcases List.mem_append.1 htable with hbase | hlink
    · obtain ⟨k, hk, -⟩ := hco.keyed table htable
      have hturn := hturns.bases table hbase k hk t t' ht ht'
      refine ⟨hturn.columns_eq.trans hcolumns, ?_⟩
      obtain ⟨_, _, _, -, -, -, hadds⟩ := hturn
      exact hadds.counter hcounter
    · have hturn := hturns.links table hlink t t' ht ht'
      refine ⟨hturn.columns_eq.trans hcolumns, ?_⟩
      obtain ⟨_, _, _, -, -, -, hadds⟩ := hturn
      exact hadds.counter hcounter
  · obtain ⟨t', ht', hmem⟩ := Store.get?_of_mem_rows hrow
    obtain ⟨t, ht⟩ := hbefore ht'
    have hphysical := Schema.mem_physical_of_base hbase
    obtain ⟨hcolumns, hcounter⟩ := h.columns_eq base hphysical t ht
    obtain ⟨stay, rows, records, hstay, hkept, hgives, hadds⟩ :=
      hturns.bases base hbase k hk t t' ht ht'
    refine (hadds.forall (P := fun row => k.Plain (row.cell base.primaryKey))
      hcounter ?_ ?_).2 row hmem
    -- a row that stayed had a plain key, and keeps it or gets another one
    · intro row hrow
      obtain ⟨old, hold, hkeeps⟩ := exists_of_mem_right hkept hrow
      refine hkeeps.plain (h.plain base hbase k hk old ?_)
      rw [Store.rows_of_get? ht]
      exact hstay.subset hold
    · intro n hn record hrecord
      obtain ⟨hkmem, hkname⟩ := Table.mem_of_column? hk
      obtain ⟨c, hc, hname, m, hm, hcell⟩ := StoredTable.fill_cell_or
        (t := { columns := t.columns, nextId := n }) hn
          (.string now.text) record base.primaryKey (by
          show _ ∈ t.columns.map Column.name
          rw [hcolumns, List.mem_map]
          exact ⟨k, hkmem, hkname⟩)
      rw [hcell]
      cases hgiven : record.get? base.primaryKey with
      | some v => exact hgives record hrecord v hgiven
      | none => exact hco.plain_filling hbase hk (hcolumns ▸ hc) hname hm
  · rcases h.complete with hnone | hall
    · refine .inl fun name => ?_
      have hname := hturns.isSome_eq name
      rw [hnone name] at hname
      exact Option.isSome_eq_false_iff.1 hname |> Option.isNone_iff_eq_none.1
    · exact .inr fun table htable => (hturns.isSome_eq _).trans (hall table htable)

/-- The tables that did not exist are there without rows, and all others are as before. -/
def Store.Creates (schema : Schema) (s s' : Store) : Prop :=
  ∀ name, s'.tables.get? name = (s.tables.get? name).or
    ((schema.physical.find? (·.name == name)).map fun table => { columns := table.columns })

theorem Store.get?_create (s : Store) (table : Table) (name : String) :
    (s.create table).tables.get? name = (s.tables.get? name).or
      (if table.name = name then some { columns := table.columns } else none) := by
  unfold Store.create
  by_cases hname : table.name = name
  · subst hname
    cases hget : s.tables.get? table.name with
    | some t =>
      have hcontains : s.tables.contains table.name = true := by
        rw [NameMap.contains_iff, NameMap.mem_keys_iff, hget]
        rfl
      rw [if_pos hcontains, hget]
      rfl
    | none =>
      have habsent : ¬ s.tables.contains table.name = true := by
        rw [NameMap.contains_iff, NameMap.mem_keys_iff, hget]
        simp
      rw [if_neg habsent, if_pos rfl]
      exact NameMap.get?_insert_self ..
  · rw [if_neg hname, Option.or_none]
    split
    · rfl
    · exact NameMap.get?_insert_of_ne _ _ (Ne.symm hname)

/-- Applying a schema creates the tables that are not there, and changes nothing else. -/
theorem creates_applySchema (db : Database) (schema : Schema) :
    db.store.Creates schema (db.applySchema schema).store := by
  have hfold (tables : List Table) (db : Database) (name : String) :
      (tables.foldl Database.createTable db).store.tables.get? name
        = (db.store.tables.get? name).or
          ((tables.find? (·.name == name)).map fun table => { columns := table.columns }) := by
    -- on the tables, each created in the store that the ones before it leave
    induction tables generalizing db with
    | nil => exact (Option.or_none ..).symm
    | cons table rest ih =>
      rw [List.foldl_cons, ih]
      show ((db.store.create table).tables.get? name).or _ = _
      rw [Store.get?_create, List.find?_cons]
      by_cases hname : table.name = name
      · rw [if_pos hname, beq_iff_eq.2 hname, Option.or_assoc]
        rfl
      · rw [if_neg hname, beq_eq_false_iff_ne.2 hname, Option.or_none]
  exact hfold schema.physical db

/-- A table of the schema is created with its own columns. -/
theorem Store.Creates.get? (hco : schema.Coherent) (h : s.Creates schema s') {table : Table}
    (htable : table ∈ schema.physical) :
    s'.tables.get? table.name
      = some ((s.tables.get? table.name).getD { columns := table.columns }) := by
  have hfound := find?_eq_of_nodup hco.names_nodup htable
  rw [h table.name, hfound]
  cases s.tables.get? table.name <;> rfl

/-- After the creation a table of the schema is the one that was there, or a new one without
rows. -/
theorem Store.Creates.cases (hco : schema.Coherent) (h : s.Creates schema s') {table : Table}
    (htable : table ∈ schema.physical) {t' : StoredTable}
    (ht' : s'.tables.get? table.name = some t') :
    s.tables.get? table.name = some t' ∨ t' = { columns := table.columns } := by
  rw [h.get? hco htable] at ht'
  cases hold : s.tables.get? table.name with
  | some t =>
    rw [hold] at ht'
    exact .inl ht'
  | none =>
    rw [hold] at ht'
    exact .inr (Option.some.inj ht').symm

theorem Store.Creates.rows_eq (h : s.Creates schema s') (name : String) :
    s'.rows name = s.rows name := by
  rw [Store.rows, Store.rows, h name]
  cases s.tables.get? name with
  | some t => rfl
  | none =>
    cases schema.physical.find? (·.name == name) <;> rfl

theorem Store.Regular.creates (hco : schema.Coherent) (h : s.Regular schema)
    (hcreates : s.Creates schema s') : s'.Regular schema where
  columns_eq table htable t ht := by
    rcases hcreates.cases hco htable ht with hold | rfl
    · exact h.columns_eq table htable t hold
    · exact ⟨rfl, (by decide : isSigned64 1 = true)⟩
  plain base hbase k hk row hrow := h.plain base hbase k hk row (hcreates.rows_eq _ ▸ hrow)
  complete := .inr fun table htable => by rw [hcreates.get? hco htable]; rfl

theorem Store.Regular.empty (schema : Schema) : ({} : Store).Regular schema where
  columns_eq table _ t ht := by simp [EmptyCollection.emptyCollection] at ht
  plain base _ k _ row hrow := by cases hrow
  complete := .inl fun _ => rfl

end Regular

/-! ## The tables of resources

What is true of the table of each resource stays true under a change of the store that keeps it true
of the tables which it writes. -/

/-- Something is true of the table of every resource. -/
def Store.OfBases (schema : Schema) (P : Table → StoredTable → Prop) (s : Store) : Prop :=
  ∀ base ∈ schema.bases, ∀ t, s.tables.get? base.name = some t → P base t

namespace Store.OfBases

variable {schema : Schema} {P : Table → StoredTable → Prop} {s s' : Store} {base : Table}
  {t' : StoredTable}

theorem empty (schema : Schema) (P : Table → StoredTable → Prop) :
    ({} : Store).OfBases schema P := by
  intro base _ t ht
  simp [EmptyCollection.emptyCollection] at ht

theorem creates (h : s.OfBases schema P) (hco : schema.Coherent) (hcreates : s.Creates schema s')
    (hnew : ∀ base ∈ schema.bases, P base { columns := base.columns }) : s'.OfBases schema P := by
  intro base hbase t ht
  rcases hcreates.cases hco (Schema.mem_physical_of_base hbase) ht with hold | rfl
  · exact h base hbase t hold
  · exact hnew base hbase

/-- The table of one resource is written. -/
theorem put (h : s.OfBases schema P) (hco : schema.Coherent) (hbase : base ∈ schema.bases)
    (hown : P base t') : (s.put base.name t').OfBases schema P := by
  intro other hother t ht
  rw [Store.get?_put] at ht
  split at ht
  · rename_i hname
    obtain rfl := hco.eq_of_name (Schema.mem_physical_of_base hother)
      (Schema.mem_physical_of_base hbase) hname
    exact Option.some.inj ht ▸ hown
  · exact h other hother t ht

/-- The table of one resource is written, and lists of it. -/
theorem put_lists {α : Type} {items : List α} {list : α → ListField}
    {R : α → Table → StoredTable → StoredTable → Prop} {table : Table} (h : s.OfBases schema P)
    (hco : schema.Coherent) (hbase : base ∈ schema.bases) (hshares : table.SharesRows base)
    (hown : P base t') (hlists : ∀ x ∈ items, list x ∈ table.lists)
    (hturn : (s.put base.name t').ListsTurn schema items list R s') : s'.OfBases schema P := by
  intro other hother t ht
  rw [hturn.get?_base hco hbase hshares hlists hother] at ht
  exact h.put hco hbase hown other hother t ht

/-- Rows go. -/
theorem shrinks (h : s.OfBases schema P) (hshrinks : s.TurnsEach StoredTable.Shrinks s')
    (hP : ∀ base t t', t.Shrinks t' → P base t → P base t') : s'.OfBases schema P := by
  intro base hbase t ht
  obtain ⟨old, hold, hold'⟩ := hshrinks.exists_turned ht
  exact hP base old t hold' (h base hbase old hold)

end Store.OfBases

/-! ## Operations -/

/-- What one operation makes of a store: tables are created, or each is turned once, or each is
turned once for every document of an insertion, which only adds rows. -/
inductive Store.Progress (schema : Schema) (now : Value) (s s' : Store) : Prop
  | creates (h : s.Creates schema s')
  | turns (h : s.Turns schema now s')
  | grows (h : Relation.ReflTransGen (fun a b => a.Turns schema now b ∧ a.Grows b) s s')

theorem Store.Progress.refl (schema : Schema) (now : Value) (s : Store) : s.Progress schema now s :=
  .turns (.refl schema now s)

theorem Store.Regular.progress {schema : Schema} {now : Time.Instant} {s s' : Store}
    (hco : schema.Coherent) (h : s.Regular schema)
    (hprogress : s.Progress schema (.string now.text) s') : s'.Regular schema := by
  cases hprogress with
  | creates hcreates => exact h.creates hco hcreates
  | turns hturns => exact h.turns hco hturns
  | grows hgrows =>
    induction hgrows with
    | refl => exact h
    | tail _ hstep ih => exact ih.turns hco hstep.1

namespace Catalog

variable {catalog : Catalog} {db : Database} {now : Time.Instant}

/-- What a change that is one transaction does when it succeeds, it does in any case, if that may be
nothing. -/
theorem store_transactWith {α : Type} {R : Store → Store → Prop} (hrefl : ∀ s, R s s)
    (hco : catalog.schema.Coherent) {resource : String} {steps : Table → Action α}
    (hcommitted : ∀ table, Keeps Transaction.committed (steps table))
    (hsteps : ∀ table, ∀ base ∈ catalog.schema.bases, table.SharesRows base → ∀ x tx,
      Yields (steps table) (.begin db) x tx → R db.store tx.work) :
    R db.store (transactWith db (catalog.schema.table resource) steps).2.store := by
  cases htable : catalog.schema.table resource with
  | error e => exact hrefl _
  | ok table =>
    obtain ⟨base, hbase, hshares⟩ := hco.shared table (Schema.mem_of_table htable).1
    show R db.store (db.transact (steps table)).2.store
    cases hrun : (db.transact (steps table)).1 with
    | error e =>
      rw [Database.store_transact_error (hcommitted table) hrun]
      exact hrefl _
    | ok x =>
      obtain ⟨tx, hyields, hdb⟩ := Database.transact_ok hrun
      rw [hdb]
      exact hsteps table base hbase hshares x tx hyields

/-- One step for each document that is inserted, and none for the one that is refused. -/
theorem progress_of_insertAll (hco : catalog.schema.Coherent) {table base : Table}
    (hbase : base ∈ catalog.schema.bases) (hshares : table.SharesRows base) (docs : List Record) :
    Relation.ReflTransGen
      (fun a b => a.Turns catalog.schema (.string now.text) b ∧ a.Grows b) db.store
      (catalog.insertAll table now docs db).2.store := by
  -- on the documents; each transaction starts where the one before was committed
  induction docs generalizing db with
  | nil => exact .refl
  | cons doc docs ih =>
    cases hone : (catalog.insertOne table now doc db).1 with
    | error e =>
      rw [insertAll_cons_error hone, store_insertOne_error hone]
    | ok stamped =>
      obtain ⟨id, new⟩ := stamped
      rw [insertAll_cons_ok hone]
      obtain ⟨tx, hrun, hstore⟩ := yields_of_insertOne hone
      refine .head ?_ ih
      rw [hstore]
      exact ⟨turns_of_insert hco hbase hshares hrun, (Change.stamped_of_insert hrun).1⟩

/-- **An operation is progress.** -/
theorem progress_of_perform (hco : catalog.schema.Coherent)
    (hregular : db.store.Regular catalog.schema) (now : Time.Instant) (op : Operation) :
    db.store.Progress catalog.schema (.string now.text) (catalog.perform db (now, op)).store := by
  cases op with
  | createTables => exact .creates (creates_applySchema db catalog.schema)
  | failNext op table => exact .refl _ _ _
  | insert resource docs =>
    rw [perform, insert]
    cases htable : catalog.schema.table resource with
    | error e => exact .refl _ _ _
    | ok table =>
      obtain ⟨base, hbase, hshares⟩ := hco.shared table (Schema.mem_of_table htable).1
      exact .grows (progress_of_insertAll hco hbase hshares docs)
  | update resource id doc =>
    exact .turns (store_transactWith (.refl _ _) hco (fun _ => Change.keepsCommitted_update id doc)
      fun _ _ hbase hshares _ _ hrun => turns_of_update hco hbase hshares hrun)
  | replace resource id doc =>
    exact .turns (store_transactWith (.refl _ _) hco (fun _ => Change.keepsCommitted_replace id doc)
      fun _ base hbase hshares _ _ hrun => turns_of_replace hco hbase hshares
        (fun t ht => (hregular.columns_eq base (Schema.mem_physical_of_base hbase) t ht).1) hrun)
  | remove resource lookup =>
    exact .turns (store_transactWith (.refl _ _) hco (fun _ => Change.keepsCommitted_remove lookup)
      fun _ _ hbase hshares _ _ hrun => turns_of_remove hco hbase hshares hrun)
  | _ =>
    rw [store_perform_of_reads rfl]
    exact .refl _ _ _

/-- **Every run leaves a regular store.** -/
theorem regular_run (hco : catalog.schema.Coherent) (steps : List Step) :
    (catalog.run steps).store.Regular catalog.schema := by
  have hfold (steps : List Step) (db : Database) (h : db.store.Regular catalog.schema) :
      (steps.foldl catalog.perform db).store.Regular catalog.schema := by
    induction steps generalizing db with
    | nil => exact h
    | cons step rest ih => exact ih _ (h.progress hco (progress_of_perform hco h step.1 step.2))
  exact hfold steps {} (.empty catalog.schema)

/-! ### What every change keeps

A property of regular stores that each change of one record keeps, and the creation of tables, is
true after every run. -/

/-- The steps of a change of some table keep a property, if they succeed. -/
def KeptBy {α : Type} (catalog : Catalog) (P : Store → Prop) (steps : Table → Action α) : Prop :=
  ∀ table, ∀ base ∈ catalog.schema.bases, table.SharesRows base → ∀ tx x tx',
    tx.work.Regular catalog.schema → P tx.work → Yields (steps table) tx x tx' → P tx'.work

structure KeptByChanges (catalog : Catalog) (P : Store → Prop) : Prop where
  empty : P {}
  creates : ∀ s s', P s → s.Creates catalog.schema s' → P s'
  insert : ∀ now doc, catalog.KeptBy P fun table => Change.insert catalog.schema table now doc
  update : ∀ now id doc, catalog.KeptBy P fun table => Change.update catalog.schema table now id doc
  replace : ∀ now id doc, catalog.KeptBy P fun table =>
    Change.replace catalog.schema table now id doc
  remove : ∀ now lookup, catalog.KeptBy P fun table => Change.remove catalog.schema table now lookup

variable {P : Store → Prop}

/-- What every change keeps, an insertion of several documents keeps. -/
theorem kept_of_insertAll (hco : catalog.schema.Coherent) (hkept : catalog.KeptByChanges P)
    {table base : Table} (hbase : base ∈ catalog.schema.bases) (hshares : table.SharesRows base)
    {docs : List Record} (hregular : db.store.Regular catalog.schema) (h : P db.store) :
    P (catalog.insertAll table now docs db).2.store := by
  -- on the documents; each transaction starts where the one before was committed
  induction docs generalizing db with
  | nil => exact h
  | cons doc docs ih =>
    cases hone : (catalog.insertOne table now doc db).1 with
    | error e =>
      rwa [insertAll_cons_error hone, store_insertOne_error hone]
    | ok stamped =>
      rw [insertAll_cons_ok hone]
      obtain ⟨tx, hrun, hstore⟩ := yields_of_insertOne hone
      refine ih ?_ ?_
      · exact hstore ▸ hregular.turns hco (turns_of_insert hco hbase hshares hrun)
      · exact hstore ▸ hkept.insert now doc table base
          hbase hshares (.begin db) _ tx hregular h hrun

/-- What every change keeps, every operation keeps. -/
theorem kept_of_perform (hco : catalog.schema.Coherent) (hkept : catalog.KeptByChanges P)
    (hregular : db.store.Regular catalog.schema) (h : P db.store) (op : Operation) :
    P (catalog.perform db (now, op)).store := by
  have hwrite {resource : String} {α : Type} {steps : Table → Action α}
      (hcommitted : ∀ table, Keeps Transaction.committed (steps table))
      (hsteps : catalog.KeptBy P steps) :
      P (transactWith db (catalog.schema.table resource) steps).2.store :=
    store_transactWith (R := fun a b => a.Regular catalog.schema → P a → P b) (fun _ _ ha => ha) hco
      hcommitted (fun table base hbase hshares x tx hrun hregular h =>
        hsteps table base hbase hshares (.begin db) x tx hregular h hrun) hregular h
  cases op with
  | createTables => exact hkept.creates _ _ h (creates_applySchema db catalog.schema)
  | failNext op table => exact h
  | insert resource docs =>
    rw [perform, insert]
    cases htable : catalog.schema.table resource with
    | error e => exact h
    | ok table =>
      obtain ⟨base, hbase, hshares⟩ := hco.shared table (Schema.mem_of_table htable).1
      exact kept_of_insertAll hco hkept hbase hshares hregular h
  | update resource id doc =>
    exact hwrite (fun _ => Change.keepsCommitted_update id doc) (hkept.update now id doc)
  | replace resource id doc =>
    exact hwrite (fun _ => Change.keepsCommitted_replace id doc) (hkept.replace now id doc)
  | remove resource lookup =>
    exact hwrite (fun _ => Change.keepsCommitted_remove lookup) (hkept.remove now lookup)
  | _ => rwa [store_perform_of_reads rfl]

/-- **What every change keeps is true after every run.** -/
theorem kept_of_run (hco : catalog.schema.Coherent) (hkept : catalog.KeptByChanges P)
    (steps : List Step) : P (catalog.run steps).store := by
  -- on the end of the run, which starts where a regular store was left
  induction steps using List.reverseRecOn with
  | nil => exact hkept.empty
  | append_singleton done step ih =>
    rw [run_append]
    exact kept_of_perform hco hkept (regular_run hco done) ih step.2

end Catalog

end RecordStore
