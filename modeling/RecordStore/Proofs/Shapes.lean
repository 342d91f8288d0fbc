import RecordStore.Proofs.Overwriting
import RecordStore.Proofs.Progress

/-!
# The shape of rows

A row is filled up when it is put into a table and has the same names ever after. So all rows of a
resource have the names of its columns, each once and in the order of the columns, whatever
documents gave; and each was admissible when it was written last, so null stands only in columns
that take it. Both are true after every run, whatever names the settings give.

* **`Table.Shapes`** — the names of a row, and where it can hold null.
* **`Catalog.shaped_run`** — after every run the rows of every resource are of the shape of its
  table.
-/

namespace RecordStore

open RecordStore.Action

/-! ## Names -/

/-- The names of the columns, each at the place of the first column that has it. -/
def Table.rowNames (base : Table) : List String :=
  (NameMap.ofList (base.columns.map fun c => (c.name, c))).keys

/-- A row has the names of the columns of its table, and null only where the table takes it. -/
structure Table.Shapes (base : Table) (row : Record) : Prop where
  keys_eq : row.keys = base.rowNames
  filled : ∀ c ∈ base.columns, (row.cell c.name).isNull = true →
    c.nullable = true ∧ c.primaryKey = false

theorem Table.mem_rowNames {base : Table} {name : String} :
    name ∈ base.rowNames ↔ name ∈ base.columnNames := by
  rw [rowNames, NameMap.mem_keys_ofList, List.map_map]
  rfl

namespace StoredTable

/-- The names of a row that is filled up do not depend on what it is filled with. -/
theorem keys_fill_eq {t : StoredTable} {base : Table} (hcolumns : t.columns = base.columns)
    (now : Value) (record : Record) : (t.fill now record).1.keys = base.rowNames := by
  have hfold (columns : List Column) (state : Record × Int) (m : NameMap Column)
      (hkeys : state.1.keys = m.keys) : (columns.foldl (fillColumn now record) state).1.keys
        = ((columns.map fun c => (c.name, c)).foldl
          (fun m entry => m.insert entry.1 entry.2) m).keys := by
    -- on the columns, each of which gives its name to both
    induction columns generalizing state m with
    | nil => exact hkeys
    | cons c rest ih => exact ih _ _ (NameMap.keys_insert_congr hkeys ..)
  rw [fill, hcolumns]
  exact hfold base.columns ({}, t.nextId) .empty rfl

end StoredTable

namespace Table.Shapes

variable {base : Table} {row : Record}

theorem mem_keys (h : base.Shapes row) {name : String} :
    name ∈ row.keys ↔ name ∈ base.columnNames := by
  rw [h.keys_eq, mem_rowNames]

theorem get?_eq_cell (h : base.Shapes row) {name : String} (hname : name ∈ base.columnNames) :
    row.get? name = some (row.cell name) :=
  Record.get?_of_mem_keys (h.mem_keys.2 hname)

theorem of_fill {t : StoredTable} {now : Value} {record : Record} {next : Int} {s : Store}
    {groups : List (List String)} {others : List Record} (hcolumns : t.columns = base.columns)
    (hfill : t.fill now record = (row, next))
    (hadmissible : s.Admissible groups t.columns others row) :
    base.Shapes row := by
  have hkeys := StoredTable.keys_fill_eq hcolumns now record
  rw [hfill] at hkeys
  exact ⟨hkeys, hcolumns ▸ hadmissible.filled⟩

theorem of_assign {old record : Record} {s : Store} {groups : List (List String)}
    {others : List Record} (h : base.Shapes old) (hassign : StoredTable.assign old record = .ok row)
    (hadmissible : s.Admissible groups base.columns others row) : base.Shapes row :=
  ⟨(StoredTable.keys_assign hassign).trans h.keys_eq, hadmissible.filled⟩

end Table.Shapes

/-! ## Changes -/

/-- Rows that are changed keep what every change of one row keeps. -/
theorem Transaction.forall_of_update {P : Record → Prop} {table : Table} {p : Predicate}
    {record : Record}
    {n : Nat} {tx tx' : Transaction} {t : StoredTable}
    (ht : tx.work.tables.get? table.name = some t)
    (hrows : ∀ row ∈ t.rows, P row)
    (hchange : ∀ (s : Store) (others : List Record) (old row : Record), P old →
      StoredTable.assign old record = .ok row →
        s.Admissible table.uniqueGroups t.columns others row → P row)
    (h : Yields (update table p record) tx n tx') :
    ∃ t', tx' = tx.onto (tx.work.put table.name t') ∧ ∀ row ∈ t'.rows, P row := by
  obtain ⟨-, -, u, hu, hrun, -⟩ := yields_update.1 h
  -- the invariant: the copy differs from the one at the start in this table, whose rows have the
  -- property
  have hinv := forM_induction
    (P := fun mid => ∃ t', mid = tx.onto (tx.work.put table.name t') ∧ t'.columns = t.columns
      ∧ ∀ row ∈ t'.rows, P row) ?_
    ⟨t, by rw [Store.put_of_get? ht]; rfl, rfl, hrows⟩ hrun
  · obtain ⟨t', htx', -, hrows'⟩ := hinv
    exact ⟨t', htx', hrows'⟩
  · rintro place - _ mid' ⟨t', rfl, hcolumns, hrows'⟩ hstep
    obtain ⟨-, w, hw, ⟨-, rfl⟩ | ⟨old, row, hold, hassign, hrules, rfl⟩⟩ := yields_change.1 hstep
    · exact ⟨t', rfl, hcolumns, hrows'⟩
    · rw [work_onto, Store.get?_put, if_pos rfl] at hw
      obtain rfl := Option.some.inj hw
      refine ⟨{ t' with rows := t'.rows.set place row }, ?_, hcolumns, fun r hr => ?_⟩
      · rw [onto_onto, work_onto, Store.put_put]
      · rcases List.mem_or_eq_of_mem_set hr with hr | rfl
        · exact hrows' r hr
        · exact hchange _ _ old r (hrows' old (List.mem_of_getElem? hold)) hassign
            (hcolumns ▸ Store.admissible_of_checkRules hrules)

/-- The rows of every resource are of the shape of its table. -/
def Store.Shaped (schema : Schema) (s : Store) : Prop :=
  s.OfBases schema fun base t => ∀ row ∈ t.rows, base.Shapes row

section Changes

variable {schema : Schema} {table base : Table} {now : Time.Instant} {tx tx' : Transaction}
  {doc record : Record}

theorem shaped_of_update_rows (hregular : tx.work.Regular schema) (hbase : base ∈ schema.bases)
    (hshares : table.SharesRows base) (h : tx.work.Shaped schema) {p : Predicate} {n : Nat}
    (hrun : Yields (Transaction.update table p record) tx n tx') :
    ∃ t', tx' = tx.onto (tx.work.put base.name t') ∧ ∀ row ∈ t'.rows, base.Shapes row := by
  obtain ⟨-, -, t, ht, -, -⟩ := Transaction.yields_update.1 hrun
  have hstored : tx.work.tables.get? base.name = some t := hshares.name ▸ ht
  have hcolumns := (hregular.columns_eq base (Schema.mem_physical_of_base hbase) t hstored).1
  rw [← hshares.name]
  exact Transaction.forall_of_update ht (h base hbase t hstored)
    (fun s others old row hold hassign hadmissible =>
      hold.of_assign hassign (hcolumns ▸ hadmissible)) hrun

theorem shaped_append {t : StoredTable} {row : Record} {next : Int} {s : Store}
    {groups : List (List String)} {others : List Record} (hcolumns : t.columns = base.columns)
    (hrows : ∀ row ∈ t.rows, base.Shapes row)
    (hfill : t.fill (.string now.text) record = (row, next))
    (hadmissible : s.Admissible groups t.columns others row) :
    ∀ r ∈ t.rows ++ [row], base.Shapes r := by
  rw [List.forall_mem_append, List.forall_mem_singleton]
  exact ⟨hrows, .of_fill hcolumns hfill hadmissible⟩

theorem shaped_of_insert (hco : schema.Coherent) (hregular : tx.work.Regular schema)
    (hbase : base ∈ schema.bases) (hshares : table.SharesRows base) (h : tx.work.Shaped schema)
    {x : Value × Record} (hrun : Yields (Change.insert schema table now doc) tx x tx') :
    tx'.work.Shaped schema := by
  obtain ⟨t, row, next, ht, hfill, hadmissible, -, hlists⟩ :=
    Change.effect_of_insert hco hbase hshares hrun
  have hcolumns := (hregular.columns_eq base (Schema.mem_physical_of_base hbase) t ht).1
  exact h.put_lists hco hbase hshares (shaped_append hcolumns (h base hbase t ht) hfill hadmissible)
    (fun _ hentry => Change.list_of_mem_listsOf hentry) hlists

theorem shaped_of_update (hco : schema.Coherent) (hregular : tx.work.Regular schema)
    (hbase : base ∈ schema.bases) (hshares : table.SharesRows base) (h : tx.work.Shaped schema)
    {id : Value} (hrun : Yields (Change.update schema table now id doc) tx () tx') :
    tx'.work.Shaped schema := by
  obtain ⟨key, n, mid, -, -, hupdate, hlists⟩ := Change.steps_of_update hco hbase hshares hrun
  obtain ⟨t', rfl, hrows⟩ := shaped_of_update_rows hregular hbase hshares h hupdate
  exact h.put_lists hco hbase hshares hrows
    (fun _ hentry => Change.list_of_mem_listsOf hentry) hlists

/-- The row of a replacement has the names of its columns, and null only where the table takes
it. -/
theorem shaped_of_replace (hco : schema.Coherent) (hregular : tx.work.Regular schema)
    (hbase : base ∈ schema.bases) (hshares : table.SharesRows base) (h : tx.work.Shaped schema)
    {id : Value} (hrun : Yields (Change.replace schema table now id doc) tx () tx') :
    tx'.work.Shaped schema := by
  obtain ⟨key, t, t', -, -, ht, hupserts, hlists⟩ := Change.effect_of_replace hco hbase hshares hrun
  have hcolumns := (hregular.columns_eq base (Schema.mem_physical_of_base hbase) t ht).1
  have hrows := h base hbase t ht
  refine h.put_lists hco hbase hshares ?_ (fun _ hm => hm) hlists
  cases hupserts with
  | @change place rest old row hplaces hold hassign hrules =>
    intro r hr
    rcases List.mem_or_eq_of_mem_set hr with hr | rfl
    · exact hrows r hr
    · exact (hrows old (List.mem_of_getElem? hold)).of_assign hassign
        (hcolumns ▸ Store.admissible_of_checkRules hrules)
  | append _ _ hfill hrules =>
    exact shaped_append hcolumns hrows hfill (Store.admissible_of_checkRules hrules)

theorem shaped_of_remove (hco : schema.Coherent) (hregular : tx.work.Regular schema)
    (hbase : base ∈ schema.bases) (hshares : table.SharesRows base) (h : tx.work.Shaped schema)
    {lookup : Filter} {n : Nat} (hrun : Yields (Change.remove schema table now lookup) tx n tx') :
    tx'.work.Shaped schema := by
  obtain ⟨p, -, ⟨deleted, -, hflag⟩ | ⟨-, hremoved⟩⟩ := Change.yields_remove.1 hrun
  · obtain ⟨t', rfl, hrows⟩ := shaped_of_update_rows hregular hbase hshares h hflag
    exact h.put hco hbase hrows
  -- rows only go
  · exact h.shrinks (Change.effect_of_removeRows hremoved) fun _ _ _ hgo hrows row hrow =>
      hrows row (hgo.rows.subset hrow)

theorem keptByChanges_shaped {catalog : Catalog} (hco : catalog.schema.Coherent) :
    catalog.KeptByChanges (Store.Shaped catalog.schema) where
  empty := Store.OfBases.empty catalog.schema _
  creates _ _ h hcreates := h.creates hco hcreates fun _ _ => nofun
  insert _ _ _ _ hbase hshares _ _ _ hregular h hrun :=
    shaped_of_insert hco hregular hbase hshares h hrun
  update _ _ _ _ _ hbase hshares _ _ _ hregular h hrun :=
    shaped_of_update hco hregular hbase hshares h hrun
  replace _ _ _ _ _ hbase hshares _ _ _ hregular h hrun :=
    shaped_of_replace hco hregular hbase hshares h hrun
  remove _ _ _ _ hbase hshares _ _ _ hregular h hrun :=
    shaped_of_remove hco hregular hbase hshares h hrun

end Changes

/-- **After every run the rows of every resource are of the shape of its table.** -/
theorem Catalog.shaped_run {catalog : Catalog} (hco : catalog.schema.Coherent) (steps : List Step) :
    (catalog.run steps).store.Shaped catalog.schema :=
  kept_of_run hco (keptByChanges_shaped hco) steps

end RecordStore
