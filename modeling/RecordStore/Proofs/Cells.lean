import RecordStore.Proofs.Progress

/-!
# Where cells come from

An ordinary column is filled by documents and by its default, and by nothing else: it is neither the
key nor a stamp nor the flag of deleted rows, no number is generated for it, and no other column has
its name. What is true of every value that passes the check of the column, and of what is filled in
where a document leaves it out, is therefore true of its cells after every run.

* **`Table.Ordinary`** — the columns of which this holds.
* **`Schema.Grants`** — a property of what documents and defaults give.
* **`Catalog.hasCells_run`** — the cells of ordinary columns have it after every run.
-/

namespace RecordStore

open RecordStore.Action

/-! ## Ordinary columns -/

/-- The value that a column stores for a value that a document gives. -/
def Column.stored (c : Column) (v : Value) : Value := if c.type = .float then v.asDouble else v

theorem Column.isNull_stored (c : Column) (v : Value) : (c.stored v).isNull = v.isNull := by
  unfold Column.stored
  split
  · exact Value.isNull_asDouble v
  · rfl

/-- A column that only documents and its default fill. -/
structure Table.Ordinary (base : Table) (c : Column) : Prop where
  mem : c ∈ base.columns
  owns : base.Owns c
  not_key : c.name ≠ base.primaryKey
  not_stamp : c.name ∉ Change.stampColumns
  not_flag : base.deletedColumn ≠ some c.name
  not_numbered : c.autoIncrement = false
  not_stamped : c.defaultNow = false

/-- A property of the values that pass the check of an ordinary column, as they are stored, and of
what is filled in. -/
structure Schema.Grants (schema : Schema) (P : Column → Value → Prop) : Prop where
  given : ∀ base ∈ schema.bases, ∀ c, base.Ordinary c →
    ∀ v, Document.checkValue c v = .ok () → P c (c.stored v)
  filled : ∀ base ∈ schema.bases, ∀ c, base.Ordinary c → P c (c.default?.getD .null)

/-- What a record has in ordinary columns has a property. -/
def Table.HasCells (base : Table) (P : Column → Value → Prop) (r : Record) : Prop :=
  ∀ c, base.Ordinary c → ∀ v, r.get? c.name = some v → P c v

section Columns

variable {schema : Schema} {table base : Table} {c : Column} {P : Column → Value → Prop}
  {now : Time.Instant} {doc record old row : Record}

theorem Table.Ordinary.filling_eq (h : base.Ordinary c) (now : Value) (n : Int) :
    StoredTable.filling now n c = c.default?.getD .null := by
  simp [StoredTable.filling, h.not_numbered, h.not_stamped]

theorem Change.replacedCell_eq (hkey : c.name ≠ table.primaryKey)
    (hstamp : c.name ∉ Change.stampColumns) (now : Time.Instant) (key : Value)
    (stored : Option Record) (fields : Record) :
    Change.replacedCell table now key stored fields c
      = (fields.get? c.name).getD (c.default?.getD .null) := by
  have hnostamp : Change.stampColumns.contains c.name = false := by simpa using hstamp
  rw [Change.replacedCell, if_neg hkey, hnostamp]
  cases fields.get? c.name <;> rfl

/-- A column of doubles shares its name with no other column, so each column is stored in its own
way. -/
theorem Schema.Coherent.get?_withDoubles_stored (hco : schema.Coherent)
    (hbase : base ∈ schema.bases) (hshares : table.SharesRows base) (hc : c ∈ base.columns)
    (r : Record) :
    (Change.withDoubles table r).get? c.name = (r.get? c.name).map c.stored := by
  have hdouble : c.name ∈ Change.doubleNames table ↔ c.type = .float :=
    Change.mem_doubleNames_iff hshares hc fun d hd hfloat hname =>
      (hco.lone base hbase d hd (.inl hfloat) c hc hname.symm).symm
  rw [Change.get?_withDoubles]
  by_cases hfloat : c.type = .float
  · rw [if_pos (hdouble.2 hfloat)]
    cases r.get? c.name <;> simp [Column.stored, hfloat]
  · rw [if_neg (hfloat ∘ hdouble.1)]
    cases r.get? c.name <;> simp [Column.stored, hfloat]

theorem Schema.Coherent.get?_withDoubles_rowOf (hco : schema.Coherent) (hbase : base ∈ schema.bases)
    (hshares : table.SharesRows base) (hc : c ∈ base.columns) (doc : Record) :
    (Change.withDoubles table (Change.rowOf table doc)).get? c.name
      = (doc.get? c.name).map c.stored := by
  have hnolist := hco.listField?_of_column hbase hshares (Table.mem_columnNames hc)
  rw [hco.get?_withDoubles_stored hbase hshares hc, Change.get?_rowOf, hnolist, Option.isNone_none,
    if_pos rfl]

/-- What a document gives for a column is what the column stores for it. -/
theorem Schema.Coherent.get?_given (hco : schema.Coherent) (hbase : base ∈ schema.bases)
    (hshares : table.SharesRows base) (hc : c ∈ table.columns) {v : Value}
    (hv : doc.get? c.name = some v) :
    (Change.withDoubles table (Change.rowOf table doc)).get? c.name = some (c.stored v) := by
  rw [hco.get?_withDoubles_rowOf hbase hshares (hshares.columns ▸ hc), hv]
  rfl

/-- The new row is given what the document gives for a column, as the column stores it; only the
times come from elsewhere. -/
theorem Schema.Coherent.get?_insertedRow_stored (hco : schema.Coherent)
    (hbase : base ∈ schema.bases) (hshares : table.SharesRows base) (hc : c ∈ base.columns)
    (hstamp : c.name ∉ Change.stampColumns) :
    (Change.insertedRow table now doc).get? c.name = (doc.get? c.name).map c.stored := by
  rw [get?_insertedRow_column hco hbase hshares (Table.mem_columnNames hc) hstamp,
    hco.get?_withDoubles_stored hbase hshares hc]

/-- The cell of a new row is what the document gives for the column, or what is filled in. -/
theorem Schema.Coherent.cell_inserted (hco : schema.Coherent) (hbase : base ∈ schema.bases)
    (hshares : table.SharesRows base) (hc : c ∈ base.columns) (howns : base.Owns c)
    (hstamp : c.name ∉ Change.stampColumns) {t : StoredTable} (hcolumns : t.columns = base.columns)
    (hcounter : isSigned64 t.nextId = true) {next : Int}
    (hfill : t.fill (.string now.text) (Change.insertedRow table now doc) = (row, next)) :
    ∃ n, row.cell c.name
      = ((doc.get? c.name).map c.stored).getD (StoredTable.filling (.string now.text) n c) := by
  obtain ⟨d, hd, hname, n, -, hcell⟩ := StoredTable.fill_cell_or hcounter (.string now.text)
    (Change.insertedRow table now doc) c.name (by rw [hcolumns]; exact List.mem_map_of_mem hc)
  obtain rfl := howns d (hcolumns ▸ hd) hname
  rw [hfill, hco.get?_insertedRow_stored hbase hshares hc hstamp] at hcell
  exact ⟨n, hcell⟩

/-- The cell of a row that was replaced is the key, what the document gives for the column, or its
default. -/
theorem Schema.Coherent.cell_replaced (hco : schema.Coherent) (hbase : base ∈ schema.bases)
    (hshares : table.SharesRows base) (hc : c ∈ base.columns) (howns : base.Owns c)
    (hstamp : c.name ∉ Change.stampColumns) {key : Value} {stored : Option Record}
    (hcells : ∀ name v, (Change.replacedRow table now key stored doc).get? name = some v →
      row.get? name = some v) :
    row.cell c.name = if c.name = base.primaryKey then key
      else ((doc.get? c.name).map c.stored).getD (c.default?.getD .null) := by
  rw [Record.cell_eq_of_get? (hcells _ _ (get?_replacedRow hshares hc howns))]
  split
  · rename_i hkey
    rw [Change.replacedCell, if_pos (hshares.primaryKey ▸ hkey)]
  · rename_i hkey
    rw [Change.replacedCell_eq (hshares.primaryKey ▸ hkey) hstamp,
      hco.get?_withDoubles_rowOf hbase hshares hc]

/-- What a checked document gives for an ordinary column has the property. -/
theorem Schema.Grants.of_document (hgrants : schema.Grants P) (hbase : base ∈ schema.bases)
    (hshares : table.SharesRows base) (hcheck : Document.checkPartial schema table doc = .ok ())
    (hc : base.Ordinary c) {v : Value} (hv : doc.get? c.name = some v) : P c (c.stored v) := by
  have hfound := (hshares.column? c.name).trans (Table.column?_of_lone hc.mem hc.owns)
  exact hgrants.given base hbase c hc v (Document.checkValue_of_check hcheck hv hfound)

namespace Table.HasCells

theorem rewrittenBy (hrecord : base.HasCells P record) (hold : base.HasCells P old)
    (h : record.RewrittenBy old row) : base.HasCells P row := by
  intro c hc v hv
  rcases h.2 c.name with hsame | ⟨w, hw, hgiven⟩
  · exact hold c hc v (hsame ▸ hv)
  · exact hrecord c hc v (by rw [hw, ← hgiven, hv])

/-- What is filled in keeps the property: defaults, stamps and numbers are among the values that it
grants. -/
theorem fill (hgrants : schema.Grants P) (hbase : base ∈ schema.bases) {t : StoredTable}
    (hcolumns : t.columns = base.columns) (hcounter : isSigned64 t.nextId = true)
    (now : Time.Instant) (hrecord : base.HasCells P record) :
    base.HasCells P (t.fill (.string now.text) record).1 := by
  intro c hc v hv
  obtain ⟨d, hd, hname, n, -, hcell⟩ :=
    StoredTable.fill_cell_or hcounter (.string now.text) record c.name
    (by rw [hcolumns]; exact List.mem_map_of_mem hc.mem)
  obtain rfl := hc.owns d (hcolumns ▸ hd) hname
  rw [Record.cell_eq_of_get? hv, hc.filling_eq] at hcell
  rw [hcell]
  cases hgiven : record.get? d.name with
  | some w => exact hrecord d hc w hgiven
  | none => exact hgrants.filled base hbase d hc

/-! ### What changes write -/

theorem insertedRow (hco : schema.Coherent) (hgrants : schema.Grants P)
    (hbase : base ∈ schema.bases) (hshares : table.SharesRows base)
    (hcheck : Document.checkPartial schema table doc = .ok ()) :
    base.HasCells P (Change.insertedRow table now doc) := by
  intro c hc v hv
  rw [get?_insertedRow_column hco hbase hshares (Table.mem_columnNames hc.mem) hc.not_stamp,
    hco.get?_withDoubles_stored hbase hshares hc.mem] at hv
  obtain ⟨w, hw, rfl⟩ := Option.map_eq_some_iff.1 hv
  exact hgrants.of_document hbase hshares hcheck hc hw

/-- The row of an update has values of the document and the current time only. -/
theorem updatedRow (hco : schema.Coherent) (hgrants : schema.Grants P) (hbase : base ∈ schema.bases)
    (hshares : table.SharesRows base) (hcheck : Document.checkPartial schema table doc = .ok ()) :
    base.HasCells P (Change.updatedRow table now doc) := by
  intro c hc v hv
  have hstamp : c.name ≠ updatedColumn :=
    fun hname => hc.not_stamp (by rw [hname]; simp [Change.stampColumns])
  rw [Change.get?_updatedRow, if_neg hstamp, if_neg (hshares.primaryKey ▸ hc.not_key),
    hco.get?_withDoubles_stored hbase hshares hc.mem] at hv
  obtain ⟨w, hw, rfl⟩ := Option.map_eq_some_iff.1 hv
  exact hgrants.of_document hbase hshares hcheck hc (get?_of_rowOf hw)

/-- No ordinary column is touched when rows are flagged. -/
theorem flag {deleted : String} (hdeleted : base.deletedColumn = some deleted) :
    base.HasCells P (.ofList [(deleted, .bool true), (updatedColumn, .string now.text)]) := by
  intro c hc v hv
  rw [Change.get?_flag] at hv
  split at hv
  · rename_i hname
    exact absurd (by rw [hname]; simp [Change.stampColumns]) hc.not_stamp
  · split at hv
    · rename_i hname
      exact absurd (hname ▸ hdeleted) hc.not_flag
    · cases hv

theorem replacedRow (hco : schema.Coherent) (hgrants : schema.Grants P)
    (hbase : base ∈ schema.bases) (hshares : table.SharesRows base)
    (hcheck : Document.checkPartial schema table doc = .ok ()) (key : Value)
    (stored : Option Record) : base.HasCells P (Change.replacedRow table now key stored doc) := by
  intro c hc v hv
  rw [get?_replacedRow hshares hc.mem hc.owns,
    Change.replacedCell_eq (hshares.primaryKey ▸ hc.not_key) hc.not_stamp,
    hco.get?_withDoubles_rowOf hbase hshares hc.mem] at hv
  obtain rfl := Option.some.inj hv
  cases hgiven : doc.get? c.name with
  | some w => exact hgrants.of_document hbase hshares hcheck hc hgiven
  | none => exact hgrants.filled base hbase c hc

end Table.HasCells

end Columns

/-! ## Runs -/

/-- The ordinary columns of every resource have cells with a property. -/
def Store.HasCells (schema : Schema) (P : Column → Value → Prop) (s : Store) : Prop :=
  s.OfBases schema fun base t => ∀ row ∈ t.rows, base.HasCells P row

section Changes

variable {schema : Schema} {table base : Table} {now : Time.Instant}
  {tx tx' : Transaction} {s : Store}
  {doc : Record} {P : Column → Value → Prop}

theorem StoredTable.Rewrites.hasCells {t t' : StoredTable} {record : Record}
    (h : t.Rewrites record t') (hrecord : base.HasCells P record)
    (hrows : ∀ row ∈ t.rows, base.HasCells P row) :
    ∀ row ∈ t'.rows, base.HasCells P row := by
  intro row hrow
  obtain ⟨old, hold, hrewritten⟩ := exists_of_mem_right h.rows hrow
  exact hrecord.rewrittenBy (hrows old hold) hrewritten

/-- A row that is filled and added keeps the property of all rows. -/
theorem hasCells_append {t : StoredTable} {record row : Record} {next : Int}
    (hgrants : schema.Grants P) (hregular : s.Regular schema) (hbase : base ∈ schema.bases)
    (ht : s.tables.get? base.name = some t) (hfill : t.fill (.string now.text) record = (row, next))
    (hrecord : base.HasCells P record) (hrows : ∀ row ∈ t.rows, base.HasCells P row) :
    ∀ r ∈ t.rows ++ [row], base.HasCells P r := by
  obtain ⟨hcolumns, hcounter⟩ := hregular.columns_eq base (Schema.mem_physical_of_base hbase) t ht
  have hfilled := hrecord.fill hgrants hbase hcolumns hcounter now
  rw [hfill] at hfilled
  rw [List.forall_mem_append, List.forall_mem_singleton]
  exact ⟨hrows, hfilled⟩

theorem hasCells_of_insert (hco : schema.Coherent) (hgrants : schema.Grants P)
    (hregular : tx.work.Regular schema) (hbase : base ∈ schema.bases)
    (hshares : table.SharesRows base) (h : tx.work.HasCells schema P) {x : Value × Record}
    (hrun : Yields (Change.insert schema table now doc) tx x tx') :
    tx'.work.HasCells schema P := by
  have hcheck := Document.checkPartial_of_check (Change.yields_insert.1 hrun).1
  obtain ⟨t, row, next, ht, hfill, -, -, hlists⟩ := Change.effect_of_insert hco hbase hshares hrun
  exact h.put_lists hco hbase hshares (hasCells_append hgrants hregular hbase ht hfill
    (.insertedRow hco hgrants hbase hshares hcheck) (h base hbase t ht))
    (fun _ hentry => Change.list_of_mem_listsOf hentry) hlists

theorem hasCells_of_update (hco : schema.Coherent) (hgrants : schema.Grants P)
    (hbase : base ∈ schema.bases) (hshares : table.SharesRows base) (h : tx.work.HasCells schema P)
    {id : Value} (hrun : Yields (Change.update schema table now id doc) tx () tx') :
    tx'.work.HasCells schema P := by
  obtain ⟨_, _, _, -, hcheck, -⟩ := Change.yields_update.1 hrun
  obtain ⟨key, t, t', -, ht, hrewrites, hlists⟩ := Change.effect_of_update hco hbase hshares hrun
  exact h.put_lists hco hbase hshares
    (hrewrites.hasCells (.updatedRow hco hgrants hbase hshares hcheck)
    (h base hbase t ht)) (fun _ hentry => Change.list_of_mem_listsOf hentry) hlists

theorem hasCells_of_replace (hco : schema.Coherent) (hgrants : schema.Grants P)
    (hregular : tx.work.Regular schema) (hbase : base ∈ schema.bases)
    (hshares : table.SharesRows base) (h : tx.work.HasCells schema P) {id : Value}
    (hrun : Yields (Change.replace schema table now id doc) tx () tx') :
    tx'.work.HasCells schema P := by
  obtain ⟨key, t, t', hcheck, -, ht, hupserts, hlists⟩ :=
    Change.effect_of_replace hco hbase hshares hrun
  have hrecord : base.HasCells P
      (Change.replacedRow table now key (t.select (Change.storedPlan table key)).head? doc) :=
    .replacedRow hco hgrants hbase hshares (Document.checkPartial_of_check hcheck) key _
  refine h.put_lists hco hbase hshares ?_ (fun _ hm => hm) hlists
  cases hupserts with
  | change _ hold hassign =>
    exact (StoredTable.rewrites_set hold hassign).hasCells hrecord (h base hbase t ht)
  | append _ _ hfill =>
    exact hasCells_append hgrants hregular hbase ht hfill hrecord (h base hbase t ht)

theorem hasCells_of_remove (hco : schema.Coherent) (hbase : base ∈ schema.bases)
    (hshares : table.SharesRows base) (h : tx.work.HasCells schema P) {lookup : Filter} {n : Nat}
    (hrun : Yields (Change.remove schema table now lookup) tx n tx') :
    tx'.work.HasCells schema P := by
  rcases Change.effect_of_remove hrun with ⟨deleted, t, t', hdeleted, ht, hrewrites, hwork⟩
    | hshrinks
  · rw [hshares.name] at ht hwork
    rw [hwork]
    exact h.put hco hbase
      (hrewrites.hasCells (.flag (hshares.deletedColumn ▸ hdeleted)) (h base hbase t ht))
  · exact h.shrinks hshrinks fun _ _ _ hrows hcells row hrow => hcells row (hrows.rows.subset hrow)

/-- Every change keeps the property of the cells. -/
theorem keptByChanges_hasCells {catalog : Catalog} (hco : catalog.schema.Coherent)
    (hgrants : catalog.schema.Grants P) :
    catalog.KeptByChanges (Store.HasCells catalog.schema P) where
  empty := Store.OfBases.empty catalog.schema _
  creates _ _ h hcreates := h.creates hco hcreates fun _ _ => nofun
  insert _ _ _ _ hbase hshares _ _ _ hregular h hrun :=
    hasCells_of_insert hco hgrants hregular hbase hshares h hrun
  update _ _ _ _ _ hbase hshares _ _ _ _ h hrun :=
    hasCells_of_update hco hgrants hbase hshares h hrun
  replace _ _ _ _ _ hbase hshares _ _ _ hregular h hrun :=
    hasCells_of_replace hco hgrants hregular hbase hshares h hrun
  remove _ _ _ _ hbase hshares _ _ _ _ h hrun := hasCells_of_remove hco hbase hshares h hrun

end Changes

/-- **After every run the cells of ordinary columns are what documents and defaults give.** -/
theorem Catalog.hasCells_run {catalog : Catalog} (hco : catalog.schema.Coherent)
    {P : Column → Value → Prop} (hgrants : catalog.schema.Grants P) (steps : List Step) :
    (catalog.run steps).store.HasCells catalog.schema P :=
  kept_of_run hco (keptByChanges_hasCells hco hgrants) steps

end RecordStore
