import RecordStore.Proofs.Clock
import RecordStore.Proofs.Doubles
import RecordStore.Proofs.Keys
import RecordStore.Proofs.Order

/-!
# The sorted rows of a table

The rows that a plan selects are sorted by its keys, of which one is the key of the table, so no two
of them are left in no order. This holds as long as the cells by which they are sorted are values of
their columns, which they are in every run with regular clocks if the names that the settings give
are apart.

* **`StoredTable.SortsBy`** — the rows of a table can be sorted by a key.
* **`StoredTable.pairwise_sorted`** — the sorted rows are in strict order.
* **`Catalog.sortsBy_run`** — the rows of a run can be sorted by every key that is no document.
-/

namespace RecordStore

open RecordStore.Action

namespace StoredTable

/-- The rows that a plan selects, in its order, before they are cut to its page. -/
def sorted (t : StoredTable) (plan : Plan) : List Record :=
  sortRows t.columns plan.order (t.matching plan.predicate)

theorem length_sorted {t : StoredTable} {plan : Plan} :
    (t.sorted plan).length = (t.matching plan.predicate).length :=
  (perm_sortRows ..).length_eq

theorem mem_of_mem_window {α : Type} {limit : Option Nat} {offset : Nat} {items : List α} {x : α}
    (h : x ∈ window limit offset items) : x ∈ items := by
  unfold window at h
  split at h
  · exact List.mem_of_mem_drop (List.mem_of_mem_take h)
  · exact List.mem_of_mem_drop h

theorem mem_sorted_iff {t : StoredTable} {plan : Plan} {row : Record} :
    row ∈ t.sorted plan ↔ row ∈ t.rows ∧ plan.predicate.holds t.columns row = true :=
  (perm_sortRows ..).mem_iff.trans List.mem_filter

theorem mem_of_mem_sorted {t : StoredTable} {plan : Plan} {row : Record} (h : row ∈ t.sorted plan) :
    row ∈ t.rows :=
  (mem_sorted_iff.1 h).1

/-- The rows of a table can be sorted by a key: its column is none of documents, and has values of
its type in all rows. -/
def SortsBy (t : StoredTable) (key : SortKey) : Prop :=
  typeIn t.columns key.column ≠ .json
    ∧ ∀ row ∈ t.rows, (typeIn t.columns key.column).accepts (row.cell key.column) = true

section Order

variable {base : Table} {t : StoredTable} {k : Column} {plan : Plan}

theorem exists_column_of_typeIn {columns : List Column} {name : String}
    (h : typeIn columns name ≠ .json) :
    ∃ c ∈ columns, c.name = name ∧ typeIn columns name = c.type := by
  unfold typeIn at h ⊢
  cases hfound : columns.find? (·.name == name) with
  | none =>
    rw [hfound] at h
    exact absurd rfl h
  | some c =>
    exact ⟨c, List.mem_of_find?_eq_some hfound, by simpa using List.find?_some hfound, rfl⟩

/-- The cells by which rows are sorted are ordered: numbers in a column of doubles, because they are
either keys or, as far as they are whole, one number. -/
theorem ordersOn_cells (hcolumns : t.columns = base.columns) (hk : base.keyColumn? = some k)
    (hkeys : t.KeysApart k base.primaryKey) (hdoubles : ∀ row ∈ t.rows, base.HoldsDoubles row)
    {key : SortKey} (hsorts : t.SortsBy key) :
    OrdersOn (fun v => ∃ row, row ∈ t.rows ∧ row.cell key.column = v)
      (compareCells (typeIn t.columns key.column)) := by
  obtain ⟨hjson, haccepts⟩ := hsorts
  refine ordersOn_compareCells ?_
  by_cases hfloat : typeIn t.columns key.column = .float
  · rw [hfloat] at haccepts ⊢
    have hdouble (v : Value)
        (hv : (∃ row, row ∈ t.rows ∧ row.cell key.column = v) ∧ v.isNull = false) :
        v.double?.isSome = true := by
      obtain ⟨⟨row, hrow, rfl⟩, hnull⟩ := hv
      exact Option.isSome_iff_exists.2
        (ColumnType.exists_double_of_accepts (haccepts row hrow) hnull)
    by_cases hkey : key.column = base.primaryKey
    · refine ColumnType.ordersOn_apart hdouble fun a b ha hb hequal => ?_
      obtain ⟨⟨first, hfirst, rfl⟩, -⟩ := ha
      obtain ⟨⟨second, hsecond, rfl⟩, -⟩ := hb
      have htype : k.type = .float := by
        rw [← hfloat, hkey, hcolumns, Table.typeIn_keyColumn hk]
      rw [hkey, ← htype] at hequal
      rw [hkeys.eq_of_equal hfirst hsecond hequal]
    · obtain ⟨c, hc, hname, htype⟩ := exists_column_of_typeIn hjson
      have hwhole {v : Value} {n : Int} (hv : ∃ row, row ∈ t.rows ∧ row.cell key.column = v)
          (hn : v = .int n) : c.default? = some (.int n) := by
        obtain ⟨row, hrow, rfl⟩ := hv
        refine hdoubles row hrow c (hcolumns ▸ hc) (htype.symm.trans hfloat) (hname ▸ hkey) n ?_
        rw [hname]
        cases hget : row.get? key.column with
        | none =>
          rw [Record.cell, hget] at hn
          cases hn
        | some w => rw [← hn, Record.cell_eq_of_get? hget]
      refine ColumnType.ordersOn_doubles hdouble fun a b ha hb hinta hintb => ?_
      obtain ⟨m, hm⟩ := Option.isSome_iff_exists.1 hinta
      obtain ⟨n, hn⟩ := Option.isSome_iff_exists.1 hintb
      obtain ⟨rfl, -⟩ := ColumnType.int_of_integer? hm
      obtain ⟨rfl, -⟩ := ColumnType.int_of_integer? hn
      exact Option.some.inj ((hwhole ha.1 rfl).symm.trans (hwhole hb.1 rfl))
  · refine (ColumnType.ordersOn_compare? hfloat hjson).mono fun v hv => ?_
    obtain ⟨⟨row, hrow, rfl⟩, hnull⟩ := hv
    exact ⟨haccepts row hrow, hnull⟩

/-- So rows are ordered by all sort keys of a plan. -/
theorem ordersOn_rows (hcolumns : t.columns = base.columns) (hk : base.keyColumn? = some k)
    (hkeys : t.KeysApart k base.primaryKey) (hdoubles : ∀ row ∈ t.rows, base.HoldsDoubles row)
    (hsorts : ∀ key ∈ plan.order, t.SortsBy key) :
    OrdersOn (· ∈ t.rows) (compareRows t.columns plan.order) :=
  ordersOn_compareRows fun key hkey => ordersOn_cells hcolumns hk hkeys hdoubles (hsorts key hkey)

/-- Rows whose keys are in no order are one row. -/
theorem eq_of_compareCells (hcolumns : t.columns = base.columns) (hk : base.keyColumn? = some k)
    (hkeys : t.KeysApart k base.primaryKey) {key : SortKey} (hname : key.column = base.primaryKey)
    (hsorts : t.SortsBy key) {a b : Record} (ha : a ∈ t.rows) (hb : b ∈ t.rows)
    (hcells : compareCells (typeIn t.columns key.column)
      (a.cell key.column) (b.cell key.column) = .eq) :
    a = b := by
  have htype : typeIn t.columns key.column = k.type := by
    rw [hname, hcolumns, Table.typeIn_keyColumn hk]
  obtain ⟨hjson, haccepts⟩ := hsorts
  have hnulla := hkeys.filled a ha
  have hnullb := hkeys.filled b hb
  rw [← hname] at hnulla hnullb
  rw [compareCells_of_filled hnulla hnullb] at hcells
  have hequal :=
    ColumnType.equal_of_rankCompare hjson ⟨haccepts a ha, hnulla⟩ ⟨haccepts b hb, hnullb⟩ hcells
  rw [htype, hname] at hequal
  exact hkeys.eq_of_equal ha hb hequal

/-- **The sorted rows are in strict order**, if the key of the table is one of the sort keys. -/
theorem pairwise_sorted (hcolumns : t.columns = base.columns) (hk : base.keyColumn? = some k)
    (hkeys : t.KeysApart k base.primaryKey) (hdoubles : ∀ row ∈ t.rows, base.HoldsDoubles row)
    (hkeyed : ∃ key ∈ plan.order, key.column = base.primaryKey)
    (hsorts : ∀ key ∈ plan.order, t.SortsBy key) :
    (t.sorted plan).Pairwise fun a b => compareRows t.columns plan.order a b = .lt := by
  have hordered := ordersOn_rows hcolumns hk hkeys hdoubles hsorts
  have hle : (t.sorted plan).Pairwise fun a b => compareRows t.columns plan.order a b ≠ .gt :=
    pairwise_sortRows hordered fun row hrow => List.mem_of_mem_filter hrow
  have hapart : (t.sorted plan).Pairwise
      fun a b => k.type.equal (a.cell base.primaryKey) (b.cell base.primaryKey) = false :=
    ((perm_sortRows ..).pairwise_iff (Std.Symm.symm _ _)).2
      (hkeys.apart.sublist List.filter_sublist)
  obtain ⟨key, hkey, hname⟩ := hkeyed
  refine (hle.and hapart).imp_of_mem fun {a b} ha hb hpair => ?_
  cases hcompare : compareRows t.columns plan.order a b with
  | lt => rfl
  | gt => exact absurd hcompare hpair.1
  -- rows that are in no order have equal keys
  | eq =>
    have hfirst := mem_of_mem_sorted ha
    obtain rfl :=
      eq_of_compareCells hcolumns hk hkeys hname (hsorts key hkey) hfirst (mem_of_mem_sorted hb)
      (compareRows_eq hcompare hkey)
    exact absurd ((hkeys.equal_self a hfirst).symm.trans hpair.2) (by decide)

end Order

end StoredTable

/-- **The rows of a run can be sorted** by every key that is no document, if the names that the
settings give are apart and the clock was regular throughout. -/
theorem Catalog.sortsBy_run {catalog : Catalog} (hwf : catalog.schema.WellFormed)
    {steps : List Step} (hclock : ∀ step ∈ steps, step.1.IsRegular) {table : Table}
    (htable : table ∈ catalog.schema.physical) {t : StoredTable}
    (ht : (catalog.run steps).store.tables.get? table.name = some t) {key : SortKey}
    (hjson : typeIn t.columns key.column ≠ .json) : t.SortsBy key := by
  have hstore : (catalog.run steps).store.Sound catalog.schema Time.Instant.IsRegular :=
    sound_run hwf hclock
  have hsound := hstore table htable t ht
  refine ⟨hjson, fun row hrow => ?_⟩
  obtain ⟨c, hc, hname, htype⟩ := StoredTable.exists_column_of_typeIn hjson
  rw [hsound.columns_eq] at hc
  rw [htype, ← hname]
  rcases hsound.fits row hrow c hc with haccepts | ⟨hstamp, now, hnow, hcell⟩
  · exact haccepts
  · rw [(hwf.tables table htable).stamp_datetime c hc hstamp, hcell]
    exact ColumnType.accepts_clock hnow

end RecordStore
