import RecordStore.Proofs.Doubles
import RecordStore.Proofs.Fetching

/-!
# The order of the store does not matter

A request is answered in its own order: by its sort keys, or those of the datasource, and by the key
of the table among rows that these leave level. Null stands behind all values where a key ascends
and before them where it descends. As long as the cells are values of their columns and no two rows
have one key, this order leaves nothing open, so two stores that hold the same rows in different
orders give the same answer.

* **`Precedes`** — the order that a request asks for.
* **`StoredTable.Reorders.sorted_eq`** — the sorted rows of a table are the same in every order of
  its rows.
* **`Catalog.reordered_rows`** — a request is answered alike, with the rows in the order that it
  asks for.
-/

namespace RecordStore

open RecordStore.Action

/-! ## The order that is asked for -/

namespace ColumnType

/-- Whether two cells are level: both are null, or they compare as equal. -/
def Level (type : ColumnType) (a b : Value) : Prop :=
  a.isNull = true ∧ b.isNull = true ∨ type.compare? a b = some .eq

/-- Whether a cell stands before another one. Null stands behind all values where the order ascends,
and before them where it descends. -/
def Before (type : ColumnType) : SortDirection → Value → Value → Prop
  | .asc, a, b => a.isNull = false ∧ (b.isNull = true ∨ type.compare? a b = some .lt)
  | .desc, a, b => b.isNull = false ∧ (a.isNull = true ∨ type.compare? a b = some .gt)

instance (type : ColumnType) (a b : Value) : Decidable (type.Level a b) :=
  inferInstanceAs (Decidable (_ ∨ _))

theorem level_comm {type : ColumnType} {a b : Value} (h : type.Level a b) : type.Level b a := by
  rcases h with ⟨ha, hb⟩ | h
  · exact .inl ⟨hb, ha⟩
  · exact .inr (by rw [compare?_swap type a b, h]; rfl)

end ColumnType

/-- Whether a row stands before another one by several keys: the first that does not leave the rows
level decides. -/
def Precedes (columns : List Column) : List SortKey → Record → Record → Prop
  | [], _, _ => False
  | key :: rest, a, b =>
    (typeIn columns key.column).Before key.direction (a.cell key.column) (b.cell key.column)
      ∨ (typeIn columns key.column).Level (a.cell key.column) (b.cell key.column)
        ∧ Precedes columns rest a b

/-- The keys by which a request sorts: its own, else those of the datasource. -/
def Table.sortKeys (table : Table) (sort : List (String × SortDirection)) : List SortKey :=
  if sort.isEmpty then table.defaultSort.map Plan.defaultKey
  else sort.map fun entry => ⟨entry.1, entry.2⟩

/-- Further keys leave the order of rows that are not level. -/
theorem precedes_append {columns : List Column} {keys : List SortKey} {a b : Record}
    (h : Precedes columns keys a b) (more : List SortKey) :
    Precedes columns (keys ++ more) a b := by
  induction keys with
  | nil => exact h.elim
  | cons key rest ih => exact h.imp id fun hrest => ⟨hrest.1, ih hrest.2⟩

namespace Plan

variable {table : Table} {settings : Settings} {request : Request} {lookup : Filter} {plan : Plan}

theorem eq_of_sortKey {entry : String × SortDirection} {key : SortKey}
    (h : sortKey table entry = .ok key) :
    key = ⟨entry.1, entry.2⟩ := by
  unfold sortKey at h
  split at h
  · exact (Except.ok.inj h).symm
  · cases h

/-- The order of a plan is the one that is asked for, with the key of the table. -/
theorem eq_of_orderOf {sort : List (String × SortDirection)} {keys : List SortKey}
    (h : orderOf table sort = .ok keys) : keys = withPrimaryKey table (table.sortKeys sort) := by
  unfold orderOf at h
  unfold Table.sortKeys
  split at h
  · rename_i hempty
    rw [if_pos hempty]
    exact (Except.ok.inj h).symm
  · rename_i hsort
    rw [if_neg hsort]
    obtain ⟨own, hown, rfl⟩ := map_eq_ok_iff.1 h
    have hkeys : List.Forall₂ (fun entry key => SortKey.mk entry.1 entry.2 = key) sort own :=
      (mapM_eq_ok_iff.1 hown).imp fun _ _ hkey => (eq_of_sortKey hkey).symm
    rw [← List.forall₂_map_left_iff (R := Eq), List.forall₂_eq_eq_eq] at hkeys
    rw [hkeys]

/-- The keys of a plan are those that are asked for and that of the table. -/
theorem order_of_ofRequestAndLookup
    (h : ofRequestAndLookup settings table request lookup = .ok plan) :
    plan.order = withPrimaryKey table (table.sortKeys request.sort) := by
  obtain ⟨wide, hwide, hplan⟩ := ofRequestAndLookup_eq_ok_iff.1 h
  obtain ⟨p, lists, keys, -, -, hkeys, rfl⟩ := ofRequest_eq_ok_iff.1 hwide
  rcases hplan with ⟨-, rfl⟩ | ⟨-, narrowed, -, rfl⟩
  · exact eq_of_orderOf hkeys
  · exact eq_of_orderOf hkeys

theorem mem_withPrimaryKey {keys : List SortKey} {key : SortKey}
    (h : key ∈ withPrimaryKey table keys) :
    key ∈ keys ∨ key = ⟨table.primaryKey, .asc⟩ := by
  unfold withPrimaryKey at h
  split at h
  · exact .inl h
  · exact (List.mem_append.1 h).imp id List.mem_singleton.1

/-- What precedes in the order of a plan, precedes in the order that is asked for. -/
theorem precedes_of_withPrimaryKey {keys : List SortKey} {columns : List Column} {a b : Record}
    (h : Precedes columns (withPrimaryKey table keys) a b) :
    Precedes columns (keys ++ [⟨table.primaryKey, .asc⟩]) a b := by
  unfold withPrimaryKey at h
  split at h
  · exact precedes_append h _
  · exact h

end Plan

/-! ## Comparing typed cells -/

namespace ColumnType

variable {type : ColumnType} {a b : Value}

/-- Typed cells compare as less where the first stands before the second. -/
theorem compareCells_spec (hjson : type ≠ .json) (ha : type.accepts a = true)
    (hb : type.accepts b = true) :
    match compareCells type a b with
    | .lt => type.Before .asc a b
    | .eq => type.Level a b
    | .gt => type.Before .desc a b := by
  unfold compareCells
  cases hnull : a.isNull <;> cases hnull' : b.isNull
  · obtain ⟨o, ho⟩ := exists_compare? hjson ⟨ha, hnull⟩ ⟨hb, hnull'⟩
    rw [if_neg Bool.false_ne_true, if_neg Bool.false_ne_true, ho, Option.getD_some]
    cases o with
    | lt => exact ⟨hnull, .inr ho⟩
    | eq => exact .inr ho
    | gt => exact ⟨hnull', .inr ho⟩
  · exact ⟨hnull, .inl hnull'⟩
  · exact ⟨hnull', .inl hnull⟩
  · exact .inl ⟨hnull, hnull'⟩

end ColumnType

/-- Rows with typed cells that compare as less by one key or by several precede. -/
theorem before_of_compareRows {columns : List Column} {key : SortKey} {a b : Record}
    (hjson : typeIn columns key.column ≠ .json)
    (ha : (typeIn columns key.column).accepts (a.cell key.column) = true)
    (hb : (typeIn columns key.column).accepts (b.cell key.column) = true) :
    match key.compareRows columns a b with
    | .lt =>
      (typeIn columns key.column).Before key.direction (a.cell key.column) (b.cell key.column)
    | .eq => (typeIn columns key.column).Level (a.cell key.column) (b.cell key.column)
    | .gt => True := by
  have hspec := ColumnType.compareCells_spec hjson ha hb
  obtain ⟨name, direction⟩ := key
  unfold SortKey.compareRows
  cases hcells : compareCells (typeIn columns name) (a.cell name) (b.cell name) <;>
    rw [hcells] at hspec <;> cases direction <;> first
    | exact hspec
    | trivial

/-- Rows that compare as strictly ordered stand in the order of their first difference. -/
theorem precedes_of_compareRows {columns : List Column} {keys : List SortKey} {a b : Record}
    (htyped : ∀ key ∈ keys, typeIn columns key.column ≠ .json
      ∧ (typeIn columns key.column).accepts (a.cell key.column) = true
      ∧ (typeIn columns key.column).accepts (b.cell key.column) = true)
    (h : compareRows columns keys a b = .lt) : Precedes columns keys a b := by
  induction keys with
  | nil => cases h
  | cons key rest ih =>
    obtain ⟨hjson, ha, hb⟩ := htyped key List.mem_cons_self
    have hspec := before_of_compareRows hjson ha hb
    rw [compareRows, Ordering.then_eq_lt] at h
    rcases h with hless | ⟨hlevel, hrest⟩
    · rw [hless] at hspec
      exact .inl hspec
    · rw [hlevel] at hspec
      exact .inr
        ⟨hspec, ih (fun other hother => htyped other (List.mem_cons_of_mem key hother)) hrest⟩

/-! ## The rows of a table in another order -/

namespace StoredTable

variable {table : Table} {t t' : StoredTable} {plan : Plan}

/-- The cells of a table are values of their columns, in a column of doubles doubles, and no two
rows have one key. -/
structure Comparable (t : StoredTable) (table : Table) : Prop where
  columns_eq : t.columns = table.columns
  typed : ∀ row ∈ t.rows, ∀ c ∈ table.columns, c.type.accepts (row.cell c.name) = true
  doubles : ∀ row ∈ t.rows, ∀ c ∈ table.columns, c.type = .float → (row.cell c.name).isWhole = false
  apart : t.rows.Pairwise fun a b =>
    ¬ (typeIn table.columns table.primaryKey).Level
      (a.cell table.primaryKey) (b.cell table.primaryKey)

instance (type : ColumnType) (name : String) :
    Std.Symm fun a b : Record => ¬ type.Level (a.cell name) (b.cell name) :=
  ⟨fun _ _ hnot hlevel => hnot (ColumnType.level_comm hlevel)⟩

/-- Two tables hold the same rows, each in an order of its own. -/
structure Reorders (table : Table) (t t' : StoredTable) : Prop where
  comparable : t.Comparable table
  columns_eq : t'.columns = t.columns
  perm : t'.rows.Perm t.rows

namespace Comparable

theorem accepts (h : t.Comparable table) {row : Record} (hrow : row ∈ t.rows) {name : String}
    (hjson : typeIn t.columns name ≠ .json) :
    (typeIn t.columns name).accepts (row.cell name) = true := by
  obtain ⟨c, hc, rfl, htype⟩ := exists_column_of_typeIn hjson
  rw [htype]
  exact h.typed row hrow c (h.columns_eq ▸ hc)

/-- The cells of each column are ordered. -/
theorem ordersOn_cells (h : t.Comparable table) {name : String}
    (hjson : typeIn t.columns name ≠ .json) :
    OrdersOn (fun v => ∃ row, row ∈ t.rows ∧ row.cell name = v)
      (compareCells (typeIn t.columns name)) := by
  refine ordersOn_compareCells ?_
  by_cases hfloat : typeIn t.columns name = .float
  · obtain ⟨c, hc, rfl, htype⟩ := exists_column_of_typeIn hjson
    have hwhole {v : Value} (hv : ∃ row, row ∈ t.rows ∧ row.cell c.name = v) :
      v.isWhole = false := by
      obtain ⟨row, hrow, rfl⟩ := hv
      exact h.doubles row hrow c (h.columns_eq ▸ hc) (htype.symm.trans hfloat)
    rw [hfloat]
    refine ColumnType.ordersOn_doubles (fun v hv => ?_) fun a b ha _ hinta _ => ?_
    · obtain ⟨⟨row, hrow, rfl⟩, hnull⟩ := hv
      have haccepts := h.accepts hrow hjson
      rw [hfloat] at haccepts
      exact Option.isSome_iff_exists.2 (ColumnType.exists_double_of_accepts haccepts hnull)
    -- no two cells are whole numbers, for none is
    · obtain ⟨n, hn⟩ := Option.isSome_iff_exists.1 hinta
      have hnot := hwhole ha.1
      rw [(ColumnType.int_of_integer? hn).1] at hnot
      cases hnot
  · refine (ColumnType.ordersOn_compare? hfloat hjson).mono fun v hv => ?_
    obtain ⟨⟨row, hrow, rfl⟩, hnull⟩ := hv
    exact ⟨h.accepts hrow hjson, hnull⟩

theorem ordersOn_rows (h : t.Comparable table) {keys : List SortKey}
    (hjson : ∀ key ∈ keys, typeIn t.columns key.column ≠ .json) :
    OrdersOn (· ∈ t.rows) (compareRows t.columns keys) :=
  ordersOn_compareRows fun key hkey => h.ordersOn_cells (hjson key hkey)

/-- **The sorted rows are in strict order**, if the key of the table is one of the sort keys. -/
theorem pairwise_sorted (h : t.Comparable table)
    (hjson : ∀ key ∈ plan.order, typeIn t.columns key.column ≠ .json)
    (hkeyed : ∃ key ∈ plan.order, key.column = table.primaryKey) :
    (t.sorted plan).Pairwise fun a b => compareRows t.columns plan.order a b = .lt := by
  have hle : (t.sorted plan).Pairwise fun a b => compareRows t.columns plan.order a b ≠ .gt :=
    pairwise_sortRows (h.ordersOn_rows hjson) fun row hrow => List.mem_of_mem_filter hrow
  have hapart : (t.sorted plan).Pairwise fun a b => ¬ (typeIn table.columns table.primaryKey).Level
      (a.cell table.primaryKey) (b.cell table.primaryKey) :=
    ((perm_sortRows ..).pairwise_iff (Std.Symm.symm _ _)).2 (h.apart.sublist List.filter_sublist)
  obtain ⟨key, hkey, hname⟩ := hkeyed
  refine (hle.and hapart).imp_of_mem fun {a b} ha hb hpair => ?_
  cases hcompare : compareRows t.columns plan.order a b with
  | lt => rfl
  | gt => exact absurd hcompare hpair.1
  -- rows that are in no order have level keys
  | eq =>
    have hspec := ColumnType.compareCells_spec (hjson key hkey)
      (h.accepts (mem_of_mem_sorted ha) (hjson key hkey))
      (h.accepts (mem_of_mem_sorted hb) (hjson key hkey))
    rw [compareRows_eq hcompare hkey, hname, h.columns_eq] at hspec
    exact absurd hspec hpair.2

end Comparable

/-- **Sorted, the rows of a table are the same** in every order in which they are stored. -/
theorem Reorders.sorted_eq (h : Reorders table t t')
    (hjson : ∀ key ∈ plan.order, typeIn t.columns key.column ≠ .json)
    (hkeyed : ∃ key ∈ plan.order, key.column = table.primaryKey) :
    t'.sorted plan = t.sorted plan := by
  have hcomparable : t'.Comparable table :=
    ⟨h.columns_eq.trans h.comparable.columns_eq,
      fun row hrow => h.comparable.typed row (h.perm.mem_iff.1 hrow),
      fun row hrow => h.comparable.doubles row (h.perm.mem_iff.1 hrow),
      (h.perm.pairwise_iff (Std.Symm.symm _ _)).2 h.comparable.apart⟩
  have hmatching : (t'.matching plan.predicate).Perm (t.matching plan.predicate) := by
    unfold matching
    rw [h.columns_eq]
    exact h.perm.filter _
  have hperm : (t'.sorted plan).Perm (t.sorted plan) :=
    (perm_sortRows ..).trans (hmatching.trans (perm_sortRows ..).symm)
  have hstrict := h.comparable.pairwise_sorted hjson hkeyed
  have hstrict' : (t'.sorted plan).Pairwise fun a b =>
    compareRows t.columns plan.order a b = .lt := by
    rw [← h.columns_eq] at hjson ⊢
    exact hcomparable.pairwise_sorted hjson hkeyed
  refine hperm.eq_of_pairwise (fun a b ha hb hab hba => ?_) hstrict' hstrict
  rw [(h.comparable.ordersOn_rows hjson).swap (mem_of_mem_sorted (hperm.mem_iff.1 ha))
    (mem_of_mem_sorted hb), hab] at hba
  cases hba

theorem Reorders.select_eq (h : Reorders table t t')
    (hjson : ∀ key ∈ plan.order, typeIn t.columns key.column ≠ .json)
    (hkeyed : ∃ key ∈ plan.order, key.column = table.primaryKey) : t'.select plan = t.select plan :=
  congrArg (fun rows => (window plan.limit plan.offset rows).map (cut plan.columns))
    (h.sorted_eq hjson hkeyed)

end StoredTable

/-! ## Requests -/

/-- Two stores hold the same rows of a table: in the same order, or each in an order of its own. -/
def Store.ReordersTable (s s' : Store) (table : Table) : Prop :=
  s'.tables.get? table.name = s.tables.get? table.name
    ∨ ∃ t t', s.tables.get? table.name = some t
      ∧ s'.tables.get? table.name = some t' ∧ t.Reorders table t'

/-- A plan with the key in its order selects the same rows in the same order from a reordered
table. -/
theorem Store.ReordersTable.selected_eq {s s' : Store} {table : Table} {plan : Plan}
    (h : s.ReordersTable s' table) (htable : plan.table = table)
    (hjson : ∀ key ∈ plan.order, typeIn table.columns key.column ≠ .json)
    (hkeyed : ∃ key ∈ plan.order, key.column = table.primaryKey) :
    s'.selected plan = s.selected plan := by
  subst htable
  unfold selected
  rcases h with hsame | ⟨t, t', ht, ht', hreorders⟩
  · rw [hsame]
  · rw [ht, ht', Option.map_some, Option.map_some,
      hreorders.select_eq (by rwa [hreorders.comparable.columns_eq]) hkeyed]

namespace Catalog

variable {settings : Settings} {domain : Domain} {catalog : Catalog}
  {resource : String} {table : Table}
  {request : Request} {lookup : Filter} {plan : Plan} {db db' : Database} {t t' : StoredTable}

/-- Links are read in the order of their numbers, so it does not matter in which order they are
stored. -/
theorem selected_links_eq (hco : catalog.schema.Coherent)
    (htable : catalog.schema.table resource = .ok table) {m : ListField} (hm : m ∈ table.lists)
    {link : Table} (hlink : catalog.schema.linkTable m.linkTable = .ok link)
    (h : db.store.ReordersTable db'.store link) (owners : List Value) :
    db'.store.selected (Fetch.linkPlan link m owners)
      = db.store.selected (Fetch.linkPlan link m owners) := by
  obtain ⟨base, hbase, hshares⟩ := hco.shared table (Schema.mem_of_table htable).1
  rw [hshares.lists] at hm
  obtain ⟨link', target, ownerKey, targetKey, hserves⟩ := hco.lists base hbase m hm
  obtain rfl := Except.ok.inj (hserves.link_eq.symm.trans hlink)
  have hinteger : typeIn link'.columns link'.primaryKey = .integer := by
    rw [hserves.columns_eq]
    simp [typeIn, Column.identity]
  refine h.selected_eq rfl (fun key hkey => ?_) ⟨_, List.mem_singleton.2 rfl, rfl⟩
  rw [List.mem_singleton.1 hkey, hinteger]
  decide

/-- The records that are found are those of the sorted rows, with the number of all of them. -/
theorem shows_of_find (htable : catalog.schema.table resource = .ok table)
    (ht : db.store.tables.get? table.name = some t)
    (hplan : catalog.plan resource request lookup = .ok plan) {page : Page}
    (hfound : (catalog.find resource request lookup db).1 = .ok page) :
    List.Forall₂ (plan.Shows catalog.settings)
      (StoredTable.window plan.limit plan.offset (t.sorted plan))
        page.records
      ∧ page.total = (t.matching plan.predicate).length := by
  obtain rfl := (Plan.projects_of_ofRequestAndLookup (plan_eq_ok htable hplan)).table_eq
  rw [find, hplan] at hfound
  obtain ⟨tx, hpage, -⟩ := Database.transact_ok hfound
  obtain ⟨mid, hrecords, htotal⟩ := Fetch.yields_page.1 hpage
  obtain ⟨rfl, u, hu, hshows⟩ := Fetch.shows_of_yields_records hrecords
  obtain ⟨-, rfl, u', hu', hcount⟩ := Transaction.yields_count.1 htotal
  obtain rfl := Option.some.inj (ht.symm.trans hu)
  obtain rfl := Option.some.inj (ht.symm.trans hu')
  exact ⟨hshows, hcount⟩

/-- A request finds records if its links can be read and its dates be written. -/
theorem exists_page (hdates : catalog.settings.WritesDates)
    (ht : db.store.tables.get? plan.table.name = some t)
    (hplan : catalog.plan resource request lookup = .ok plan)
    (hcreated : ∀ m ∈ plan.table.lists, ∃ link u, catalog.schema.linkTable m.linkTable = .ok link
      ∧ db.store.tables.get? link.name = some u) :
    ∃ page, (catalog.find resource request lookup db).1 = .ok page := by
  have hopen : (Transaction.begin db).isOpen = true := rfl
  obtain ⟨shown, hshown, -⟩ := Fetch.exists_records hdates plan hopen hcreated ht
  have hpage : Yields (Fetch.page catalog.schema catalog.settings plan) (.begin db)
      ⟨shown, (t.matching plan.predicate).length⟩ (.begin db) := by
    exact Fetch.yields_page.2 ⟨_, hshown, Transaction.yields_count.2 ⟨rfl, rfl, t, ht, rfl⟩⟩
  rw [find, hplan]
  exact ⟨_, congrArg Prod.fst (Database.transact_of_yields hpage rfl)⟩

/-- The rows of a plan are in the order that its request asks for. -/
theorem pairwise_precedes (htable : catalog.schema.table resource = .ok table)
    (hplan : catalog.plan resource request lookup = .ok plan) (hrows : t.Comparable table)
    (hjson : ∀ key ∈ plan.order, typeIn table.columns key.column ≠ .json) :
    (t.sorted plan).Pairwise
      (Precedes table.columns (table.sortKeys request.sort ++ [⟨table.primaryKey, .asc⟩])) := by
  have hown := plan_eq_ok htable hplan
  have horder := Plan.order_of_ofRequestAndLookup hown
  rw [← hrows.columns_eq] at hjson ⊢
  refine (hrows.pairwise_sorted hjson (Plan.facts_of_ofRequestAndLookup hown).2).imp_of_mem
    fun {a b} ha hb hless => Plan.precedes_of_withPrimaryKey ?_
  rw [← horder]
  exact precedes_of_compareRows (fun key hmem =>
    ⟨hjson key hmem, hrows.accepts (StoredTable.mem_of_mem_sorted ha) (hjson key hmem),
      hrows.accepts (StoredTable.mem_of_mem_sorted hb) (hjson key hmem)⟩) hless

/-- **A request is answered alike** by two stores that hold the same rows of its table, and of the
link tables of its lists, in different orders. The records are those of the matching rows, in the
order that is asked for, cut to the page; they are found if the links can be read and the dates be
written. -/
theorem reordered_rows (hcompiles : Catalog.ofDomain settings domain = .ok catalog)
    (htable : catalog.schema.table resource = .ok table)
    (hkey : typeIn table.columns table.primaryKey ≠ .json)
    (hsort : ∀ key ∈ table.sortKeys request.sort, typeIn table.columns key.column ≠ .json)
    (ht : db.store.tables.get? table.name = some t)
    (ht' : db'.store.tables.get? table.name = some t')
    (hrows : t.Reorders table t')
    (hlinks : ∀ m ∈ table.lists, ∀ link, catalog.schema.linkTable m.linkTable = .ok link →
      db.store.ReordersTable db'.store link) :
    (catalog.find resource request lookup db').1 = (catalog.find resource request lookup db).1
      ∧ ∀ plan, catalog.plan resource request lookup = .ok plan →
        (t.sorted plan).Perm (t.matching plan.predicate)
        ∧ (t.sorted plan).Pairwise
          (Precedes table.columns (table.sortKeys request.sort ++ [⟨table.primaryKey, .asc⟩]))
        ∧ (∀ page, (catalog.find resource request lookup db).1 = .ok page →
          List.Forall₂ (plan.Shows settings)
            (StoredTable.window plan.limit plan.offset (t.sorted plan))
              page.records
            ∧ page.total = (t.matching plan.predicate).length)
        ∧ (settings.WritesDates →
          (∀ m ∈ table.lists, ∃ link u, catalog.schema.linkTable m.linkTable = .ok link
            ∧ db.store.tables.get? link.name = some u) →
          ∃ page, (catalog.find resource request lookup db).1 = .ok page) := by
  have hco := coherent_of_ofDomain hcompiles
  obtain ⟨base, hbase, hshares⟩ := hco.shared table (Schema.mem_of_table htable).1
  have horder {plan : Plan} (hplan : catalog.plan resource request lookup = .ok plan) :
      plan.table = table ∧ ∀ key ∈ plan.order, typeIn table.columns key.column ≠ .json := by
    have hown := plan_eq_ok htable hplan
    refine ⟨(Plan.facts_of_ofRequestAndLookup hown).1, fun key hmem => ?_⟩
    rw [Plan.order_of_ofRequestAndLookup hown] at hmem
    rcases Plan.mem_withPrimaryKey hmem with hmem | rfl
    · exact hsort key hmem
    · exact hkey
  refine ⟨transactWith_of_agrees fun plan hplan => ?_, fun plan hplan => ⟨perm_sortRows ..,
    pairwise_precedes htable hplan hrows.comparable (horder hplan).2, fun page hfound => ?_,
    fun hdates hcreated => ?_⟩⟩
  · obtain ⟨rfl, hjson⟩ := horder hplan
    have hkeyed := (Plan.facts_of_ofRequestAndLookup (plan_eq_ok htable hplan)).2
    have hselected : db'.store.selected plan = db.store.selected plan :=
      Store.ReordersTable.selected_eq (.inr ⟨t, t', ht, ht', hrows⟩) rfl hjson hkeyed
    have hcount : (t'.matching plan.predicate).length = (t.matching plan.predicate).length := by
      rw [StoredTable.matching, hrows.columns_eq]
      exact (hrows.perm.filter _).length_eq
    refine Fetch.agrees_page rfl rfl
      (fun m hm => hco.field_ne_key hbase hshares (Plan.mem_lists_of_mem_listsOf hm))
      ⟨hselected, fun rows _ m hm link hlink => ?_⟩ ?_
    · have hlist := Plan.mem_lists_of_mem_listsOf hm
      exact selected_links_eq hco htable hlist hlink (hlinks m hlist link hlink) _
    · show (db'.store.tables.get? plan.table.name).map _
        = (db.store.tables.get? plan.table.name).map _
      rw [ht, ht', Option.map_some, Option.map_some, hcount]
  · rw [← settings_of_ofDomain hcompiles]
    exact shows_of_find htable ht hplan hfound
  · obtain ⟨rfl, -⟩ := horder hplan
    exact exists_page (settings_of_ofDomain hcompiles ▸ hdates) ht hplan hcreated

/-! ### A sample -/

/-- Readings of a level, each at a time. -/
def readingDomain : Domain := .ofList [("reading", { fields := .ofList [
  ("level", { typeName := "float" }),
  ("at", { typeName := "datetime" })] })]

def readingCatalog : Catalog := .compiled {} readingDomain

theorem ofDomain_reading : Catalog.ofDomain {} readingDomain = .ok readingCatalog :=
  Catalog.ofDomain_compiled rfl

/-- A level, none, and the two zeros at one time under two spellings. -/
def readingSteps : List Step := [
  (⟨0, 0⟩, .createTables),
  (⟨1, 0⟩, .insert "reading" [
    .ofList [("level", .float (.ofInt 2)), ("at", .string "2024-01-01T00:00:00Z")],
    {},
    .ofList [("level", .float (.zero true)), ("at", .string "2024-01-01T01:00:00+01:00")],
    .ofList [("level", .float (.zero false)), ("at", .string "2024-01-01T00:00:00Z")]])]

/-- The highest levels first, each in the order of time. -/
def highestFirst : Request := { sort := [("level", .desc), ("at", .asc)] }

/-- The readings are found in one order, though they are stored in two. -/
theorem readings_reordered :
    ∃ table t t' db' plan, readingCatalog.schema.table "reading" = .ok table
    ∧ (readingCatalog.run readingSteps).store.tables.get? table.name = some t
    ∧ db'.store.tables.get? table.name = some t' ∧ t'.rows = t.rows.reverse
    ∧ (readingCatalog.find "reading" highestFirst [] db').1
      = (readingCatalog.find "reading" highestFirst [] (readingCatalog.run readingSteps)).1
    ∧ readingCatalog.plan "reading" highestFirst [] = .ok plan
    ∧ (t.sorted plan).map (·.cell "id") = [.int 2, .int 1, .int 3, .int 4]
    ∧ (t.sorted plan).Pairwise
      (Precedes table.columns [⟨"level", .desc⟩, ⟨"at", .asc⟩, ⟨"id", .asc⟩]) := by
  have hparts : ((readingCatalog.schema.table "reading").toOption.bind fun table =>
      (readingCatalog.plan "reading" highestFirst []).toOption.bind fun plan =>
      ((readingCatalog.run readingSteps).store.tables.get? table.name).map fun t =>
        decide (table.primaryKey = "id" ∧ table.lists = []
          ∧ typeIn table.columns table.primaryKey ≠ .json
          ∧ (∀ key ∈ table.sortKeys highestFirst.sort, typeIn table.columns key.column ≠ .json)
          ∧ (∀ row ∈ t.rows, ∀ c ∈ table.columns, c.type.accepts (row.cell c.name) = true
            ∧ (c.type = .float → (row.cell c.name).isWhole = false))
          ∧ (t.rows.Pairwise fun a b => ¬ (typeIn table.columns table.primaryKey).Level
            (a.cell table.primaryKey) (b.cell table.primaryKey))
          ∧ (t.sorted plan).map (·.cell "id") = [.int 2, .int 1, .int 3, .int 4])) = some true := by
    decide +kernel
  obtain ⟨table, htable, hparts⟩ := Option.bind_eq_some_iff.1 hparts
  obtain ⟨plan, hplan, hparts⟩ := Option.bind_eq_some_iff.1 hparts
  obtain ⟨t, ht, hfacts⟩ := Option.map_eq_some_iff.1 hparts
  obtain ⟨hname, hlists, hkey, hsort, htyped, hapart, hids⟩ := of_decide_eq_true hfacts
  have htable := eq_ok_of_toOption htable
  have hplan := eq_ok_of_toOption hplan
  have hco := coherent_of_ofDomain ofDomain_reading
  obtain ⟨base, hbase, hshares⟩ := hco.shared table (Schema.mem_of_table htable).1
  have hregular := regular_run hco readingSteps
  generalize readingCatalog.run readingSteps = db at ht hregular ⊢
  have hcolumns : t.columns = table.columns := by
    rw [hshares.columns]
    exact (hregular.columns_eq base (Schema.mem_physical_of_base hbase) t (hshares.name ▸ ht)).1
  have hrows : t.Reorders table { t with rows := t.rows.reverse } :=
    ⟨⟨hcolumns, fun row hrow c hc =>
      (htyped row hrow c hc).1, fun row hrow c hc => (htyped row hrow c hc).2,
      hapart⟩, rfl, List.reverse_perm _⟩
  let db' : Database := ⟨db.store.put table.name { t with rows := t.rows.reverse }, []⟩
  have hput : db'.store.tables.get? table.name = some { t with rows := t.rows.reverse } := by
    rw [Store.get?_put, if_pos rfl]
  obtain ⟨hsame, hfound⟩ :=
    @reordered_rows {} readingDomain readingCatalog "reading" table highestFirst [] db
    db' t _ ofDomain_reading htable hkey hsort ht hput hrows (by simp [hlists])
  obtain ⟨-, hpairs, -⟩ := hfound plan hplan
  rw [hname] at hpairs
  exact ⟨table, t, _, db', plan, htable, ht, hput, rfl, hsame, hplan, hids, hpairs⟩

end Catalog

end RecordStore
