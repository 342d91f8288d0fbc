import RecordStore.Proofs.Pages
import RecordStore.Proofs.Readable

/-!
# Lists of keys

A list of keys is asked for like any filter, narrowed by nothing and cut to no page: the rows that
it finds are the visible ones whose keys are in the list, each once, however often its key is there.
What their order is, is not told by the list. It is the order of requests without a sort of their
own, and so that of the default sort, with the key behind it.

* **`Catalog.exists_listPlan_iff`** — the lists of keys that can be asked for.
* **`StoredTable.sorted_by_key_iff`** — when sorted rows are in the order of their keys.
* **`Catalog.rows_found_by_keys`** — the rows that a list of keys finds, and their order.
* **`Catalog.notes_found_backwards`** — notes that are found in another order than that of their
  keys.
-/

namespace RecordStore

open RecordStore.Action

/-! ## What is asked for -/

/-- Whether the key of a row equals one of a list. -/
def Table.hasKeyIn (table : Table) (k : Column) (ids : List Value) (row : Record) : Bool :=
  ids.any fun id => k.type.equal (row.cell table.primaryKey) (k.type.interpret id)

/-- Whether a row is visible to a filter: it satisfies the filter of the datasource, and the rule
about deleted rows admits it. -/
def Table.isVisibleTo (table : Table) (filter : Filter) (row : Record) : Bool :=
  (Filter.ofRecord table.defaultFilter).holds table row && table.admits filter false row

/-- The order of the keys. -/
def Table.byKey (table : Table) : List SortKey := [⟨table.primaryKey, .asc⟩]

/-- The default sort has the order of the keys, because it is that or there is none. -/
def Table.SortsByKey (table : Table) : Prop :=
  ∀ entry ∈ table.defaultSort.head?, entry.1 = table.primaryKey ∧ 0 ≤ entry.2

namespace Predicate

variable {table : Table} {k : Column} {ids : List Value}

theorem takesEntry_keys_iff (hk : table.keyColumn? = some k) (hjson : k.type ≠ .json) :
    table.TakesEntry ⟨table.primaryKey, .isIn, .array ids⟩
      ↔ ∀ id ∈ ids, k.type.accepts (k.type.interpret id) = true := by
  constructor
  · rintro ⟨c, v, hc, htakes⟩
    obtain rfl := Option.some.inj (hk.symm.trans hc)
    cases htakes with
    | list _ hitems => exact hitems
    | scalar hin => exact absurd rfl hin
  · exact fun hitems => ⟨k, _, hk, .list hjson hitems⟩

/-- A list of keys becomes a predicate if the key takes all of them and the filter of the datasource
applies. -/
theorem exists_keys_iff (hk : table.keyColumn? = some k) (hjson : k.type ≠ .json) :
    (∃ p, ofFilter table (Change.keyFilter table .isIn (.array ids)) .lookup false = .ok p)
      ↔ (∀ id ∈ ids, k.type.accepts (k.type.interpret id) = true)
        ∧ table.TakesFilter table.defaultFilter := by
  have hpermits : table.Permits .lookup ⟨table.primaryKey, .isIn, .array ids⟩ := by
    intro hclient
    cases hclient
  rw [exists_ofFilter_iff, Change.keyFilter, List.forall_mem_singleton,
    takesEntry_keys_iff hk hjson]
  exact and_congr_left' (and_iff_right hpermits)

/-- The predicate holds of the rows that are visible to the list and have one of its keys. -/
theorem holds_keys {p : Predicate} (hk : table.keyColumn? = some k)
    (hp : ofFilter table (Change.keyFilter table .isIn (.array ids)) .lookup false = .ok p)
    {row : Record} (hfilled : (row.cell table.primaryKey).isNull = false) :
    p.holds table.columns row
      = (table.isVisibleTo (Change.keyFilter table .isIn (.array ids)) row
        && table.hasKeyIn k ids row) := by
  have hkeys : (Change.keyFilter table .isIn (.array ids)).holds table row
    = table.hasKeyIn k ids row := by
    rw [Change.keyFilter, Filter.holds, List.all_cons, List.all_nil, Bool.and_true,
      FilterEntry.holds]
    change (table.keyColumn?).any _ = _
    rw [hk, Option.any_some]
    change (!(row.cell table.primaryKey).isNull && (ids.map k.type.interpret).any _) = _
    rw [hfilled, List.any_map]
    rfl
  rw [holds_of_ofFilter_admits hp, hkeys, Table.isVisibleTo, Bool.and_assoc, Bool.and_comm]

end Predicate

/-- What is visible to a list of keys is visible to a request of nothing, unless the key is the
flag. -/
theorem Table.isVisibleTo_keys {table : Table} (hflag : table.deletedColumn ≠ some table.primaryKey)
    (v : Value) :
    table.isVisibleTo (Change.keyFilter table .isIn v) = table.isVisibleTo [] := by
  funext row
  have hadmits : table.admits (Change.keyFilter table .isIn v) false row
    = table.admits [] false row := by
    show table.admits (Filter.and [] (Change.keyFilter table .isIn v)) false row = _
    refine Table.admits_and_eq fun deleted hdeleted hreferences => ?_
    have hname : table.primaryKey = deleted := by
      simpa [Change.keyFilter, Filter.references] using hreferences
    exact absurd (hname ▸ hdeleted) hflag
  rw [isVisibleTo, isVisibleTo, hadmits]

/-! ## The order of the keys -/

theorem OrdersOn.irrefl {α : Type} {S : α → Prop} {cmp : α → α → Ordering} (h : OrdersOn S cmp)
    {a : α} (ha : S a) : cmp a a ≠ .lt := by
  intro hlt
  have hswap := h.swap ha ha
  rw [hlt] at hswap
  cases hswap

/-- A strict order of rows is another one too if whatever is before something by the one is by the
other. -/
theorem pairwise_lt_iff {α : Type} {S : α → Prop} {first second : α → α → Ordering} {items : List α}
    (hordered : OrdersOn S first) (hitems : ∀ a ∈ items, S a)
    (hfirst : items.Pairwise fun a b => first a b = .lt) :
    (items.Pairwise fun a b => second a b = .lt)
      ↔ ∀ a ∈ items, ∀ b ∈ items, first a b = .lt → second a b = .lt := by
  refine ⟨fun hsecond a ha b hb hlt => ?_, fun h => hfirst.imp_of_mem fun ha hb => h _ ha _ hb⟩
  -- of two that stand one behind the other, the first one is the smaller one by both orders
  have hpairs : items.Pairwise fun a b => first a b = .lt → second a b = .lt := by
    refine hsecond.imp ?_
    exact fun hlt _ => hlt
  have hflip : items.Pairwise (flip fun a b => first a b = .lt → second a b = .lt) := by
    refine hfirst.imp_of_mem fun {a b} ha hb hlt hgt => ?_
    rw [hordered.swap (hitems a ha) (hitems b hb), hlt] at hgt
    cases hgt
  exact hpairs.forall_of_forall_of_flip
    (fun a ha hlt => absurd hlt (hordered.irrefl (hitems a ha))) hflip
    ha hb hlt

namespace StoredTable

variable {base : Table} {t : StoredTable} {k : Column} {plan : Plan}

/-- The rows of a plan are in the order of their keys exactly if the plan orders them like their
keys. -/
theorem sorted_by_key_iff (hcolumns : t.columns = base.columns) (hk : base.keyColumn? = some k)
    (hkeys : t.KeysApart k base.primaryKey) (hdoubles : ∀ row ∈ t.rows, base.HoldsDoubles row)
    (hkeyed : ∃ key ∈ plan.order, key.column = base.primaryKey)
    (hsorts : ∀ key ∈ plan.order, t.SortsBy key) :
    ((t.sorted plan).Pairwise fun a b => compareRows t.columns base.byKey a b = .lt)
      ↔ ∀ a ∈ t.sorted plan, ∀ b ∈ t.sorted plan,
        compareRows t.columns plan.order a b = .lt → compareRows t.columns base.byKey a b = .lt :=
  pairwise_lt_iff (ordersOn_rows hcolumns hk hkeys hdoubles hsorts)
    (fun _ hrow => mem_of_mem_sorted hrow)
    (pairwise_sorted hcolumns hk hkeys hdoubles hkeyed hsorts)

/-- They are if the first thing that the plan looks at is the key: nothing is left for the others to
decide. -/
theorem sorted_by_key_of_first (hcolumns : t.columns = base.columns) (hk : base.keyColumn? = some k)
    (hkeys : t.KeysApart k base.primaryKey) (hdoubles : ∀ row ∈ t.rows, base.HoldsDoubles row)
    {rest : List SortKey} (horder : plan.order = ⟨base.primaryKey, .asc⟩ :: rest)
    (hsorts : ∀ key ∈ plan.order, t.SortsBy key) :
    (t.sorted plan).Pairwise fun a b => compareRows t.columns base.byKey a b = .lt := by
  have hkey : (⟨base.primaryKey, .asc⟩ : SortKey) ∈ plan.order := by
    rw [horder]
    exact List.mem_cons_self
  rw [sorted_by_key_iff hcolumns hk hkeys hdoubles ⟨_, hkey, rfl⟩ hsorts]
  intro a ha b hb hlt
  have hfirst := mem_of_mem_sorted ha
  have hirrefl := (ordersOn_rows hcolumns hk hkeys hdoubles hsorts).irrefl hfirst
  rw [horder] at hlt hirrefl
  rcases Ordering.then_eq_lt.1 hlt with hkeylt | ⟨hkeyeq, -⟩
  · exact Ordering.then_eq_lt.2 (.inl hkeylt)
  · obtain rfl :=
      eq_of_compareCells hcolumns hk hkeys rfl (hsorts _ hkey) hfirst (mem_of_mem_sorted hb) hkeyeq
    exact absurd hlt hirrefl

end StoredTable

/-- The order of the keys is that of a request without a sort where the default sort has it. -/
theorem Plan.orderOf_of_sortsByKey {table : Table} (h : table.SortsByKey) :
    ∃ rest, orderOf table [] = .ok (⟨table.primaryKey, .asc⟩ :: rest) := by
  cases hsort : table.defaultSort with
  | nil =>
    refine ⟨[], ?_⟩
    rw [orderOf, hsort]
    rfl
  | cons first rest =>
    obtain ⟨hname, hascending⟩ := h first (by rw [hsort]; rfl)
    refine ⟨rest.map defaultKey, ?_⟩
    have hkey : defaultKey first = ⟨table.primaryKey, .asc⟩ := by
      rw [defaultKey, hname, if_neg (by omega)]
    rw [orderOf, hsort, List.map_cons, hkey, withPrimaryKey, List.any_cons, beq_self_eq_true,
      Bool.true_or]
    rfl

namespace Catalog

variable {settings : Settings} {domain : Domain} {catalog : Catalog}
  {resource : String} {table : Table}
  {k : Column} {ids : List Value} {projection : Option Projection} {plan : Plan} {t : StoredTable}

/-- A list of keys can be asked for if the key takes all of them, the filter of the datasource
applies and the columns can be told. -/
theorem exists_listPlan_iff (htable : catalog.schema.table resource = .ok table)
    (hk : table.keyColumn? = some k) (hjson : k.type ≠ .json) :
    (∃ plan, catalog.listPlan resource ids projection = .ok plan)
      ↔ (∀ id ∈ ids, k.type.accepts (k.type.interpret id) = true)
        ∧ table.TakesFilter table.defaultFilter
        ∧ ∃ lists, Plan.columnsAndLists table projection = .ok lists := by
  rw [← and_assoc, ← Predicate.exists_keys_iff hk hjson]
  constructor
  · rintro ⟨plan, hplan⟩
    obtain ⟨p, lists, keys, hp, hlists, -, -⟩ := (listPlan_eq_ok_iff htable).1 hplan
    exact ⟨⟨p, hp⟩, lists, hlists⟩
  · rintro ⟨⟨p, hp⟩, lists, hlists⟩
    exact ⟨_, (listPlan_eq_ok_iff htable).2 ⟨p, lists, _, hp, hlists, rfl, rfl⟩⟩

/-- What is found is a record for each row of the plan, which shows it. -/
theorem exists_found_by_keys (hco : catalog.schema.Coherent) (hdates : catalog.settings.WritesDates)
    {db : Database} (hregular : db.store.Regular catalog.schema)
    (htable : catalog.schema.table resource = .ok table)
    (hplan : catalog.listPlan resource ids projection = .ok plan)
    (ht : db.store.tables.get? table.name = some t) :
    ∃ records, catalog.findByKeys resource ids projection db = (.ok records, db)
      ∧ List.Forall₂ (plan.Shows catalog.settings) (t.sorted plan) records := by
  obtain ⟨base, hbase, hshares⟩ := hco.shared table (Schema.mem_of_table htable).1
  obtain ⟨p, lists, keys, -, -, -, hparts⟩ := (listPlan_eq_ok_iff htable).1 hplan
  have hwhole : plan = { plan with limit := none, offset := 0 } := by rw [hparts]
  obtain rfl : plan.table = table := by rw [hparts]
  obtain ⟨records, hrecords, hshows⟩ := exists_window hco hdates hregular hbase hshares ht none 0
  rw [← hwhole] at hrecords
  refine ⟨records, ?_, hshows⟩
  rw [findByKeys, hplan]
  exact Database.transact_of_yields hrecords rfl

/-- **The rows that a list of keys finds.** A list of keys can be asked for if the key takes all of
them, the filter of the datasource applies and the columns can be told. A record is found then for
each row that is visible and has a key of the list, and for no other. The keys of these rows are
apart, so each is found once, and as long as they can be sorted the rows are in the strict order of
a request without a sort. That is the order of their keys exactly if it puts these rows like their
keys, as it does if there is no default sort or it begins with the key, ascending. By columns of
documents the sort is only taken to return. -/
theorem rows_found_by_keys (hcompiles : Catalog.ofDomain settings domain = .ok catalog)
    (hdates : settings.WritesDates) (steps : List Step)
    (htable : catalog.schema.table resource = .ok table) (hk : table.keyColumn? = some k)
    (hjson : k.type ≠ .json) (ht : (catalog.run steps).store.tables.get? table.name = some t) :
    ((∃ plan, catalog.listPlan resource ids projection = .ok plan)
        ↔ (∀ id ∈ ids, k.type.accepts (k.type.interpret id) = true)
          ∧ table.TakesFilter table.defaultFilter
          ∧ ∃ lists, Plan.columnsAndLists table projection = .ok lists)
      ∧ ∀ plan, catalog.listPlan resource ids projection = .ok plan →
        (∃ records, catalog.findByKeys resource ids projection (catalog.run steps)
          = (.ok records, catalog.run steps)
            ∧ List.Forall₂ (plan.Shows settings) (t.sorted plan) records)
          ∧ (t.sorted plan).Perm (t.rows.filter fun row =>
            table.isVisibleTo (Change.keyFilter table .isIn (.array ids)) row
              && table.hasKeyIn k ids row)
          ∧ (table.deletedColumn ≠ some table.primaryKey →
            table.isVisibleTo (Change.keyFilter table .isIn (.array ids)) = table.isVisibleTo [])
          ∧ (t.sorted plan).Pairwise (fun a b =>
            k.type.equal (a.cell table.primaryKey) (b.cell table.primaryKey) = false)
          ∧ Plan.orderOf table [] = .ok plan.order
          ∧ ((∀ key ∈ plan.order, t.SortsBy key) →
            ((t.sorted plan).Pairwise fun a b => compareRows t.columns plan.order a b = .lt)
            ∧ (((t.sorted plan).Pairwise fun a b => compareRows t.columns table.byKey a b = .lt)
              ↔ ∀ a ∈ t.sorted plan, ∀ b ∈ t.sorted plan,
                compareRows t.columns plan.order a b = .lt →
                compareRows t.columns table.byKey a b = .lt)
            ∧ (table.SortsByKey →
              (t.sorted plan).Pairwise fun a b => compareRows t.columns table.byKey a b = .lt))
          ∧ (settings.NamesApart → (∀ step ∈ steps, step.1.IsRegular) →
            ∀ key ∈ plan.order, typeIn t.columns key.column ≠ .json → t.SortsBy key) := by
  have hco := coherent_of_ofDomain hcompiles
  have hregular := regular_run hco steps
  obtain ⟨base, hbase, hshares⟩ := hco.shared table (Schema.mem_of_table htable).1
  have hphysical := Schema.mem_physical_of_base hbase
  refine ⟨exists_listPlan_iff htable hk hjson, fun plan hplan => ?_⟩
  obtain ⟨p, lists, keys, hp, -, hkeys, rfl⟩ := (listPlan_eq_ok_iff htable).1 hplan
  -- what is stored is the table of the source, which has the same key
  have hstored : (catalog.run steps).store.tables.get? base.name = some t := hshares.name ▸ ht
  have hcolumns : t.columns = table.columns :=
    ((hregular.columns_eq base hphysical t hstored).1).trans hshares.columns.symm
  have hkbase : base.keyColumn? = some k := hshares.keyColumn?.symm.trans hk
  have happart : t.KeysApart k table.primaryKey := by
    rw [hshares.primaryKey]
    exact keysApart_run hco steps base hbase t hstored k hkbase
  have hdoubles : ∀ row ∈ t.rows, table.HoldsDoubles row := by
    intro row hrow
    rw [Table.HoldsDoubles, hshares.columns, hshares.primaryKey]
    exact holdsDoubles_run hco steps base hbase t hstored row hrow
  have hkeyed := Plan.exists_key_of_orderOf hkeys
  refine ⟨?_, ?_, fun hflag => Table.isVisibleTo_keys hflag _, ?_, hkeys, fun hsorts =>
    ⟨?_, ?_, fun hfirst => ?_⟩, ?_⟩
  · rw [← settings_of_ofDomain hcompiles] at hdates ⊢
    exact exists_found_by_keys hco hdates hregular htable hplan ht
  · rw [StoredTable.sorted, StoredTable.matching, hcolumns]
    refine (perm_sortRows ..).trans (.of_eq (List.filter_congr fun row hrow => ?_))
    exact Predicate.holds_keys hk hp (happart.filled row hrow)
  · exact ((perm_sortRows ..).pairwise_iff (Std.Symm.symm _ _)).2
      (happart.apart.sublist List.filter_sublist)
  · exact StoredTable.pairwise_sorted hcolumns hk happart hdoubles hkeyed hsorts
  · exact StoredTable.sorted_by_key_iff hcolumns hk happart hdoubles hkeyed hsorts
  · obtain ⟨rest, hrest⟩ := Plan.orderOf_of_sortsByKey hfirst
    obtain rfl := Except.ok.inj (hkeys.symm.trans hrest)
    exact StoredTable.sorted_by_key_of_first hcolumns hk happart hdoubles rfl hsorts
  · exact fun hnames hclock key _ hcell =>
      sortsBy_run (wellFormed_of_ofDomain hcompiles hnames) hclock hphysical hstored hcell

/-- People are found by their keys, the last one asked for twice and the first one by the text of
its key. -/
theorem people_found_by_keys : ∃ (plan : Plan) (t : StoredTable) (records : List Record),
    sampleCatalog.findByKeys "person" [.int 3, .string "1", .int 3, .int 9]
      none (sampleCatalog.run peopleSteps)
        = (.ok records, sampleCatalog.run peopleSteps)
      ∧ List.Forall₂ (plan.Shows {}) (t.sorted plan) records
      ∧ (t.sorted plan).map (·.cell "id") = [.int 1, .int 3] := by
  have hparts : ((sampleCatalog.schema.table "person").toOption.bind fun table =>
      table.keyColumn?.bind fun k =>
      (sampleCatalog.listPlan "person" [.int 3, .string "1", .int 3, .int 9] none).toOption.bind
        fun plan =>
      ((sampleCatalog.run peopleSteps).store.tables.get? table.name).map fun t =>
        decide (k.type ≠ .json ∧ (t.sorted plan).map (·.cell "id") = [.int 1, .int 3]))
          = some true := by
    decide +kernel
  obtain ⟨table, htable, hparts⟩ := Option.bind_eq_some_iff.1 hparts
  obtain ⟨k, hk, hparts⟩ := Option.bind_eq_some_iff.1 hparts
  obtain ⟨plan, hplan, hparts⟩ := Option.bind_eq_some_iff.1 hparts
  obtain ⟨t, ht, hfacts⟩ := Option.map_eq_some_iff.1 hparts
  obtain ⟨hjson, hkeys⟩ := of_decide_eq_true hfacts
  obtain ⟨-, hfound⟩ := rows_found_by_keys ofDomain_sample (by decide) peopleSteps
    (eq_ok_of_toOption htable) hk hjson ht
  obtain ⟨⟨records, hrecords, hshows⟩, -⟩ := hfound plan (eq_ok_of_toOption hplan)
  exact ⟨plan, t, records, hrecords, hshows, hkeys⟩

/-- Notes, the last ones first. -/
def noteDomain : Domain :=
  .ofList [("note", { datasource := some { defaultSort := some [("id", -1)] } })]

def noteCatalog : Catalog := .compiled {} noteDomain

def noteSteps : List Step := [(⟨0, 0⟩, .createTables), (⟨1, 0⟩, .insert "note" [{}, {}])]

/-- Notes are found in the order of their default sort, the greater key first. -/
theorem notes_found_backwards :
    Catalog.ofDomain {} noteDomain = .ok noteCatalog
      ∧ (noteCatalog.findByKeys "note" [.int 1, .int 2]
        none (noteCatalog.run noteSteps)).1.toOption.map
          (List.map fun record => record.get? "id") = some [some (.int 2), some (.int 1)] :=
  ⟨ofDomain_compiled rfl, by decide +kernel⟩

end Catalog

end RecordStore
