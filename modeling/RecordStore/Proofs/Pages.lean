import RecordStore.Proofs.Reading
import RecordStore.Proofs.Sorting

/-!
# Pages

The pages of a request are the sorted rows that satisfy its plan, cut into parts of one size. Each
page is read by a plan of its own, which differs in its window only; the lists of its records are
read for the whole page at once, and beside them every record shows the cells of its row.

* **`Fetch.exists_records`** — what is read for the window of a plan.
* **`Catalog.Paged`** — the pages of a request, joined to the sorted rows.
* **`Catalog.paged_rows`** — every request that has a plan is paged, and its rows are in strict
  order.
-/

namespace RecordStore

open RecordStore.Action

/-! ## Parts of a list -/

/-- The beginning of a list is made of parts of one size. -/
theorem take_eq_flatMap_parts {α : Type} (items : List α) (count size : Nat) :
    items.take (count * size) = (List.range count).flatMap fun i =>
      (items.drop (i * size)).take size := by
  induction count with
  | zero => simp
  | succ count ih =>
    rw [Nat.succ_mul, List.take_add, ih, List.range_succ, List.flatMap_append,
      List.flatMap_singleton]

/-- Lists made of related parts are related. -/
theorem forall₂_flatMap {α β ι : Type} {R : α → β → Prop} {parts : ι → List α} {parts' : ι → List β}
    {indices : List ι} (h : ∀ i ∈ indices, List.Forall₂ R (parts i) (parts' i)) :
    List.Forall₂ R (indices.flatMap parts) (indices.flatMap parts') := by
  induction indices with
  | nil => exact .nil
  | cons i rest ih =>
    rw [List.flatMap_cons, List.flatMap_cons]
    exact List.rel_append (h i List.mem_cons_self) (ih fun j hj => h j (List.mem_cons_of_mem i hj))

theorem exists_forall₂ {α β : Type} {R : α → β → Prop} (h : ∀ a, ∃ b, R a b) (items : List α) :
    ∃ values, List.Forall₂ R items values := by
  induction items with
  | nil => exact ⟨[], .nil⟩
  | cons x rest ih =>
    obtain ⟨y, hy⟩ := h x
    obtain ⟨ys, hys⟩ := ih
    exact ⟨y :: ys, .cons hy hys⟩

/-! ## The plan of a page -/

/-- The size of the pages of a request. -/
def Settings.sizeFor (settings : Settings) (p : Pagination) : Nat :=
  min ((p.maxResults.filter (0 < ·)).getD settings.pageSize) settings.pageLimit

/-- The same request for another page. -/
def Request.onPage (request : Request) (page : Nat) : Request :=
  { request with pagination := { request.pagination with page := page } }

namespace Plan

variable {settings : Settings} {table : Table} {request : Request} {lookup : Filter} {plan : Plan}

/-- A plan with the window of a page. -/
def onPage (plan : Plan) (size page : Nat) : Plan :=
  { plan with limit := some size, offset := min ((page - 1) * size) maxUnsigned64 }

/-- A request is planned exactly if its filter, its projection and its sort can be told. -/
theorem ofRequest_eq_ok_iff : ofRequest settings table request = .ok plan
    ↔ ∃ p lists keys, Predicate.ofFilter table request.filter .client request.showDeleted = .ok p
      ∧ columnsAndLists table request.projection = .ok lists ∧ orderOf table request.sort = .ok keys
      ∧ plan = ⟨table, p, lists.1, lists.2, keys, (windowOf settings table request.pagination).1,
          (windowOf settings table request.pagination).2⟩ := by
  unfold ofRequest
  simp only [bind_eq_ok_iff]
  constructor
  · rintro ⟨p, hp, lists, hlists, keys, hkeys, hplan⟩
    exact ⟨p, lists, keys, hp, hlists, hkeys, (Except.ok.inj hplan).symm⟩
  · rintro ⟨p, lists, keys, hp, hlists, hkeys, rfl⟩
    exact ⟨p, hp, lists, hlists, keys, hkeys, rfl⟩

/-- A lookup is asked for beside the request; an empty one adds nothing. -/
theorem ofRequestAndLookup_eq_ok_iff : ofRequestAndLookup settings table request lookup = .ok plan
    ↔ ∃ wide, ofRequest settings table request = .ok wide
      ∧ (lookup.isEmpty = true ∧ plan = wide
        ∨ lookup.isEmpty = false ∧ ∃ narrowed, lookup.mapM (Predicate.ofEntry table) = .ok narrowed
          ∧ plan = { wide with predicate := .all (wide.predicate :: narrowed) }) := by
  unfold ofRequestAndLookup
  rw [bind_eq_ok_iff]
  refine exists_congr fun wide => and_congr_right fun _ => ?_
  cases hempty : lookup.isEmpty with
  | true => simp [pure, Except.pure, eq_comm]
  | false =>
    simp only [Bool.false_eq_true, if_false, false_and, false_or, true_and, bind_eq_ok_iff]
    refine exists_congr fun narrowed => and_congr_right fun _ => ?_
    simp [pure, Except.pure, eq_comm]

/-- The plan of another page differs in its window. -/
theorem ofRequestAndLookup_onPage (h : ofRequestAndLookup settings table request lookup = .ok plan)
    (hpaginated : table.paginated = true) (page : Nat) :
    ofRequestAndLookup settings table (request.onPage page) lookup
      = .ok (plan.onPage (settings.sizeFor request.pagination) page) := by
  have hwindow : windowOf settings table (request.onPage page).pagination
      = (some (settings.sizeFor request.pagination),
        min ((page - 1) * settings.sizeFor request.pagination) maxUnsigned64) := by
    rw [windowOf, hpaginated]
    rfl
  obtain ⟨wide, hwide, hplan⟩ := ofRequestAndLookup_eq_ok_iff.1 h
  obtain ⟨p, lists, keys, hp, hlists, hkeys, rfl⟩ := ofRequest_eq_ok_iff.1 hwide
  refine ofRequestAndLookup_eq_ok_iff.2
    ⟨_, ofRequest_eq_ok_iff.2 ⟨p, lists, keys, hp, hlists, hkeys, rfl⟩, ?_⟩
  rw [hwindow]
  rcases hplan with ⟨hempty, rfl⟩ | ⟨hempty, narrowed, hnarrowed, rfl⟩
  · exact .inl ⟨hempty, rfl⟩
  · exact .inr ⟨hempty, narrowed, hnarrowed, rfl⟩

/-- The key of the table is among the sort keys of every plan. -/
theorem exists_key_of_orderOf {sort : List (String × SortDirection)} {keys : List SortKey}
    (h : orderOf table sort = .ok keys) : ∃ key ∈ keys, key.column = table.primaryKey := by
  have hkey (keys : List SortKey) :
    ∃ key ∈ withPrimaryKey table keys, key.column = table.primaryKey := by
    unfold withPrimaryKey
    split
    · rename_i hany
      obtain ⟨key, hkey, hname⟩ := List.any_eq_true.1 hany
      exact ⟨key, hkey, beq_iff_eq.1 hname⟩
    · exact ⟨_, List.mem_append_right _ List.mem_cons_self, rfl⟩
  unfold orderOf at h
  split at h
  · exact Except.ok.inj h ▸ hkey _
  · obtain ⟨keys, -, rfl⟩ := map_eq_ok_iff.1 h
    exact hkey keys

theorem facts_of_ofRequestAndLookup
    (h : ofRequestAndLookup settings table request lookup = .ok plan) :
    plan.table = table ∧ ∃ key ∈ plan.order, key.column = table.primaryKey := by
  obtain ⟨wide, hwide, hplan⟩ := ofRequestAndLookup_eq_ok_iff.1 h
  obtain ⟨p, lists, keys, -, -, hkeys, rfl⟩ := ofRequest_eq_ok_iff.1 hwide
  rcases hplan with ⟨-, rfl⟩ | ⟨-, narrowed, -, rfl⟩
  · exact ⟨rfl, exists_key_of_orderOf hkeys⟩
  · exact ⟨rfl, exists_key_of_orderOf hkeys⟩

/-- A record shows a row: beside the lists it has the cells of the plan's columns, with its dates in
the format of the settings. -/
def Shows (plan : Plan) (settings : Settings) (row record : Record) : Prop :=
  ∃ r : Record, (∀ name, name ∉ plan.relations →
      r.get? name = if name ∈ plan.columns then some (row.cell name) else none)
    ∧ Fetch.presented settings plan.table r = .ok record

end Plan

/-! ## The records of a plan -/

namespace Fetch

variable {schema : Schema} {settings : Settings} {table : Table} {plan : Plan}
  {tx tx' : Transaction} {records full : List Record} {lists : List ListField}

/-- The lists of records can be read where their links are stored. -/
theorem exists_withMembers (table : Table) (records : List Record) {m : ListField} {link : Table}
    {t : StoredTable} (hlink : schema.linkTable m.linkTable = .ok link) (hopen : tx.isOpen = true)
    (ht : tx.work.tables.get? link.name = some t) :
    ∃ full, Yields (withMembers schema table records m) tx full tx := by
  unfold withMembers
  dsimp only
  split
  · exact ⟨records, (yields_pure _ _).2 ⟨rfl, rfl⟩⟩
  · exact ⟨_, yields_bind.2 ⟨_, tx, yields_membersByOwner.2 ⟨link, _, hlink,
      Transaction.yields_select.2 ⟨hopen, rfl, t, ht, rfl⟩, rfl⟩, (yields_pure _ _).2 ⟨rfl, rfl⟩⟩⟩

/-- Records are read with their lists, one list after the other. -/
theorem exists_foldlM_withMembers (table : Table) {lists : List ListField} (records : List Record)
    (hopen : tx.isOpen = true)
    (hlinks : ∀ m ∈ lists, ∃ link t, schema.linkTable m.linkTable = .ok link
      ∧ tx.work.tables.get? link.name = some t) :
    ∃ full, Yields (lists.foldlM (withMembers schema table) records) tx full tx := by
  induction lists generalizing records with
  | nil => exact ⟨records, (yields_pure _ _).2 ⟨rfl, rfl⟩⟩
  | cons m rest ih =>
    obtain ⟨link, t, hlink, ht⟩ := hlinks m List.mem_cons_self
    obtain ⟨mid, hmid⟩ := exists_withMembers table records hlink hopen ht
    obtain ⟨full, hfull⟩ := ih mid fun n hn => hlinks n (List.mem_cons_of_mem m hn)
    rw [List.foldlM_cons]
    exact ⟨full, yields_bind.2 ⟨mid, tx, hmid, hfull⟩⟩

/-- With one more list records keep all other fields. -/
theorem sameBeside_withMembers {m : ListField}
    (h : Yields (withMembers schema table records m) tx full tx') :
    tx' = tx ∧ List.Forall₂ (Record.SameBeside [m.field]) records full := by
  unfold withMembers at h
  dsimp only at h
  split at h
  · obtain ⟨rfl, rfl⟩ := (yields_pure _ _).1 h
    exact ⟨rfl, List.forall₂_same.2 fun _ _ _ _ => rfl⟩
  · obtain ⟨members, mid, hmembers, h⟩ := yields_bind.1 h
    obtain ⟨rfl, rfl⟩ := (yields_pure _ _).1 h
    exact ⟨(keeps_membersByOwner schema m _).of_yields (f := fun tx => tx) hmembers,
      sameBeside_handOut table m members records⟩

/-- What the lists are added to stays as it is under all other names. -/
theorem sameBeside_foldlM_withMembers
    (h : Yields (lists.foldlM (withMembers schema table) records) tx full tx') :
    tx' = tx ∧ List.Forall₂ (Record.SameBeside (lists.map ListField.field)) records full := by
  induction lists generalizing records with
  | nil =>
    obtain ⟨rfl, rfl⟩ := (yields_pure _ _).1 h
    exact ⟨rfl, List.forall₂_same.2 fun _ _ _ _ => rfl⟩
  | cons m rest ih =>
    rw [List.foldlM_cons] at h
    obtain ⟨mid, next, hmid, hrest⟩ := yields_bind.1 h
    obtain ⟨rfl, hfirst⟩ := sameBeside_withMembers hmid
    obtain ⟨rfl, hlater⟩ := ih hrest
    exact ⟨rfl, forall₂_trans (fun _ _ _ hone hothers => hone.cons hothers) hfirst hlater⟩

/-- **How the records of a plan are read**: its rows, then their lists, then their dates are
shown. -/
theorem yields_records_iff : Yields (Fetch.records schema settings plan) tx full tx'
    ↔ tx.isOpen = true ∧ tx' = tx ∧ ∃ t filled, tx.work.tables.get? plan.table.name = some t
      ∧ Yields ((plan.relations.filterMap plan.table.listField?).foldlM
          (withMembers schema plan.table) (t.select plan)) tx filled tx
      ∧ List.Forall₂ (fun r record => presented settings plan.table r = .ok record)
        filled full := by
  rw [Fetch.records_eq]
  constructor
  · intro h
    obtain ⟨filled, mid, hunshown, hpresented⟩ := yields_bind.1 h
    obtain ⟨rows, read, hrows, hfilled⟩ := yields_bind.1 hunshown
    obtain ⟨hopen, rfl, t, ht, rfl⟩ := Transaction.yields_select.1 hrows
    obtain ⟨rfl, -⟩ := sameBeside_foldlM_withMembers hfilled
    obtain ⟨hdates, rfl⟩ := (yields_result _ _).1 hpresented
    exact ⟨hopen, rfl, t, filled, ht, hfilled, mapM_eq_ok_iff.1 hdates⟩
  · rintro ⟨hopen, rfl, t, filled, ht, hfilled, hdates⟩
    exact yields_bind.2 ⟨filled, _,
      yields_bind.2 ⟨_, _, Transaction.yields_select.2 ⟨hopen, rfl, t, ht, rfl⟩, hfilled⟩,
      (yields_result _ _).2 ⟨mapM_eq_ok_iff.2 hdates, rfl⟩⟩

/-- The records of a plan show the rows in its window. -/
theorem shows_of_yields_records (h : Yields (Fetch.records schema settings plan) tx full tx') :
    tx' = tx ∧ ∃ t, tx.work.tables.get? plan.table.name = some t
      ∧ List.Forall₂ (plan.Shows settings)
        (StoredTable.window plan.limit plan.offset (t.sorted plan)) full := by
  obtain ⟨-, rfl, t, filled, ht, hfilled, hdates⟩ := yields_records_iff.1 h
  obtain ⟨-, hcells⟩ := sameBeside_foldlM_withMembers hfilled
  refine ⟨rfl, t, ht, ?_⟩
  rw [StoredTable.select, List.forall₂_map_left_iff] at hcells
  refine forall₂_trans (fun row r record hsame hrecord => ⟨r, fun name hname => ?_, hrecord⟩) hcells
    hdates
  rw [hsame name, StoredTable.get?_cut]
  intro hmem
  obtain ⟨m, hm, rfl⟩ := List.mem_map.1 hmem
  obtain ⟨field, hfield, hfound⟩ := List.mem_filterMap.1 hm
  exact hname ((Table.mem_of_listField? hfound).2 ▸ hfield)

/-- **What is read for the window of a plan**: a record for each row, which shows it. -/
theorem exists_records (hdates : settings.WritesDates) (plan : Plan) (hopen : tx.isOpen = true)
    (hlinks : ∀ m ∈ plan.table.lists, ∃ link t, schema.linkTable m.linkTable = .ok link
      ∧ tx.work.tables.get? link.name = some t)
    {t : StoredTable} (ht : tx.work.tables.get? plan.table.name = some t) :
    ∃ shown, Yields (Fetch.records schema settings plan) tx shown tx
      ∧ List.Forall₂ (plan.Shows settings)
        (StoredTable.window plan.limit plan.offset (t.sorted plan)) shown := by
  have hlist (m : ListField) (hm : m ∈ plan.relations.filterMap plan.table.listField?) :
      m ∈ plan.table.lists := by
    obtain ⟨name, -, hfound⟩ := List.mem_filterMap.1 hm
    exact (Table.mem_of_listField? hfound).1
  obtain ⟨full, hfull⟩ := exists_foldlM_withMembers plan.table (t.select plan) hopen
    fun m hm => hlinks m (hlist m hm)
  obtain ⟨shown, hshown⟩ := exists_forall₂ (presented_ok hdates plan.table) full
  have hrecords : Yields (Fetch.records schema settings plan) tx shown tx :=
    yields_records_iff.2 ⟨hopen, rfl, t, full, ht, hfull, hshown⟩
  obtain ⟨-, u, hu, hshows⟩ := shows_of_yields_records hrecords
  obtain rfl := Option.some.inj (ht.symm.trans hu)
  exact ⟨shown, hrecords, hshows⟩

end Fetch

/-! ## The pages of a request -/

namespace Catalog

variable {settings : Settings} {domain : Domain} {catalog : Catalog}
  {resource : String} {table : Table}
  {request : Request} {lookup : Filter} {plan : Plan} {t : StoredTable}

/-- The pages of a request on a store. Each page is found with the number of all rows, none is
larger than the size, and joined they show the sorted rows, each once; after them all pages are
empty. The first record is that of the first row, whatever page is asked for. -/
structure Paged (catalog : Catalog) (resource : String) (request : Request) (lookup : Filter)
    (db : Database) (plan : Plan) (size : Nat) (sorted : List Record) (pages : Nat → List Record) :
    Prop where
  found : ∀ page, catalog.find resource (request.onPage page) lookup db
    = (.ok ⟨pages page, sorted.length⟩, db)
  zero_eq : pages 0 = pages 1
  length_le : ∀ page, (pages page).length ≤ size
  joined : List.Forall₂ (plan.Shows catalog.settings) sorted
    ((List.range ((sorted.length + size - 1) / size)).flatMap fun i => pages (i + 1))
  past : ∀ page, (sorted.length + size - 1) / size < page → pages page = []
  first :
    ∀ page, ∃ record, catalog.findFirst resource (request.onPage page) lookup db = (.ok record, db)
    ∧ Option.Rel (plan.Shows catalog.settings) sorted.head? record

/-- Pages that are read one by one, each a window of the sorted rows, are the pages of the
request. -/
theorem Paged.of_windows {db : Database} {size : Nat} {sorted : List Record}
    {pages : Nat → List Record}
    (hsize : 0 < size) (hcount : sorted.length ≤ maxUnsigned64)
    (hfound : ∀ page, catalog.find resource (request.onPage page) lookup db
      = (.ok ⟨pages page, sorted.length⟩, db))
    (hshows : ∀ page, List.Forall₂ (plan.Shows catalog.settings)
      (StoredTable.window (some size) (min ((page - 1) * size) maxUnsigned64) sorted) (pages page))
    (hzero : pages 0 = pages 1)
    (hfirst : ∀ page, ∃ record,
      catalog.findFirst resource (request.onPage page) lookup db = (.ok record, db)
        ∧ Option.Rel (plan.Shows catalog.settings) sorted.head? record) :
    catalog.Paged resource request lookup db plan size sorted pages where
  found := hfound
  zero_eq := hzero
  length_le page := by
    rw [← (hshows page).length_eq]
    exact List.length_take_le ..
  joined := by
    -- the number of pages is the least one whose rows are all
    have hall : sorted.length ≤ (sorted.length + size - 1) / size * size := by
      have hdiv := Nat.div_add_mod (sorted.length + size - 1) size
      have hmod := Nat.mod_lt (sorted.length + size - 1) hsize
      rw [Nat.mul_comm] at hdiv
      omega
    have hparts := take_eq_flatMap_parts sorted ((sorted.length + size - 1) / size) size
    rw [List.take_of_length_le hall] at hparts
    have hpages : List.Forall₂ (plan.Shows catalog.settings)
        ((List.range ((sorted.length + size - 1) / size)).flatMap fun i =>
          (sorted.drop (i * size)).take size)
        ((List.range ((sorted.length + size - 1) / size)).flatMap fun i => pages (i + 1)) := by
      refine forall₂_flatMap fun i hi => ?_
      have hbefore : i * size ≤ maxUnsigned64 := by
        have hlt := List.mem_range.1 hi
        have hmul := Nat.mul_le_mul_right size (Nat.succ_le_of_lt hlt)
        have hle := Nat.div_mul_le_self (sorted.length + size - 1) size
        rw [Nat.succ_mul] at hmul
        omega
      have hpage := hshows (i + 1)
      rwa [Nat.add_sub_cancel, Nat.min_eq_left hbefore] at hpage
    rwa [← hparts] at hpages
  past page hpage := by
    have hbehind : sorted.length ≤ min ((page - 1) * size) maxUnsigned64 := by
      refine Nat.le_min.2 ⟨?_, hcount⟩
      have hlt := (Nat.div_lt_iff_lt_mul hsize).1 hpage
      rw [Nat.sub_mul, Nat.one_mul]
      omega
    have hnone := hshows page
    rw [StoredTable.window, List.drop_of_length_le hbehind, List.take_nil] at hnone
    exact List.forall₂_nil_left_iff.1 hnone
  first := hfirst

/-- The plan of a request on a resource is made for its table. -/
theorem plan_eq_ok (htable : catalog.schema.table resource = .ok table)
    (hplan : catalog.plan resource request lookup = .ok plan) :
    Plan.ofRequestAndLookup catalog.settings table request lookup = .ok plan := by
  rw [Catalog.plan, htable] at hplan
  exact hplan

/-- Whatever window is read of a plan, the records show its rows. -/
theorem exists_window (hco : catalog.schema.Coherent) (hdates : catalog.settings.WritesDates)
    {db : Database} (hregular : db.store.Regular catalog.schema) {base : Table}
    (hbase : base ∈ catalog.schema.bases) (hshares : plan.table.SharesRows base)
    (ht : db.store.tables.get? plan.table.name = some t) (limit : Option Nat) (offset : Nat) :
    ∃ shown, Yields (Fetch.records catalog.schema catalog.settings
        { plan with limit := limit, offset := offset }) (.begin db) shown (.begin db)
      ∧ List.Forall₂ (plan.Shows catalog.settings) (StoredTable.window limit offset (t.sorted plan))
        shown := by
  refine Fetch.exists_records hdates { plan with limit := limit, offset := offset } rfl ?_ ht
  exact hregular.exists_links hco hbase hshares (hshares.name ▸ ht)

/-- A page is found with the number of all rows. -/
theorem exists_found (hco : catalog.schema.Coherent) (hdates : catalog.settings.WritesDates)
    {db : Database} (hregular : db.store.Regular catalog.schema) {base : Table}
    (hbase : base ∈ catalog.schema.bases) (hshares : plan.table.SharesRows base)
    (ht : db.store.tables.get? plan.table.name = some t) {size page : Nat}
    (hplan : catalog.plan resource (request.onPage page) lookup = .ok (plan.onPage size page)) :
    ∃ records, catalog.find resource (request.onPage page) lookup db
        = (.ok ⟨records, (t.sorted plan).length⟩, db)
      ∧ List.Forall₂ (plan.Shows catalog.settings) (StoredTable.window (some size)
        (min ((page - 1) * size) maxUnsigned64) (t.sorted plan)) records := by
  obtain ⟨shown, hshown, hshows⟩ := exists_window hco hdates hregular hbase hshares ht (some size)
    (min ((page - 1) * size) maxUnsigned64)
  refine ⟨shown, ?_, hshows⟩
  have hpage :
    Yields (Fetch.page catalog.schema catalog.settings (plan.onPage size page)) (.begin db)
      ⟨shown, (t.sorted plan).length⟩ (.begin db) := by
    rw [StoredTable.length_sorted]
    exact Fetch.yields_page.2 ⟨_, hshown, Transaction.yields_count.2 ⟨rfl, rfl, t, ht, rfl⟩⟩
  rw [find, hplan]
  exact Database.transact_of_yields hpage rfl

/-- The first record is that of the first row, whatever page is asked for. -/
theorem exists_first (hco : catalog.schema.Coherent) (hdates : catalog.settings.WritesDates)
    {db : Database} (hregular : db.store.Regular catalog.schema) {base : Table}
    (hbase : base ∈ catalog.schema.bases) (hshares : plan.table.SharesRows base)
    (ht : db.store.tables.get? plan.table.name = some t) {size page : Nat}
    (hplan : catalog.plan resource (request.onPage page) lookup = .ok (plan.onPage size page)) :
    ∃ record, catalog.findFirst resource (request.onPage page) lookup db = (.ok record, db)
      ∧ Option.Rel (plan.Shows catalog.settings) (t.sorted plan).head? record := by
  obtain ⟨shown, hshown, hshows⟩ := exists_window hco hdates hregular hbase hshares ht (some 1) 0
  refine ⟨shown.head?, ?_, ?_⟩
  · have hfirst :
      Yields (Fetch.first? catalog.schema catalog.settings (plan.onPage size page)) (.begin db)
        shown.head? (.begin db) := by
      unfold Fetch.first?
      exact yields_bind.2 ⟨shown, _, hshown, (yields_pure _ _).2 ⟨rfl, rfl⟩⟩
    rw [findFirst, hplan]
    exact Database.transact_of_yields hfirst rfl
  · rw [StoredTable.window, List.drop_zero] at hshows
    cases hsorted : t.sorted plan with
    | nil =>
      rw [hsorted, List.take_nil, List.forall₂_nil_left_iff] at hshows
      rw [hshows]
      exact .none
    | cons row rest =>
      rw [hsorted, List.take_succ_cons, List.forall₂_cons_left_iff] at hshows
      obtain ⟨record, others, hrecord, -, rfl⟩ := hshows
      exact .some hrecord

/-- A request that has a plan is paged, whatever is stored. -/
theorem exists_paged (hco : catalog.schema.Coherent) (hdates : catalog.settings.WritesDates)
    {db : Database} (hregular : db.store.Regular catalog.schema)
    (htable : catalog.schema.table resource = .ok table) (hpaginated : table.paginated = true)
    (ht : db.store.tables.get? table.name = some t)
    (hplan : catalog.plan resource request lookup = .ok plan)
    (hsize : 0 < catalog.settings.sizeFor request.pagination)
    (hcount : (t.matching plan.predicate).length ≤ maxUnsigned64) :
    ∃ pages, catalog.Paged resource request lookup db
      plan (catalog.settings.sizeFor request.pagination)
      (t.sorted plan) pages := by
  obtain ⟨base, hbase, hshares⟩ := hco.shared table (Schema.mem_of_table htable).1
  have hown := plan_eq_ok htable hplan
  obtain ⟨rfl, -⟩ := Plan.facts_of_ofRequestAndLookup hown
  have hplans (page : Nat) : catalog.plan resource (request.onPage page) lookup
      = .ok (plan.onPage (catalog.settings.sizeFor request.pagination) page) := by
    rw [Catalog.plan, htable]
    exact Plan.ofRequestAndLookup_onPage hown hpaginated page
  choose pages hfound hshows using fun page =>
    exists_found hco hdates hregular hbase hshares ht (hplans page)
  refine ⟨pages, .of_windows hsize (StoredTable.length_sorted ▸ hcount) hfound hshows ?_ fun page =>
    exists_first hco hdates hregular hbase hshares ht (hplans page)⟩
  -- the first two plans are one
  have hsame : catalog.find resource (request.onPage 0) lookup db
      = catalog.find resource (request.onPage 1) lookup db := by
    rw [find, find, hplans, hplans]
    rfl
  rw [hfound, hfound] at hsame
  simpa using hsame

/-- **The pages of a request** are the matching rows, cut into parts of the size that the settings
allow. The rows are in strict order wherever their cells are such that they can be sorted, and they
always can by columns without documents if the names that the settings give are apart and the clock
was regular. By other columns the sort is only taken to return. -/
theorem paged_rows (hcompiles : Catalog.ofDomain settings domain = .ok catalog)
    (hdates : settings.WritesDates) (steps : List Step)
    (htable : catalog.schema.table resource = .ok table) (hpaginated : table.paginated = true)
    (ht : (catalog.run steps).store.tables.get? table.name = some t)
    (hplan : catalog.plan resource request lookup = .ok plan)
    (hsize : 0 < settings.sizeFor request.pagination)
    (hcount : (t.matching plan.predicate).length ≤ maxUnsigned64) :
    (∃ pages, catalog.Paged resource request lookup (catalog.run steps) plan
        (settings.sizeFor request.pagination) (t.sorted plan) pages)
      ∧ (t.sorted plan).Perm (t.matching plan.predicate)
      ∧ ((∀ key ∈ plan.order, t.SortsBy key) →
        (t.sorted plan).Pairwise fun a b => compareRows t.columns plan.order a b = .lt)
      ∧ (settings.NamesApart → (∀ step ∈ steps, step.1.IsRegular) →
        ∀ key ∈ plan.order, typeIn t.columns key.column ≠ .json → t.SortsBy key) := by
  have hco := coherent_of_ofDomain hcompiles
  have hregular := regular_run hco steps
  obtain ⟨base, hbase, hshares⟩ := hco.shared table (Schema.mem_of_table htable).1
  have hphysical := Schema.mem_physical_of_base hbase
  refine ⟨?_, perm_sortRows .., fun hsorts => ?_, fun hnames hclock key _ hjson => ?_⟩
  · rw [← settings_of_ofDomain hcompiles] at hdates hsize ⊢
    exact exists_paged hco hdates hregular htable hpaginated ht hplan hsize hcount
  · rw [hshares.name] at ht
    obtain ⟨k, hk, -⟩ := hco.keyed base hphysical
    obtain ⟨-, hkeyed⟩ := Plan.facts_of_ofRequestAndLookup (plan_eq_ok htable hplan)
    rw [hshares.primaryKey] at hkeyed
    exact StoredTable.pairwise_sorted (hregular.columns_eq base hphysical t ht).1 hk
      (keysApart_run hco steps base hbase t ht k hk)
        (holdsDoubles_run hco steps base hbase t ht) hkeyed
      hsorts
  · rw [hshares.name] at ht
    exact sortsBy_run (wellFormed_of_ofDomain hcompiles hnames) hclock hphysical ht hjson

/-! ### A sample -/

/-- Three people, one after the other. -/
def peopleSteps : List Step := [
  (⟨0, 0⟩, .createTables),
  (⟨1, 0⟩, .insert "person" [{}]),
  (⟨2, 0⟩, .insert "person" [{}]),
  (⟨3, 0⟩, .insert "person" [{}])]

/-- The last ones first, two on a page. -/
def lastTwo : Request := { sort := [("_created", .desc)], pagination := { maxResults := some 2 } }

/-- The people of the sample fill a page and a half. -/
theorem people_of_sample_paged : ∃ plan t pages,
    sampleCatalog.plan "person" lastTwo [] = .ok plan
      ∧ (sampleCatalog.run peopleSteps).store.tables.get? "person" = some t
      ∧ (t.sorted plan).map (·.cell "id") = [.int 3, .int 2, .int 1]
      ∧ sampleCatalog.Paged "person" lastTwo []
        (sampleCatalog.run peopleSteps) plan 2 (t.sorted plan) pages
      ∧ (t.sorted plan).Pairwise fun a b => compareRows t.columns plan.order a b = .lt := by
  have hparts : ((sampleCatalog.schema.table "person").toOption.bind fun table =>
      (sampleCatalog.plan "person" lastTwo []).toOption.bind fun plan =>
      ((sampleCatalog.run peopleSteps).store.tables.get? table.name).map fun t =>
        decide (table.name = "person" ∧ table.paginated = true
          ∧ (t.sorted plan).map (·.cell "id") = [.int 3, .int 2, .int 1]
          ∧ (t.matching plan.predicate).length ≤ maxUnsigned64
          ∧ ∀ key ∈ plan.order, typeIn t.columns key.column ≠ .json)) = some true := by
    decide +kernel
  obtain ⟨table, htable, hparts⟩ := Option.bind_eq_some_iff.1 hparts
  obtain ⟨plan, hplan, hparts⟩ := Option.bind_eq_some_iff.1 hparts
  obtain ⟨t, ht, hfacts⟩ := Option.map_eq_some_iff.1 hparts
  obtain ⟨hname, hpaginated, hkeys, hcount, hjson⟩ := of_decide_eq_true hfacts
  have hplan := eq_ok_of_toOption hplan
  obtain ⟨⟨pages, hpages⟩, -, hstrict, hsorts⟩ := paged_rows ofDomain_sample (by decide) peopleSteps
    (eq_ok_of_toOption htable) hpaginated ht hplan (by decide) hcount
  exact ⟨plan, t, pages, hplan, hname ▸ ht, hkeys, hpages,
    hstrict fun key hkey => hsorts (by decide) (by decide) key hkey (hjson key hkey)⟩

/-- Settings that give the flag of deleted rows the name of the generated key. -/
def sharedNameSettings : Settings := { deletedField := "id" }

def sharedNameCatalog : Catalog :=
  .compiled sharedNameSettings (.ofList [("note", { softDelete := true })])

/-- Notes of which the second is given no key, and so the flag in its place. -/
def sharedNameSteps : List Step := [
  (⟨0, 0⟩, .createTables),
  (⟨1, 0⟩, .insert "note" [.ofList [("id", .int 2)], {}, .ofList [("id", .int 1)]])]

/-- The last of three people comes in the year 10000. -/
def lastComesLate : List Step := [
  (⟨0, 0⟩, .createTables),
  (⟨1, 0⟩, .insert "person" [.ofList [("id", .int 3)]]),
  (⟨2, 0⟩, .insert "person" [.ofList [("id", .int 1)]]),
  (⟨253402300800, 0⟩, .insert "person" [.ofList [("id", .int 2)]])]

/-- There are rows and a plan for them, but nothing is found: the dates cannot be written, or the
tables are not created yet. And rows are found that no order holds together: a truth value is in no
order with the keys beside it, nor is a stamp of the year 10000 with earlier ones. -/
theorem rows_not_found_or_not_in_order :
    (∃ catalog, Catalog.ofDomain unwritableSettings sampleDomain = .ok catalog
      ∧ unwritableSettings.NamesApart
      ∧ ((catalog.run peopleSteps).store.rows "person").length = 3
      ∧ (catalog.plan "person" lastTwo []).toOption.isSome = true
      ∧ (catalog.find "person" lastTwo [] (catalog.run peopleSteps)).1.toOption.isNone = true)
    ∧ ((sampleCatalog.plan "person" lastTwo []).toOption.isSome = true
      ∧ (sampleCatalog.find "person" lastTwo [] (sampleCatalog.run [])).1.toOption.isNone = true)
    ∧ (Catalog.ofDomain sharedNameSettings (.ofList [("note", { softDelete := true })])
      = .ok sharedNameCatalog
      ∧ ∃ plan ∈ (sharedNameCatalog.plan "note" { showDeleted := true } []).toOption,
        ∃ t ∈ (sharedNameCatalog.run sharedNameSteps).store.tables.get? "note",
          (t.sorted plan).map (·.cell "id") = [.int 2, .bool false, .int 1]
          ∧ (∀ key ∈ plan.order, typeIn t.columns key.column ≠ .json)
          ∧ ¬ (t.sorted plan).Pairwise fun a b => compareRows t.columns plan.order a b ≠ .gt)
    ∧ ∃ plan ∈ (sampleCatalog.plan "person" { sort := [("_created", .asc)] } []).toOption,
      ∃ t ∈ (sampleCatalog.run lastComesLate).store.tables.get? "person",
        (t.sorted plan).map (·.cell "id") = [.int 3, .int 1, .int 2]
        ∧ (∀ key ∈ plan.order, typeIn t.columns key.column ≠ .json)
        ∧ ¬ (t.sorted plan).Pairwise fun a b => compareRows t.columns plan.order a b ≠ .gt := by
  refine ⟨⟨{ sampleCatalog with settings := unwritableSettings }, rfl, by decide, ?_⟩, ?_,
    ⟨ofDomain_compiled rfl, ?_⟩, ?_⟩
  all_goals decide +kernel

end Catalog

end RecordStore
