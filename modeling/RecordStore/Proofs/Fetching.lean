import RecordStore.Proofs.Pages

/-!
# What a fetch depends on

A fetch reads the rows of its plan and then, for each list, the links of the keys of these rows, for
all rows at once. Its answer is told by these readings alone: in two transactions that agree about
them it is the same, be it records or a failure. And if it succeeds, every record has the cells of
its row, and under each list the members that were gathered for its key among those of the other
rows, as long as no two rows have keys of the same text.

* **`Action.Agrees`** — an action gives the same answer in two transactions, and leaves both as they
  are.
* **`Fetch.agrees_records`** — the records of a plan depend on the rows that are read for them.
* **`Fetch.forall₂_of_yields_records`** — what the records have.
-/

namespace RecordStore

open RecordStore.Action

/-! ## The same answer in two transactions -/

namespace Action

variable {α β : Type} {tx tx' : Transaction}

/-- In two transactions the action gives one answer, and leaves both as they are. -/
def Agrees (a : Action α) (tx tx' : Transaction) : Prop :=
  ∃ r, outcome a tx = (r, tx) ∧ outcome a tx' = (r, tx')

theorem Agrees.pure (x : α) : Agrees (pure x) tx tx' := ⟨.ok x, rfl, rfl⟩

theorem Agrees.result (r : Except Error α) : Agrees (Transaction.result r) tx tx' := ⟨r, rfl, rfl⟩

theorem Agrees.throw (e : Error) : Agrees (throw e : Action α) tx tx' := ⟨.error e, rfl, rfl⟩

/-- The second step has to agree for the answers only that the first one gives. -/
theorem Agrees.bind {a : Action α} {f : α → Action β} (ha : Agrees a tx tx')
    (hf : ∀ x, Yields a tx x tx → Yields a tx' x tx' → Agrees (f x) tx tx') :
    Agrees (a >>= f) tx tx' := by
  obtain ⟨r, h, h'⟩ := ha
  cases r with
  | error e => exact ⟨.error e, by rw [outcome_bind, h], by rw [outcome_bind, h']⟩
  | ok x =>
    obtain ⟨s, hs, hs'⟩ := hf x h h'
    refine ⟨s, ?_, ?_⟩
    · rw [outcome_bind, h]
      exact hs
    · rw [outcome_bind, h']
      exact hs'

end Action

theorem Database.transact_of_agrees {α : Type} {db db' : Database} {steps : Action α}
    (h : Agrees steps (.begin db) (.begin db')) :
    (db'.transact steps).1 = (db.transact steps).1 := by
  obtain ⟨r, h, h'⟩ := h
  rw [transact_eq, transact_eq, h, h']
  cases r <;> rfl

/-! ## Readings -/

namespace Store

/-- The rows that a plan selects, if its table exists. -/
def selected (s : Store) (plan : Plan) : Option (List Record) :=
  (s.tables.get? plan.table.name).map (·.select plan)

end Store

/-- A transaction answers alike in two databases if its steps do. -/
theorem Catalog.transactWith_of_agrees {α β : Type} {db db' : Database} {prepared : Except Error β}
    {steps : β → Action α} (h : ∀ b, prepared = .ok b → Agrees (steps b) (.begin db) (.begin db')) :
    (transactWith db' prepared steps).1 = (transactWith db prepared steps).1 := by
  cases prepared with
  | error e => rfl
  | ok b => exact Database.transact_of_agrees (h b rfl)

namespace Transaction

variable {tx tx' : Transaction}

/-- What is read of a table, if the transaction is open. -/
theorem outcome_reading {α : Type} (f : StoredTable → α) (name : String)
    (hopen : tx.isOpen = true) :
    outcome (do return f (← stored name)) tx
      = (((tx.work.tables.get? name).map f).elim
        (.error (.storage (.unknownTable name))) .ok, tx) := by
  have hdemand : outcome demandOpen tx = (.ok (), tx) := yields_demandOpen.2 ⟨hopen, rfl⟩
  unfold stored
  simp only [outcome_bind, hdemand, outcome_get, Store.table]
  cases tx.work.tables.get? name <;> rfl

theorem agrees_reading {α : Type} {f : StoredTable → α} {name : String} (hopen : tx.isOpen = true)
    (hopen' : tx'.isOpen = true)
    (h : (tx'.work.tables.get? name).map f = (tx.work.tables.get? name).map f) :
    Agrees (do return f (← stored name)) tx tx' :=
  ⟨_, outcome_reading f name hopen, by rw [outcome_reading f name hopen', h]⟩

end Transaction

namespace Fetch

variable {schema : Schema} {settings : Settings} {table : Table} {plan : Plan}
  {tx tx' : Transaction}
  {items full : List Record} {lists : List ListField} {m : ListField}

/-- The keys of records, for which their links are read. -/
def ownersOf (table : Table) (records : List Record) : List Value :=
  records.filterMap (·.get? table.primaryKey)

/-- Links are read for the keys of the rows of a plan, if the key is one of its columns. -/
theorem mem_ownersOf_select {t : StoredTable} {key : Value} :
    key ∈ ownersOf table (t.select plan) ↔ table.primaryKey ∈ plan.columns
      ∧ ∃ row ∈ StoredTable.window plan.limit plan.offset (t.sorted plan),
        row.cell table.primaryKey = key := by
  unfold ownersOf StoredTable.select
  rw [List.mem_filterMap]
  constructor
  · rintro ⟨r, hr, hkey⟩
    obtain ⟨row, hrow, rfl⟩ := List.mem_map.1 hr
    rw [StoredTable.get?_cut] at hkey
    split at hkey
    · rename_i hmem
      exact ⟨hmem, row, hrow, Option.some.inj hkey⟩
    · cases hkey
  · rintro ⟨hmem, row, hrow, rfl⟩
    exact ⟨_, List.mem_map_of_mem hrow, StoredTable.get?_cut_of_mem row hmem⟩

/-! ## One list after the other -/

/-- A list is read alike in two transactions if the same links are selected in them. -/
theorem agrees_withMembers (hopen : tx.isOpen = true) (hopen' : tx'.isOpen = true)
    (hlinks : ∀ link, schema.linkTable m.linkTable = .ok link →
      tx'.work.selected (linkPlan link m (ownersOf table items))
        = tx.work.selected (linkPlan link m (ownersOf table items))) :
    Agrees (withMembers schema table items m) tx tx' := by
  unfold withMembers
  dsimp only
  split
  · exact .pure _
  · refine .bind (.bind (.result _) fun link hlink _ => ?_) fun members _ _ => .pure _
    refine .bind (Transaction.agrees_reading hopen hopen' (hlinks link ?_)) fun rows _ _ => .pure _
    exact ((yields_result _ _).1 hlink).1

/-- Records that keep their keys have the owners of before. -/
theorem keys_eq_of_sameBeside {fields : List String} (hfields : table.primaryKey ∉ fields)
    (h : List.Forall₂ (Record.SameBeside fields) items full) :
    full.map (·.get? table.primaryKey) = items.map (·.get? table.primaryKey) := by
  induction h with
  | nil => rfl
  | cons hfirst _ ih => rw [List.map_cons, List.map_cons, ih, hfirst _ hfields]

theorem ownersOf_eq_of_sameBeside {fields : List String} (hfields : table.primaryKey ∉ fields)
    (h : List.Forall₂ (Record.SameBeside fields) items full) :
    ownersOf table full = ownersOf table items := by
  have howners (records : List Record) :
      ownersOf table records = (records.map (·.get? table.primaryKey)).filterMap id := by
    rw [ownersOf, List.filterMap_map]
    rfl
  rw [howners, howners, keys_eq_of_sameBeside hfields h]

/-- The texts under which their lists are found are those of before, too. -/
theorem keyTexts_eq_of_sameBeside {fields : List String} (hfields : table.primaryKey ∉ fields)
    (h : List.Forall₂ (Record.SameBeside fields) items full) :
    full.map (keyText table) = items.map (keyText table) := by
  have htexts (records : List Record) : records.map (keyText table)
      = (records.map (·.get? table.primaryKey)).map fun key => (key.map Value.text).getD "" := by
    rw [List.map_map]
    rfl
  rw [htexts, htexts, keys_eq_of_sameBeside hfields h]

/-- A record has one more list than another one: the members that were gathered for its key. -/
structure AddsList (schema : Schema) (table : Table) (s : Store) (owners : List Value)
    (m : ListField) (r r' : Record) : Prop where
  others : Record.SameBeside [m.field] r r'
  list : ∀ key, r.get? table.primaryKey = some key →
    ∃ link t, schema.linkTable m.linkTable = .ok link ∧ s.tables.get? link.name = some t
      ∧ r'.get? m.field = some (.array (t.gathered link m owners key))

/-- The links of all records are read at once. Records whose keys have different texts get the
members of their own keys. -/
theorem of_yields_withMembers (hapart : (items.map (keyText table)).Nodup)
    (h : Yields (withMembers schema table items m) tx full tx') :
    tx' = tx
      ∧ List.Forall₂ (AddsList schema table tx.work (ownersOf table items) m) items full := by
  unfold withMembers at h
  dsimp only at h
  split at h
  · rename_i hnone
    obtain ⟨rfl, rfl⟩ := (yields_pure _ _).1 h
    refine ⟨rfl, List.forall₂_same.2 fun r hr => ⟨fun _ _ => rfl, fun key hkey => ?_⟩⟩
    have hmem : key ∈ full.filterMap (·.get? table.primaryKey) := List.mem_filterMap.2 ⟨r, hr, hkey⟩
    rw [List.isEmpty_iff.1 hnone] at hmem
    cases hmem
  · obtain ⟨members, mid, hmembers, h⟩ := yields_bind.1 h
    obtain ⟨rfl, rfl⟩ := (yields_pure _ _).1 h
    obtain ⟨link, rows, hlink, hrows, rfl⟩ := yields_membersByOwner.1 hmembers
    obtain ⟨-, rfl, t, ht, rfl⟩ := Transaction.yields_select.1 hrows
    -- no list is gone when its owner asks for it
    rw [handOut_eq_map hapart]
    refine ⟨rfl, List.forall₂_map_right_iff.2 (List.forall₂_same.2 fun r _ =>
      ⟨fun name hname => ?_, fun key hkey => ⟨link, t, hlink, ht, ?_⟩⟩)⟩
    · exact NameMap.get?_insert_of_ne _ _ (List.ne_of_not_mem_cons hname)
    · rw [NameMap.get?_insert_self, keyText, hkey]
      rfl

/-- The links of one list after the other are read for the same owners. -/
theorem agrees_foldlM_withMembers (hopen : tx.isOpen = true) (hopen' : tx'.isOpen = true)
    (hfields : ∀ m ∈ lists, m.field ≠ table.primaryKey)
    (hlinks : ∀ m ∈ lists, ∀ link, schema.linkTable m.linkTable = .ok link →
      tx'.work.selected (linkPlan link m (ownersOf table items))
        = tx.work.selected (linkPlan link m (ownersOf table items))) :
    Agrees (lists.foldlM (withMembers schema table) items) tx tx' := by
  induction lists generalizing items with
  | nil => exact .pure _
  | cons m rest ih =>
    rw [List.foldlM_cons]
    refine .bind (agrees_withMembers hopen hopen' (hlinks m List.mem_cons_self))
      fun mid hmid _ => ?_
    have hkey : table.primaryKey ∉ [m.field] := by
      simpa using (hfields m List.mem_cons_self).symm
    have howners := ownersOf_eq_of_sameBeside hkey (sameBeside_withMembers hmid).2
    refine ih (fun n hn => hfields n (List.mem_cons_of_mem m hn)) fun n hn => ?_
    rw [howners]
    exact hlinks n (List.mem_cons_of_mem m hn)

/-- A record has all lists beside what it had before. -/
structure AddsLists (schema : Schema) (table : Table) (s : Store) (owners : List Value)
    (lists : List ListField) (r r' : Record) : Prop where
  others : Record.SameBeside (lists.map ListField.field) r r'
  lists : ∀ key, r.get? table.primaryKey = some key → ∀ m ∈ lists,
    ∃ link t, schema.linkTable m.linkTable = .ok link ∧ s.tables.get? link.name = some t
      ∧ r'.get? m.field = some (.array (t.gathered link m owners key))

/-- Records whose keys have different texts get the members of their own keys, list by list. -/
theorem of_yields_foldlM_withMembers (hnodup : (lists.map ListField.field).Nodup)
    (hfields : table.primaryKey ∉ lists.map ListField.field)
    (hapart : (items.map (keyText table)).Nodup)
    (h : Yields (lists.foldlM (withMembers schema table) items) tx full tx') :
    tx' = tx
      ∧ List.Forall₂ (AddsLists schema table tx.work (ownersOf table items) lists) items full := by
  induction lists generalizing items with
  | nil =>
    obtain ⟨rfl, rfl⟩ := (yields_pure _ _).1 h
    exact ⟨rfl, List.forall₂_same.2 fun r _ => ⟨fun _ _ => rfl, by simp⟩⟩
  | cons m rest ih =>
    rw [List.map_cons, List.nodup_cons] at hnodup
    rw [List.map_cons, List.mem_cons, not_or] at hfields
    rw [List.foldlM_cons] at h
    obtain ⟨mid, next, hmid, hrest⟩ := yields_bind.1 h
    have hkey : table.primaryKey ∉ [m.field] := by simpa using hfields.1
    have hsame := (sameBeside_withMembers hmid).2
    obtain ⟨rfl, hfirst⟩ := of_yields_withMembers hapart hmid
    -- the key is none of the lists, so keys and owners stay while lists are added
    rw [← keyTexts_eq_of_sameBeside hkey hsame] at hapart
    obtain ⟨rfl, hlater⟩ := ih hnodup.2 hfields.2 hapart hrest
    rw [ownersOf_eq_of_sameBeside hkey hsame] at hlater
    refine ⟨rfl, forall₂_trans (fun r r' r'' hadds hadds' =>
      ⟨hadds.others.cons hadds'.others, ?_⟩) hfirst hlater⟩
    intro key hrkey n hn
    rcases List.mem_cons.1 hn with rfl | hn
    -- the lists that come later leave this one
    · obtain ⟨link, t, hlink, ht, hlist⟩ := hadds.list key hrkey
      exact ⟨link, t, hlink, ht, by rw [hadds'.others _ hnodup.1, hlist]⟩
    · exact hadds'.lists key (by rw [hadds.others _ hkey, hrkey]) n hn

/-! ## The records of a plan -/

/-- The lists of a plan. -/
def listsOf (plan : Plan) : List ListField := plan.relations.filterMap plan.table.listField?

/-- What is read for a plan is the same in two stores: its rows, and for each list the links of
these. -/
structure ReadsAlike (schema : Schema) (plan : Plan) (s s' : Store) : Prop where
  rows : s'.selected plan = s.selected plan
  links : ∀ rows, s.selected plan = some rows → ∀ m ∈ listsOf plan, ∀ link,
    schema.linkTable m.linkTable = .ok link →
      s'.selected (linkPlan link m (ownersOf plan.table rows))
        = s.selected (linkPlan link m (ownersOf plan.table rows))

/-- **The records of a plan depend on what is read for it.** -/
theorem agrees_records (hopen : tx.isOpen = true) (hopen' : tx'.isOpen = true)
    (hfields : ∀ m ∈ listsOf plan, m.field ≠ plan.table.primaryKey)
    (halike : ReadsAlike schema plan tx.work tx'.work) :
    Agrees (records schema settings plan) tx tx' := by
  unfold records
  refine .bind (Transaction.agrees_reading hopen hopen' halike.rows) fun rows hrows _ => ?_
  have hselected : tx.work.selected plan = some rows := by
    obtain ⟨-, -, t, ht, rfl⟩ := Transaction.yields_select.1 hrows
    rw [Store.selected, ht]
    rfl
  refine .bind (agrees_foldlM_withMembers hopen hopen' hfields (halike.links rows hselected))
    fun full _ _ => ?_
  split
  · exact .pure _
  · exact .result _

/-- A page is read alike in two transactions if the same rows are counted, too. -/
theorem agrees_page (hopen : tx.isOpen = true) (hopen' : tx'.isOpen = true)
    (hfields : ∀ m ∈ listsOf plan, m.field ≠ plan.table.primaryKey)
    (halike : ReadsAlike schema plan tx.work tx'.work)
    (hcount : (tx'.work.tables.get? plan.table.name).map
      (fun t => (t.matching plan.predicate).length)
      = (tx.work.tables.get? plan.table.name).map fun t => (t.matching plan.predicate).length) :
    Agrees (page schema settings plan) tx tx' := by
  unfold page
  refine .bind (agrees_records hopen hopen' hfields halike) fun shown _ _ => ?_
  exact .bind (Transaction.agrees_reading hopen hopen' hcount) fun total _ _ => .pure _

theorem agrees_first? (hopen : tx.isOpen = true) (hopen' : tx'.isOpen = true)
    (hfields : ∀ m ∈ listsOf plan, m.field ≠ plan.table.primaryKey)
    (halike : ReadsAlike schema { plan with limit := some 1, offset := 0 } tx.work tx'.work) :
    Agrees (first? schema settings plan) tx tx' := by
  unfold first?
  have hrecords :
    Agrees (records schema settings { plan with limit := some 1, offset := 0 }) tx tx' :=
    agrees_records hopen hopen' hfields halike
  exact .bind hrecords fun shown _ _ => .pure _

/-- What is read for a row: the cells of the plan's columns, and under each list the members that
were gathered for the key of the row among those of other owners. -/
structure Fills (schema : Schema) (s : Store) (plan : Plan) (owners : List Value) (row r : Record) :
    Prop where
  cells : ∀ name, name ∉ plan.relations →
    r.get? name = if name ∈ plan.columns then some (row.cell name) else none
  lists : plan.table.primaryKey ∈ plan.columns → ∀ m ∈ listsOf plan,
    ∃ link t, schema.linkTable m.linkTable = .ok link ∧ s.tables.get? link.name = some t
      ∧ r.get? m.field = some (.array (t.gathered link m owners (row.cell plan.table.primaryKey)))

/-- **What the records of a plan have**, if they are read and the texts of their keys differ. -/
theorem forall₂_of_yields_records (hnodup : ((listsOf plan).map ListField.field).Nodup)
    (hfields : plan.table.primaryKey ∉ (listsOf plan).map ListField.field)
    {t : StoredTable} (ht : tx.work.tables.get? plan.table.name = some t)
    (hapart : ((t.select plan).map (keyText plan.table)).Nodup)
    (h : Yields (records schema settings plan) tx full tx') :
    tx' = tx ∧ List.Forall₂ (fun row record => ∃ r,
        Fills schema tx.work plan (ownersOf plan.table (t.select plan)) row r
          ∧ presented settings plan.table r = .ok record)
      (StoredTable.window plan.limit plan.offset (t.sorted plan)) full := by
  obtain ⟨-, rfl, u, filled, hu, hfilled, hdates⟩ := yields_records_iff.1 h
  obtain rfl := Option.some.inj (ht.symm.trans hu)
  obtain ⟨-, hadds⟩ := of_yields_foldlM_withMembers hnodup hfields hapart hfilled
  refine ⟨rfl, ?_⟩
  rw [StoredTable.select, List.forall₂_map_left_iff] at hadds
  refine forall₂_trans (fun row r record hrow hrecord =>
    ⟨r, ⟨fun name hname => ?_, fun hkey m hm => ?_⟩, hrecord⟩) hadds hdates
  · rw [hrow.others, StoredTable.get?_cut]
    intro hmem
    obtain ⟨m, hm, rfl⟩ := List.mem_map.1 hmem
    obtain ⟨name, hlist, hfound⟩ := List.mem_filterMap.1 hm
    exact hname ((Table.mem_of_listField? hfound).2 ▸ hlist)
  · exact hrow.lists _ (StoredTable.get?_cut_of_mem row hkey) m hm

end Fetch

/-! ## The columns and lists of a plan -/

namespace Plan

variable {settings : Settings} {table : Table} {plan : Plan}

/-- A plan is for some columns of a table, its key among them, and for some of its lists. -/
structure Projects (plan : Plan) (table : Table) : Prop where
  table_eq : plan.table = table
  columns : plan.columns.Sublist table.columnNames
  relations : plan.relations.Sublist table.listNames
  key_mem : table.primaryKey ∈ table.columnNames → table.primaryKey ∈ plan.columns

/-- What is projected are columns and lists of the table. -/
theorem projects_of_columnsAndLists {requested : Option Projection}
    {lists : List String × List String} (h : columnsAndLists table requested = .ok lists)
    (htable : plan.table = table) (hcolumns : plan.columns = lists.1)
    (hrelations : plan.relations = lists.2) : plan.Projects table := by
  unfold columnsAndLists at h
  obtain ⟨projection, -, h⟩ := bind_eq_ok_iff.1 h
  cases projection with
  | none =>
    obtain rfl := Except.ok.inj h
    exact ⟨htable, hcolumns ▸ .refl _, hrelations ▸ .refl _, fun hmem => hcolumns ▸ hmem⟩
  | some p =>
    dsimp only at h
    split at h
    · cases h
    · split at h
      · cases h
      · obtain rfl := Except.ok.inj h
        refine ⟨htable, hcolumns ▸ List.filter_sublist,
          hrelations ▸ List.filter_sublist, fun hmem => ?_⟩
        rw [hcolumns]
        exact List.mem_filter.2 ⟨hmem, by simp [keeps]⟩

theorem projects_of_ofRequestAndLookup {request : Request} {lookup : Filter}
    (h : ofRequestAndLookup settings table request lookup = .ok plan) : plan.Projects table := by
  obtain ⟨wide, hwide, hplan⟩ := ofRequestAndLookup_eq_ok_iff.1 h
  obtain ⟨p, lists, keys, -, hlists, -, rfl⟩ := ofRequest_eq_ok_iff.1 hwide
  rcases hplan with ⟨-, rfl⟩ | ⟨-, narrowed, -, rfl⟩
  · exact projects_of_columnsAndLists hlists rfl rfl rfl
  · exact projects_of_columnsAndLists hlists rfl rfl rfl

/-- The lists of a plan are those of its table, under the names in the plan. -/
theorem fields_listsOf (plan : Plan) :
    ((Fetch.listsOf plan).map ListField.field).Sublist plan.relations := by
  have hfields (names : List String) :
      ((names.filterMap plan.table.listField?).map ListField.field).Sublist names := by
    induction names with
    | nil => exact .slnil
    | cons name rest ih =>
      rw [List.filterMap_cons]
      cases hfound : plan.table.listField? name with
      | none => exact ih.cons name
      | some m =>
        obtain ⟨-, rfl⟩ := Table.mem_of_listField? hfound
        exact ih.cons_cons m.field
  exact hfields plan.relations

theorem mem_lists_of_mem_listsOf {m : ListField} (hm : m ∈ Fetch.listsOf plan) :
    m ∈ plan.table.lists := by
  obtain ⟨name, -, hfound⟩ := List.mem_filterMap.1 hm
  exact (Table.mem_of_listField? hfound).1

end Plan

namespace Catalog

variable {catalog : Catalog} {resource : String} {table : Table} {plan : Plan} {ids : List Value}
  {projection : Option Projection}

/-- A list of keys is planned exactly if the predicate, the projection and the order can be told. -/
theorem listPlan_eq_ok_iff (htable : catalog.schema.table resource = .ok table) :
    catalog.listPlan resource ids projection = .ok plan
      ↔ ∃ p lists keys,
        Predicate.ofFilter table (Change.keyFilter table .isIn (.array ids)) .lookup false = .ok p
        ∧ Plan.columnsAndLists table projection = .ok lists ∧ Plan.orderOf table [] = .ok keys
        ∧ plan = ⟨table, p, lists.1, lists.2, keys, none, 0⟩ := by
  unfold listPlan
  simp only [htable, bind_eq_ok_iff]
  constructor
  · rintro ⟨_, ⟨⟩, p, hp, lists, hlists, keys, hkeys, hplan⟩
    exact ⟨p, lists, keys, hp, hlists, hkeys, (Except.ok.inj hplan).symm⟩
  · rintro ⟨p, lists, keys, hp, hlists, hkeys, rfl⟩
    exact ⟨table, rfl, p, hp, lists, hlists, keys, hkeys, rfl⟩

theorem projects_of_listPlan (htable : catalog.schema.table resource = .ok table)
    (hplan : catalog.listPlan resource ids projection = .ok plan) : plan.Projects table := by
  obtain ⟨p, lists, keys, -, hlists, -, rfl⟩ := (listPlan_eq_ok_iff htable).1 hplan
  exact Plan.projects_of_columnsAndLists hlists rfl rfl rfl

end Catalog

namespace Schema.Coherent

variable {schema : Schema} {table base : Table} {plan : Plan}

/-- The key of a resource is one of its columns, and so is no list. -/
theorem key_mem_columnNames (hco : schema.Coherent) (hbase : base ∈ schema.bases)
    (hshares : table.SharesRows base) : table.primaryKey ∈ table.columnNames := by
  obtain ⟨k, hk, -⟩ := hco.keyed base (Schema.mem_physical_of_base hbase)
  obtain ⟨hmem, hname⟩ := Table.mem_of_column? hk
  rw [Table.columnNames, hshares.columns, hshares.primaryKey, ← hname]
  exact Table.mem_columnNames hmem

theorem field_ne_key (hco : schema.Coherent) (hbase : base ∈ schema.bases)
    (hshares : table.SharesRows base) {m : ListField} (hm : m ∈ table.lists) :
    m.field ≠ table.primaryKey := by
  intro heq
  rw [hshares.lists] at hm
  refine hco.field_not_column hbase hm ?_
  rw [heq, Table.columnNames, ← hshares.columns]
  exact hco.key_mem_columnNames hbase hshares

theorem nodup_fields (hco : schema.Coherent) (hbase : base ∈ schema.bases)
    (hshares : table.SharesRows base) (hplan : plan.Projects table) :
    ((Fetch.listsOf plan).map ListField.field).Nodup :=
  ((Plan.fields_listsOf plan).trans hplan.relations).nodup (hco.listNames_nodup hbase hshares)

theorem key_not_listed (hco : schema.Coherent) (hbase : base ∈ schema.bases)
    (hshares : plan.table.SharesRows base) :
    plan.table.primaryKey ∉ (Fetch.listsOf plan).map ListField.field := by
  intro hmem
  obtain ⟨m, hm, heq⟩ := List.mem_map.1 hmem
  exact hco.field_ne_key hbase hshares (Plan.mem_lists_of_mem_listsOf hm) heq

end Schema.Coherent

end RecordStore
