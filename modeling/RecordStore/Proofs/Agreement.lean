import RecordStore.Proofs.Fetching
import RecordStore.Proofs.RoundTrip
import RecordStore.Proofs.Texts

/-!
# All reads show the same record

A page, a first record and the records of a list of keys are read in the same way: the rows of a
plan, and for each list the links of all their keys at once, which are then told apart by the texts
of the keys. A list that was handed out is gone, and a second row with its text would get none. But
a text belongs to one key only, and a key to one row, so every record has the members that are found
for its key alone. What is read of a row is therefore a part of what is read by its key.

* **`StoredTable.KeysApart.nodup_keyTexts`** — the rows of a table have different texts as keys.
* **`StoredTable.gathered_alone`** — the members gathered for an owner among others are those of the
  owner alone.
* **`Catalog.reads_agree`** — every record that is found agrees with the one that is read by its
  key.
-/

namespace RecordStore

open RecordStore.Action

/-! ## Links of several owners -/

namespace StoredTable

variable {t : StoredTable} {link : Table} {m : ListField} {owners : List Value} {key : Value}

/-- Of the links of several owners, those with the text of one of them are all links with this
text. -/
theorem filter_text_matching (hkey : key ∈ owners) (hnull : key.isNull = false)
    (hself : (typeIn t.columns m.ownerColumn).equal key key = true) :
    (t.matching (.compare m.ownerColumn .isIn (.array owners))).filter
        (fun row => (row.cell m.ownerColumn).text == key.text)
      = t.rows.filter fun row => (row.cell m.ownerColumn).text == key.text := by
  rw [matching, List.filter_filter]
  refine List.filter_congr fun row _ => ?_
  rw [Bool.and_eq_left_iff_imp]
  intro htext
  -- the cell has no other text than the key, so it is the key
  have hcell : row.cell m.ownerColumn = key := Value.text_injective (beq_iff_eq.1 htext)
  rw [Change.holds_isIn, hcell, hnull, Bool.not_false, Bool.true_and, List.any_eq_true]
  exact ⟨key, hkey, hself⟩

/-- **The members gathered for an owner among others are those of the owner alone.** -/
theorem gathered_alone
    (hnumbers : ∀ row ∈ t.rows, ∃ n, row.cell link.primaryKey = .int n ∧ isSigned64 n = true)
    (hapart : t.rows.Pairwise fun a b => a.number link.primaryKey ≠ b.number link.primaryKey)
    (hkey : key ∈ owners) (hnull : key.isNull = false)
    (hself : (typeIn t.columns m.ownerColumn).equal key key = true) :
    t.gathered link m owners key = t.gathered link m [key] key := by
  have hstrict (keys : List Value) :
      ((sortRows t.columns [⟨link.primaryKey, .asc⟩]
        (t.matching (.compare m.ownerColumn .isIn (.array keys)))).filter
          fun row => (row.cell m.ownerColumn).text == key.text).Pairwise
        fun a b => a.number link.primaryKey < b.number link.primaryKey :=
    (strict_sortRows (fun row hrow => hnumbers row (List.mem_of_mem_filter hrow))
      (hapart.sublist List.filter_sublist)).sublist List.filter_sublist
  have hperm (keys : List Value) (hmem : key ∈ keys) :
      ((sortRows t.columns [⟨link.primaryKey, .asc⟩]
        (t.matching (.compare m.ownerColumn .isIn (.array keys)))).filter
          fun row => (row.cell m.ownerColumn).text == key.text).Perm
        (t.rows.filter fun row => (row.cell m.ownerColumn).text == key.text) :=
    ((perm_sortRows ..).filter _).trans (.of_eq (filter_text_matching hmem hnull hself))
  rw [gathered_eq, gathered_eq]
  refine congrArg (List.map _) (eq_of_perm_of_ascending
    ((hperm owners hkey).trans (hperm [key] List.mem_cons_self).symm) ?_ (hstrict [key]))
  exact (hstrict owners).imp fun hlt => Int.le_of_lt hlt

/-- **Where keys tell rows apart, the texts of their keys differ**: a text belongs to one key
only. -/
theorem KeysApart.nodup_keyTexts {k : Column} {plan : Plan}
    (h : t.KeysApart k plan.table.primaryKey) (hkey : plan.table.primaryKey ∈ plan.columns) :
    ((t.select plan).map (Fetch.keyText plan.table)).Nodup := by
  have htext (row : Record) : Fetch.keyText plan.table (cut plan.columns row)
      = (row.cell plan.table.primaryKey).text := by
    rw [Fetch.keyText, get?_cut_of_mem row hkey]
    rfl
  have hsorted : (t.sorted plan).Pairwise fun a b =>
      k.type.equal (a.cell plan.table.primaryKey) (b.cell plan.table.primaryKey) = false :=
    ((perm_sortRows ..).pairwise_iff (Std.Symm.symm _ _)).2 (h.apart.sublist List.filter_sublist)
  rw [select, List.map_map, List.Nodup, List.pairwise_map]
  refine (hsorted.sublist (window_sublist ..)).imp_of_mem fun {a b} ha _ hapart htexts => ?_
  rw [Function.comp_apply, Function.comp_apply, htext, htext] at htexts
  have hrow := mem_of_mem_sorted (mem_of_mem_window ha)
  rw [← Value.text_injective htexts, h.equal_self a hrow] at hapart
  cases hapart

end StoredTable

namespace Store.Sound

variable {schema : Schema} {times : Time.Instant → Prop} {s : Store}
  {base link : Table} {m : ListField}
  {k : Column} {u : StoredTable}

/-- No two links have the same number. -/
theorem links_apart (hwf : schema.WellFormed) (h : s.Sound schema times)
    (hlink : link ∈ schema.links) (hu : s.tables.get? link.name = some u) :
    u.rows.Pairwise fun a b => a.number link.primaryKey ≠ b.number link.primaryKey := by
  have hphysical := Schema.mem_physical_of_link hlink
  have hkey := hwf.link_key hlink
  obtain ⟨hmem, -⟩ := Table.mem_of_column? hkey
  have hpairs := (h link hphysical u hu).apart _ hmem (Column.isExclusive_of_primaryKey rfl)
  refine hpairs.imp_of_mem fun {a b} ha hb hclash heq => hclash ?_
  obtain ⟨n, hn, hsigned⟩ := h.link_number hwf hlink hu ha
  obtain ⟨n', hn', hsigned'⟩ := h.link_number hwf hlink hu hb
  rw [Record.number_eq ⟨n, hn, hsigned⟩ hn, Record.number_eq ⟨n', hn', hsigned'⟩ hn'] at heq
  subst heq
  show (a.cell link.primaryKey).isNull = false ∧ (b.cell link.primaryKey).isNull = false
    ∧ ColumnType.integer.equal (a.cell link.primaryKey) (b.cell link.primaryKey) = true
  rw [hn, hn']
  exact ⟨rfl, rfl, ColumnType.equal_self (by simpa [ColumnType.accepts] using hsigned) rfl⟩

/-- The links of a key that a row has are those of the key alone. -/
theorem gathered_alone (hco : schema.Coherent) (hwf : schema.WellFormed) (h : s.Sound schema times)
    (hlinkof : u.LinkOf schema base m link k) (hu : s.tables.get? link.name = some u)
    {owners : List Value} {key : Value} (hkey : key ∈ owners) (haccepts : k.type.accepts key = true)
    (hnull : key.isNull = false) :
    u.gathered link m owners key = u.gathered link m [key] key := by
  have hlink := (Schema.mem_of_linkTable hlinkof.link_eq).1
  refine StoredTable.gathered_alone (fun row hrow => h.link_number hwf hlink hu hrow)
    (h.links_apart hwf hlink hu) hkey hnull ?_
  rw [hlinkof.typeIn_owner hco]
  exact ColumnType.equal_self haccepts hnull

/-- The links of a row are the same among those of other rows as they are for the row alone. -/
theorem gathered_of_row (hco : schema.Coherent) (hwf : schema.WellFormed)
    (h : s.Sound schema times) (hregular : s.Regular schema) (hbase : base ∈ schema.bases)
    {t : StoredTable} (ht : s.tables.get? base.name = some t) (hk : base.keyColumn? = some k)
    {row : Record} (hrow : row ∈ t.rows) (hlist : m ∈ base.lists)
    (hlink : schema.linkTable m.linkTable = .ok link) (hu : s.tables.get? link.name = some u)
    {owners : List Value} (howner : row.cell base.primaryKey ∈ owners) :
    u.gathered link m owners (row.cell base.primaryKey)
      = u.gathered link m [row.cell base.primaryKey] (row.cell base.primaryKey) := by
  have hphysical := Schema.mem_physical_of_base hbase
  obtain ⟨haccepts, hnull⟩ :=
    (h base hphysical t ht).key_accepted (hwf.tables base hphysical) hk hrow
  obtain ⟨link', u', hu', hlinkof⟩ := hregular.exists_linkOf hco hbase ht hlist hk
  obtain rfl := Except.ok.inj (hlink.symm.trans hlinkof.link_eq)
  obtain rfl := Option.some.inj (hu.symm.trans hu')
  exact h.gathered_alone hco hwf hlinkof hu howner haccepts hnull

end Store.Sound

/-! ## The records that are found -/

namespace Fetch

/-- Records that have the keys of rows are of the owners of these. -/
theorem ownersOf_of_forall₂ {table : Table} {rows records : List Record}
    (h : List.Forall₂ (fun row r => r.get? table.primaryKey = some (row.cell table.primaryKey))
      rows records) :
    ownersOf table records = rows.map (·.cell table.primaryKey) := by
  unfold ownersOf
  induction h with
  | nil => rfl
  | cons hfirst _ ih => rw [List.filterMap_cons, hfirst, List.map_cons, ih]

end Fetch

namespace Catalog

variable {settings : Settings} {domain : Domain} {catalog : Catalog}
  {resource : String} {db : Database}
  {plan : Plan} {records : List Record}

/-- The records that are found by one of the reads, and the plan by which they are. -/
inductive Finds (catalog : Catalog) (resource : String) (db : Database) : Plan → List Record → Prop
  /-- the records of a page -/
  | page {request : Request} {lookup : Filter} {plan : Plan} {page : Page}
      (hplan : catalog.plan resource request lookup = .ok plan)
      (hfound : (catalog.find resource request lookup db).1 = .ok page) :
      Finds catalog resource db plan page.records
  /-- the first record, whatever the page -/
  | first {request : Request} {lookup : Filter} {plan : Plan} {r : Record}
      (hplan : catalog.plan resource request lookup = .ok plan)
      (hfound : (catalog.findFirst resource request lookup db).1 = .ok (some r)) :
      Finds catalog resource db { plan with limit := some 1, offset := 0 } [r]
  /-- the records whose keys are in a list -/
  | keys {ids : List Value} {projection : Option Projection} {plan : Plan} {records : List Record}
      (hplan : catalog.listPlan resource ids projection = .ok plan)
      (hfound : (catalog.findByKeys resource ids projection db).1 = .ok records) :
      Finds catalog resource db plan records

theorem projects_of_plan {request : Request} {lookup : Filter}
    (hplan : catalog.plan resource request lookup = .ok plan) :
    catalog.schema.table resource = .ok plan.table ∧ plan.Projects plan.table := by
  obtain ⟨table, htable, hown⟩ := bind_eq_ok_iff.1 hplan
  have hprojects := Plan.projects_of_ofRequestAndLookup hown
  obtain rfl := hprojects.table_eq
  exact ⟨htable, hprojects⟩

/-- The first record of a plan is the only one of the plan that is cut to it. -/
theorem yields_records_of_first {r : Record} {tx : Transaction}
    (h : Yields (Fetch.first? catalog.schema catalog.settings plan) (.begin db) (some r) tx) :
    ∃ tx, Yields
      (Fetch.records catalog.schema catalog.settings { plan with limit := some 1, offset := 0 })
      (.begin db) [r] tx := by
  unfold Fetch.first? at h
  obtain ⟨shown, mid, hshown, hhead⟩ := yields_bind.1 h
  obtain ⟨hhead, -⟩ := (yields_pure _ _).1 hhead
  obtain ⟨-, t, -, hshows⟩ := Fetch.shows_of_yields_records hshown
  have hlength : shown.length ≤ 1 := by
    rw [← hshows.length_eq]
    exact List.length_take_le _ _
  match shown, hhead, hlength with
  | [x], hhead, _ =>
    obtain rfl := Option.some.inj hhead
    exact ⟨mid, hshown⟩

/-- Records are found as those of their plan, which is one for the table of the resource. -/
theorem Finds.yields_records (h : catalog.Finds resource db plan records) :
    catalog.schema.table resource = .ok plan.table ∧ plan.Projects plan.table
      ∧ ∃ tx, Yields (Fetch.records catalog.schema catalog.settings plan)
        (.begin db) records tx := by
  cases h with
  | @page request lookup plan page hplan hfound =>
    obtain ⟨htable, hprojects⟩ := projects_of_plan hplan
    rw [find, hplan] at hfound
    obtain ⟨tx, hpage, -⟩ := Database.transact_ok hfound
    obtain ⟨mid, hrecords, -⟩ := Fetch.yields_page.1 hpage
    exact ⟨htable, hprojects, mid, hrecords⟩
  | first hplan hfound =>
    obtain ⟨htable, hprojects⟩ := projects_of_plan hplan
    rw [findFirst, hplan] at hfound
    obtain ⟨tx, hfirst, -⟩ := Database.transact_ok hfound
    exact ⟨htable, ⟨rfl, hprojects.columns, hprojects.relations, hprojects.key_mem⟩,
      yields_records_of_first hfirst⟩
  | @keys ids projection plan records hplan hfound =>
    obtain ⟨table, htable, -⟩ := bind_eq_ok_iff.1 hplan
    have hprojects := projects_of_listPlan htable hplan
    obtain rfl := hprojects.table_eq
    rw [findByKeys, hplan] at hfound
    obtain ⟨tx, hrecords, -⟩ := Database.transact_ok hfound
    exact ⟨htable, hprojects, tx, hrecords⟩

end Catalog

/-! ## A record and the row that it is read from -/

/-- A list in a plan is one of its table. -/
theorem Plan.Projects.exists_list {plan : Plan} (h : plan.Projects plan.table) {name : String}
    (hname : name ∈ plan.relations) : ∃ m ∈ Fetch.listsOf plan, plan.table.listField? name = some m
      ∧ m.field = name := by
  obtain ⟨m, hm, hfield⟩ := List.mem_map.1 (h.relations.subset hname)
  cases hfound : plan.table.listField? name with
  | none => exact absurd (beq_iff_eq.2 hfield) (List.find?_eq_none.1 hfound m hm)
  | some m' =>
    exact ⟨m', List.mem_filterMap.2 ⟨name, hname, hfound⟩, rfl, (Table.mem_of_listField? hfound).2⟩

namespace Fetch.Fills

variable {schema : Schema} {s : Store} {plan : Plan} {owners : List Value} {row r : Record}

/-- A record that is read for a row has the columns and the lists of its plan. -/
theorem mem_keys_iff (h : Fills schema s plan owners row r) (hprojects : plan.Projects plan.table)
    (hkey : plan.table.primaryKey ∈ plan.columns) (name : String) :
    name ∈ r.keys ↔ name ∈ plan.columns ∨ name ∈ plan.relations := by
  rw [NameMap.mem_keys_iff]
  by_cases hname : name ∈ plan.relations
  · obtain ⟨m, hm, -, rfl⟩ := hprojects.exists_list hname
    obtain ⟨link, t, -, -, hlist⟩ := h.lists hkey m hm
    simp [hlist, hname]
  · rw [h.cells name hname]
    by_cases hcolumn : name ∈ plan.columns <;> simp [hcolumn, hname]

/-- The key of a row stands in its record. -/
theorem get?_key (h : Fills schema s plan owners row r)
    (hkey : plan.table.primaryKey ∈ plan.columns) (hnot : plan.table.primaryKey ∉ plan.relations) :
    r.get? plan.table.primaryKey = some (row.cell plan.table.primaryKey) := by
  rw [h.cells _ hnot, if_pos hkey]

end Fetch.Fills

/-- The key of a resource is none of the lists of a plan. -/
theorem Schema.Coherent.key_no_relation {schema : Schema} {base : Table} {plan : Plan}
    (hco : schema.Coherent) (hbase : base ∈ schema.bases) (hshares : plan.table.SharesRows base)
    (hprojects : plan.Projects plan.table) :
    plan.table.primaryKey ∉ plan.relations := by
  intro hmem
  obtain ⟨m, hm, -, hfield⟩ := hprojects.exists_list hmem
  exact hco.field_ne_key hbase hshares (Plan.mem_lists_of_mem_listsOf hm) hfield

namespace Catalog

variable {settings : Settings} {domain : Domain} {catalog : Catalog}
  {resource : String} {db : Database}
  {plan : Plan} {records : List Record} {owners : List Value} {row r raw : Record}

/-- What is read for a row among others is a part of what is read for it alone, if the links are. -/
theorem get?_of_fills {s : Store} (hprojects : plan.Projects plan.table)
    (hkey : plan.table.primaryKey ∈ plan.columns)
    (hfills : Fetch.Fills catalog.schema s plan owners row r)
    (hreads : catalog.Reads plan.table s row raw)
    (hlists : ∀ m ∈ Fetch.listsOf plan, ∀ link, catalog.schema.linkTable m.linkTable = .ok link →
      ∀ u, s.tables.get? link.name = some u →
        u.gathered link m owners (row.cell plan.table.primaryKey)
          = u.listed link m (row.cell plan.table.primaryKey))
    {name : String} {v : Value} (hv : r.get? name = some v) : raw.get? name = some v := by
  by_cases hname : name ∈ plan.relations
  · obtain ⟨m, hm, -, rfl⟩ := hprojects.exists_list hname
    obtain ⟨link, u, hlink, hu, hlist⟩ := hfills.lists hkey m hm
    rw [hreads.lists m (Plan.mem_lists_of_mem_listsOf hm) link hlink u hu,
      ← hlists m hm link hlink u hu, ← hlist, hv]
  · rw [hfills.cells name hname] at hv
    split at hv
    · rename_i hcolumn
      rw [hreads.cells name (hprojects.columns.subset hcolumn), hv]
    · cases hv

/-- The records that are found are those of rows of the table, read without a format of dates. Keys
tell these rows apart, so no record takes the list of another one. -/
theorem Finds.fills (hco : catalog.schema.Coherent) (hregular : db.store.Regular catalog.schema)
    (hkeysapart : db.store.KeysApart catalog.schema) (hformat : catalog.settings.dateFormat = none)
    (h : catalog.Finds resource db plan records) :
    ∃ t, db.store.tables.get? plan.table.name = some t
      ∧ List.Forall₂ (Fetch.Fills catalog.schema db.store plan (Fetch.ownersOf plan.table records))
        (StoredTable.window plan.limit plan.offset (t.sorted plan)) records := by
  obtain ⟨htable, hprojects, tx, hrecords⟩ := h.yields_records
  obtain ⟨base, hbase, hshares⟩ := hco.shared plan.table (Schema.mem_of_table htable).1
  obtain ⟨k, hk, -⟩ := hco.keyed base (Schema.mem_physical_of_base hbase)
  have hkey : plan.table.primaryKey ∈ plan.columns :=
    hprojects.key_mem (hco.key_mem_columnNames hbase hshares)
  obtain ⟨-, -, t, -, ht, -, -⟩ := Fetch.yields_records_iff.1 hrecords
  have hkeys := (hregular.keysApart_of_shares hkeysapart hbase hshares
    (hshares.keyColumn?.trans hk) t ht).2
  obtain ⟨-, hforall⟩ := Fetch.forall₂_of_yields_records (hco.nodup_fields hbase hshares hprojects)
    (hco.key_not_listed hbase hshares) ht (hkeys.nodup_keyTexts hkey) hrecords
  have hfills : List.Forall₂ (Fetch.Fills catalog.schema db.store plan
      (Fetch.ownersOf plan.table (t.select plan)))
      (StoredTable.window plan.limit plan.offset (t.sorted plan)) records := by
    refine hforall.imp fun row record hrecord => ?_
    obtain ⟨r, hr, hshown⟩ := hrecord
    rw [Fetch.presented, hformat] at hshown
    exact Except.ok.inj hshown ▸ hr
  -- the records have the keys of the rows, so their owners are the ones of the rows
  have howners : Fetch.ownersOf plan.table records = Fetch.ownersOf plan.table (t.select plan) := by
    have hrecords := Fetch.ownersOf_of_forall₂ (hfills.imp fun row r hr =>
      hr.get?_key hkey (hco.key_no_relation hbase hshares hprojects))
    have hrows : List.Forall₂
        (fun row r => r.get? plan.table.primaryKey = some (row.cell plan.table.primaryKey))
        (StoredTable.window plan.limit plan.offset (t.sorted plan)) (t.select plan) := by
      rw [StoredTable.select, List.forall₂_map_right_iff]
      exact List.forall₂_same.2 fun row _ => StoredTable.get?_cut_of_mem row hkey
    rw [hrecords, Fetch.ownersOf_of_forall₂ hrows]
  exact ⟨t, ht, howners ▸ hfills⟩

/-- **All reads show the same record**: every record that is found has the columns and lists of its
plan, the key among them. It agrees with the one that is read by its key, and its lists, which are
read for all records at once, are those that are read for its key alone. -/
theorem reads_agree (hcompiles : Catalog.ofDomain settings domain = .ok catalog)
    (hnames : settings.NamesApart) (hformat : settings.dateFormat = none) (steps : List Step)
    (h : catalog.Finds resource (catalog.run steps) plan records) :
    catalog.schema.table resource = .ok plan.table ∧ plan.table.primaryKey ∈ plan.columns
      ∧ ∀ r ∈ records,
        (∀ name, name ∈ r.keys ↔ name ∈ plan.columns ∨ name ∈ plan.relations)
        ∧ ∃ key raw, r.get? plan.table.primaryKey = some key
          ∧ catalog.findStored resource key (catalog.run steps)
            = (.ok (some raw), catalog.run steps)
          ∧ (∀ name v, r.get? name = some v → raw.get? name = some v)
          ∧ ∀ name ∈ plan.relations, ∃ m link u, plan.table.listField? name = some m
            ∧ catalog.schema.linkTable m.linkTable = .ok link
            ∧ (catalog.run steps).store.tables.get? link.name = some u
            ∧ r.get? name = some
              (.array (u.gathered link m (Fetch.ownersOf plan.table records) key))
            ∧ u.gathered link m (Fetch.ownersOf plan.table records) key
              = u.gathered link m [key] key := by
  have hwf := wellFormed_of_ofDomain hcompiles hnames
  have hco := coherent_of_ofDomain hcompiles
  have hregular := regular_run hco steps
  have hkeysapart := keysApart_run hco steps
  have hsound := sound_run_anytime hwf steps
  rw [← settings_of_ofDomain hcompiles] at hformat
  generalize catalog.run steps = db at *
  obtain ⟨htable, hprojects, -⟩ := h.yields_records
  obtain ⟨base, hbase, hshares⟩ := hco.shared plan.table (Schema.mem_of_table htable).1
  have hphysical := Schema.mem_physical_of_base hbase
  obtain ⟨k, hk, -⟩ := hco.keyed base hphysical
  have hkey : plan.table.primaryKey ∈ plan.columns :=
    hprojects.key_mem (hco.key_mem_columnNames hbase hshares)
  refine ⟨htable, hkey, fun r hr => ?_⟩
  obtain ⟨t, ht, hforall⟩ := h.fills hco hregular hkeysapart hformat
  obtain ⟨row, hrow, hfills⟩ := exists_of_mem_right hforall hr
  have hrow := StoredTable.mem_of_mem_sorted (StoredTable.mem_of_mem_window hrow)
  rw [hshares.name] at ht
  have hstored := hsound base hphysical t ht
  have hbasewf := hwf.tables base hphysical
  obtain ⟨haccepts, -⟩ := hstored.key_accepted hbasewf hk hrow
  have hmatching := hstored.matching_key hbasewf hrow
  obtain ⟨raw, hreads, hfound⟩ :=
    findStored_of_row hco hregular htable hbase hshares hk ht hmatching
    (ColumnType.interpret_of_accepts haccepts) haccepts
  rw [Fetch.presented, hformat] at hfound
  rw [← hshares.primaryKey] at hfound
  have hcell := hfills.get?_key hkey (hco.key_no_relation hbase hshares hprojects)
  have howner : row.cell plan.table.primaryKey ∈ Fetch.ownersOf plan.table records :=
    List.mem_filterMap.2 ⟨r, hr, hcell⟩
  -- the links of the key are the same among those of the others
  have hlinks : ∀ m ∈ Fetch.listsOf plan, ∀ link, catalog.schema.linkTable m.linkTable = .ok link →
      ∀ u, db.store.tables.get? link.name = some u →
        u.gathered link m (Fetch.ownersOf plan.table records) (row.cell plan.table.primaryKey)
          = u.gathered link m [row.cell plan.table.primaryKey]
            (row.cell plan.table.primaryKey) := by
    intro m hm link hlink u hu
    have hlist := Plan.mem_lists_of_mem_listsOf hm
    rw [hshares.lists] at hlist
    rw [hshares.primaryKey] at howner ⊢
    exact hsound.gathered_of_row hco hwf hregular hbase ht hk hrow hlist hlink hu howner
  refine ⟨hfills.mem_keys_iff hprojects hkey, _, raw, hcell, hfound, fun name v hv =>
    get?_of_fills hprojects hkey hfills (hreads.of_shares hshares) hlinks hv, fun name hname => ?_⟩
  obtain ⟨m, hm, hfield, rfl⟩ := hprojects.exists_list hname
  obtain ⟨link, u, hlink, hu, hlist⟩ := hfills.lists hkey m hm
  exact ⟨m, link, u, hfield, hlink, hu, hlist, hlinks m hm link hlink u hu⟩

/-! ### A sample -/

/-- Two people, and three teams: of both, of one of them and of nobody. -/
def rosterSteps : List Step := [
  (⟨0, 0⟩, .createTables),
  (⟨1, 0⟩, .insert "person" [{}, {}]),
  (⟨2, 0⟩, .insert "team" [
    .ofList [("members", .array [.int 2, .int 1])],
    .ofList [("members", .array [.int 2])],
    {}])]

/-- The members of the teams, the last team first. -/
def membersOfLast : Request :=
  { sort := [("id", .desc)], projection := some [("members", true)] }

/-- The lists of three teams are read at once, and are those of each team. -/
theorem rosters_agree : ∃ plan page, sampleCatalog.plan "team" membersOfLast [] = .ok plan
    ∧ (sampleCatalog.find "team" membersOfLast [] (sampleCatalog.run rosterSteps)).1 = .ok page
    ∧ page.records.map (·.get? "members")
      = [some (.array []), some (.array [.int 2]), some (.array [.int 2, .int 1])]
    ∧ ∀ r ∈ page.records, "lead" ∉ r.keys ∧ ∃ key raw, r.get? "id" = some key
      ∧ sampleCatalog.findStored "team" key (sampleCatalog.run rosterSteps)
        = (.ok (some raw), sampleCatalog.run rosterSteps)
      ∧ raw.get? "members" = r.get? "members" := by
  have hparts : ((sampleCatalog.plan "team" membersOfLast []).toOption.bind fun plan =>
      (sampleCatalog.find "team" membersOfLast [] (sampleCatalog.run rosterSteps)).1.toOption.map
        fun page =>
        decide (plan.table.primaryKey = "id" ∧ "lead" ∉ plan.columns ∧ plan.relations = ["members"]
          ∧ page.records.map (·.get? "members")
            = [some (.array []), some (.array [.int 2]), some (.array [.int 2, .int 1])]))
              = some true := by
    decide +kernel
  obtain ⟨plan, hplan, hparts⟩ := Option.bind_eq_some_iff.1 hparts
  obtain ⟨page, hfound, hfacts⟩ := Option.map_eq_some_iff.1 hparts
  obtain ⟨hid, hlead, hrelations, hmembers⟩ := of_decide_eq_true hfacts
  have hplan := eq_ok_of_toOption hplan
  have hfound := eq_ok_of_toOption hfound
  obtain ⟨-, -, hagree⟩ :=
    reads_agree ofDomain_sample (by decide) rfl rosterSteps (.page hplan hfound)
  refine ⟨plan, page, hplan, hfound, hmembers, fun r hr => ?_⟩
  obtain ⟨hkeys, key, raw, hkey, hstored, hsame, -⟩ := hagree r hr
  rw [hid] at hkey
  have hlist : "members" ∈ r.keys := (hkeys "members").2 (.inr (by simp [hrelations]))
  obtain ⟨v, hv⟩ := Option.isSome_iff_exists.1 ((NameMap.mem_keys_iff ..).1 hlist)
  refine ⟨fun hmem => ?_, key, raw, hkey, hstored, by rw [hsame _ _ hv, hv]⟩
  rcases (hkeys "lead").1 hmem with hcolumn | hrelation
  · exact hlead hcolumn
  · simp [hrelations] at hrelation

end Catalog

end RecordStore
