import RecordStore.Proofs.Fetching
import RecordStore.Proofs.Narrowing

/-!
# Hidden rows are not read

A row of a resource is visible if it satisfies the filter of the datasource and is not flagged as
deleted. Whatever is asked of a resource, as long as deleted rows are not, only its visible rows and
their links decide the answer: the rows of every plan are visible, so are the owners whose links are
read for them, and what is counted is visible too.

* **`Table.isVisible`** — the visible rows of a resource.
* **`Store.ShowsAlike`** — two stores with the same visible rows and the same links of these.
* **`Catalog.hidden_rows_unread`** — two such stores give the same answers.
* **`Catalog.hidden_row_found_by_flagged_key`** — where the flag is the key, a list of keys finds
  hidden rows.
-/

namespace RecordStore

open RecordStore.Action

/-- Whether a row satisfies the filter of the datasource and is not deleted. -/
def Table.isVisible (table : Table) (row : Record) : Bool :=
  (Filter.ofRecord table.defaultFilter).holds table row
    && table.deletedColumn.all fun deleted => decide (row.cell deleted = .bool false)

/-- Rows among which all that are selected are may be picked out before. -/
theorem filter_filter_of_imp {visible p : Record → Bool}
    (h : ∀ row, p row = true → visible row = true) (rows : List Record) :
    (rows.filter visible).filter p = rows.filter p := by
  rw [List.filter_filter]
  refine List.filter_congr fun row _ => ?_
  cases hp : p row with
  | false => rfl
  | true => rw [h row hp]; rfl

/-! ## Stores that show the same -/

/-- The links of some owners are the same in two tables: they stand in the same order, or in any,
with numbers by which they are told apart. -/
structure StoredTable.LinksAlike (link : Table) (owned : Record → Bool) (u u' : StoredTable) :
    Prop where
  columns_eq : u.columns = link.columns
  columns_eq' : u'.columns = link.columns
  rows : u'.rows.filter owned = u.rows.filter owned
    ∨ (u'.rows.filter owned).Perm (u.rows.filter owned)
      ∧ (∀ row ∈ u.rows.filter owned, ∃ n, row.cell link.primaryKey = .int n ∧ isSigned64 n = true)
      ∧ (u.rows.filter owned).Pairwise fun a b =>
        a.number link.primaryKey ≠ b.number link.primaryKey

/-- Whether a link is that of a visible row. -/
def Store.ownsLink (s : Store) (table link : Table) (m : ListField) (row : Record) : Bool :=
  ((s.rows table.name).filter table.isVisible).any fun owner =>
    (typeIn link.columns m.ownerColumn).equal (row.cell m.ownerColumn) (owner.cell table.primaryKey)

/-- Two stores hold the same visible rows of a resource, in one order, and the same links of these;
hidden rows and their links may be others. Tables that one store lacks, the other lacks too. -/
structure Store.ShowsAlike (schema : Schema) (table : Table) (s s' : Store) : Prop where
  rows : Option.Rel (fun t t' => t.columns = table.columns ∧ t'.columns = table.columns
      ∧ t'.rows.filter table.isVisible = t.rows.filter table.isVisible)
    (s.tables.get? table.name) (s'.tables.get? table.name)
  links : ∀ m ∈ table.lists, ∀ link, schema.linkTable m.linkTable = .ok link →
    Option.Rel (StoredTable.LinksAlike link (s.ownsLink table link m))
      (s.tables.get? link.name) (s'.tables.get? link.name)

/-- Stores in which the tables of a resource are created show the same, if the lists of visible rows
are the same and the lists of their links are. -/
theorem Store.ShowsAlike.of_rows {schema : Schema} (hco : schema.Coherent) {table base : Table}
    (hbase : base ∈ schema.bases) (hshares : table.SharesRows base) {s s' : Store}
    (hs : s.Regular schema)
    (hs' : s'.Regular schema) (hcreated : s.tables.contains table.name = true)
    (hcreated' : s'.tables.contains table.name = true)
    (hrows : (s'.rows table.name).filter table.isVisible
      = (s.rows table.name).filter table.isVisible)
    (hlinks : ∀ m ∈ table.lists, ∀ link, schema.linkTable m.linkTable = .ok link →
      (s'.rows link.name).filter (s.ownsLink table link m)
        = (s.rows link.name).filter (s.ownsLink table link m)) :
    s.ShowsAlike schema table s' := by
  rw [NameMap.contains_iff, NameMap.mem_keys_iff] at hcreated hcreated'
  obtain ⟨t, ht⟩ := Option.isSome_iff_exists.1 hcreated
  obtain ⟨t', ht'⟩ := Option.isSome_iff_exists.1 hcreated'
  have hphysical := Schema.mem_physical_of_base hbase
  refine ⟨?_, fun m hm link hlink => ?_⟩
  · rw [Store.rows_of_get? ht, Store.rows_of_get? ht'] at hrows
    rw [ht, ht']
    rw [hshares.name] at ht ht'
    exact .some ⟨(hs.columns_eq base hphysical t ht).1.trans hshares.columns.symm,
      (hs'.columns_eq base hphysical t' ht').1.trans hshares.columns.symm, hrows⟩
  · obtain ⟨link', u, hlink', hu⟩ := hs.exists_links hco hbase hshares (hshares.name ▸ ht) m hm
    obtain rfl := Except.ok.inj (hlink'.symm.trans hlink)
    obtain ⟨link'', u', hlink'', hu'⟩ :=
      hs'.exists_links hco hbase hshares (hshares.name ▸ ht') m hm
    obtain rfl := Except.ok.inj (hlink''.symm.trans hlink)
    have hlinkphysical := Schema.mem_physical_of_link (Schema.mem_of_linkTable hlink).1
    have hsame := hlinks m hm _ hlink
    rw [Store.rows_of_get? hu, Store.rows_of_get? hu'] at hsame
    rw [hu, hu']
    exact .some ⟨(hs.columns_eq _ hlinkphysical u hu).1,
      (hs'.columns_eq _ hlinkphysical u' hu').1, .inl hsame⟩

/-- What depends on the matching rows of a table is the same in both stores, if all of them are
visible. -/
theorem Store.ShowsAlike.reading_eq {schema : Schema} {table : Table} {s s' : Store} {p : Predicate}
    {α : Type} {f : StoredTable → α} (h : s.ShowsAlike schema table s')
    (hvisible : ∀ row, p.holds table.columns row = true → table.isVisible row = true)
    (hf : ∀ t t' : StoredTable, t'.columns = t.columns →
      t'.matching p = t.matching p → f t' = f t) :
    (s'.tables.get? table.name).map f = (s.tables.get? table.name).map f := by
  have hrel := h.rows
  generalize s.tables.get? table.name = stored at hrel ⊢
  generalize s'.tables.get? table.name = stored' at hrel ⊢
  cases hrel with
  | none => rfl
  | @some t t' hsame =>
    obtain ⟨hcolumns, hcolumns', hrows⟩ := hsame
    refine congrArg some (hf t t' (hcolumns'.trans hcolumns.symm) ?_)
    rw [StoredTable.matching, StoredTable.matching, hcolumns, hcolumns']
    rw [← filter_filter_of_imp hvisible, hrows, filter_filter_of_imp hvisible]

theorem Store.ShowsAlike.counted_eq {schema : Schema} {table : Table} {s s' : Store} {p : Predicate}
    (h : s.ShowsAlike schema table s')
    (hvisible : ∀ row, p.holds table.columns row = true → table.isVisible row = true) :
    (s'.tables.get? table.name).map (fun t => (t.matching p).length)
      = (s.tables.get? table.name).map fun t => (t.matching p).length :=
  h.reading_eq hvisible fun _ _ _ hmatching => congrArg List.length hmatching

/-- The links of visible owners are read alike. -/
theorem StoredTable.LinksAlike.select_eq {link : Table} {m : ListField} {owned : Record → Bool}
    {u u' : StoredTable} {owners : List Value} (h : LinksAlike link owned u u')
    (howned : ∀ row, (Predicate.compare m.ownerColumn .isIn (.array owners)).holds
      link.columns row = true →
      owned row = true) :
    u'.select (Fetch.linkPlan link m owners) = u.select (Fetch.linkPlan link m owners) := by
  have hsorted : sortRows u'.columns [⟨link.primaryKey, .asc⟩]
        (u'.matching (.compare m.ownerColumn .isIn (.array owners)))
      = sortRows u.columns [⟨link.primaryKey, .asc⟩]
        (u.matching (.compare m.ownerColumn .isIn (.array owners))) := by
    rw [matching, matching, h.columns_eq, h.columns_eq', ← filter_filter_of_imp howned u'.rows,
      ← filter_filter_of_imp howned u.rows]
    rcases h.rows with hrows | ⟨hperm, hnumbers, hapart⟩
    · rw [hrows]
    · exact sortRows_eq_of_perm (hperm.filter _)
        (fun row hrow => hnumbers row (List.mem_of_mem_filter hrow))
        (hapart.sublist List.filter_sublist)
  exact congrArg (List.map (cut [m.ownerColumn, m.memberColumn])) hsorted

/-! ## Reading what is visible -/

section Reads

variable {schema : Schema} {table : Table} {plan : Plan} {s s' : Store}

theorem Store.ShowsAlike.selected_eq (h : s.ShowsAlike schema table s')
    (htable : plan.table = table)
    (hvisible : ∀ row, plan.predicate.holds table.columns row = true → table.isVisible row = true) :
    s'.selected plan = s.selected plan := by
  subst htable
  refine h.reading_eq hvisible fun t t' hcolumns hmatching => ?_
  rw [StoredTable.select, StoredTable.select, hcolumns, hmatching]

/-- A link is read for rows of a plan only if it is that of a visible row. -/
theorem Store.ownsLink_of_selected (h : s.ShowsAlike schema table s') (htable : plan.table = table)
    (hvisible : ∀ row, plan.predicate.holds table.columns row = true → table.isVisible row = true)
    {rows : List Record} (hrows : s.selected plan = some rows) (link : Table)
    (m : ListField) (row : Record)
    (hholds : (Predicate.compare m.ownerColumn .isIn (.array (Fetch.ownersOf table rows))).holds
      link.columns row = true) : s.ownsLink table link m row = true := by
  subst htable
  obtain ⟨t, ht, rfl⟩ := Option.map_eq_some_iff.1 hrows
  have hcolumns : t.columns = plan.table.columns := by
    have hrel := h.rows
    rw [ht] at hrel
    generalize s'.tables.get? plan.table.name = stored' at hrel
    cases hrel with
    | some hsame => exact hsame.1
  rw [Change.holds_isIn, Bool.and_eq_true, List.any_eq_true] at hholds
  obtain ⟨-, key, hkey, hequal⟩ := hholds
  obtain ⟨-, owner, howner, rfl⟩ := Fetch.mem_ownersOf_select.1 hkey
  obtain ⟨hmem, hselected⟩ := StoredTable.mem_sorted_iff.1 (StoredTable.mem_of_mem_window howner)
  rw [hcolumns] at hselected
  unfold Store.ownsLink
  rw [Store.rows_of_get? ht, List.any_eq_true]
  exact ⟨owner, List.mem_filter.2 ⟨hmem, hvisible owner hselected⟩, hequal⟩

/-- All that is read for a plan of visible rows is the same. -/
theorem Store.ShowsAlike.readsAlike (h : s.ShowsAlike schema table s') (htable : plan.table = table)
    (hvisible : ∀ row, plan.predicate.holds table.columns row = true → table.isVisible row = true) :
    Fetch.ReadsAlike schema plan s s' where
  rows := h.selected_eq htable hvisible
  links rows hrows m hm link hlink := by
    have hlist : m ∈ table.lists := htable ▸ Plan.mem_lists_of_mem_listsOf hm
    have hrel := h.links m hlist link hlink
    have howned := Store.ownsLink_of_selected h htable hvisible hrows link m
    rw [← htable] at howned
    unfold Store.selected
    show (s'.tables.get? link.name).map _ = (s.tables.get? link.name).map _
    generalize s.tables.get? link.name = stored at hrel ⊢
    generalize s'.tables.get? link.name = stored' at hrel ⊢
    cases hrel with
    | none => rfl
    | some halike => exact congrArg some (halike.select_eq (htable ▸ howned))

end Reads

/-! ## Operations -/

/-- What the predicate of a filter holds of is visible, if the filter is not about the flag. -/
theorem Predicate.isVisible_of_ofFilter {table : Table} {filter : Filter} {source : FilterSource}
    {p : Predicate} (h : ofFilter table filter source false = .ok p)
    (hhides : ∀ deleted ∈ table.deletedColumn, table.hidesDeleted filter deleted = true)
    (row : Record) (hholds : p.holds table.columns row = true) : table.isVisible row = true := by
  rw [holds_of_ofFilter_admits h, Bool.and_eq_true, Bool.and_eq_true] at hholds
  unfold Table.admits at hholds
  unfold Table.isVisible
  rw [hholds.1.2, Bool.true_and]
  cases hdeleted : table.deletedColumn with
  | none => rfl
  | some deleted =>
    have hadmits := hholds.2
    rw [hdeleted, Option.all_some, hhides deleted hdeleted] at hadmits
    simpa using hadmits

namespace Catalog

variable {settings : Settings} {domain : Domain} {catalog : Catalog}
  {resource : String} {table : Table}
  {request : Request} {lookup : Filter} {plan : Plan} {db db' : Database}

/-- What a narrowed request selects is visible, if neither its filter nor that of the datasource is
about the flag. -/
theorem isVisible_of_plan (htable : catalog.schema.table resource = .ok table)
    (hplan : catalog.plan resource request lookup = .ok plan)
    (hdeleted : request.showDeleted = false)
    (hhides : ∀ deleted ∈ table.deletedColumn, table.hidesDeleted request.filter deleted = true)
    (row : Record) (hholds : plan.predicate.holds table.columns row = true) :
    table.isVisible row = true := by
  obtain ⟨asked, -, hasked, -, hrows⟩ := Plan.holds_of_ofRequestAndLookup (plan_eq_ok htable hplan)
  rw [hrows, Bool.and_eq_true] at hholds
  rw [hdeleted] at hasked
  exact Predicate.isVisible_of_ofFilter hasked hhides row hholds.1

/-- **Hidden rows are not read.** Two stores that show the same answer alike what is asked of the
visible rows: requests that neither ask for deleted rows nor filter by the flag, whatever lookup
narrows them; whether there is a row; and the rows of a list of keys, unless the flag is the key. -/
theorem hidden_rows_unread (hcompiles : Catalog.ofDomain settings domain = .ok catalog)
    (htable : catalog.schema.table resource = .ok table)
    (hsame : db.store.ShowsAlike catalog.schema table db'.store)
    (hdefaults : ∀ deleted ∈ table.deletedColumn,
      (Filter.ofRecord table.defaultFilter).references deleted = false) :
    (∀ request lookup, request.showDeleted = false →
        (∀ deleted ∈ table.deletedColumn, request.filter.references deleted = false) →
        (catalog.find resource request lookup db').1 = (catalog.find resource request lookup db).1
        ∧ (catalog.findFirst resource request lookup db').1
          = (catalog.findFirst resource request lookup db).1)
      ∧ (catalog.isEmpty resource db').1 = (catalog.isEmpty resource db).1
      ∧ (table.deletedColumn ≠ some table.primaryKey → ∀ ids projection,
        (catalog.findByKeys resource ids projection db').1
          = (catalog.findByKeys resource ids projection db).1) := by
  have hco := coherent_of_ofDomain hcompiles
  obtain ⟨base, hbase, hshares⟩ := hco.shared table (Schema.mem_of_table htable).1
  have hhides (filter : Filter)
      (h : ∀ deleted ∈ table.deletedColumn, filter.references deleted = false) :
      ∀ deleted ∈ table.deletedColumn, table.hidesDeleted filter deleted = true :=
        fun deleted hdeleted => by
    rw [Table.hidesDeleted, h deleted hdeleted, hdefaults deleted hdeleted]
    rfl
  have hfields {plan : Plan} (h : plan.table = table) :
      ∀ m ∈ Fetch.listsOf plan, m.field ≠ plan.table.primaryKey := fun m hm =>
    hco.field_ne_key hbase (h ▸ hshares) (Plan.mem_lists_of_mem_listsOf hm)
  refine ⟨fun request lookup hdeleted hrequest => ?_, ?_, fun hkey ids projection => ?_⟩
  · have hvisible {plan : Plan} (hplan : catalog.plan resource request lookup = .ok plan) :=
      isVisible_of_plan htable hplan hdeleted (hhides request.filter hrequest)
    refine ⟨transactWith_of_agrees fun plan hplan =>
      ?_, transactWith_of_agrees fun plan hplan => ?_⟩
    all_goals obtain rfl := (Plan.facts_of_ofRequestAndLookup (plan_eq_ok htable hplan)).1
    · exact Fetch.agrees_page rfl rfl (hfields rfl) (hsame.readsAlike rfl (hvisible hplan))
        (hsame.counted_eq (hvisible hplan))
    · exact Fetch.agrees_first? rfl rfl (hfields rfl)
        (hsame.readsAlike rfl fun row hrow => hvisible hplan row hrow)
  · refine transactWith_of_agrees fun asked hasked => ?_
    obtain ⟨table', htable', hrest⟩ := bind_eq_ok_iff.1 hasked
    obtain ⟨p, hp, hpair⟩ := bind_eq_ok_iff.1 hrest
    obtain rfl := Except.ok.inj (htable.symm.trans htable')
    obtain rfl := Except.ok.inj hpair
    have hvisible := Predicate.isVisible_of_ofFilter hp (hhides [] fun _ _ => rfl)
    exact .bind (Transaction.agrees_reading rfl rfl (hsame.counted_eq hvisible))
      fun n _ _ => .pure _
  · refine transactWith_of_agrees fun plan hplan => ?_
    obtain ⟨p, lists, keys, hp, -, -, rfl⟩ := (listPlan_eq_ok_iff htable).1 hplan
    have hvisible := Predicate.isVisible_of_ofFilter hp
      (hhides (Change.keyFilter table .isIn (.array ids)) fun deleted hdeleted => by
        have hne : table.primaryKey ≠ deleted := fun heq => hkey (heq ▸ hdeleted)
        simp [Change.keyFilter, Filter.references, hne])
    exact Fetch.agrees_records rfl rfl (hfields rfl) (hsame.readsAlike rfl hvisible)

/-! ### A sample -/

/-- Clubs list their members and are only flagged as deleted. -/
def clubDomain : Domain := .ofList [
  ("person", {}),
  ("club", {
    fields := .ofList [("members", { typeName := "list", target := some "person" })]
    softDelete := true })]

def clubCatalog : Catalog := .compiled {} clubDomain

theorem ofDomain_club : Catalog.ofDomain {} clubDomain = .ok clubCatalog :=
  Catalog.ofDomain_compiled rfl

/-- A club with one member. -/
def clubSteps : List Step := [
  (⟨0, 0⟩, .createTables),
  (⟨1, 0⟩, .insert "person" [{}, {}]),
  (⟨2, 0⟩, .insert "club" [.ofList [("members", .array [.int 1])]])]

/-- Another club, which does not last. -/
def lostClubSteps : List Step := [
  (⟨3, 0⟩, .insert "club" [.ofList [("members", .array [.int 2, .int 1])]]),
  (⟨4, 0⟩, .remove "club" [⟨"id", .eq, .int 2⟩])]

/-- The club that was deleted is stored with its links, and nothing shows it. -/
theorem lost_club_unread :
    ((clubCatalog.run (clubSteps ++ lostClubSteps)).store.rows "club").length = 2
      ∧ ((clubCatalog.run (clubSteps ++ lostClubSteps)).store.rows "club_person").length = 3
      ∧ (clubCatalog.find "club" {} [] (clubCatalog.run (clubSteps ++ lostClubSteps))).1
        = (clubCatalog.find "club" {} [] (clubCatalog.run clubSteps)).1
      ∧ (clubCatalog.findByKeys "club" [.int 1, .int 2]
        none (clubCatalog.run (clubSteps ++ lostClubSteps))).1
        = (clubCatalog.findByKeys "club" [.int 1, .int 2] none (clubCatalog.run clubSteps)).1 := by
  refine ⟨by decide +kernel, by decide +kernel, ?_⟩
  have hfacts : ((clubCatalog.schema.table "club").toOption.map fun table =>
      decide ((clubCatalog.run clubSteps).store.tables.contains table.name = true
        ∧ (clubCatalog.run (clubSteps ++ lostClubSteps)).store.tables.contains table.name = true
        ∧ ((clubCatalog.run (clubSteps ++ lostClubSteps)).store.rows
          table.name).filter table.isVisible
          = ((clubCatalog.run clubSteps).store.rows table.name).filter table.isVisible
        ∧ (∀ m ∈ table.lists, ∀ link ∈ (clubCatalog.schema.linkTable m.linkTable).toOption,
          ((clubCatalog.run (clubSteps ++ lostClubSteps)).store.rows link.name).filter
              ((clubCatalog.run clubSteps).store.ownsLink table link m)
            = ((clubCatalog.run clubSteps).store.rows link.name).filter
              ((clubCatalog.run clubSteps).store.ownsLink table link m))
        ∧ (∀ deleted ∈ table.deletedColumn,
          (Filter.ofRecord table.defaultFilter).references deleted = false)
        ∧ table.deletedColumn ≠ some table.primaryKey)) = some true := by
    decide +kernel
  obtain ⟨table, htable, hfacts⟩ := Option.map_eq_some_iff.1 hfacts
  obtain ⟨hcreated, hcreated', hrows, hlinks, hdefaults, hkey⟩ := of_decide_eq_true hfacts
  have htable := eq_ok_of_toOption htable
  have hco := coherent_of_ofDomain ofDomain_club
  obtain ⟨base, hbase, hshares⟩ := hco.shared table (Schema.mem_of_table htable).1
  have hregular := regular_run hco clubSteps
  have hregular' := regular_run hco (clubSteps ++ lostClubSteps)
  generalize clubCatalog.run clubSteps = db at *
  generalize clubCatalog.run (clubSteps ++ lostClubSteps) = db' at *
  have hsame :=
    Store.ShowsAlike.of_rows hco hbase hshares hregular hregular' hcreated hcreated' hrows
    fun m hm link hlink => hlinks m hm link (by rw [hlink]; rfl)
  obtain ⟨hfind, -, hkeys⟩ := hidden_rows_unread ofDomain_club htable hsame hdefaults
  exact ⟨(hfind {} [] rfl fun _ _ => rfl).1, hkeys hkey [.int 1, .int 2] none⟩

/-- A note with a key, where the key is the flag. -/
def keyedNoteSteps : List Step := [
  (⟨0, 0⟩, .createTables),
  (⟨1, 0⟩, .insert "note" [.ofList [("id", .int 2)]])]

/-- Where the flag has the name of the key, a list of keys finds a row that is not visible. And a
table that is not created shows as few rows as an empty one, but cannot be read. -/
theorem hidden_row_found_by_flagged_key :
    (∃ table ∈ (sharedNameCatalog.schema.table "note").toOption, table.lists = []
      ∧ (Filter.ofRecord table.defaultFilter).references "id" = false
      ∧ ((sharedNameCatalog.run [(⟨0, 0⟩, .createTables)]).store.rows table.name).filter
        table.isVisible = []
      ∧ ((sharedNameCatalog.run keyedNoteSteps).store.rows table.name).filter table.isVisible = []
      ∧ (sharedNameCatalog.findByKeys "note" [.int 2] none
        (sharedNameCatalog.run [(⟨0, 0⟩, .createTables)])).1.toOption.map List.length = some 0
      ∧ (sharedNameCatalog.findByKeys "note" [.int 2] none
        (sharedNameCatalog.run keyedNoteSteps)).1.toOption.map List.length = some 1)
    ∧ (sampleCatalog.run []).store.rows "person" = []
      ∧ (sampleCatalog.run [(⟨0, 0⟩, .createTables)]).store.rows "person" = []
      ∧ (sampleCatalog.isEmpty "person" (sampleCatalog.run [])).1.toOption = none
      ∧ (sampleCatalog.isEmpty "person" (sampleCatalog.run [(⟨0, 0⟩, .createTables)])).1.toOption
        = some true := by
  decide +kernel

end Catalog

end RecordStore
