import RecordStore.Proofs.Reading

/-!
# The members that a change writes

Replacing a record sets all its lists, and changing it those that the document gives. Afterwards a
reader finds the members that were given. The link table need not hold just them: the links of an
owner are those whose key equals the owner's, but whether they have to be written anew is decided by
those that have the text of its key. What was written under another spelling of the key stays as
long as the others are the members already.

* **`StoredTable.HasStrays`** — an owner has links under another spelling of its key.
* **`StoredTable.linksOf_eq_iff`** — when the links of an owner are just those to the members.
* **`Catalog.lists_written_iff`** — what replacing and changing a record make of its lists.
-/

namespace RecordStore

open RecordStore.Action

theorem Value.length_eq_of_sameItems {xs ys : List Value} (h : Value.sameItems xs ys = true) :
    xs.length = ys.length := by
  rw [Value.sameItems_iff] at h
  simpa using congrArg List.length h

/-! ## The links of an owner under another spelling -/

namespace StoredTable

/-- Links whose owner equals another one, but has not the text of its key. -/
def HasStrays (t : StoredTable) (m : ListField) (owner : Value) : Prop :=
  ∃ row ∈ t.rows, (Predicate.eq m.ownerColumn owner).holds t.columns row = true
    ∧ (row.cell m.ownerColumn).text ≠ owner.text

instance (t : StoredTable) (m : ListField) (owner : Value) : Decidable (t.HasStrays m owner) :=
  inferInstanceAs (Decidable (∃ row ∈ t.rows, _ ∧ _))

variable {schema : Schema} {base link : Table} {m : ListField} {owner : Value}
  {members : List Value}
  {t t' : StoredTable} {k : Column}

theorem mem_linksOf {row : Record} : row ∈ t.linksOf link m owner
    ↔ row ∈ t.rows ∧ (Predicate.eq m.ownerColumn owner).holds t.columns row = true := by
  rw [linksOf, (perm_sortRows _ _ _).mem_iff]
  exact List.mem_filter

/-- Without strays a reader finds all links of an owner. -/
theorem listed_of_not_hasStrays (howner : owner.isNull = false) (h : ¬ t.HasStrays m owner) :
    t.listed link m owner = (t.linksOf link m owner).map (·.cell m.memberColumn) := by
  have hall : ∀ row ∈ t.linksOf link m owner,
      ((row.cell m.ownerColumn).text == owner.text) = true := by
    intro row hrow
    obtain ⟨hmem, hholds⟩ := mem_linksOf.1 hrow
    by_contra htext
    exact h ⟨row, hmem, hholds, by simpa using htext⟩
  rw [listed_eq t link m howner, List.filter_eq_self.2 hall]

/-- A reader does not find strays. -/
theorem length_listed_lt (howner : owner.isNull = false) (h : t.HasStrays m owner) :
    (t.listed link m owner).length < (t.linksOf link m owner).length := by
  obtain ⟨row, hrow, hholds, htext⟩ := h
  rw [listed_eq t link m howner, List.length_map]
  refine List.length_filter_lt_length_iff_exists.2 ⟨row, mem_linksOf.2 ⟨hrow, hholds⟩, ?_⟩
  simpa using htext

/-- **The links of an owner are just those to the members that were set**, unless a reader found
these before and did not see others. -/
theorem linksOf_eq_iff (hlink : t.LinkOf schema base m link k) (hco : schema.Coherent)
    (haccepts : k.type.accepts owner = true) (howner : owner.isNull = false)
    {time : Time.Instant} (h : t.SetsLinks link m (.string time.text) owner members t')
    (hbelow : t'.KeysBelow (.identity link.primaryKey)) :
    Value.sameItems ((t'.linksOf link m owner).map (·.cell m.memberColumn)) members = true
      ↔ ¬ (Value.sameItems (t.listed link m owner) members = true ∧ t.HasStrays m owner) := by
  rcases linksOf_of_setsLinks hlink hco haccepts howner h hbelow with
    ⟨hsame, rfl⟩ | ⟨hsame, -, hmembers⟩
  -- the links stayed: they are the members if a reader sees them all
  · constructor
    · rintro hexact ⟨-, hstrays⟩
      have hlength := Value.length_eq_of_sameItems hsame
      have hlength' := Value.length_eq_of_sameItems hexact
      have hlt : (t'.listed link m owner).length < (t'.linksOf link m owner).length :=
        length_listed_lt howner hstrays
      rw [List.length_map] at hlength'
      omega
    · intro hnot
      have hnone : ¬ t'.HasStrays m owner := fun hstrays => hnot ⟨hsame, hstrays⟩
      rw [← listed_of_not_hasStrays howner hnone]
      exact hsame
  -- they were written anew
  · rw [hmembers, hsame, sameItems_self]
    simp

end StoredTable

/-! ## The lists of a record -/

namespace Catalog

variable {settings : Settings} {domain : Domain} {catalog : Catalog} {resource : String}
  {table base : Table} {k : Column} {db db' : Database} {m : ListField} {key : Value}
  {members : List Value}

/-- The record with a key is read with a list of members, if its dates can be written in the format
of the settings. -/
def ReadsList (catalog : Catalog) (resource : String) (id : Value) (db : Database) (field : String)
    (members : List Value) : Prop :=
  ∃ answer : Except Error Record, (catalog.findStored resource id db).1 = answer.map some
    ∧ (catalog.settings.dateFormat = none → ∃ r, answer = .ok r)
    ∧ ∀ r, answer = .ok r → ∃ items, r.get? field = some (.array items)
      ∧ Value.sameItems items members = true

/-- The list of an owner was set to members: its links are just those to the members, unless a
reader found these before and did not see others; and whoever looks for the owner reads the
members. -/
structure SetsList (catalog : Catalog) (resource : String) (table : Table) (db db' : Database)
    (m : ListField) (key : Value) (members : List Value) : Prop where
  links : ∃ link t t', catalog.schema.linkTable m.linkTable = .ok link
    ∧ db.store.tables.get? link.name = some t ∧ db'.store.tables.get? link.name = some t'
    ∧ (Value.sameItems ((t'.linksOf link m key).map (·.cell m.memberColumn)) members = true
      ↔ ¬ (Value.sameItems (t.listed link m key) members = true ∧ t.HasStrays m key))
  read : ∀ id, Change.keyFor table id = .ok key → catalog.ReadsList resource id db' m.field members

/-- The record of a row is read with what a reader finds in the link table. -/
theorem readsList_of_row (hco : catalog.schema.Coherent)
    (hregular : db.store.Regular catalog.schema)
    (htable : catalog.schema.table resource = .ok table) (hbase : base ∈ catalog.schema.bases)
    (hshares : table.SharesRows base) (hk : base.keyColumn? = some k) {t : StoredTable}
    (ht : db.store.tables.get? base.name = some t) {row : Record}
    (hmatching : t.matching (.eq base.primaryKey key) = [row])
    (hrow : row.cell base.primaryKey = key) {id : Value} (hid : Change.keyFor table id = .ok key)
    (hm : m ∈ base.lists) {link : Table} (hlink : catalog.schema.linkTable m.linkTable = .ok link)
    {u : StoredTable} (hu : db.store.tables.get? link.name = some u)
    (hlisted : Value.sameItems (u.listed link m key) members = true) :
    catalog.ReadsList resource id db m.field members := by
  have hkeycolumn := hshares.keyColumn?.trans hk
  obtain ⟨haccepts, -⟩ := Change.accepts_of_keyFor hkeycolumn hid
  have hinterpret : k.type.interpret id = key := by
    unfold Change.keyFor at hid
    rw [hkeycolumn] at hid
    dsimp only at hid
    split at hid
    · cases hid
    · exact Except.ok.inj hid
  rw [← hrow] at hmatching hinterpret haccepts hlisted
  obtain ⟨r, hreads, hfound⟩ :=
    findStored_of_row hco hregular htable hbase hshares hk ht hmatching hinterpret haccepts
  refine ⟨Fetch.presented catalog.settings table r, by rw [hfound], fun hformat => ?_,
    fun full hfull => ?_⟩
  · exact ⟨r, by rw [Fetch.presented, hformat]⟩
  · refine ⟨_, ?_, hlisted⟩
    rw [← hreads.lists m hm link hlink u hu]
    unfold Fetch.presented at hfull
    split at hfull
    · rw [Except.ok.inj hfull]
    · refine Fetch.get?_of_formatDates hfull ?_
      rw [Table.columnNames, hshares.columns]
      exact hco.field_not_column hbase hm

/-- Lists that were set one after the other, beside a row that is found by its key. -/
theorem setsList_of_listsTurn (hco : catalog.schema.Coherent)
    (hregular : db.store.Regular catalog.schema) (hregular' : db'.store.Regular catalog.schema)
    (hbelow : db'.store.LinkKeysBelow catalog.schema)
    (htable : catalog.schema.table resource = .ok table) (hbase : base ∈ catalog.schema.bases)
    (hshares : table.SharesRows base) (hk : base.keyColumn? = some k)
    (haccepts : k.type.accepts key = true) (hkeynull : key.isNull = false) {t t' : StoredTable}
    (ht : db.store.tables.get? base.name = some t) {row : Record}
    (hmatching : t'.matching (.eq base.primaryKey key) = [row])
    (hrow : row.cell base.primaryKey = key)
    {α : Type} {items : List α} {list : α → ListField} {given : α → List Value}
    (hlist : ∀ x ∈ items, list x ∈ table.lists) {now : Time.Instant}
    (hlists : (db.store.put base.name t').ListsTurn catalog.schema items list
      (fun x link => StoredTable.SetsLinks link (list x)
        (.string now.text) key (given x)) db'.store)
    {x : α} (hx : x ∈ items) :
    catalog.SetsList resource table db db' (list x) key (given x) := by
  have hm : list x ∈ base.lists := hshares.lists ▸ hlist x hx
  obtain ⟨link, u, u', hu, hu', hlinkof, hsets⟩ := hlists.turned hco hbase hregular ht hk hx hm
  have hlinkbelow := hbelow.stored (Schema.mem_of_linkTable hlinkof.link_eq).1 hu'
  have hexact := StoredTable.linksOf_eq_iff hlinkof hco haccepts hkeynull hsets hlinkbelow
  have hlisted := hsets.listed hlinkof hco haccepts hkeynull hlinkbelow
  -- the lists are set in other tables than that of the row
  have ht' := hlists.get?_written hco hbase hshares hlist
  exact ⟨⟨link, u, u', hlinkof.link_eq, hu, hu', hexact⟩, fun id hid =>
    readsList_of_row hco hregular' htable hbase hshares
      hk ht' hmatching hrow hid hm hlinkof.link_eq hu'
      hlisted⟩

/-- A row that was upserted is found by its key. -/
theorem matching_key_of_upserts (hshares : table.SharesRows base) (hk : base.keyColumn? = some k)
    (hprimary : k.primaryKey = true) (haccepts : k.type.accepts key = true)
    (hkeynull : key.isNull = false) {s : Store} {t t' : StoredTable}
    (ht : s.tables.get? base.name = some t) (hcolumns : t.columns = base.columns) {now : Value}
    {record : Record} (hgiven : record.get? base.primaryKey = some key)
    (h : t.Upserts table now record s t') :
    ∃ row, t'.matching (.eq base.primaryKey key) = [row] ∧ row.cell base.primaryKey = key := by
  obtain ⟨before, row, after, hrows, hcolumns', hcells, hadmissible, -⟩ :=
    h.exists_row (hshares.name ▸ ht)
  rw [hshares.uniqueGroups, hcolumns] at hadmissible
  have hkey : row.get? base.primaryKey = some key := hcells _ _ hgiven
  obtain ⟨hholds, hothers⟩ :=
    Change.holds_key_iff hk hprimary haccepts hkeynull hkey hadmissible
  rw [← hcolumns, ← hcolumns'] at hholds hothers
  exact ⟨row, StoredTable.matching_eq_singleton hrows hholds hothers, Record.cell_eq_of_get? hkey⟩

variable {now : Time.Instant} {id : Value} {doc : Record}

/-- A replacement sets all lists of its record. -/
theorem setsList_of_replace (hco : catalog.schema.Coherent)
    (hregular : db.store.Regular catalog.schema) (hregular' : db'.store.Regular catalog.schema)
    (hbelow : db'.store.LinkKeysBelow catalog.schema)
    (htable : catalog.schema.table resource = .ok table)
    (h : catalog.replace resource now id doc db = (.ok (), db')) :
    ∃ key, Change.keyFor table id = .ok key ∧ ∀ m ∈ table.lists,
      catalog.SetsList resource table db db' m key (Change.membersFor table doc m) := by
  obtain ⟨base, hbase, hshares⟩ := hco.shared table (Schema.mem_of_table htable).1
  rw [replace_of_table htable] at h
  obtain ⟨tx', hrun, hdb⟩ := Database.transact_ok (congrArg Prod.fst h)
  obtain rfl : db' = ⟨tx'.work, tx'.faults⟩ := (congrArg Prod.snd h).symm.trans hdb
  obtain ⟨key, t, t', -, hkeyfor, ht, hupserts, hlists⟩ :=
    Change.effect_of_replace hco hbase hshares hrun
  change db.store.tables.get? base.name = some t at ht
  obtain ⟨k, hk, hprimary, -⟩ := hco.keyed base (Schema.mem_physical_of_base hbase)
  obtain ⟨haccepts, hkeynull⟩ := Change.accepts_of_keyFor (hshares.keyColumn?.trans hk) hkeyfor
  have hcolumns := (hregular.columns_eq base (Schema.mem_physical_of_base hbase) t ht).1
  obtain ⟨row, hmatching, hrow⟩ := matching_key_of_upserts hshares hk hprimary haccepts hkeynull ht
    hcolumns (get?_key_replacedRow hshares hk key _) hupserts
  exact ⟨key, hkeyfor, fun m hm => setsList_of_listsTurn hco hregular hregular' hbelow htable hbase
    hshares hk haccepts hkeynull ht hmatching hrow (fun m hm => hm) hlists hm⟩

/-- A change of a record sets the lists that the document gives. -/
theorem setsList_of_update (hco : catalog.schema.Coherent) (hwf : catalog.schema.WellFormed)
    {times : Time.Instant → Prop} (hsound : db.store.Sound catalog.schema times)
    (hsound' : db'.store.Sound catalog.schema times)
    (hregular : db.store.Regular catalog.schema) (hregular' : db'.store.Regular catalog.schema)
    (hbelow : db'.store.LinkKeysBelow catalog.schema)
    (htable : catalog.schema.table resource = .ok table)
    (h : catalog.update resource now id doc db = (.ok (), db')) :
    ∃ key, Yields (Change.visibleKey table id) (.begin db) (some key) (.begin db)
      ∧ ∀ entry ∈ Change.listsOf table doc,
        catalog.SetsList resource table db db' entry.1 key entry.2 := by
  obtain ⟨base, hbase, hshares⟩ := hco.shared table (Schema.mem_of_table htable).1
  have hphysical := Schema.mem_physical_of_base hbase
  have hbasewf := hwf.tables base hphysical
  rw [update_of_table htable] at h
  obtain ⟨tx', hrun, hdb⟩ := Database.transact_ok (congrArg Prod.fst h)
  obtain rfl : db' = ⟨tx'.work, tx'.faults⟩ := (congrArg Prod.snd h).symm.trans hdb
  obtain ⟨key, t, t', hvisible, ht, hrewrites, hlists⟩ :=
    Change.effect_of_update hco hbase hshares hrun
  change db.store.tables.get? base.name = some t at ht
  refine ⟨key, hvisible, fun entry hentry => ?_⟩
  have hlist : ∀ entry ∈ Change.listsOf table doc, entry.1 ∈ table.lists :=
    fun _ hentry => Change.list_of_mem_listsOf hentry
  obtain ⟨k, hk, -⟩ := hbasewf.key
  obtain ⟨u, old, hu, hold, rfl⟩ := Change.row_of_visibleKey hvisible
  rw [hshares.name] at hu
  rw [hshares.primaryKey] at hvisible hlists ⊢
  obtain rfl : u = t := Option.some.inj (hu.symm.trans ht)
  obtain ⟨haccepts, hkeynull⟩ := (hsound base hphysical u ht).key_accepted hbasewf hk hold
  -- the row is rewritten, but not its key
  obtain ⟨row, hrow, hrewritten⟩ := exists_of_mem_left hrewrites.rows hold
  have hkey : row.cell base.primaryKey = old.cell base.primaryKey := by
    rcases hrewritten.2 base.primaryKey with hsame | ⟨v, hgiven, -⟩
    · rw [Record.cell, hsame]
      rfl
    · rw [Change.get?_key_updatedRow hbasewf hshares] at hgiven
      cases hgiven
  have ht' := hlists.get?_written hco hbase hshares hlist
  have hmatching := (hsound' base hphysical t' ht').matching_key hbasewf hrow
  rw [hkey] at hmatching
  exact setsList_of_listsTurn hco hregular hregular'
    hbelow htable hbase hshares hk haccepts hkeynull ht
    hmatching hkey hlist hlists hentry

/-- **What replacing and changing a record make of its lists.** After a replacement of any record
all its lists are the ones given, those that are not given being empty; after a change of a record
the lists of the document are. A reader finds them so, and the link tables hold just them, unless
links under another spelling of the key were overlooked. -/
theorem lists_written_iff (hcompiles : Catalog.ofDomain settings domain = .ok catalog)
    (steps : List Step) (htable : catalog.schema.table resource = .ok table) (now : Time.Instant)
    (id : Value) (doc : Record) :
    (∀ db', catalog.replace resource now id doc (catalog.run steps) = (.ok (), db') →
      db'.store.LinkKeysBelow catalog.schema →
      ∃ key, Change.keyFor table id = .ok key ∧ ∀ m ∈ table.lists,
        catalog.SetsList resource table (catalog.run steps) db' m key
          (Change.membersFor table doc m))
    ∧ (settings.NamesApart →
      ∀ db', catalog.update resource now id doc (catalog.run steps) = (.ok (), db') →
      db'.store.LinkKeysBelow catalog.schema →
      ∃ key, Yields (Change.visibleKey table id) (.begin (catalog.run steps)) (some key)
          (.begin (catalog.run steps))
        ∧ ∀ entry ∈ Change.listsOf table doc,
          catalog.SetsList resource table (catalog.run steps) db' entry.1 key entry.2) := by
  have hco := coherent_of_ofDomain hcompiles
  have hregular := regular_run hco steps
  constructor
  · intro db' h hbelow
    have hregular' := regular_run hco (steps ++ [(now, .replace resource id doc)])
    rw [run_append, perform, h] at hregular'
    exact setsList_of_replace hco hregular hregular' hbelow htable h
  · intro hnames db' h hbelow
    have hwf := wellFormed_of_ofDomain hcompiles hnames
    have hregular' := regular_run hco (steps ++ [(now, .update resource id doc)])
    have hsound' := sound_run_anytime hwf (steps ++ [(now, .update resource id doc)])
    rw [run_append, perform, h] at hregular' hsound'
    exact setsList_of_update hco hwf (sound_run_anytime hwf steps) hsound' hregular hregular' hbelow
      htable h

/-- The sample with a second person: its team is given both as members, by a replacement and by a
change. -/
theorem members_of_team_written :
    ∃ table, sampleCatalog.schema.table "team" = .ok table ∧ table.lists.length = 1
      ∧ (∃ key, Change.keyFor table (.int 1) = .ok key ∧ ∀ m ∈ table.lists,
        sampleCatalog.SetsList "team" table (sampleCatalog.run pairedSteps)
          (sampleCatalog.replace "team" ⟨4, 0⟩ (.int 1)
            pairedTeam (sampleCatalog.run pairedSteps)).2 m
          key (Change.membersFor table pairedTeam m))
      ∧ ∃ key, ∀ entry ∈ Change.listsOf table pairedTeam,
        sampleCatalog.SetsList "team" table (sampleCatalog.run pairedSteps)
          (sampleCatalog.update "team" ⟨4, 0⟩ (.int 1) pairedTeam (sampleCatalog.run pairedSteps)).2
          entry.1 key entry.2 := by
  have hlength : (sampleCatalog.schema.table "team").toOption.map (·.lists.length) = some 1 := by
    decide +kernel
  obtain ⟨table, htable, hlists⟩ := Option.map_eq_some_iff.1 hlength
  have htable := eq_ok_of_toOption htable
  obtain ⟨hreplace, hupdate⟩ :=
    lists_written_iff ofDomain_sample pairedSteps htable ⟨4, 0⟩ (.int 1) pairedTeam
  refine ⟨table, htable, hlists, hreplace _ (eq_ok_of_fst_toOption (by decide +kernel))
    (by decide +kernel), ?_⟩
  obtain ⟨key, -, hupdated⟩ := hupdate (by decide) _ (eq_ok_of_fst_toOption (by decide +kernel))
    (by decide +kernel)
  exact ⟨key, hupdated⟩

/-- Events are known by the time at which they are, and list their guests. -/
def eventDomain : Domain := .ofList [
  ("person", {}),
  ("event", { fields := .ofList [
    ("at", { typeName := "datetime", primaryKey := true }),
    ("guests", { typeName := "list", target := some "person" })] })]

def eventCatalog : Catalog := .compiled {} eventDomain

/-- A person, and an event with the person as its guest. -/
def eventSteps : List Step := [
  (⟨0, 0⟩, .createTables),
  (⟨1, 0⟩, .insert "person" [{}]),
  (⟨2, 0⟩, .insert "event" [.ofList [("at", .string "2024-01-01T00:00:00Z"),
    ("guests", .array [.int 1])]])]

/-- The event under another spelling of its time, and without guests. -/
def respelledEvent : Record := .ofList [("at", .string "2024-01-01T00:00:00+00:00")]

/-- The replaced event has no guests, but the guest of before is still linked to it. -/
theorem guest_stays_linked :
    (eventCatalog.replace "event" ⟨3, 0⟩ (.string "2024-01-01T00:00:00+00:00") respelledEvent
        (eventCatalog.run eventSteps)).1.toOption = some ()
      ∧ ∃ table ∈ eventCatalog.schema.bases, ∃ m ∈ table.lists,
        Change.membersFor table respelledEvent m = []
          ∧ ∃ link ∈ eventCatalog.schema.links, link.name = m.linkTable
            ∧ ∃ t ∈ (eventCatalog.replace "event" ⟨3, 0⟩ (.string "2024-01-01T00:00:00+00:00")
                respelledEvent (eventCatalog.run eventSteps)).2.store.tables.get? link.name,
              (t.linksOf link m (.string "2024-01-01T00:00:00+00:00")).map (·.cell m.memberColumn)
                = [.int 1] := by
  decide +kernel

end Catalog

end RecordStore
