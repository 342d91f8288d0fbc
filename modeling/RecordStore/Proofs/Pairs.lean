import RecordStore.Proofs.Progress

/-!
# Pairs of keys

A link holds the keys of an owner and of a member, and no two links hold the same two. That rule
compares keys as they are written (`Value.same`), while the columns of the keys compare what is
written (`ColumnType.equal`). The two agree on texts, whole numbers, truth values and JSON. A date
can be written with another offset and a double as a whole number, so two links can hold one pair of
such keys in two spellings.

* **`ColumnType.same_of_equal`** — where values have one spelling only, equal ones are the same.
* **`StoredTable.Paired`** — the pairs of a link table are keys, and all different.
* **`Catalog.pairs_respelled`** — after any run, links with equal pairs differ in the spelling of a
  date or of a double.
-/

namespace RecordStore

open RecordStore.Action

/-! ## Spellings -/

namespace ColumnType

/-- Whether values of the type can be written in more than one way. -/
def hasSpellings : ColumnType → Bool
  | .float | .datetime => true
  | _ => false

/-- Values that compare are two truth values, two texts or two numbers. -/
theorem kinds_of_compare? {type : ColumnType} {a b : Value} {o : Ordering}
    (h : type.compare? a b = some o) :
    (∃ p q, a = .bool p ∧ b = .bool q) ∨ (∃ s t, a = .string s ∧ b = .string t)
      ∨ a.double?.isSome = true ∧ b.double?.isSome = true := by
  cases a <;> cases b <;>
    simp_all [compare?, compareNumbers?, Value.integer?, Value.double?]

/-- Whole numbers are the only numbers that have one spelling, JSON apart. -/
theorem eq_integer_of_plain {c : Column} (hone : c.type.hasSpellings = false)
    (hjson : c.type ≠ .json) {v : Value} (hv : c.Plain v) (hnumber : v.double?.isSome = true) :
    c.type = .integer ∧ ∃ n, v = .int n ∧ isSigned64 n = true := by
  have haccepts := hv hnumber
  have hnull : v.isNull = false := by
    cases v <;> first | rfl | cases hnumber
  cases htype : c.type with
  | integer => exact ⟨rfl, accepts_integer (htype ▸ haccepts) hnull⟩
  | text =>
    obtain ⟨s, rfl⟩ := accepts_text (htype ▸ haccepts) hnull
    cases hnumber
  | boolean =>
    obtain ⟨b, rfl⟩ := accepts_boolean (htype ▸ haccepts) hnull
    cases hnumber
  | json => exact absurd htype hjson
  | float | datetime =>
    rw [htype] at hone
    cases hone

/-- Equal values are the same where they have one spelling only, if numbers are those of the
column. -/
theorem same_of_equal {c : Column} (hone : c.type.hasSpellings = false) {a b : Value}
    (ha : c.Plain a) (hb : c.Plain b) (h : c.type.equal a b = true) : a.same b = true := by
  by_cases hjson : c.type = .json
  · rwa [hjson, equal, if_pos rfl] at h
  have hdate : c.type ≠ .datetime := fun htype => by
    rw [htype] at hone
    cases hone
  have hcompare : c.type.compare? a b = some .eq := by
    rw [equal, if_neg hjson] at h
    exact beq_iff_eq.1 h
  rcases kinds_of_compare? hcompare with ⟨p, q, rfl, rfl⟩ | ⟨s, t, rfl, rfl⟩ | ⟨hanumber, hbnumber⟩
  · have heq : p = q := by simpa [compare?] using hcompare
    exact heq ▸ Value.same_self _
  · rw [compare?, if_neg hdate, Option.some.injEq, Std.LawfulEqCmp.compare_eq_iff_eq] at hcompare
    exact hcompare ▸ Value.same_self _
  · obtain ⟨htype, m, rfl, hm⟩ := eq_integer_of_plain hone hjson ha hanumber
    obtain ⟨-, n, rfl, hn⟩ := eq_integer_of_plain hone hjson hb hbnumber
    rw [htype] at h
    exact (equal_integer_iff hm hn).1 h ▸ Value.same_self _

end ColumnType

/-! ## One link table -/

/-- A record gives plain values for the columns that name rows. -/
def Table.NamesRows (link : Table) (record : Record) : Prop :=
  ∀ c ∈ link.columns, c.references.isSome = true →
    c.nullable = false ∧ ∃ v, record.get? c.name = some v ∧ c.Plain v

/-- The row of a link names the owner and the member. -/
theorem Schema.Serves.namesRows {schema : Schema} {owner link target : Table} {m : ListField}
    {ownerKey targetKey : Column} (h : schema.Serves owner m link target ownerKey targetKey)
    (hapart : m.ownerColumn ≠ m.memberColumn) {key member : Value} (hkey : ownerKey.Plain key)
    (hmember : targetKey.type.accepts member = true) :
    link.NamesRows (Change.linkRow m key member) := by
  intro c hc hpoints
  rw [h.columns_eq] at hc
  simp only [List.mem_cons, List.not_mem_nil, or_false] at hc
  rcases hc with rfl | rfl | rfl | rfl | rfl
  · cases hpoints
  · refine ⟨rfl, key, ?_, hkey⟩
    rw [Change.get?_linkRow]
    exact (if_neg hapart).trans (if_pos rfl)
  · refine ⟨rfl, member, ?_, Column.plain_of_accepts hmember⟩
    rw [Change.get?_linkRow]
    exact if_pos rfl
  · cases hpoints
  · cases hpoints

namespace StoredTable

/-- The rows of a link table name rows by keys, and no two of them by the same ones. -/
structure Paired (link : Table) (t : StoredTable) : Prop where
  named : ∀ row ∈ t.rows, ∀ c ∈ link.columns, c.references.isSome = true →
    ∃ v, row.get? c.name = some v ∧ v.isNull = false ∧ c.Plain v
  apart : t.rows.Pairwise fun earlier later =>
    ∀ group ∈ link.uniqueGroups, Store.sharesGroup group later earlier = false

variable {link : Table} {now : Value} {t t' : StoredTable} {records : List Record}

theorem Paired.of_sublist (h : t.Paired link) (hrows : t'.rows.Sublist t.rows) : t'.Paired link :=
  ⟨fun row hrow => h.named row (hrows.subset hrow), h.apart.sublist hrows⟩

/-- **Links that are added one after the other keep pairs apart**: each is compared with all before
it. -/
theorem Adds.paired (h : t.Adds link.uniqueGroups now records t')
    (hcolumns : t.columns = link.columns) (hrecords : ∀ record ∈ records, link.NamesRows record)
    (hpaired : t.Paired link) :
    t'.Paired link := by
  induction h with
  | nil => exact hpaired
  | @cons t t' record row records next s hfill hadmissible _ ih =>
    refine ih hcolumns (fun r hr => hrecords r (List.mem_cons_of_mem _ hr)) ⟨fun r hr => ?_, ?_⟩
    · rcases List.mem_append.1 hr with hr | hr
      · exact hpaired.named r hr
      · rw [List.mem_singleton.1 hr]
        intro c hc hpoints
        obtain ⟨hnullable, v, hgiven, hplain⟩ := hrecords record List.mem_cons_self c hc hpoints
        have hcell : row.get? c.name = some v := by
          have hgets := fill_given t now record hgiven (by
            rw [hcolumns]
            exact List.mem_map_of_mem hc)
          rwa [hfill] at hgets
        refine ⟨v, hcell, ?_, hplain⟩
        rw [Bool.eq_false_iff]
        intro hnull
        rw [← Record.cell_eq_of_get? hcell] at hnull
        have hfilled := (hadmissible.filled c (hcolumns ▸ hc) hnull).1
        rw [hnullable] at hfilled
        cases hfilled
    · refine List.pairwise_append.2 ⟨hpaired.apart, List.pairwise_singleton _ _, ?_⟩
      intro earlier hearlier later hlater group hgroup
      rw [List.mem_singleton.1 hlater]
      exact hadmissible.ungrouped group hgroup earlier hearlier

/-- So do links that are written anew. -/
theorem SetsLinks.paired {m : ListField} {owner : Value} {members : List Value}
    (h : t.SetsLinks link m now owner members t') (hcolumns : t.columns = link.columns)
    (hrecords : ∀ member ∈ members, link.NamesRows (Change.linkRow m owner member))
    (hpaired : t.Paired link) : t'.Paired link := by
  rcases h with ⟨-, rfl⟩ | ⟨-, hadds⟩
  · exact hpaired
  · refine hadds.paired hcolumns (fun record hrecord => ?_) (hpaired.of_sublist List.filter_sublist)
    obtain ⟨member, hmember, rfl⟩ := List.mem_map.1 hrecord
    exact hrecords member hmember

end StoredTable

/-! ## All link tables -/

/-- The pairs of every link table are keys, and all different. -/
def Store.Paired (schema : Schema) (s : Store) : Prop :=
  ∀ link ∈ schema.links, ∀ t, s.tables.get? link.name = some t → t.Paired link

section Changes

variable {schema : Schema} {table base : Table} {now : Time.Instant} {tx tx' : Transaction}
  {s s' : Store} {doc : Record}

/-- Lists that are written keep pairs apart, if each does in its own link table. -/
theorem Store.Paired.lists (h : s.Paired schema) (hco : schema.Coherent)
    (hregular : s.Regular schema) (hbase : base ∈ schema.bases) {t' : StoredTable} {α : Type}
    {items : List α} {list : α → ListField} {R : α → Table → StoredTable → StoredTable → Prop}
    (hlists : (s.put base.name t').ListsTurn schema items list R s')
    (hmem : ∀ x ∈ items, list x ∈ base.lists)
    (hstep : ∀ x ∈ items, ∀ link target ownerKey targetKey,
      schema.Serves base (list x) link target ownerKey targetKey →
        (list x).ownerColumn ≠ (list x).memberColumn → ∀ u u', u.columns = link.columns →
          u.Paired link → R x link u u' → u'.Paired link) : s'.Paired schema := by
  intro link hlink u' hu'
  obtain ⟨u, hu, rfl | ⟨x, hx, hlinktable, hR⟩⟩ := hlists.exists_link_cases hco hbase hmem hlink hu'
  · exact h link hlink u' hu
  · obtain ⟨link', target, ownerKey, targetKey, hserves⟩ :=
      hco.lists base hbase (list x) (hmem x hx)
    obtain rfl : link' = link := Except.ok.inj (hserves.link_eq.symm.trans hlinktable)
    obtain ⟨hnodup, -⟩ := hco.list_names base hbase (list x) (hmem x hx) link' hlinktable
    simp only [List.nodup_cons, List.mem_cons, List.not_mem_nil, or_false, not_or] at hnodup
    have hcolumns := (hregular.columns_eq link' (Schema.mem_physical_of_link hlink) u hu).1
    exact hstep x hx link' target ownerKey targetKey hserves hnodup.2.1 u u' hcolumns
      (h link' hlink u hu) hR

/-- The links of an inserted row name rows by keys, and no two of them by the same ones. -/
theorem paired_of_insert (hco : schema.Coherent) (hregular : tx.work.Regular schema)
    (hbase : base ∈ schema.bases) (hshares : table.SharesRows base) (h : tx.work.Paired schema)
    {x : Value × Record} (hrun : Yields (Change.insert schema table now doc) tx x tx') :
    tx'.work.Paired schema := by
  have hcheck := Document.checkPartial_of_check (Change.yields_insert.1 hrun).1
  have hregular' := hregular.turns hco (turns_of_insert hco hbase hshares hrun)
  obtain ⟨t, row, next, ht, -, -, hid, hlists⟩ := Change.effect_of_insert hco hbase hshares hrun
  have hmem {entry : ListField × List Value}
      (hentry : entry ∈ Change.listsOf table (Change.withDoubles table doc)) :
      entry.1 ∈ base.lists :=
    hshares.lists ▸ Change.list_of_mem_listsOf hentry
  refine h.lists hco hregular hbase hlists (fun entry hentry => hmem hentry) ?_
  intro entry hentry link target ownerKey targetKey hserves hne u u' hcolumns hu hadds
  -- the key is that of the new row, which the regular store of afterwards has
  have hrow : row ∈ tx'.work.rows base.name := by
    rw [Store.rows_of_get?
      (hlists.get?_written hco hbase (.refl base) fun entry hentry => hmem hentry)]
    exact List.mem_append_right _ List.mem_cons_self
  have hplain := hid ▸ hregular'.plain base hbase ownerKey hserves.ownerKey_eq row hrow
  refine hadds.paired hcolumns (fun record hrecord => ?_) hu
  obtain ⟨member, hmember, rfl⟩ := List.mem_map.1 hrecord
  exact hserves.namesRows hne hplain (Change.members_accepted hshares hcheck hserves
    ((Change.mem_listsOf_withDoubles (hco.lists_apart hbase hshares)).1 hentry) member hmember)

/-- The links that an update sets are apart from each other and from those of other rows. -/
theorem paired_of_update (hco : schema.Coherent) (hregular : tx.work.Regular schema)
    (hbase : base ∈ schema.bases) (hshares : table.SharesRows base) (h : tx.work.Paired schema)
    {id : Value} (hrun : Yields (Change.update schema table now id doc) tx () tx') :
    tx'.work.Paired schema := by
  obtain ⟨_, _, _, -, hcheck, -⟩ := Change.yields_update.1 hrun
  obtain ⟨key, t, t', hfound, -, -, hlists⟩ := Change.effect_of_update hco hbase hshares hrun
  refine h.lists hco hregular hbase hlists
    (fun entry hentry => hshares.lists ▸ Change.list_of_mem_listsOf hentry) ?_
  intro entry hentry link target ownerKey targetKey hserves hne u u' hcolumns hu hsets
  -- the key is read off a row
  obtain ⟨_, row, hstored, hrow, rfl⟩ := Change.row_of_visibleKey hfound
  have hplain : ownerKey.Plain (row.cell table.primaryKey) := by
    rw [hshares.primaryKey]
    refine hregular.plain base hbase ownerKey hserves.ownerKey_eq row ?_
    rwa [← hshares.name, Store.rows_of_get? hstored]
  exact hsets.paired hcolumns (fun member hmember => hserves.namesRows hne hplain
    (Change.members_accepted hshares hcheck hserves hentry member hmember)) hu

/-- The links that a replacement sets are apart from each other and from those of other rows. -/
theorem paired_of_replace (hco : schema.Coherent) (hregular : tx.work.Regular schema)
    (hbase : base ∈ schema.bases) (hshares : table.SharesRows base) (h : tx.work.Paired schema)
    {id : Value} (hrun : Yields (Change.replace schema table now id doc) tx () tx') :
    tx'.work.Paired schema := by
  obtain ⟨key, t, t', hcheck, hkeyfor, -, -, hlists⟩ :=
    Change.effect_of_replace hco hbase hshares hrun
  have hpartial := Document.checkPartial_of_check hcheck
  refine h.lists hco hregular hbase hlists (fun m hm => hshares.lists ▸ hm) ?_
  intro m hm link target ownerKey targetKey hserves hne u u' hcolumns hu hsets
  have hkey := (Change.accepts_of_keyFor (hshares.keyColumn?.trans hserves.ownerKey_eq) hkeyfor).1
  have haccepted :=
    Change.membersFor_accepted hshares (hco.fields_nodup base hbase) hpartial hm hserves
  exact hsets.paired hcolumns (fun member hmember =>
    hserves.namesRows hne (Column.plain_of_accepts hkey) (haccepted member hmember)) hu

theorem paired_of_remove (hco : schema.Coherent) (hbase : base ∈ schema.bases)
    (hshares : table.SharesRows base) (h : tx.work.Paired schema) {lookup : Filter} {n : Nat}
    (hrun : Yields (Change.remove schema table now lookup) tx n tx') : tx'.work.Paired schema := by
  intro link hlink u' hu'
  obtain ⟨u, hu, hshrinks⟩ := Change.shrinks_of_remove hco hbase hshares hrun hlink hu'
  exact (h link hlink u hu).of_sublist hshrinks.rows

theorem Store.Paired.creates (hco : schema.Coherent) (h : s.Paired schema)
    (hcreates : s.Creates schema s') : s'.Paired schema := by
  intro link hlink t ht
  rcases hcreates.cases hco (Schema.mem_physical_of_link hlink) ht with hold | rfl
  · exact h link hlink t hold
  · exact ⟨nofun, .nil⟩

/-- Every change keeps the pairs of the link tables apart. -/
theorem keptByChanges_paired {catalog : Catalog} (hco : catalog.schema.Coherent) :
    catalog.KeptByChanges (Store.Paired catalog.schema) where
  empty _ _ t ht := by simp [EmptyCollection.emptyCollection] at ht
  creates _ _ h hcreates := h.creates hco hcreates
  insert _ _ _ _ hbase hshares _ _ _ hregular h hrun :=
    paired_of_insert hco hregular hbase hshares h hrun
  update _ _ _ _ _ hbase hshares _ _ _ hregular h hrun :=
    paired_of_update hco hregular hbase hshares h hrun
  replace _ _ _ _ _ hbase hshares _ _ _ hregular h hrun :=
    paired_of_replace hco hregular hbase hshares h hrun
  remove _ _ _ _ hbase hshares _ _ _ _ h hrun := paired_of_remove hco hbase hshares h hrun

end Changes

/-! ## Runs -/

/-- The columns in which links hold the key of an owner and that of a member. -/
def ListField.pair (m : ListField) : List String := [m.ownerColumn, m.memberColumn]

/-- Two links differ in one of the keys that they hold. They may still be equal there, but only if
the values of the column can be written in more than one way. -/
def Table.TellsPair (link : Table) (m : ListField) (a b : Record) : Prop :=
  ∃ name ∈ m.pair, (a.cell name).same (b.cell name) = false
    ∧ ((typeIn link.columns name).equal (a.cell name) (b.cell name) = true →
      (typeIn link.columns name).hasSpellings = true)

/-- Pairs that are all different are told apart as their columns tell values apart. -/
theorem StoredTable.Paired.tells {schema : Schema} (hco : schema.Coherent)
    {owner link target : Table} {m : ListField} {ownerKey targetKey : Column}
    (hserves : schema.Serves owner m link target ownerKey targetKey) {t : StoredTable}
    (h : t.Paired link) : t.rows.Pairwise (link.TellsPair m) := by
  have hlink := (Schema.mem_of_linkTable hserves.link_eq).1
  have hcolumn (name : String) (hname : name ∈ m.pair) :
      ∃ c ∈ link.columns, c.name = name ∧ c.references.isSome = true := by
    simp only [ListField.pair, List.mem_cons, List.not_mem_nil, or_false] at hname
    rw [hserves.columns_eq]
    rcases hname with rfl | rfl
    · exact ⟨Compile.linkColumn m.ownerColumn owner ownerKey, by simp, rfl, rfl⟩
    · exact ⟨Compile.linkColumn m.memberColumn target targetKey, by simp, rfl, rfl⟩
  refine h.apart.imp_of_mem fun {earlier later} hearlier hlater hapart => ?_
  have hgroup := hapart m.pair (by simp [hserves.groups_eq, ListField.pair])
  rw [Store.sharesGroup, List.all_eq_false] at hgroup
  obtain ⟨name, hname, hdiffers⟩ := hgroup
  obtain ⟨c, hc, rfl, hpoints⟩ := hcolumn name hname
  obtain ⟨v, hv, -, hvplain⟩ := h.named earlier hearlier c hc hpoints
  obtain ⟨w, hw, hwnull, hwplain⟩ := h.named later hlater c hc hpoints
  rw [Record.cell_eq_of_get? hw, hv] at hdiffers
  have hne : v.same w = false := by simpa [hwnull] using hdiffers
  refine ⟨c.name, hname, ?_⟩
  rw [hco.typeIn_link hlink hc hpoints, Record.cell_eq_of_get? hv, Record.cell_eq_of_get? hw]
  refine ⟨hne, fun hequal => ?_⟩
  by_contra hone
  rw [ColumnType.same_of_equal (by simpa using hone) hvplain hwplain hequal] at hne
  cases hne

namespace Catalog

variable {settings : Settings} {domain : Domain} {catalog : Catalog}

/-- Every link table is that of a list. -/
theorem list_of_link (hcompiles : Catalog.ofDomain settings domain = .ok catalog) {link : Table}
    (hlink : link ∈ catalog.schema.links) : ∃ owner ∈ catalog.schema.bases, ∃ m ∈ owner.lists,
      catalog.schema.linkTable m.linkTable = .ok link := by
  obtain ⟨schema, hschema, rfl⟩ := map_eq_ok_iff.1 hcompiles
  obtain ⟨parts, links, hassembly⟩ := Compile.exists_assembly hschema
  rw [hassembly.linkTables_eq] at hlink
  obtain ⟨built, hbuilt, rfl⟩ := List.mem_map.1 hlink
  obtain ⟨owner, howner, hlist, -, _, _, _, hserves⟩ := hassembly.serves hbuilt
  exact ⟨owner, howner, built.list, hlist, hserves.link_eq⟩

/-- **Links with equal pairs differ in a spelling.** Every link table is that of a list. After any
run, two of its links differ in the key of the owner or of the member, and where the keys in which
they differ are equal nevertheless, they are dates or doubles; so no two links hold equal keys of
other types. -/
theorem pairs_respelled (hcompiles : Catalog.ofDomain settings domain = .ok catalog)
    (steps : List Step) :
    (∀ link ∈ catalog.schema.links, ∃ owner ∈ catalog.schema.bases, ∃ m ∈ owner.lists,
      catalog.schema.linkTable m.linkTable = .ok link)
    ∧ ∀ owner ∈ catalog.schema.bases, ∀ m ∈ owner.lists, ∀ link,
        catalog.schema.linkTable m.linkTable = .ok link →
          ((catalog.run steps).store.rows link.name).Pairwise (link.TellsPair m) := by
  have hco := coherent_of_ofDomain hcompiles
  refine ⟨fun link hlink => list_of_link hcompiles hlink, fun owner howner m hm link hlink => ?_⟩
  obtain ⟨link', target, ownerKey, targetKey, hserves⟩ := hco.lists owner howner m hm
  obtain rfl : link' = link := Except.ok.inj (hserves.link_eq.symm.trans hlink)
  have hpaired := kept_of_run hco (keptByChanges_paired hco) steps
  cases hstored : (catalog.run steps).store.tables.get? link'.name with
  | none =>
    rw [Store.rows, hstored]
    exact .nil
  | some t =>
    rw [Store.rows_of_get? hstored]
    exact (hpaired link' (Schema.mem_of_linkTable hlink).1 t hstored).tells hco hserves

/-- Events are known by the time at which they are, and tours list events. -/
def tourDomain : Domain := .ofList [
  ("event", { fields := .ofList [("at", { typeName := "datetime", primaryKey := true })] }),
  ("tour", { fields := .ofList [("stops", { typeName := "list", target := some "event" })] })]

def tourCatalog : Catalog := .compiled {} tourDomain

/-- An event, and a tour that lists it under two spellings of its time. -/
def tourSteps : List Step := [
  (⟨0, 0⟩, .createTables),
  (⟨1, 0⟩, .insert "event" [.ofList [("at", .string "2024-01-01T00:00:00Z")]]),
  (⟨2, 0⟩, .insert "tour" [.ofList [("stops", .array [.string "2024-01-01T00:00:00Z",
    .string "2024-01-01T00:00:00+00:00"])]])]

theorem ofDomain_tour : Catalog.ofDomain {} tourDomain = .ok tourCatalog :=
  Catalog.ofDomain_compiled rfl

/-- The two links of the tour are told apart. -/
theorem links_of_tour_respelled :
    ∃ owner ∈ tourCatalog.schema.bases, ∃ m ∈ owner.lists, ∃ link,
      tourCatalog.schema.linkTable m.linkTable = .ok link
        ∧ ((tourCatalog.run tourSteps).store.rows link.name).length = 2
        ∧ ((tourCatalog.run tourSteps).store.rows link.name).Pairwise (link.TellsPair m) := by
  have hlinks : ∃ owner ∈ tourCatalog.schema.bases, ∃ m ∈ owner.lists,
      ((tourCatalog.schema.linkTable m.linkTable).toOption.any fun link =>
        ((tourCatalog.run tourSteps).store.rows link.name).length == 2) = true := by
    decide +kernel
  obtain ⟨owner, howner, m, hm, hlength⟩ := hlinks
  obtain ⟨link, hlink, hlength⟩ := (Option.any_eq_true _ _).1 hlength
  have hlink := eq_ok_of_toOption hlink
  obtain ⟨-, hpairs⟩ := pairs_respelled ofDomain_tour tourSteps
  exact ⟨owner, howner, m, hm, link, hlink, beq_iff_eq.1 hlength,
    hpairs owner howner m hm link hlink⟩

/-- The tour is linked to its event twice: both links hold equal keys. -/
theorem event_linked_twice :
    Catalog.ofDomain {} tourDomain = .ok tourCatalog
      ∧ ∃ link ∈ tourCatalog.schema.links, ∃ owner ∈ tourCatalog.schema.bases, ∃ m ∈ owner.lists,
        link.name = m.linkTable
          ∧ ¬ ((tourCatalog.run tourSteps).store.rows link.name).Pairwise fun a b =>
            ¬ ∀ name ∈ m.pair,
              (typeIn link.columns name).equal (a.cell name) (b.cell name) = true :=
  ⟨ofDomain_tour, by decide +kernel⟩

end Catalog

end RecordStore
