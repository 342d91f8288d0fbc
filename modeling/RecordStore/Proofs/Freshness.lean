import RecordStore.Proofs.Cells
import RecordStore.Proofs.Keys
import RecordStore.Proofs.Replay
import RecordStore.Proofs.Shapes

/-!
# Rows that are replaced

A replacement looks for the row with its key and writes the cells of a new record over it. The new
record has a cell for every column, so of the old row nothing is left but the times of its stamps:
neither a field that the document does not give nor the flag of a deleted row.

Two stores that differ in the row alone are therefore the same after the same replacement, if the
stamps of the row are; what the row was otherwise cannot be told from the store any more.

* **`Record.Refreshes`** — what a replacement makes of a row.
* **`Change.refreshed_in_place`** — a replacement refreshes the row with its key.
* **`Catalog.replaced_afresh`** — two stores that differ in one row, and the same replacement in
  both.
-/

namespace RecordStore

open RecordStore.Action

/-! ## Columns of one name
 Of the columns that share a name with another one, every one is the key, a stamp or the flag. -/

namespace Compile.Part

variable {settings : Settings} {domain : Domain} {tables : List Table} {part : Part}

/-- A column that is neither the key nor a stamp has its name for itself, the flag included. -/
theorem owns_of_ordinary (h : part.Compiled settings domain tables) {c : Column}
    (hc : c ∈ part.related.columns) (hkey : c.name ≠ part.related.primaryKey)
    (hstamp : c.name ∉ Change.stampColumns) : part.related.Owns c := by
  obtain ⟨own, hplain⟩ := ownTable_eq_ok h.plain_eq
  cases origin_of_mem h hc with
  | identity hkeys => exact absurd (name_of_identity h hkeys).symm hkey
  | stamp hname => exact absurd hname hstamp
  | field hentry _ hdeclares =>
    refine owns_of_field h hc ?_
    rw [hdeclares.name_eq]
    exact mem_keys_of_entry hentry
  | reference hrelation => exact owns_of_field h hc (mem_keys_of_entry (mem_relations hrelation).1)
  | flag hsoft =>
    have hreserved : settings.deletedField ∈ reservedNames settings part.entry.2 :=
      mem_reserved_of_setNames (by simp [setNames, hsoft])
    -- what else could have the name of the flag is the key, a stamp, or a field with a reserved
    -- name
    intro d hd hname
    cases origin_of_mem h hd with
    | identity hkeys => exact absurd (hname.symm.trans (name_of_identity h hkeys).symm) hkey
    | stamp hstampname => exact absurd (hname ▸ hstampname) hstamp
    | @field field spec _ hentry _ hdeclares =>
      have hfield : field = settings.deletedField := hdeclares.name_eq.symm.trans hname
      exact absurd (hfield ▸ hreserved) (not_reserved hplain hentry)
    | @reference relation _ _ hrelation =>
      have hfield : relation.field = settings.deletedField := hname
      exact absurd (hfield ▸ hreserved) (not_reserved hplain (mem_relations hrelation).1)
    | flag => rfl

end Compile.Part

/-- The stamps of a table take no null, and the columns beside them and the key have names of their
own. -/
structure Table.Stamps (base : Table) : Prop where
  filled : ∀ name ∈ Change.stampColumns, ∃ c ∈ base.columns, c.name = name ∧ c.nullable = false
  owns : ∀ c ∈ base.columns, c.name ≠ base.primaryKey → c.name ∉ Change.stampColumns → base.Owns c

/-- In a compiled table the stamps are columns that take no null, and ordinary columns have names of
their own. -/
theorem Catalog.stamps_of_ofDomain {settings : Settings} {domain : Domain} {catalog : Catalog}
    (h : Catalog.ofDomain settings domain = .ok catalog) {base : Table}
    (hbase : base ∈ catalog.schema.bases) :
    base.Stamps := by
  obtain ⟨schema, hschema, rfl⟩ := map_eq_ok_iff.1 h
  obtain ⟨parts, links, hassembly⟩ := Compile.exists_assembly hschema
  obtain ⟨part, hpart, rfl⟩ := hassembly.mem_bases.1 hbase
  have hcompiled := hassembly.compiled part hpart
  exact ⟨fun name hname => ⟨.timestamp name, Compile.Part.timestamp_mem hcompiled hname, rfl, rfl⟩,
    fun _ => Compile.Part.owns_of_ordinary hcompiled⟩

/-! ## What a replacement makes of a row -/

/-- A row has the key and the cells of a document, as the columns store them. What the document does
not give is the default of the column or null, but for the stamps, which are those of the old
row. -/
structure Record.Refreshes (table : Table) (key : Value) (doc old row : Record) : Prop where
  keys_eq : row.keys = old.keys
  key : row.get? table.primaryKey = some key
  given : ∀ c ∈ table.columns, c.name ≠ table.primaryKey → ∀ v, doc.get? c.name = some v →
    row.get? c.name = some (c.stored v)
  stamped : ∀ name ∈ Change.stampColumns, name ≠ table.primaryKey → doc.get? name = none →
    row.get? name = old.get? name
  filled : ∀ c ∈ table.columns, c.name ≠ table.primaryKey → c.name ∉ Change.stampColumns →
    doc.get? c.name = none → row.get? c.name = some (c.default?.getD .null)

/-- **What a replacement makes of a row depends on the document, the key and the stamps**, and on
nothing else that the row has. -/
theorem Record.Refreshes.eq {table : Table} {key : Value} {doc old old' row row' : Record}
    (h : doc.Refreshes table key old row) (h' : doc.Refreshes table key old' row')
    (hkeys : old'.keys = old.keys) (hcovers : ∀ name ∈ old.keys, name ∈ table.columnNames)
    (hstamps : ∀ name ∈ Change.stampColumns, old'.get? name = old.get? name) : row' = row := by
  refine NameMap.ext_get? (h'.keys_eq.trans (hkeys.trans h.keys_eq.symm)) fun name hname => ?_
  obtain ⟨c, hc, rfl⟩ := List.mem_map.1 (hcovers name (h.keys_eq ▸ hname))
  by_cases hkey : c.name = table.primaryKey
  · rw [hkey, h.key, h'.key]
  cases hgiven : doc.get? c.name with
  | some v => rw [h.given c hc hkey v hgiven, h'.given c hc hkey v hgiven]
  | none =>
    by_cases hstamp : c.name ∈ Change.stampColumns
    · rw [h.stamped _ hstamp hkey hgiven, h'.stamped _ hstamp hkey hgiven, hstamps _ hstamp]
    · rw [h.filled c hc hkey hstamp hgiven, h'.filled c hc hkey hstamp hgiven]

namespace Change

variable {schema : Schema} {table base : Table} {now : Time.Instant} {key id : Value}
  {doc old row : Record}
  {c : Column}

/-- The cell of a stamp that the document does not give is that of the stored row, unless it is
null. -/
theorem replacedCell_of_stamp (hkey : c.name ≠ table.primaryKey) (hstamp : c.name ∈ stampColumns)
    (stored : Option Record) (fields : Record) : replacedCell table now key stored fields c
      = (fields.get? c.name).getD
        (((stored.bind (·.get? c.name)).filter (!·.isNull)).getD (.string now.text)) := by
  have hcontains : stampColumns.contains c.name = true := by simpa using hstamp
  rw [replacedCell, if_neg hkey, hcontains]
  cases fields.get? c.name with
  | some v => rfl
  | none => cases (stored.bind (·.get? c.name)).filter (!·.isNull) <;> rfl

/-- The record of a replacement has a cell for every column. -/
theorem get?_replacedRow_column (hstamps : base.Stamps) (hshares : table.SharesRows base)
    (hc : c ∈ base.columns) (stored : Option Record) :
    (replacedRow table now key stored doc).get? c.name
      = some (replacedCell table now key stored (withDoubles table (rowOf table doc)) c) := by
  refine NameMap.get?_ofList_of_forall ?_ fun entry hentry hname => ?_
  · rw [List.map_map, hshares.columns]
    exact List.mem_map.2 ⟨c, hc, rfl⟩
  obtain ⟨d, hd, rfl⟩ := List.mem_map.1 hentry
  dsimp only at hname ⊢
  -- columns of one name are the same one, or it is the name of the key or of a stamp that decides
  by_cases hkey : c.name = table.primaryKey
  · rw [replacedCell, replacedCell, if_pos hkey, if_pos (hname.trans hkey)]
  by_cases hstamp : c.name ∈ stampColumns
  · rw [replacedCell_of_stamp hkey hstamp, replacedCell_of_stamp (hname ▸ hkey) (hname ▸ hstamp),
      hname]
  · rw [hstamps.owns c hc (hshares.primaryKey ▸ hkey) hstamp d (hshares.columns ▸ hd) hname]

/-- Writing the record of a replacement over a row refreshes it. -/
theorem refreshes_of_assign (hco : schema.Coherent) (hbase : base ∈ schema.bases)
    (hshares : table.SharesRows base) (hstamps : base.Stamps) (hold : base.Shapes old)
    (h : StoredTable.assign old
      (replacedRow table now key (some (StoredTable.cut table.columnNames old)) doc) = .ok row) :
    doc.Refreshes table key old row := by
  have hcell {c : Column} (hc : c ∈ table.columns) :
    row.get? c.name = some (replacedCell table now key
      (some (StoredTable.cut table.columnNames old)) (withDoubles table (rowOf table doc)) c) := by
    rw [StoredTable.get?_assign h, get?_replacedRow_column hstamps hshares (hshares.columns ▸ hc)]
    rfl
  have hfield {c : Column} (hc : c ∈ table.columns) :
      (withDoubles table (rowOf table doc)).get? c.name = (doc.get? c.name).map c.stored :=
    hco.get?_withDoubles_rowOf hbase hshares (hshares.columns ▸ hc) doc
  refine ⟨StoredTable.keys_assign h, ?_, fun c hc hkey v hv => ?_, fun name hname hkey hnone => ?_,
    fun c hc hkey hstamp hnone => ?_⟩
  · obtain ⟨k, hk, -⟩ := hco.keyed base (Schema.mem_physical_of_base hbase)
    rw [StoredTable.get?_assign h, hshares.primaryKey, get?_key_replacedRow hshares hk]
    rfl
  · rw [hcell hc, replacedCell, if_neg hkey, hfield hc, hv]
    rfl
  · obtain ⟨c, hc, rfl, hnullable⟩ := hstamps.filled name hname
    have hnames : c.name ∈ base.columnNames := Table.mem_columnNames hc
    -- a stamp takes no null, so the old row has a time
    have hnull : (old.cell c.name).isNull = false := by
      rw [Bool.eq_false_iff]
      intro hnull
      have htakes := (hold.filled c hc hnull).1
      rw [hnullable] at htakes
      cases htakes
    rw [← hshares.columns] at hc
    rw [hcell hc, replacedCell_of_stamp hkey hname, hfield hc, hnone, hold.get?_eq_cell hnames,
      Option.bind_some,
      StoredTable.get?_cut_of_mem old (Table.mem_columnNames hc),
        Option.filter_some_pos (by rw [hnull]; rfl)]
    rfl
  · rw [hcell hc, replacedCell_eq hkey hstamp, hfield hc, hnone]
    rfl

/-- The only row that can be in the way of a replaced one is the one in whose place it stands. -/
theorem place_eq_of_holds {s : Store} {k : Column} {place other : Nat} {rows : List Record}
    {found : Record} (hk : base.keyColumn? = some k) (hprimary : k.primaryKey = true)
    (haccepts : k.type.accepts key = true) (hkeynull : key.isNull = false)
    (hrow : row.get? base.primaryKey = some key)
    (hadmissible : s.Admissible base.uniqueGroups base.columns (rows.eraseIdx place) row)
    (hfound : rows[other]? = some found)
    (hholds : (Predicate.eq base.primaryKey key).holds base.columns found = true) :
    other = place := by
  rw [← List.append_nil (rows.eraseIdx place)] at hadmissible
  obtain ⟨-, hothers⟩ := holds_key_iff hk hprimary haccepts hkeynull hrow hadmissible
  by_contra hne
  have hmem : found ∈ rows.eraseIdx place := List.mem_eraseIdx_iff_getElem?.2 ⟨other, hne, hfound⟩
  rw [hothers found (List.mem_append_left _ hmem)] at hholds
  cases hholds

/-- A replacement that stands in the place of a row has read this row, as no other has the key. -/
theorem select_of_place {s : Store} {k : Column} {t : StoredTable} {place : Nat}
    (hshares : table.SharesRows base) (hcolumns : t.columns = base.columns)
    (hk : base.keyColumn? = some k) (hprimary : k.primaryKey = true)
    (haccepts : k.type.accepts key = true) (hkeynull : key.isNull = false)
    (hrow : row.get? base.primaryKey = some key)
    (hadmissible : s.Admissible base.uniqueGroups base.columns (t.rows.eraseIdx place) row)
    (hold : t.rows[place]? = some old)
    (hholds : (Predicate.eq base.primaryKey key).holds base.columns old = true) :
    t.select (storedPlan table key) = [StoredTable.cut table.columnNames old] := by
  obtain ⟨hlt, hget⟩ := List.getElem?_eq_some_iff.1 hold
  have hrows : t.rows = t.rows.take place ++ old :: t.rows.drop (place + 1) := by
    rw [← hget, List.getElem_cons_drop, List.take_append_drop]
  rw [List.eraseIdx_eq_take_drop_succ] at hadmissible
  obtain ⟨-, hothers⟩ := holds_key_iff hk hprimary haccepts hkeynull hrow hadmissible
  have hmatching := StoredTable.matching_eq_singleton hrows (hcolumns ▸ hholds) (hcolumns ▸ hothers)
  rw [← hshares.primaryKey] at hmatching
  exact StoredTable.select_eq_singleton hmatching rfl rfl

/-- **A replacement refreshes the row with its key**, in its place, and sets the links of all its
lists. -/
theorem refreshed_in_place (hco : schema.Coherent) (hbase : base ∈ schema.bases)
    (hshares : table.SharesRows base) (hstamps : base.Stamps) {tx tx' : Transaction}
    (hregular : tx.work.Regular schema) (hshaped : tx.work.Shaped schema)
    (h : Yields (replace schema table now id doc) tx () tx') (hkey : keyFor table id = .ok key)
    {t : StoredTable} {place : Nat} (ht : tx.work.tables.get? base.name = some t)
    (hold : t.rows[place]? = some old)
    (hholds : (Predicate.eq base.primaryKey key).holds base.columns old = true) :
    ∃ row, doc.Refreshes table key old row
      ∧ (tx.work.put base.name { t with rows := t.rows.set place row }).ListsTurn schema table.lists
        (fun m => m)
        (fun m link => StoredTable.SetsLinks link m (.string now.text) key (membersFor table doc m))
        tx'.work := by
  have hphysical := Schema.mem_physical_of_base hbase
  obtain ⟨key', u, t', -, hkeyfor, hu, hupserts, hlists⟩ := effect_of_replace hco hbase hshares h
  obtain rfl := Except.ok.inj (hkeyfor.symm.trans hkey)
  obtain rfl := Option.some.inj (hu.symm.trans ht)
  obtain ⟨k, hk, hprimary, -⟩ := hco.keyed base hphysical
  obtain ⟨haccepts, hkeynull⟩ := accepts_of_keyFor (hshares.keyColumn?.trans hk) hkeyfor
  have hcolumns := (hregular.columns_eq base hphysical u ht).1
  have hgiven {stored : Option Record} :
      (replacedRow table now key' stored doc).get? base.primaryKey = some key' :=
    get?_key_replacedRow hshares hk key' stored
  have hplace : place ∈ u.places (.eq base.primaryKey key') :=
    StoredTable.mem_places_iff.2 ⟨old, hold, hcolumns ▸ hholds⟩
  have hpredicate : (Predicate.eq table.primaryKey ((replacedRow table now key'
      (u.select (storedPlan table key')).head? doc).cell table.primaryKey))
      = .eq base.primaryKey key' := by
    rw [hshares.primaryKey, Record.cell_eq_of_get? hgiven]
  cases hupserts with
  -- the row that is looked for is there
  | append hplaces =>
    rw [hpredicate] at hplaces
    rw [hplaces] at hplace
    cases hplace
  | @change found rest old' row hplaces hold' hassign hrules =>
    have hadmissible := Store.admissible_of_checkRules hrules
    rw [hshares.uniqueGroups, hcolumns] at hadmissible
    have hrow : row.get? base.primaryKey = some key' := by
      rw [StoredTable.get?_assign hassign, hgiven]
      rfl
    obtain rfl := place_eq_of_holds hk hprimary haccepts hkeynull hrow hadmissible hold hholds
    obtain rfl := Option.some.inj (hold'.symm.trans hold)
    have hselect :=
      select_of_place hshares hcolumns hk hprimary haccepts hkeynull hrow hadmissible hold hholds
    rw [hselect] at hassign
    exact ⟨row, refreshes_of_assign hco hbase hshares hstamps
      (hshaped base hbase u ht old' (List.mem_of_getElem? hold)) hassign, hlists⟩

end Change

/-! ## Links
 What is made of a link table depends on nothing but the table, the key and the members. -/

namespace StoredTable

variable {groups : List (List String)} {now owner : Value} {records : List Record}
  {t u v : StoredTable}
  {link : Table} {m : ListField} {members : List Value}

/-- There is one way to add given records to a table. -/
theorem Adds.unique (hu : t.Adds groups now records u) (hv : t.Adds groups now records v) :
    v = u := by
  induction hu with
  | nil =>
    cases hv
    rfl
  | cons hfill _ _ ih =>
    cases hv with
    | cons hfill' _ hrest' =>
      obtain ⟨rfl, rfl⟩ := Prod.mk.inj (hfill.symm.trans hfill')
      exact ih hrest'

theorem SetsLinks.unique (hu : t.SetsLinks link m now owner members u)
    (hv : t.SetsLinks link m now owner members v) : v = u := by
  rcases hu with ⟨hsame, rfl⟩ | ⟨hdiffer, hu⟩ <;> rcases hv with ⟨hsame', rfl⟩ | ⟨hdiffer', hv⟩
  · rfl
  · rw [hsame] at hdiffer'
    cases hdiffer'
  · rw [hsame'] at hdiffer
    cases hdiffer
  · exact hu.unique hv

end StoredTable

/-- Lists that are written alike make the same of stores with the same tables. -/
theorem Store.ListsTurn.unique {schema : Schema} {α : Type} {items : List α} {list : α → ListField}
    {R : α → Table → StoredTable → StoredTable → Prop} {s s' u u' : Store}
    (hlinks : ∀ x ∈ items, ∃ link, schema.linkTable (list x).linkTable = .ok link)
    (hR : ∀ x link t a b, R x link t a → R x link t b → b = a)
    (h : s.ListsTurn schema items list R u) (h' : s'.ListsTurn schema items list R u')
    (hsame : ∀ name, s'.tables.get? name = s.tables.get? name) (name : String) :
    u'.tables.get? name = u.tables.get? name := by
  by_cases hitem : name ∈ items.map fun x => (list x).linkTable
  · obtain ⟨x, hx, rfl⟩ := List.mem_map.1 hitem
    obtain ⟨link, hlink⟩ := hlinks x hx
    rw [← (Schema.mem_of_linkTable hlink).2]
    cases ht : s.tables.get? link.name with
    | some t =>
      obtain ⟨a, ha, hRa⟩ := h.own x hx link hlink t ht
      obtain ⟨b, hb, hRb⟩ := h'.own x hx link hlink t ((hsame _).trans ht)
      rw [ha, hb, hR x link t a b hRa hRb]
    | none =>
      have hnone := h.isSome_eq link.name
      have hnone' := h'.isSome_eq link.name
      rw [hsame, ht] at hnone'
      rw [ht] at hnone
      rw [Option.isNone_iff_eq_none.1 (Option.isSome_eq_false_iff.1 hnone),
        Option.isNone_iff_eq_none.1 (Option.isSome_eq_false_iff.1 hnone')]
  · rw [h.other name hitem, h'.other name hitem, hsame]

/-! ## Stores that differ in one row -/

/-- Two stores are the same, but for one row of a table. -/
structure Store.SameBut (name : String) (t : StoredTable) (place : Nat) (old old' : Record)
    (s s' : Store) : Prop where
  own : s.tables.get? name = some t
  own' : s'.tables.get? name = some { t with rows := t.rows.set place old' }
  place : t.rows[place]? = some old
  others : ∀ other ≠ name, s'.tables.get? other = s.tables.get? other

theorem Store.SameBut.put {name : String} {t : StoredTable} {place : Nat} {old old' : Record}
    {s s' : Store} (h : s.SameBut name t place old old' s') (row : Record) (other : String) :
    (s'.put name { t with rows := (t.rows.set place old').set place row }).tables.get? other
      = (s.put name { t with rows := t.rows.set place row }).tables.get? other := by
  rw [Store.get?_put, Store.get?_put, List.set_set]
  split
  · rfl
  · rename_i hne
    exact h.others other hne

theorem Change.keyFor_eq {table : Table} {k : Column} {id key : Value}
    (hk : table.keyColumn? = some k) (h : keyFor table id = .ok key) :
    key = k.type.interpret id := by
  unfold keyFor at h
  simp only [hk] at h
  split at h
  · simp [reject] at h
  · exact (Except.ok.inj h).symm

namespace Catalog

variable {settings : Settings} {domain : Domain} {catalog : Catalog}

/-- A replacement that succeeded was a transaction with a key. -/
theorem yields_of_replace {resource : String} {table : Table}
    (htable : catalog.schema.table resource = .ok table) {now : Time.Instant} {id : Value}
    {doc : Record} {db : Database} (h : (catalog.replace resource now id doc db).1 = .ok ()) :
    ∃ key tx, Change.keyFor table id = .ok key
      ∧ Yields (Change.replace catalog.schema table now id doc) (.begin db) () tx
      ∧ (catalog.replace resource now id doc db).2.store = tx.work := by
  rw [replace_of_table htable] at h ⊢
  obtain ⟨tx, hrun, hdb⟩ := Database.transact_ok h
  obtain ⟨key, _, _, -, hkey, -⟩ := Change.yields_replace.1 hrun
  exact ⟨key, tx, hkey, hrun, by rw [hdb]⟩

/-- **A replacement leaves no trace of the old row.** Two runs leave stores that differ in the row
with a key alone, and its key and its stamps are the same in both. If the replacement under the key
succeeds in both, it makes the same row of the two, which has the cells of the document, the stamps
of the old row, and else the defaults of the columns or null; and if it is made at the same time in
both, the stores do not differ in anything any more. -/
theorem replaced_afresh (hcompiles : Catalog.ofDomain settings domain = .ok catalog)
    (steps steps' : List Step)
    {resource : String} {table : Table}
    (htable : catalog.schema.table resource = .ok table) {k : Column}
    (hk : table.keyColumn? = some k) {t : StoredTable} {place : Nat} {old old' : Record}
    (hsame : (catalog.run steps).store.SameBut table.name
      t place old old' (catalog.run steps').store)
    {id : Value} (hequal : k.type.equal (old.cell table.primaryKey) (k.type.interpret id) = true)
    (hkept : ∀ name ∈ table.primaryKey :: Change.stampColumns, old'.cell name = old.cell name)
    {now now' : Time.Instant} {doc : Record}
    (hok : (catalog.replace resource now id doc (catalog.run steps)).1 = .ok ())
    (hok' : (catalog.replace resource now' id doc (catalog.run steps')).1 = .ok ()) :
    ∃ row, doc.Refreshes table (k.type.interpret id) old row
      ∧ (catalog.replace resource now id doc (catalog.run steps)).2.store.tables.get? table.name
        = some { t with rows := t.rows.set place row }
      ∧ (catalog.replace resource now' id doc (catalog.run steps')).2.store.tables.get? table.name
        = some { t with rows := t.rows.set place row }
      ∧ (now' = now → ∀ name,
        (catalog.replace resource now' id doc (catalog.run steps')).2.store.tables.get? name
          = (catalog.replace resource now id doc
            (catalog.run steps)).2.store.tables.get? name) := by
  have hco := coherent_of_ofDomain hcompiles
  obtain ⟨base, hbase, hshares⟩ := hco.shared table (Schema.mem_of_table htable).1
  have hstamps := stamps_of_ofDomain hcompiles hbase
  have hkbase : base.keyColumn? = some k := hshares.keyColumn?.symm.trans hk
  obtain ⟨key, tx, hkey, hrun, hstore⟩ := yields_of_replace htable hok
  obtain ⟨key', tx', hkey', hrun', hstore'⟩ := yields_of_replace htable hok'
  obtain rfl := Except.ok.inj (hkey'.symm.trans hkey)
  obtain ⟨-, hkeynull⟩ := Change.accepts_of_keyFor hk hkey
  obtain rfl := Change.keyFor_eq hk hkey
  rw [hstore, hstore', hshares.name]
  rw [hshares.name] at hsame
  rw [hshares.primaryKey] at hequal hkept
  -- both rows have the key
  have hlt := (List.getElem?_eq_some_iff.1 hsame.place).1
  have hplace' : (t.rows.set place old')[place]? = some old' := List.getElem?_set_self hlt
  have hnull : (old.cell base.primaryKey).isNull = false :=
    (keysApart_run hco steps base hbase t hsame.own k hkbase).filled
      old (List.mem_of_getElem? hsame.place)
  have hholds {r : Record} (hr : r.cell base.primaryKey = old.cell base.primaryKey) :
      (Predicate.eq base.primaryKey (k.type.interpret id)).holds base.columns r = true := by
    rw [Transaction.holds_eq hkeynull, Table.typeIn_keyColumn hkbase, hr]
    exact ⟨hnull, hequal⟩
  obtain ⟨row, hrefreshes, hlists⟩ := Change.refreshed_in_place hco hbase hshares hstamps
    (regular_run hco steps) (shaped_run hco steps) hrun hkey hsame.own hsame.place (hholds rfl)
  obtain ⟨row', hrefreshes', hlists'⟩ := Change.refreshed_in_place hco hbase hshares hstamps
    (regular_run hco steps') (shaped_run hco steps') hrun' hkey hsame.own' hplace'
    (hholds (hkept _ List.mem_cons_self))
  -- they are of one shape, so the row that is made of them is the same
  have hshape := shaped_run hco steps base hbase t hsame.own old (List.mem_of_getElem? hsame.place)
  have hshape' := shaped_run hco steps' base hbase _ hsame.own' old' (List.mem_of_getElem? hplace')
  obtain rfl := hrefreshes.eq hrefreshes' (hshape'.keys_eq.trans hshape.keys_eq.symm)
    (fun name hname => by
      rw [Table.columnNames, hshares.columns]
      exact hshape.mem_keys.1 hname)
    (fun name hname => by
      obtain ⟨c, hc, rfl, -⟩ := hstamps.filled name hname
      rw [hshape.get?_eq_cell (Table.mem_columnNames hc),
        hshape'.get?_eq_cell (Table.mem_columnNames hc), hkept _ (List.mem_cons_of_mem _ hname)])
  refine ⟨row', hrefreshes, ?_, ?_, ?_⟩
  · exact hlists.get?_written hco hbase hshares fun _ hm => hm
  · rw [hlists'.get?_written hco hbase hshares fun _ hm => hm, List.set_set]
  · rintro rfl name
    exact hlists.unique (fun m hm => hco.link_of_list hbase hshares hm)
      (fun _ _ _ _ _ hu hv => hu.unique hv) hlists' (fun other => hsame.put row' other) name

/-! ### A sample -/

/-- Tickets have a price and a state, and are only flagged as deleted. -/
def ticketDomain : Domain := .ofList [("ticket", {
  fields := .ofList [
    ("price", { typeName := "float" }),
    ("state", { typeName := "string", default? := some (.string "open") }),
    ("note", { typeName := "string" })]
  softDelete := true })]

def ticketCatalog : Catalog := .compiled {} ticketDomain

/-- Two tickets, of which one is changed. -/
def ticketSteps (change : Operation) : List Step := [
  (⟨0, 0⟩, .createTables),
  (⟨1, 0⟩, .insert "ticket" [{}, .ofList [("price", .int 5), ("state", .string "sold")]]),
  (⟨2, 0⟩, change)]

/-- The second ticket is given a note. -/
def notedSteps : List Step :=
  ticketSteps (.update "ticket" (.int 2) (.ofList [("note", .string "front row")]))

/-- The second ticket is deleted at that time instead. -/
def deletedSteps : List Step := ticketSteps (.remove "ticket" [⟨"id", .eq, .int 2⟩])

/-- A cheap ticket. -/
def cheapTicket : Record := .ofList [("price", .float (.ofInt 2))]

theorem ofDomain_ticket : Catalog.ofDomain {} ticketDomain = .ok ticketCatalog :=
  Catalog.ofDomain_compiled rfl

deriving instance DecidableEq for Column

deriving instance DecidableEq for StoredTable

/-- The ticket is replaced by a cheap one, under a spelling of its key, and is the same whether it
had a note or was deleted. -/
theorem ticket_replaced_afresh : ∃ table t old old' row,
    ticketCatalog.schema.table "ticket" = .ok table
      ∧ (ticketCatalog.run notedSteps).store.SameBut table.name
        t 1 old old' (ticketCatalog.run deletedSteps).store
      ∧ old.cell "_deleted" = .bool false ∧ old'.cell "_deleted" = .bool true
      ∧ cheapTicket.Refreshes table (.int 2) old row
      ∧ (ticketCatalog.replace "ticket" ⟨3, 0⟩ (.string " 2") cheapTicket
          (ticketCatalog.run notedSteps)).2.store.tables.get? table.name
        = some { t with rows := t.rows.set 1 row }
      ∧ (ticketCatalog.replace "ticket" ⟨4, 0⟩ (.string " 2") cheapTicket
          (ticketCatalog.run deletedSteps)).2.store.tables.get? table.name
        = some { t with rows := t.rows.set 1 row } := by
  have hparts : ((ticketCatalog.schema.table "ticket").toOption.bind fun table =>
      table.keyColumn?.bind fun k =>
      ((ticketCatalog.run notedSteps).store.tables.get? table.name).bind fun t =>
      t.rows[1]?.bind fun old =>
      ((ticketCatalog.run deletedSteps).store.rows table.name)[1]?.map fun old' =>
        decide ((ticketCatalog.run deletedSteps).store.tables
            = (ticketCatalog.run notedSteps).store.tables.insert
              table.name { t with rows := t.rows.set 1 old' }
          ∧ k.type.interpret (.string " 2") = .int 2
          ∧ k.type.equal (old.cell table.primaryKey) (k.type.interpret (.string " 2")) = true
          ∧ (∀ name ∈ table.primaryKey :: Change.stampColumns, old'.cell name = old.cell name)
          ∧ old.cell "_deleted" = .bool false ∧ old'.cell "_deleted" = .bool true))
            = some true := by
    decide +kernel
  obtain ⟨table, htable, hparts⟩ := Option.bind_eq_some_iff.1 hparts
  obtain ⟨k, hk, hparts⟩ := Option.bind_eq_some_iff.1 hparts
  obtain ⟨t, ht, hparts⟩ := Option.bind_eq_some_iff.1 hparts
  obtain ⟨old, hold, hparts⟩ := Option.bind_eq_some_iff.1 hparts
  obtain ⟨old', -, hfacts⟩ := Option.map_eq_some_iff.1 hparts
  obtain ⟨htables, hid, hequal, hkept, hnoted, hdeleted⟩ := of_decide_eq_true hfacts
  have htable := eq_ok_of_toOption htable
  have hsame : (ticketCatalog.run notedSteps).store.SameBut table.name t 1 old old'
      (ticketCatalog.run deletedSteps).store :=
    ⟨ht, by rw [htables, NameMap.get?_insert_self], hold, fun other hother => by
      rw [htables, NameMap.get?_insert_of_ne _ _ hother]⟩
  have hok : (ticketCatalog.replace "ticket" ⟨3, 0⟩ (.string " 2") cheapTicket
      (ticketCatalog.run notedSteps)).1 = .ok () := eq_ok_of_toOption (by decide +kernel)
  have hok' : (ticketCatalog.replace "ticket" ⟨4, 0⟩ (.string " 2") cheapTicket
      (ticketCatalog.run deletedSteps)).1 = .ok () := eq_ok_of_toOption (by decide +kernel)
  obtain ⟨row, hrefreshes, hnotedrow, hdeletedrow, -⟩ :=
    replaced_afresh ofDomain_ticket notedSteps deletedSteps
    htable hk hsame hequal hkept hok hok'
  rw [hid] at hrefreshes
  exact ⟨table, t, old, old', row, htable, hsame, hnoted, hdeleted, hrefreshes,
    hnotedrow, hdeletedrow⟩

end Catalog

end RecordStore
