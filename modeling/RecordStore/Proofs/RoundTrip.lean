import RecordStore.Proofs.Doubles
import RecordStore.Proofs.Links
import RecordStore.Proofs.Reading
import RecordStore.Proofs.Supply
import RecordStore.Proofs.Texts

/-!
# Inserting and reading

A record that was inserted is read as it was given. Its row has the values of the document, and
where it gives none those that the columns fill in. Its lists are read as they were given because no
links of another row are taken for its own: the key is new, and a link points at a row that is
there.

* **`Store.Anchored.unlisted`** — a reader finds no links for a new key.
* **`Change.adds_of_insert`** — what an insertion writes to the link tables of its resource.
* **`Catalog.inserted_records_are_read`** — the records of an insertion are read as they were given.
-/

namespace RecordStore

open RecordStore.Action

/-! ## Links of a new key -/

section NewKey

variable {schema : Schema} {times : Time.Instant → Prop} {s : Store} {base link target : Table}
  {m : ListField} {k targetKey : Column} {key : Value}

/-- **A reader finds no links for a new key.** A link with its text would point at a row with an
equal key. -/
theorem Store.Anchored.unlisted (hwf : schema.WellFormed) (hsound : s.Sound schema times)
    (h : s.Anchored schema) (hbase : base ∈ schema.bases)
    (hserves : schema.Serves base m link target k targetKey)
    (haccepts : k.type.accepts key = true) (hkeynull : key.isNull = false)
    (hexact : k.type = .float → ∃ x, key = .float x)
    (hnew : ∀ row ∈ s.rows base.name, k.isHeldBy k.name key row = false) {u : StoredTable}
    (hu : s.tables.get? link.name = some u)
    (htype : typeIn u.columns m.ownerColumn = k.type) {row : Record} (hrow : row ∈ u.rows)
    (hholds : (Predicate.eq m.ownerColumn key).holds u.columns row = true) :
    (row.cell m.ownerColumn).text ≠ key.text := by
  intro htext
  have hlink := (Schema.mem_of_linkTable hserves.link_eq).1
  have hphysical := Schema.mem_physical_of_link hlink
  have hmem : row ∈ s.rows link.name := by
    rw [Store.rows_of_get? hu]
    exact hrow
  obtain ⟨hnull, hequal⟩ := (Transaction.holds_eq hkeynull).1 hholds
  rw [htype] at hequal
  have hc : Compile.linkColumn m.ownerColumn base k ∈ link.columns := by
    simp [hserves.columns_eq]
  have hcell : k.type.accepts (row.cell m.ownerColumn) = true := by
    rcases (hsound link hphysical u hu).fits row hrow _ hc with hcell | ⟨hstamp, -⟩
    · exact hcell
    · cases hstamp
  -- among doubles, a whole number has not the text of the key
  have htakes :
    (Compile.linkColumn m.ownerColumn base k).TakesExactly (row.cell m.ownerColumn) := by
    intro hfloat
    change k.type = .float at hfloat
    obtain ⟨x, rfl⟩ := hexact hfloat
    rw [hfloat] at hcell
    rcases ColumnType.accepts_float hcell hnull with ⟨n, hn⟩ | hx
    · rw [hn] at htext
      cases Value.text_injective htext
    · exact hx
  obtain ⟨o, ho, hheld⟩ := h link hlink row hmem _ hc htakes _ rfl hnull
  obtain ⟨hkmem, hkey⟩ := hsound.key_of_row hwf hbase hserves.ownerKey_eq ho
  rw [Column.isHeldBy_iff hkmem] at hheld
  change k.type.equal (o.cell k.name) (row.cell m.ownerColumn) = true at hheld
  rw [ColumnType.equal_comm] at hheld
  have hclash : k.type.equal (o.cell k.name) key = true :=
    ColumnType.equal_key_trans ⟨hcell, hnull⟩ hkey haccepts hkeynull hexact hheld hequal
  have hnot := hnew o ho
  rw [Column.isHeldBy_iff hkmem, hclash] at hnot
  cases hnot

end NewKey

/-! ## What a document gives -/

namespace Document

variable {schema : Schema} {table : Table} {doc : Record}

/-- A field of a checked document is a column, or a list that is null or has items. -/
theorem known_of_check (h : checkPartial schema table doc = .ok ()) {name : String} {v : Value}
    (hv : doc.get? name = some v) :
    (∃ c, table.column? name = some c)
      ∨ ∃ m, table.listField? name = some m ∧ (v = .null ∨ ∃ items, v = .array items) := by
  have hfield := forM_eq_ok_iff.1 h (name, v) ((NameMap.get?_eq_some_iff ..).1 hv)
  unfold checkField at hfield
  cases hc : table.column? name with
  | some c => exact .inl ⟨c, rfl⟩
  | none =>
    cases hm : table.listField? name with
    | none =>
      simp only [hc, hm] at hfield
      cases hfield
    | some m =>
      simp only [hc, hm] at hfield
      refine .inr ⟨m, rfl, ?_⟩
      cases v with
      | null => exact .inl rfl
      | array items => exact .inr ⟨items, rfl⟩
      | _ => cases hfield

end Document

namespace Change

/-- The members that a document gives for a list, none where it is null or absent. -/
def givenMembers (doc : Record) (m : ListField) : List Value :=
  ((doc.get? m.field).map memberValues).getD []

end Change

/-! ## The row of a document -/

/-- A row has the values of a record, and what is filled in for those that it does not give. -/
structure Table.RowFor (base : Table) (new row : Record) : Prop where
  given : ∀ name ∈ base.columnNames, ∀ v, new.get? name = some v → row.cell name = v
  filled : ∀ c ∈ base.columns, new.get? c.name = none → row.cell c.name = c.default?.getD .null

/-- The fields of a record are columns of a table, or lists that are null or have items. -/
def Table.Knows (base : Table) (new : Record) : Prop :=
  ∀ name v, new.get? name = some v → name ∈ base.columnNames
    ∨ ∃ m, base.listField? name = some m ∧ (v = .null ∨ ∃ items, v = .array items)

section Rows

variable {schema : Schema} {table base : Table} {now : Time.Instant} {doc : Record}

/-- The names of a stamped document are those of stamps, the key, and those of the document. -/
theorem get?_stamped_document (hshares : table.SharesRows base) (id : Value) {name : String}
    (hstamp : name ∉ Change.stampColumns) : (Change.stamped table now doc id).get? name
      = if name = base.primaryKey then some id else (Change.withDoubles table doc).get? name := by
  rw [Change.get?_stamped_of_not_mem doc id hstamp, hshares.primaryKey, NameMap.get?_insert]

/-- The document that an insertion hands back has columns and lists only. -/
theorem knows_stamped (hco : schema.Coherent) (hwf : base.WellFormed) (hbase : base ∈ schema.bases)
    (hshares : table.SharesRows base) (hcheck : Document.checkPartial schema table doc = .ok ())
    (id : Value) : base.Knows (Change.stamped table now doc id) := by
  intro name v hv
  by_cases hstamp : name ∈ Change.stampColumns
  · exact .inl (hwf.stamp_mem hstamp)
  rw [get?_stamped_document hshares id hstamp] at hv
  split at hv
  · rename_i hkey
    exact .inl (hkey ▸ hwf.key_mem)
  · -- a field of the document, of which only numbers can have become others
    have hdoc : ∃ w, doc.get? name = some w ∧ (name ∉ Change.doubleNames table → v = w) := by
      rw [Change.get?_withDoubles] at hv
      split at hv
      · rename_i hdouble
        obtain ⟨w, hw, -⟩ := Option.map_eq_some_iff.1 hv
        exact ⟨w, hw, fun hnot => absurd hdouble hnot⟩
      · exact ⟨v, hv, fun _ => rfl⟩
    obtain ⟨w, hw, hsame⟩ := hdoc
    rcases Document.known_of_check hcheck hw with ⟨c, hc⟩ | ⟨m, hm, hkind⟩
    · obtain ⟨hmem, rfl⟩ := Table.mem_of_column? hc
      rw [hshares.columns] at hmem
      exact .inl (Table.mem_columnNames hmem)
    · obtain ⟨hmem, rfl⟩ := Table.mem_of_listField? hm
      have hnot : m.field ∉ Change.doubleNames table := by
        intro hdouble
        obtain ⟨c, hc, hname, -⟩ := Change.mem_doubleNames.1 hdouble
        rw [hshares.columns] at hc
        exact hco.field_not_column hbase (hshares.lists ▸ hmem) (hname ▸ Table.mem_columnNames hc)
      rw [hsame hnot]
      exact .inr ⟨m, (hshares.listField? m.field).symm.trans hm, hkind⟩

/-- The row that an inserted document is stored as. -/
theorem rowFor_of_fill (hco : schema.Coherent) (hwf : base.WellFormed) (hbase : base ∈ schema.bases)
    (hshares : table.SharesRows base) {t : StoredTable} (hcolumns : t.columns = base.columns)
    (hcounter : isSigned64 t.nextId = true) {row : Record} {next : Int}
    (hfill : t.fill (.string now.text) (Change.insertedRow table now doc) = (row, next)) :
    base.RowFor (Change.stamped table now doc (row.cell base.primaryKey)) row := by
  have hgiven {name : String} (hname : name ∈ base.columnNames) {v : Value}
      (hv : (Change.insertedRow table now doc).get? name = some v) : row.cell name = v := by
    have hget := StoredTable.fill_given t (.string now.text) (Change.insertedRow table now doc) hv
      (by rw [hcolumns]; exact hname)
    rw [hfill] at hget
    exact Record.cell_eq_of_get? hget
  refine ⟨fun name hname v hv => ?_, fun c hc hnone => ?_⟩
  · by_cases hstamp : name ∈ Change.stampColumns
    · rw [Change.get?_stamped doc _ hstamp] at hv
      rw [← Option.some.inj hv]
      exact hgiven hname (Change.get?_insertedRow doc hstamp)
    · rw [get?_stamped_document hshares _ hstamp] at hv
      split at hv
      · rename_i hkey
        rw [hkey]
        exact Option.some.inj hv
      · exact hgiven hname ((get?_insertedRow_column hco hbase hshares hname hstamp).trans hv)
  · have hstamp : c.name ∉ Change.stampColumns := by
      intro hmem
      rw [Change.get?_stamped doc _ hmem] at hnone
      cases hnone
    rw [get?_stamped_document hshares _ hstamp] at hnone
    split at hnone
    · cases hnone
    -- the column is neither the key nor a stamp, so its default is all that there is
    rename_i hkey
    have hauto : c.autoIncrement = false := by
      by_contra hnumber
      have hphysical := Schema.mem_physical_of_base hbase
      obtain ⟨hk, -⟩ := hco.numbered base hphysical c hc (by simpa using hnumber)
      exact hkey (Table.mem_of_column? hk).2
    have hnow : c.defaultNow = false := by
      by_contra hnow
      exact hstamp (hco.stamps_only base hbase c hc (by simpa using hnow))
    have hname := Table.mem_columnNames hc
    exact StoredTable.cell_of_not_given hfill (hcolumns ▸ hwf.names_nodup) (hcolumns ▸ hc) hcounter
      ((get?_insertedRow_column hco hbase hshares hname hstamp).trans hnone) hauto hnow

end Rows

/-! ## What an insertion writes -/

section Insertions

variable {schema : Schema} {times : Time.Instant → Prop} {table base : Table} {now : Time.Instant}
  {doc new other row : Record} {id : Value} {tx tx' : Transaction}

/-- A list of a stamped document is the one that was given. -/
theorem Change.givenMembers_stamped (hco : schema.Coherent) (hwf : base.WellFormed)
    (hbase : base ∈ schema.bases) (hshares : table.SharesRows base) {m : ListField}
    (hm : m ∈ base.lists) :
    givenMembers (stamped table now doc id) m = givenMembers (withDoubles table doc) m := by
  have hfield := hco.field_not_column hbase hm
  have hstamp : m.field ∉ stampColumns := fun hmem => hfield (hwf.stamp_mem hmem)
  have hkey : m.field ≠ base.primaryKey := fun heq => hfield (heq ▸ hwf.key_mem)
  rw [givenMembers, givenMembers, get?_stamped_document hshares id hstamp, if_neg hkey]

/-- **An insertion puts the links to the given members behind those of each link table.** -/
theorem Change.adds_of_insert (hco : schema.Coherent) (hregular : tx.work.Regular schema)
    (hbase : base ∈ schema.bases) (hshares : table.SharesRows base)
    {t t' : StoredTable} (ht : tx.work.tables.get? base.name = some t)
    (hlists : (tx.work.put base.name t').ListsTurn schema (listsOf table doc) Prod.fst
      (fun entry link t t' => t.Adds link.uniqueGroups (.string now.text)
        (entry.2.map (linkRow entry.1 id)) t') tx'.work)
    {k : Column} (hk : base.keyColumn? = some k) {m : ListField} (hm : m ∈ base.lists) :
    ∃ link u u', tx.work.tables.get? link.name = some u ∧ tx'.work.tables.get? link.name = some u'
      ∧ u.LinkOf schema base m link k
      ∧ u.Adds link.uniqueGroups (.string now.text)
        ((givenMembers doc m).map (linkRow m id)) u' := by
  have hmem : m ∈ table.lists := hshares.lists ▸ hm
  have hfound : table.listField? m.field = some m := by
    have hnodup := hco.fields_nodup base hbase
    rw [Table.listNames, ← hshares.lists] at hnodup
    exact find?_eq_of_nodup hnodup hmem
  cases hv : doc.get? m.field with
  | some v =>
    have hentry : (m, memberValues v) ∈ listsOf table doc :=
      mem_listsOf.2 ⟨v, (NameMap.get?_eq_some_iff ..).1 hv, hfound, rfl⟩
    have hgiven : givenMembers doc m = memberValues v := by
      rw [givenMembers, hv]
      rfl
    rw [hgiven]
    exact hlists.turned hco hbase hregular ht hk hentry hm
  | none =>
    have hgiven : givenMembers doc m = [] := by
      rw [givenMembers, hv]
      rfl
    obtain ⟨link, u, hu, hlinkof⟩ := hregular.exists_linkOf hco hbase ht hm hk
    obtain ⟨hlinkmem, hlinkname⟩ := Schema.mem_of_linkTable hlinkof.link_eq
    -- the link table is that of no list that is given
    have hnot : link.name ∉ (listsOf table doc).map fun entry => entry.1.linkTable := by
      intro hmem'
      obtain ⟨entry, hentry, hname⟩ := List.mem_map.1 hmem'
      have hlist : entry.1 ∈ base.lists := hshares.lists ▸ list_of_mem_listsOf hentry
      have heq : entry.1 = m := List.inj_on_of_nodup_map (hco.links_nodup base hbase) hlist hm
        (hname.trans hlinkname)
      obtain ⟨v, hmem', -, -⟩ := mem_listsOf.1 hentry
      rw [heq, ← NameMap.get?_eq_some_iff, hv] at hmem'
      cases hmem'
    refine ⟨link, u, u, hu, ?_, hlinkof, ?_⟩
    · rw [hlists.other _ hnot, Store.get?_put, if_neg (hco.base_ne_link hbase hlinkmem).symm, hu]
    · rw [hgiven]
      exact .nil u

/-- A key among doubles is stored as a double. -/
theorem Change.key_float (hco : schema.Coherent) (hbase : base ∈ schema.bases)
    (hshares : table.SharesRows base) {k : Column} (hk : base.keyColumn? = some k)
    (hcheck : Document.checkPartial schema table doc = .ok ()) {t : StoredTable}
    (hcolumns : t.columns = base.columns) (hcounter : isSigned64 t.nextId = true) {next : Int}
    (hfill : t.fill (.string now.text) (insertedRow table now doc) = (row, next))
    (hkeynull : (row.cell base.primaryKey).isNull = false) (hfloat : k.type = .float) :
    ∃ x, row.cell base.primaryKey = .float x := by
  obtain ⟨hkmem, hkname⟩ := Table.mem_of_column? hk
  -- a key has no default, which could be a whole number
  obtain ⟨k', hk', -, -, hdefault⟩ := hco.keyed base (Schema.mem_physical_of_base hbase)
  obtain rfl := Option.some.inj (hk'.symm.trans hk)
  have hdouble : (k'.doubleOf doc).IsDouble :=
    (hco.isDouble_doubleOf_iff hbase hshares hcheck hkmem hfloat).2 (by simp [hdefault])
  rw [← hco.cell_inserted_double hbase hshares hkmem hfloat hcolumns hcounter hfill, hkname]
    at hdouble
  exact hdouble hkeynull

/-- What is true of the stores of a run. -/
structure Store.Ready (schema : Schema) (s : Store) : Prop where
  sound : s.Sound schema fun _ => True
  regular : s.Regular schema
  anchored : s.Anchored schema

theorem Store.Ready.insert (hco : schema.Coherent) (hwf : schema.WellFormed)
    (h : tx.work.Ready schema) (hbase : base ∈ schema.bases) (hshares : table.SharesRows base)
    (hrun : Yields (Change.insert schema table now doc) tx (id, new) tx') :
    tx'.work.Ready schema := by
  have hmoves : Moves schema (fun _ => True) True tx.work tx'.work :=
    Change.moves_of_insert hwf h.sound hbase hshares trivial hrun
  exact ⟨h.sound.moves hwf hmoves, h.regular.turns hco (turns_of_insert hco hbase hshares hrun),
    h.anchored.moves hwf h.sound hmoves⟩

/-- A row is in the table of its resource, and a reader finds the members that a record gives for
its lists. -/
structure Store.HoldsRecord (schema : Schema) (base : Table) (new row : Record) (s : Store) :
    Prop where
  stored : row ∈ s.rows base.name
  listed : ∀ m ∈ base.lists, ∀ link, schema.linkTable m.linkTable = .ok link → ∀ t,
    s.tables.get? link.name = some t →
      t.listed link m (row.cell base.primaryKey) = Change.givenMembers new m

/-- The row of a link is numbered. -/
theorem Store.Sound.link_number (hwf : schema.WellFormed) {s : Store} (h : s.Sound schema times)
    {link : Table} (hlink : link ∈ schema.links) {u : StoredTable}
    (hu : s.tables.get? link.name = some u) (hrow : row ∈ u.rows) :
    ∃ n, row.cell link.primaryKey = .int n ∧ isSigned64 n = true := by
  have hphysical := Schema.mem_physical_of_link hlink
  obtain ⟨haccepts, hnull⟩ :=
    (h link hphysical u hu).key_accepted (hwf.tables link hphysical) (hwf.link_key hlink) hrow
  exact ColumnType.accepts_integer haccepts hnull

/-- **The row of an inserted document holds the record.** -/
theorem Change.holdsRecord_of_insert (hco : schema.Coherent) (hwf : schema.WellFormed)
    (hready : tx.work.Ready schema) (hbase : base ∈ schema.bases) (hshares : table.SharesRows base)
    (hbelow : tx'.work.LinkKeysBelow schema)
    (h : Yields (insert schema table now doc) tx (id, new) tx') :
    ∃ row, id = row.cell base.primaryKey ∧ base.RowFor new row
      ∧ tx'.work.HoldsRecord schema base new row ∧ base.Knows new := by
  have hready' := hready.insert hco hwf hbase hshares h
  have hphysical := Schema.mem_physical_of_base hbase
  have hbasewf := hwf.tables base hphysical
  obtain ⟨hcheck, -, rfl⟩ := yields_insert.1 h
  obtain ⟨t, row, next, ht, hfill, hadmissible, rfl, hlists⟩ := effect_of_insert hco hbase hshares h
  obtain ⟨hcolumns, hcounter⟩ := hready.regular.columns_eq base hphysical t ht
  have ht' := hlists.get?_written hco hbase hshares fun _ hentry => list_of_mem_listsOf hentry
  have hstored : row ∈ tx'.work.rows base.name := by
    rw [Store.rows_of_get? ht']
    exact List.mem_append_right _ (List.mem_singleton_self row)
  have hpartial := Document.checkPartial_of_check hcheck
  refine ⟨row, rfl, rowFor_of_fill hco hbasewf hbase hshares hcolumns hcounter hfill, ⟨hstored, ?_⟩,
    knows_stamped hco hbasewf hbase hshares hpartial _⟩
  intro m hm link hlink u' hu'
  obtain ⟨k, hk, hprimary, -⟩ := hbasewf.key
  obtain ⟨link', u, v, hu, hv, hlinkof, hadds⟩ :=
    adds_of_insert hco hready.regular hbase hshares ht hlists hk hm
  obtain rfl : link' = link := Except.ok.inj (hlinkof.link_eq.symm.trans hlink)
  obtain rfl : v = u' := Option.some.inj (hv.symm.trans hu')
  obtain ⟨target, targetKey, hserves⟩ := hlinkof.exists_serves hco
  have hlinkmem := (Schema.mem_of_linkTable hlink).1
  have hlinkwf := hwf.tables link' (Schema.mem_physical_of_link hlinkmem)
  obtain ⟨hkmem, hkname⟩ := Table.mem_of_column? hk
  obtain ⟨-, haccepts, hkeynull⟩ := hready'.sound.key_of_row hwf hbase hk hstored
  have hnew := (hadmissible.key (hcolumns ▸ hkmem) hprimary).2
  rw [← Store.rows_of_get? ht, hkname] at hnew
  rw [hkname] at haccepts hkeynull
  have hexact := key_float hco hbase hshares hk hpartial hcolumns hcounter hfill hkeynull
  rw [givenMembers_stamped hco hbasewf hbase hshares hm]
  refine hadds.listed_new hlinkof hco haccepts hkeynull
    hlinkwf.key_not_stamp (hbelow.stored hlinkmem hu')
    (fun r hr => ?_) fun r hr hholds => ?_
  · exact hready'.sound.link_number hwf hlinkmem hu' hr
  · exact hready.anchored.unlisted hwf hready.sound hbase hserves haccepts hkeynull hexact
      (hkname ▸ hnew) hu (hlinkof.typeIn_owner hco) hr hholds

/-- **Inserting another document leaves the record**: the links that it writes are those of another
key. -/
theorem Store.HoldsRecord.insert (hco : schema.Coherent) (hwf : schema.WellFormed)
    (hready : tx.work.Ready schema) (hbase : base ∈ schema.bases) (hshares : table.SharesRows base)
    (hrun : Yields (Change.insert schema table now doc) tx (id, new) tx')
    (h : tx.work.HoldsRecord schema base other row) :
    tx'.work.HoldsRecord schema base other row := by
  have hphysical := Schema.mem_physical_of_base hbase
  refine ⟨((Change.stamped_of_insert hrun).1 base.name).subset h.stored,
    fun m hm link hlink u' hu' => ?_⟩
  obtain ⟨t, new, next, ht, hfill, hadmissible, rfl, hlists⟩ :=
    Change.effect_of_insert hco hbase hshares hrun
  obtain ⟨hcolumns, -⟩ := hready.regular.columns_eq base hphysical t ht
  obtain ⟨k, hk, hprimary, -⟩ := (hwf.tables base hphysical).key
  obtain ⟨hkmem, hkname⟩ := Table.mem_of_column? hk
  obtain ⟨link', u, v, hu, hv, hlinkof, hadds⟩ :=
    Change.adds_of_insert hco hready.regular hbase hshares ht hlists hk hm
  obtain rfl : link' = link := Except.ok.inj (hlinkof.link_eq.symm.trans hlink)
  obtain rfl : v = u' := Option.some.inj (hv.symm.trans hu')
  obtain ⟨hrowmem, -, hkeynull⟩ := hready.sound.key_of_row hwf hbase hk h.stored
  -- the new key is not equal to that of the row, since keys are apart
  have hrow : row ∈ t.rows := by
    rw [← Store.rows_of_get? ht]
    exact h.stored
  have happart := (hadmissible.key (hcolumns ▸ hkmem) hprimary).2 row hrow
  rw [Column.isHeldBy_iff hrowmem, hkname, ColumnType.equal_comm] at happart
  rw [hkname] at hkeynull
  rw [← h.listed m hm link' hlink u hu]
  exact hadds.listed_other hlinkof hco hkeynull happart

end Insertions

/-! ## What is read -/

/-- What is read for a field that was given: its value, but no members where a list is null. -/
def Table.readValue (table : Table) (field : String) (v : Value) : Value :=
  if (table.listField? field).isSome && v.isNull then .array [] else v

/-- A record has all that was inserted. Where nothing was given, a column has its default or null,
the flag of removed records is down, and a list is empty. -/
structure Table.Shows (table : Table) (new r : Record) : Prop where
  given : ∀ name v, new.get? name = some v → r.get? name = some (table.readValue name v)
  filled : ∀ c ∈ table.columns, new.get? c.name = none →
    r.get? c.name = some (c.default?.getD .null)
  unflagged : ∀ deleted, table.deletedColumn = some deleted → new.get? deleted = none →
    r.get? deleted = some (.bool false)
  empty : ∀ m ∈ table.lists, new.get? m.field = none → r.get? m.field = some (.array [])

namespace Catalog

variable {settings : Settings} {domain : Domain} {catalog : Catalog} {resource : String}
  {table base : Table} {now : Time.Instant} {db : Database} {row new r : Record}

/-- What is read for the row of an inserted record is what was inserted. -/
theorem shows_of_reads (hco : catalog.schema.Coherent) (hregular : db.store.Regular catalog.schema)
    (hbase : base ∈ catalog.schema.bases) (hshares : table.SharesRows base)
    (hreads : catalog.Reads base db.store row r) (hrowfor : base.RowFor new row)
    (hholds : db.store.HoldsRecord catalog.schema base new row) (hknows : base.Knows new) :
    table.Shows new r := by
  obtain ⟨t, ht, -⟩ := Store.get?_of_mem_rows hholds.stored
  have hmembers {m : ListField} (hm : m ∈ base.lists) :
      r.get? m.field = some (.array (Change.givenMembers new m)) := by
    obtain ⟨link, hlink⟩ := hco.link_of_list hbase (.refl base) hm
    have hphysical := Schema.mem_physical_of_link (Schema.mem_of_linkTable hlink).1
    obtain ⟨u, hu⟩ := hregular.exists_table ht hphysical
    rw [hreads.lists m hm link hlink u hu, hholds.listed m hm link hlink u hu]
  have hfilled (c : Column) (hc : c ∈ base.columns) (hnone : new.get? c.name = none) :
      r.get? c.name = some (c.default?.getD .null) := by
    rw [hreads.cells c.name (Table.mem_columnNames hc), hrowfor.filled c hc hnone]
  refine ⟨fun name v hv => ?_, fun c hc hnone => hfilled c (hshares.columns ▸ hc) hnone,
    fun deleted hdeleted hnone => ?_, fun m hm hnone => ?_⟩
  · rcases hknows name v hv with hname | ⟨m, hm, hkind⟩
    · rw [hreads.cells name hname, hrowfor.given name hname v hv, Table.readValue,
        hco.listField?_of_column hbase hshares hname]
      rfl
    · obtain ⟨hmem, rfl⟩ := Table.mem_of_listField? hm
      rw [hmembers hmem, Change.givenMembers, hv, Table.readValue, hshares.listField?, hm]
      rcases hkind with rfl | ⟨items, rfl⟩
      · rfl
      · rfl
  · rw [hshares.deletedColumn] at hdeleted
    obtain ⟨c, hc, rfl, hdefault⟩ := hco.flagged base hbase deleted hdeleted
    rw [hfilled c hc hnone, hdefault]
    rfl
  · rw [hmembers (hshares.lists ▸ hm), Change.givenMembers, hnone]
    rfl

/-- Documents that are inserted one after the other are all held, as are records of before. -/
theorem holdsRecord_of_insertAll (hco : catalog.schema.Coherent) (hwf : catalog.schema.WellFormed)
    (hbase : base ∈ catalog.schema.bases) (hshares : table.SharesRows base)
    (hready : db.store.Ready catalog.schema) {docs : List Record} {ids : List Value}
    (hids : (catalog.insertAll table now docs db).1.ids = .ok ids)
    (hbelow : (catalog.insertAll table now docs db).2.store.LinkKeysBelow catalog.schema) :
    (∀ other row, db.store.HoldsRecord catalog.schema base other row →
        (catalog.insertAll table now docs db).2.store.HoldsRecord catalog.schema base other row)
      ∧ List.Forall₂ (fun id new => ∃ row, id = row.cell base.primaryKey ∧ base.RowFor new row
          ∧ (catalog.insertAll table now docs db).2.store.HoldsRecord catalog.schema base new row
          ∧ base.Knows new)
        ids (catalog.insertAll table now docs db).1.docs := by
  -- on the documents, from the database that the first of them leaves
  induction docs generalizing db ids with
  | nil =>
    obtain rfl : [] = ids := Except.ok.inj hids
    exact ⟨fun _ _ h => h, .nil⟩
  | cons doc docs ih =>
    cases hone : (catalog.insertOne table now doc db).1 with
    | error e => simp [insertAll_cons_error hone] at hids
    | ok stamped =>
      obtain ⟨id, new⟩ := stamped
      rw [insertAll_cons_ok hone] at hids hbelow ⊢
      obtain ⟨rest, hrest, rfl⟩ := map_eq_ok_iff.1 hids
      obtain ⟨tx, hrun, hstore⟩ := yields_of_insertOne hone
      have hnext : (catalog.insertOne table now doc db).2.store.Ready catalog.schema := by
        rw [hstore]
        exact hready.insert hco hwf hbase hshares hrun
      obtain ⟨hkept, hall⟩ := ih hnext hrest hbelow
      have hgrows := (insertAll_ok hrest).2.2.2.1
      have hbelow' := hbelow.of_grows hgrows
      rw [hstore] at hbelow' hkept
      obtain ⟨row, hid, hrowfor, hholds, hknows⟩ :=
        Change.holdsRecord_of_insert hco hwf hready hbase hshares hbelow' hrun
      refine ⟨fun other row h => hkept other row ?_, .cons ⟨row, hid, hrowfor, ?_, hknows⟩ hall⟩
      · exact h.insert hco hwf hready hbase hshares hrun
      · exact hkept new row hholds

theorem ready_run (hco : catalog.schema.Coherent) (hwf : catalog.schema.WellFormed)
    (steps : List Step) :
    (catalog.run steps).store.Ready catalog.schema :=
  ⟨sound_run_anytime hwf steps, regular_run hco steps, anchored_run hwf steps⟩

/-- **What was inserted is read.** After an insertion that succeeded, each of its keys finds a
record that shows the document as it was handed back, as long as the numbers of links have not run
out. -/
theorem inserted_records_are_read (hcompiles : Catalog.ofDomain settings domain = .ok catalog)
    (hnames : settings.NamesApart) (hformat : settings.dateFormat = none) (steps : List Step)
    (htable : catalog.schema.table resource = .ok table) {docs : List Record} {ids : List Value}
    (hids : (catalog.insert resource now docs (catalog.run steps)).1.ids = .ok ids)
    (hbelow : (catalog.insert resource now docs (catalog.run steps)).2.store.LinkKeysBelow
      catalog.schema) :
    List.Forall₂ (fun id new => ∃ r, table.Shows new r
        ∧ catalog.findStored resource id (catalog.insert resource now docs (catalog.run steps)).2
          = (.ok (some r), (catalog.insert resource now docs (catalog.run steps)).2))
      ids (catalog.insert resource now docs (catalog.run steps)).1.docs := by
  have hco := coherent_of_ofDomain hcompiles
  have hwf := wellFormed_of_ofDomain hcompiles hnames
  obtain ⟨base, hbase, hshares⟩ := hco.shared table (Schema.mem_of_table htable).1
  have hphysical := Schema.mem_physical_of_base hbase
  have hready := ready_run hco hwf (steps ++ [(now, .insert resource docs)])
  rw [run_append, perform] at hready
  have hinsert : catalog.insert resource now docs (catalog.run steps)
      = catalog.insertAll table now docs (catalog.run steps) := by
    rw [insert, htable]
  rw [hinsert] at hids hbelow hready ⊢
  obtain ⟨-, hall⟩ :=
    holdsRecord_of_insertAll hco hwf hbase hshares (ready_run hco hwf steps) hids hbelow
  refine hall.imp fun id new hnew => ?_
  obtain ⟨row, rfl, hrowfor, hholds, hknows⟩ := hnew
  -- the row is the only one that its key finds
  obtain ⟨t, ht, hrow⟩ := Store.get?_of_mem_rows hholds.stored
  obtain ⟨k, hk, -⟩ := (hwf.tables base hphysical).key
  have hsound := hready.sound base hphysical t ht
  obtain ⟨haccepts, -⟩ := hsound.key_accepted (hwf.tables base hphysical) hk hrow
  have hmatching := hsound.matching_key (hwf.tables base hphysical) hrow
  obtain ⟨r, hreads, hfound⟩ :=
    findStored_of_row hco hready.regular htable hbase hshares hk ht hmatching
    (ColumnType.interpret_of_accepts haccepts) haccepts
  refine ⟨r, shows_of_reads hco hready.regular hbase hshares hreads hrowfor hholds hknows, ?_⟩
  rw [hfound, Fetch.presented, settings_of_ofDomain hcompiles, hformat]
  rfl

/-- Teams of both people, without members, and with nothing given. -/
def newTeams : List Record := [
  .ofList [("members", .array [.int 2, .int 1])],
  .ofList [("lead", .int 2), ("members", .null)],
  {}]

/-- The three teams are inserted, and each is read under its key as it was handed back. -/
theorem new_teams_are_read :
    ∃ table, sampleCatalog.schema.table "team" = .ok table
      ∧ List.Forall₂ (fun id new => ∃ r, table.Shows new r
          ∧ sampleCatalog.findStored "team" id
              (sampleCatalog.insert "team" ⟨4, 0⟩ newTeams (sampleCatalog.run pairedSteps)).2
            = (.ok (some r),
              (sampleCatalog.insert "team" ⟨4, 0⟩ newTeams (sampleCatalog.run pairedSteps)).2))
        [.int 2, .int 3, .int 4]
        (sampleCatalog.insert "team" ⟨4, 0⟩ newTeams (sampleCatalog.run pairedSteps)).1.docs := by
  have hlength : (sampleCatalog.schema.table "team").toOption.map (·.lists.length) = some 1 := by
    decide +kernel
  obtain ⟨table, htable, -⟩ := Option.map_eq_some_iff.1 hlength
  have htable := eq_ok_of_toOption htable
  have hids : (sampleCatalog.insert "team" ⟨4, 0⟩ newTeams (sampleCatalog.run pairedSteps)).1.ids
      = .ok [.int 2, .int 3, .int 4] := eq_ok_of_toOption (by decide +kernel)
  -- the links of so few members do not use up the numbers
  have hbelow := linkKeysBelow_run (coherent_of_ofDomain ofDomain_sample)
    (wellFormed_of_ofDomain ofDomain_sample (by decide))
    (pairedSteps ++ [(⟨4, 0⟩, .insert "team" newTeams)]) (by decide +kernel)
  rw [run_append, perform] at hbelow
  exact ⟨table, htable,
    inserted_records_are_read ofDomain_sample (by decide) rfl pairedSteps htable hids hbelow⟩

end Catalog

end RecordStore
