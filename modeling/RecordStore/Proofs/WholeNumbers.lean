import RecordStore.Proofs.Breaches
import RecordStore.Proofs.Doubles
import RecordStore.Proofs.Replay
import RecordStore.Proofs.RoundTrip

/-!
# Where whole numbers come from

The numbers that a document gives for columns of doubles are made doubles before they are stored.
Three other values reach such columns as they were written: the default of a column, the identifier
of a replacement, and the members of a list. Everything that is stored in a column of doubles is a
double as long as none of these is a whole number, and no longer.

* **`Store.InDoubles`** — the columns of doubles hold doubles, in all tables.
* **`Table.FillsWhole`**, **`Table.NamedByWhole`**, **`Change.ListsWhole`** — the whole numbers that
  a change stores.
* **`Catalog.WritesWhole`** — an operation that succeeds and stores one.
* **`Catalog.brokenOnlyBy_storingWhole`** — a change keeps the columns in doubles if and only if it
  stores none.
* **`Catalog.doubles_kept_iff`** — and so does a run.
-/

namespace RecordStore

open RecordStore.Action

/-! ## Values -/

namespace Value

theorem exists_int_of_isWhole {v : Value} (h : v.isWhole = true) : ∃ n, v = .int n := by
  cases v with
  | int n => exact ⟨n, rfl⟩
  | _ => cases h

/-- A whole number is spelled alike in two lists with the same items. -/
theorem any_isWhole_of_sameItems {xs ys : List Value} (hsame : sameItems xs ys = true)
    (h : ys.any isWhole = true) : xs.any isWhole = true := by
  obtain ⟨y, hy, hwhole⟩ := List.any_eq_true.1 h
  obtain ⟨n, rfl⟩ := exists_int_of_isWhole hwhole
  have hmem : canonical (.int n) ∈ xs.map canonical :=
    (sameItems_iff xs ys).1 hsame ▸ List.mem_map_of_mem hy
  obtain ⟨x, hx, heq⟩ := List.mem_map.1 hmem
  refine List.any_eq_true.2 ⟨x, hx, ?_⟩
  cases x <;> simp_all [canonical, isWhole]

end Value

/-! ## Rows of resources -/

/-- The columns of doubles of a row hold doubles. -/
def Table.InDoubles (table : Table) (row : Record) : Prop :=
  ∀ c ∈ table.columns, c.type = .float → (row.cell c.name).IsDouble

theorem Table.InDoubles.key {base : Table} {row : Record} (h : base.InDoubles row) {k : Column}
    (hk : base.keyColumn? = some k) (hfloat : k.type = .float) :
    (row.cell base.primaryKey).IsDouble := by
  obtain ⟨hkmem, hkname⟩ := Table.mem_of_column? hk
  exact hkname ▸ h k hkmem hfloat

/-- A document leaves a column of doubles to its default, which is a whole number. -/
def Table.FillsWhole (table : Table) (doc : Record) : Prop :=
  ∃ c ∈ table.columns, c.type = .float ∧ doc.get? c.name = none
    ∧ c.default?.any Value.isWhole = true

/-- A whole number is the identifier of a record whose key is a double. -/
def Table.NamedByWhole (table : Table) (id : Value) : Prop :=
  id.isWhole = true ∧ table.keyColumn?.any (·.type == .float) = true

instance (table : Table) (doc : Record) : Decidable (table.FillsWhole doc) :=
  inferInstanceAs (Decidable (∃ c ∈ table.columns, _ ∧ _))

instance (table : Table) (id : Value) : Decidable (table.NamedByWhole id) :=
  inferInstanceAs (Decidable (_ ∧ _))

section Rows

variable {schema : Schema} {table base : Table} {now : Time.Instant} {doc row : Record} {c : Column}

/-- No whole number is filled in for a document exactly if each column of doubles ends up with a
double or null. -/
theorem Schema.Coherent.not_fillsWhole_iff (hco : schema.Coherent) (hbase : base ∈ schema.bases)
    (hshares : table.SharesRows base) (hcheck : Document.checkPartial schema table doc = .ok ()) :
    ¬ table.FillsWhole doc
      ↔ ∀ c ∈ base.columns, c.type = .float → (c.doubleOf doc).IsDouble := by
  rw [Table.FillsWhole, hshares.columns]
  constructor
  · exact fun h c hc hfloat => (hco.isDouble_doubleOf_iff hbase hshares hcheck hc hfloat).2
      fun hwhole => h ⟨c, hc, hfloat, hwhole⟩
  · rintro h ⟨c, hc, hfloat, hwhole⟩
    exact (hco.isDouble_doubleOf_iff hbase hshares hcheck hc hfloat).1 (h c hc hfloat) hwhole

/-- The row of an inserted document. -/
theorem inDoubles_inserted_iff (hco : schema.Coherent) (hbase : base ∈ schema.bases)
    (hshares : table.SharesRows base) (hcheck : Document.checkPartial schema table doc = .ok ())
    {t : StoredTable} (hcolumns : t.columns = base.columns) (hcounter : isSigned64 t.nextId = true)
    {next : Int}
    (hfill : t.fill (.string now.text) (Change.insertedRow table now doc) = (row, next)) :
    base.InDoubles row ↔ ¬ table.FillsWhole doc := by
  rw [hco.not_fillsWhole_iff hbase hshares hcheck]
  exact forall₃_congr fun c hc hfloat => by
    rw [hco.cell_inserted_double hbase hshares hc hfloat hcolumns hcounter hfill]

/-- The row that a document replaces another one by. Its key is the identifier. -/
theorem inDoubles_replaced_iff (hco : schema.Coherent) (hbase : base ∈ schema.bases)
    (hshares : table.SharesRows base) (hcheck : Document.checkPartial schema table doc = .ok ())
    {key : Value} {stored : Option Record}
    (hcells : ∀ name v, (Change.replacedRow table now key stored doc).get? name = some v →
      row.get? name = some v) {k : Column} (hk : base.keyColumn? = some k) :
    base.InDoubles row ↔ ¬ table.FillsWhole doc ∧ (k.type = .float → key.IsDouble) := by
  obtain ⟨hkmem, hkname⟩ := Table.mem_of_column? hk
  have hlone {c : Column} (hc : c ∈ base.columns) (hfloat : c.type = .float)
      (hname : c.name = base.primaryKey) : k = c :=
    hco.lone base hbase c hc (.inl hfloat) k hkmem (hkname.trans hname.symm)
  have hcell {c : Column} (hc : c ∈ base.columns) (hfloat : c.type = .float) :
      row.cell c.name = if c.name = base.primaryKey then key else c.doubleOf doc := by
    rw [Column.doubleOf_eq hfloat]
    exact hco.cell_replaced hbase hshares hc (hco.lone base hbase c hc (.inl hfloat))
      (hco.double_not_stamp hbase hc hfloat) hcells
  rw [hco.not_fillsWhole_iff hbase hshares hcheck]
  constructor
  · refine fun h => ⟨fun c hc hfloat => ?_, fun hfloat => ?_⟩
    · have hdouble := h c hc hfloat
      rw [hcell hc hfloat] at hdouble
      split at hdouble
      -- the key has no default
      · rename_i hname
        obtain ⟨k', hk', -, -, hdefault⟩ := hco.keyed base (Schema.mem_physical_of_base hbase)
        obtain rfl := Option.some.inj (hk'.symm.trans hk)
        obtain rfl := hlone hc hfloat hname
        refine (hco.isDouble_doubleOf_iff hbase hshares hcheck hc hfloat).2 fun hwhole => ?_
        rw [hdefault] at hwhole
        cases hwhole.2
      · exact hdouble
    · have hdouble := h k hkmem hfloat
      rwa [hcell hkmem hfloat, if_pos hkname] at hdouble
  · rintro ⟨hfills, hkey⟩ c hc hfloat
    rw [hcell hc hfloat]
    split
    · rename_i hname
      exact hkey (hlone hc hfloat hname ▸ hfloat)
    · exact hfills c hc hfloat

/-- A record gives doubles for the columns of doubles for which it gives anything. -/
def Table.GivesDoubles (base : Table) (record : Record) : Prop :=
  ∀ c ∈ base.columns, c.type = .float → ∀ v, record.get? c.name = some v → v.IsDouble

theorem Record.RewrittenBy.inDoubles {record old : Record} (h : record.RewrittenBy old row)
    (hrecord : base.GivesDoubles record) (hold : base.InDoubles old) : base.InDoubles row := by
  intro c hc hfloat
  rcases h.2 c.name with hsame | ⟨v, hv, hgiven⟩
  · rw [Record.cell, hsame]
    exact hold c hc hfloat
  · rw [Record.cell_eq_of_get? hgiven]
    exact hrecord c hc hfloat v hv

/-- The row of an update gives doubles to columns of doubles. -/
theorem givesDoubles_updatedRow (hco : schema.Coherent) (hbase : base ∈ schema.bases)
    (hshares : table.SharesRows base) (hcheck : Document.checkPartial schema table doc = .ok ()) :
    base.GivesDoubles (Change.updatedRow table now doc) := by
  intro c hc hfloat v hv
  have hstamp : c.name ≠ updatedColumn := by
    rintro hname
    exact hco.double_not_stamp hbase hc hfloat (by rw [hname]; simp [Change.stampColumns])
  rw [Change.get?_updatedRow, if_neg hstamp] at hv
  split at hv
  · cases hv
  · rw [get?_withDoubles_double hshares hc hfloat] at hv
    obtain ⟨w, hw, rfl⟩ := Option.map_eq_some_iff.1 hv
    have hfound := Table.column?_of_lone hc (hco.lone base hbase c hc (.inl hfloat))
    have haccepts :=
      Document.accepts_of_check hcheck (get?_of_rowOf hw) ((hshares.column? _).trans hfound)
    rw [hfloat] at haccepts
    exact Value.isDouble_asDouble haccepts

/-- The flag of deleted rows is no double. -/
theorem givesDoubles_flag (hco : schema.Coherent) (hbase : base ∈ schema.bases) {deleted : String}
    (hdeleted : base.deletedColumn = some deleted) :
    base.GivesDoubles (.ofList [(deleted, .bool true), (updatedColumn, .string now.text)]) := by
  intro c hc hfloat v hv
  rw [Change.get?_flag] at hv
  split at hv
  · rename_i hname
    exact absurd (by rw [hname]; simp [Change.stampColumns]) (hco.double_not_stamp hbase hc hfloat)
  · split at hv
    · rename_i hname
      obtain ⟨d, hd, hdname, hdefault⟩ := hco.flagged base hbase deleted hdeleted
      obtain rfl := hco.lone base hbase c hc (.inl hfloat) d hd (hdname.trans hname.symm)
      have haccepts := hco.default_accepted base hbase d hd _ hdefault
      rw [hfloat] at haccepts
      cases haccepts
    · cases hv

theorem StoredTable.Rewrites.inDoubles {t t' : StoredTable} {record : Record}
    (h : t.Rewrites record t') (hrecord : base.GivesDoubles record)
    (hrows : ∀ row ∈ t.rows, base.InDoubles row) :
    ∀ row ∈ t'.rows, base.InDoubles row := by
  intro row hrow
  obtain ⟨old, hold, hrewritten⟩ := exists_of_mem_right h.rows hrow
  exact hrewritten.inDoubles hrecord (hrows old hold)

end Rows

/-! ## Links -/

/-- A list of records whose keys are doubles is given a whole number. -/
def Change.LinksWhole (schema : Schema) (m : ListField) (members : List Value) : Prop :=
  Document.memberType schema m = .ok .float ∧ members.any Value.isWhole = true

instance (schema : Schema) (m : ListField) (members : List Value) :
    Decidable (Change.LinksWhole schema m members) :=
  decidable_of_iff ((Document.memberType schema m).toOption = some .float
    ∧ members.any Value.isWhole = true)
    (and_congr_left' ⟨eq_ok_of_toOption, fun h => by rw [h]; rfl⟩)

section Links

variable {schema : Schema} {base link target : Table} {m : ListField} {ownerKey targetKey : Column}
  {owner : Value} {members : List Value} {row : Record} {t t' : StoredTable}

theorem Schema.Serves.memberType_eq (h : schema.Serves base m link target ownerKey targetKey) :
    Document.memberType schema m = .ok targetKey.type :=
  Document.memberType_eq h.target_eq h.targetKey_eq

theorem Schema.Serves.linksWhole_iff (h : schema.Serves base m link target ownerKey targetKey) :
    Change.LinksWhole schema m members
      ↔ targetKey.type = .float ∧ members.any Value.isWhole = true := by
  rw [Change.LinksWhole, h.memberType_eq, Except.ok.injEq]

/-- The columns of doubles of a link table are those of keys. -/
theorem Schema.Serves.inDoubles_iff (h : schema.Serves base m link target ownerKey targetKey) :
    link.InDoubles row ↔ (ownerKey.type = .float → (row.cell m.ownerColumn).IsDouble)
      ∧ (targetKey.type = .float → (row.cell m.memberColumn).IsDouble) := by
  simp [Table.InDoubles, h.columns_eq, Column.identity, Column.timestamp, Compile.linkColumn]

namespace StoredTable

/-- Added links hold doubles unless one of the members is a whole number. -/
theorem Adds.inDoubles_iff (hlink : t.LinkOf schema base m link ownerKey) (hco : schema.Coherent)
    (hserves : schema.Serves base m link target ownerKey targetKey)
    (howner : ownerKey.type = .float → owner.IsDouble)
    (hmembers : ∀ member ∈ members, targetKey.type.accepts member = true)
    (hrows : ∀ row ∈ t.rows, link.InDoubles row) {groups : List (List String)} {time : Time.Instant}
    (h : t.Adds groups (.string time.text) (members.map (Change.linkRow m owner)) t') :
    (∀ row ∈ t'.rows, link.InDoubles row) ↔ ¬ Change.LinksWhole schema m members := by
  obtain ⟨new, hnew, howned, hcells⟩ := h.exists_links hlink hco
  rw [hserves.linksWhole_iff]
  constructor
  · rintro hall ⟨hfloat, hwhole⟩
    obtain ⟨member, hmember, hmemberwhole⟩ := List.any_eq_true.1 hwhole
    rw [← hcells] at hmember
    obtain ⟨row, hrow, rfl⟩ := List.mem_map.1 hmember
    obtain ⟨n, hn⟩ := Value.exists_int_of_isWhole hmemberwhole
    have hdouble := (hserves.inDoubles_iff.1 (hall row (by simp [hnew, hrow]))).2 hfloat
    rw [hn] at hdouble
    exact Value.not_isDouble_int n hdouble
  · intro hnot row hrow
    rw [hnew] at hrow
    rcases List.mem_append.1 hrow with hold | hrow
    · exact hrows row hold
    · have hmember : row.cell m.memberColumn ∈ members := hcells ▸ List.mem_map_of_mem hrow
      refine hserves.inDoubles_iff.2
        ⟨fun hfloat => howned row hrow ▸ howner hfloat, fun hfloat => ?_⟩
      refine (Value.isDouble_iff (hfloat ▸ hmembers _ hmember)).2
        (Bool.eq_false_iff.2 fun hwhole => ?_)
      exact hnot ⟨hfloat, List.any_eq_true.2 ⟨_, hmember, hwhole⟩⟩

theorem exists_of_mem_listed {v : Value} (h : v ∈ t.listed link m owner) :
    ∃ row ∈ t.rows, row.cell m.memberColumn = v := by
  have hgathered : t.listed link m owner = t.gathered link m [owner] owner := rfl
  rw [hgathered, gathered_eq] at h
  obtain ⟨row, hrow, rfl⟩ := List.mem_map.1 h
  have hsorted := (perm_sortRows ..).mem_iff.1 (List.mem_of_mem_filter hrow)
  exact ⟨row, List.mem_of_mem_filter hsorted, rfl⟩

/-- Links that are set hold doubles unless one of the members is a whole number: a reader finds no
whole number among doubles, so the links are written anew. -/
theorem SetsLinks.inDoubles_iff (hlink : t.LinkOf schema base m link ownerKey)
    (hco : schema.Coherent) (hserves : schema.Serves base m link target ownerKey targetKey)
    (howner : ownerKey.type = .float → owner.IsDouble)
    (hmembers : ∀ member ∈ members, targetKey.type.accepts member = true)
    (hrows : ∀ row ∈ t.rows, link.InDoubles row) {time : Time.Instant}
    (h : t.SetsLinks link m (.string time.text) owner members t') :
    (∀ row ∈ t'.rows, link.InDoubles row) ↔ ¬ Change.LinksWhole schema m members := by
  rcases h with ⟨hsame, rfl⟩ | ⟨-, hadds⟩
  · refine iff_of_true hrows fun hwhole => ?_
    obtain ⟨hfloat, hwhole⟩ := hserves.linksWhole_iff.1 hwhole
    obtain ⟨v, hv, hvwhole⟩ := List.any_eq_true.1 (Value.any_isWhole_of_sameItems hsame hwhole)
    obtain ⟨row, hrow, rfl⟩ := exists_of_mem_listed hv
    obtain ⟨n, hn⟩ := Value.exists_int_of_isWhole hvwhole
    have hdouble := (hserves.inDoubles_iff.1 (hrows row hrow)).2 hfloat
    rw [hn] at hdouble
    exact Value.not_isDouble_int n hdouble
  · have hwithout : (t.withoutOwner m owner).LinkOf schema base m link ownerKey :=
      ⟨hlink.base_mem, hlink.list_mem, hlink.link_eq, hlink.key_eq, hlink.columns_eq, hlink.counter⟩
    exact hadds.inDoubles_iff hwithout hco hserves howner hmembers
      fun row hrow => hrows row (List.mem_of_mem_filter hrow)

end StoredTable

end Links

/-! ## Stores -/

/-- The columns of doubles of all tables hold doubles. -/
def Store.InDoubles (schema : Schema) (s : Store) : Prop :=
  ∀ table ∈ schema.physical, ∀ row ∈ s.rows table.name, table.InDoubles row

/-- A document gives a list of records whose keys are doubles a whole number. -/
def Change.ListsWhole (schema : Schema) (table : Table) (doc : Record) : Prop :=
  ∃ entry ∈ listsOf table doc, LinksWhole schema entry.1 entry.2

instance (schema : Schema) (table : Table) (doc : Record) :
    Decidable (Change.ListsWhole schema table doc) :=
  inferInstanceAs (Decidable (∃ entry ∈ Change.listsOf table doc, _))

theorem Change.not_listsWhole_iff {schema : Schema} {table : Table} {doc : Record} :
    ¬ ListsWhole schema table doc
      ↔ ∀ entry ∈ listsOf table doc, ¬ LinksWhole schema entry.1 entry.2 := by
  simp [ListsWhole]

/-- A list that the document does not give has no members. -/
theorem Change.not_linksWhole_membersFor_iff {schema : Schema} {table base : Table} {doc : Record}
    (hshares : table.SharesRows base) (hfields : base.listNames.Nodup) :
    (∀ m ∈ table.lists, ¬ LinksWhole schema m (membersFor table doc m))
      ↔ ¬ ListsWhole schema table doc := by
  constructor
  · rintro hnot ⟨entry, hentry, hwhole⟩
    rw [← membersFor_of_mem hentry] at hwhole
    exact hnot entry.1 (list_of_mem_listsOf hentry) hwhole
  · intro hnot m hm hwhole
    rcases membersFor_cases hshares hfields doc hm with hentry | hnone
    · exact hnot ⟨_, hentry, hwhole⟩
    · rw [hnone] at hwhole
      cases hwhole.2

section Stores

variable {schema : Schema} {table base : Table} {now : Time.Instant} {tx tx' : Transaction}
  {s s' : Store} {doc : Record}

theorem Store.InDoubles.rows_of_get? (h : s.InDoubles schema) (htable : table ∈ schema.physical)
    {t : StoredTable} (ht : s.tables.get? table.name = some t) :
    ∀ row ∈ t.rows, table.InDoubles row :=
  fun row hrow => h table htable row (Store.rows_of_get? ht ▸ hrow)

theorem Store.InDoubles.of_grows (h : s'.InDoubles schema) (hgrows : s.Grows s') :
    s.InDoubles schema :=
  fun table htable row hrow => h table htable row ((hgrows table.name).subset hrow)

/-- After a change of a resource the columns of doubles hold doubles if and only if those of its
table do, and no list stores a whole number. -/
theorem Store.InDoubles.lists_iff (h : s.InDoubles schema) (hco : schema.Coherent)
    (hregular : s.Regular schema) (hbase : base ∈ schema.bases) {t t' : StoredTable}
    (ht : s.tables.get? base.name = some t) {α : Type} {items : List α} {list : α → ListField}
    (members : α → List Value) {R : α → Table → StoredTable → StoredTable → Prop}
    (hlists : (s.put base.name t').ListsTurn schema items list R s')
    (hmem : ∀ x ∈ items, list x ∈ base.lists)
    (hstep : (∀ row ∈ t'.rows, base.InDoubles row) → ∀ x ∈ items, ∀ link target ownerKey targetKey,
      schema.Serves base (list x) link target ownerKey targetKey → ∀ u u',
        u.LinkOf schema base (list x) link ownerKey → (∀ row ∈ u.rows, link.InDoubles row) →
          R x link u u' →
            ((∀ row ∈ u'.rows, link.InDoubles row)
              ↔ ¬ Change.LinksWhole schema (list x) (members x))) :
    s'.InDoubles schema ↔ (∀ row ∈ t'.rows, base.InDoubles row)
      ∧ ∀ x ∈ items, ¬ Change.LinksWhole schema (list x) (members x) := by
  have hown := hlists.get?_written hco hbase (.refl base) hmem
  constructor
  · intro h'
    have hrows := h'.rows_of_get? (Schema.mem_physical_of_base hbase) hown
    refine ⟨hrows, fun x hx => ?_⟩
    obtain ⟨link, target, ownerKey, targetKey, hserves⟩ := hco.lists base hbase (list x) (hmem x hx)
    obtain ⟨link', u, u', hu, hu', hlinkof, hR⟩ :=
      hlists.turned hco hbase hregular ht hserves.ownerKey_eq hx (hmem x hx)
    obtain rfl : link' = link := Except.ok.inj (hlinkof.link_eq.symm.trans hserves.link_eq)
    have hphysical := Schema.mem_physical_of_link (Schema.mem_of_linkTable hlinkof.link_eq).1
    exact (hstep hrows x hx link' target ownerKey targetKey hserves u u' hlinkof
      (h.rows_of_get? hphysical hu) hR).1 (h'.rows_of_get? hphysical hu')
  · rintro ⟨hrows, hnot⟩ other hother row hrow
    obtain ⟨u', hu', hmemrow⟩ := Store.get?_of_mem_rows hrow
    rcases List.mem_append.1 hother with hotherbase | hlink
    · by_cases hname : other.name = base.name
      · obtain rfl := hco.eq_of_name hother (Schema.mem_physical_of_base hbase) hname
        obtain rfl := Option.some.inj (hown.symm.trans hu')
        exact hrows row hmemrow
      · rw [hlists.get?_other hco hbase (.refl base) hmem hotherbase hname] at hu'
        exact h.rows_of_get? hother hu' row hmemrow
    · obtain ⟨u, hu, hcases⟩ := hlists.exists_link_cases hco hbase hmem hlink hu'
      have hold := h.rows_of_get? hother hu
      rcases hcases with rfl | ⟨x, hx, hlinktable, hR⟩
      · exact hold row hmemrow
      · obtain ⟨link, target, ownerKey, targetKey, hserves⟩ :=
          hco.lists base hbase (list x) (hmem x hx)
        obtain rfl : link = other := Except.ok.inj (hserves.link_eq.symm.trans hlinktable)
        obtain ⟨hcolumns, hcounter⟩ := hregular.columns_eq link hother u hu
        have hlinkof : u.LinkOf schema base (list x) link ownerKey :=
          ⟨hbase, hmem x hx, hlinktable, hserves.ownerKey_eq, hcolumns, hcounter⟩
        exact (hstep hrows x hx link target ownerKey targetKey hserves u u' hlinkof hold hR).2
          (hnot x hx) row hmemrow

/-- An insertion stores a whole number for a default or in a list. -/
theorem inDoubles_of_insert_iff (hco : schema.Coherent) (hregular : tx.work.Regular schema)
    (hbase : base ∈ schema.bases) (hshares : table.SharesRows base) (h : tx.work.InDoubles schema)
    {x : Value × Record} (hrun : Yields (Change.insert schema table now doc) tx x tx') :
    tx'.work.InDoubles schema ↔ ¬ (table.FillsWhole doc ∨ Change.ListsWhole schema table doc) := by
  have hcheck := Document.checkPartial_of_check (Change.yields_insert.1 hrun).1
  obtain ⟨t, row, next, ht, hfill, -, hid, hlists⟩ := Change.effect_of_insert hco hbase hshares hrun
  have hphysical := Schema.mem_physical_of_base hbase
  obtain ⟨hcolumns, hcounter⟩ := hregular.columns_eq base hphysical t ht
  have hgiven {entry : ListField × List Value} :
      entry ∈ Change.listsOf table (Change.withDoubles table doc)
        ↔ entry ∈ Change.listsOf table doc :=
    Change.mem_listsOf_withDoubles (hco.lists_apart hbase hshares)
  have hown : (∀ r ∈ t.rows ++ [row], base.InDoubles r) ↔ ¬ table.FillsWhole doc := by
    rw [← inDoubles_inserted_iff hco hbase hshares hcheck hcolumns hcounter hfill,
      List.forall_mem_append, List.forall_mem_singleton]
    exact and_iff_right (h.rows_of_get? hphysical ht)
  rw [h.lists_iff hco hregular hbase ht Prod.snd hlists
    (fun entry hentry => hshares.lists ▸ Change.list_of_mem_listsOf hentry)
    (fun hrows entry hentry link target ownerKey targetKey hserves u u' hlink hold hadds => ?_),
      hown]
  · simp only [hgiven, not_or, Change.not_listsWhole_iff]
  -- the links are given the key of the new row
  · have hdouble (hfloat : ownerKey.type = .float) : x.1.IsDouble := by
      rw [hid]
      exact (hrows row (by simp)).key hserves.ownerKey_eq hfloat
    exact hadds.inDoubles_iff hlink hco hserves hdouble
      (Change.members_accepted hshares hcheck hserves (hgiven.1 hentry)) hold

/-- An update stores a whole number in a list. -/
theorem inDoubles_of_update_iff (hco : schema.Coherent) (hregular : tx.work.Regular schema)
    (hbase : base ∈ schema.bases) (hshares : table.SharesRows base) (h : tx.work.InDoubles schema)
    {id : Value} (hrun : Yields (Change.update schema table now id doc) tx () tx') :
    tx'.work.InDoubles schema ↔ ¬ Change.ListsWhole schema table doc := by
  obtain ⟨_, _, _, -, hcheck, -⟩ := Change.yields_update.1 hrun
  obtain ⟨key, t, t', hfound, ht, hrewrites, hlists⟩ :=
    Change.effect_of_update hco hbase hshares hrun
  have hrows := h.rows_of_get? (Schema.mem_physical_of_base hbase) ht
  have hown : ∀ row ∈ t'.rows, base.InDoubles row :=
    hrewrites.inDoubles (givesDoubles_updatedRow hco hbase hshares hcheck) hrows
  rw [h.lists_iff hco hregular hbase ht Prod.snd hlists
    (fun entry hentry => hshares.lists ▸ Change.list_of_mem_listsOf hentry)
    (fun _ entry hentry link target ownerKey targetKey hserves u u' hlink hold hsets => ?_)]
  · rw [Change.not_listsWhole_iff]
    exact and_iff_right hown
  -- the key is read off a row
  · have hdouble (hfloat : ownerKey.type = .float) : key.IsDouble := by
      obtain ⟨w, row, hw, hrow, rfl⟩ := Change.row_of_visibleKey hfound
      rw [hshares.name, ht] at hw
      rw [← Option.some.inj hw] at hrow
      rw [hshares.primaryKey]
      exact (hrows row hrow).key hserves.ownerKey_eq hfloat
    exact hsets.inDoubles_iff hlink hco hserves hdouble
      (Change.members_accepted hshares hcheck hserves hentry) hold

/-- An identifier that is read as a key is a double unless it is a whole number. -/
theorem isDouble_of_keyFor_iff {id key : Value} {k : Column} (hk : table.keyColumn? = some k)
    (hkey : Change.keyFor table id = .ok key) :
    (k.type = .float → key.IsDouble) ↔ ¬ table.NamedByWhole id := by
  obtain ⟨haccepts, -⟩ := Change.accepts_of_keyFor hk hkey
  have hread : key = k.type.interpret id := by
    unfold Change.keyFor at hkey
    simp only [hk] at hkey
    split at hkey
    · cases hkey
    · exact (Except.ok.inj hkey).symm
  by_cases hfloat : k.type = .float
  · rw [hfloat] at haccepts hread
    have hwhole : key.isWhole = id.isWhole := by
      rw [hread]
      -- only texts are read, and as doubles
      cases id with
      | string s =>
        unfold ColumnType.interpret
        dsimp only
        split <;> rfl
      | _ => rfl
    simp [Table.NamedByWhole, hk, hfloat, Value.isDouble_iff haccepts, hwhole]
  · simp [Table.NamedByWhole, hk, hfloat]

/-- A replacement stores a whole number for a default, for the key or in a list. -/
theorem inDoubles_of_replace_iff (hco : schema.Coherent) (hregular : tx.work.Regular schema)
    (hbase : base ∈ schema.bases) (hshares : table.SharesRows base) (h : tx.work.InDoubles schema)
    {id : Value} (hrun : Yields (Change.replace schema table now id doc) tx () tx') :
    tx'.work.InDoubles schema
      ↔ ¬ (table.FillsWhole doc ∨ table.NamedByWhole id ∨ Change.ListsWhole schema table doc) := by
  obtain ⟨key, t, t', hcheck, hkeyfor, ht, hupserts, hlists⟩ :=
    Change.effect_of_replace hco hbase hshares hrun
  have hpartial := Document.checkPartial_of_check hcheck
  obtain ⟨k, hk, -⟩ := hco.keyed base (Schema.mem_physical_of_base hbase)
  have hrows := h.rows_of_get? (Schema.mem_physical_of_base hbase) ht
  obtain ⟨before, row, after, hnew, -, hcells, -, hbefore⟩ :=
    hupserts.exists_row (hshares.name ▸ ht)
  have hown : (∀ r ∈ t'.rows, base.InDoubles r)
    ↔ ¬ table.FillsWhole doc ∧ ¬ table.NamedByWhole id := by
    rw [← isDouble_of_keyFor_iff (hshares.keyColumn?.trans hk) hkeyfor,
      ← inDoubles_replaced_iff hco hbase hshares hpartial hcells hk, hnew]
    -- the other rows are those of before
    have hothers : (∀ r ∈ before, base.InDoubles r) ∧ ∀ r ∈ after, base.InDoubles r := by
      rcases hbefore with hsame | ⟨old, hsame, -⟩
      · rwa [hsame, List.forall_mem_append] at hrows
      · rw [hsame, List.forall_mem_append, List.forall_mem_cons] at hrows
        exact ⟨hrows.1, hrows.2.2⟩
    rw [List.forall_mem_append, List.forall_mem_cons]
    exact ⟨fun hall => hall.2.1, fun hrow => ⟨hothers.1, hrow, hothers.2⟩⟩
  rw [h.lists_iff hco hregular hbase ht (Change.membersFor table doc) hlists
    (fun m hm => hshares.lists ▸ hm)
    (fun hrows' m hm link target ownerKey targetKey hserves u u' hlink hold hsets => ?_), hown,
    Change.not_linksWhole_membersFor_iff hshares (hco.fields_nodup base hbase), not_or,
      not_or, and_assoc]
  · have hdouble : ownerKey.type = .float → key.IsDouble :=
      (isDouble_of_keyFor_iff (hshares.keyColumn?.trans hserves.ownerKey_eq) hkeyfor).2
        (hown.1 hrows').2
    exact hsets.inDoubles_iff hlink hco hserves hdouble
      (Change.membersFor_accepted hshares (hco.fields_nodup base hbase) hpartial hm hserves) hold

/-- Removing stores no number. -/
theorem inDoubles_of_remove (hco : schema.Coherent) (hbase : base ∈ schema.bases)
    (hshares : table.SharesRows base) (h : tx.work.InDoubles schema) {lookup : Filter} {n : Nat}
    (hrun : Yields (Change.remove schema table now lookup) tx n tx') :
    tx'.work.InDoubles schema := by
  intro other hother row hrow
  rcases Change.effect_of_remove hrun with ⟨deleted, t, t', hdeleted, ht, hrewrites, hwork⟩
    | hshrinks
  · rw [hshares.name] at ht hwork
    rw [hwork, Store.rows_put] at hrow
    split at hrow
    · rename_i hname
      obtain rfl := hco.eq_of_name hother (Schema.mem_physical_of_base hbase) hname
      exact hrewrites.inDoubles (givesDoubles_flag hco hbase (hshares.deletedColumn ▸ hdeleted))
        (h.rows_of_get? hother ht) row hrow
    · exact h other hother row hrow
  · obtain ⟨u', hu', hmem⟩ := Store.get?_of_mem_rows hrow
    obtain ⟨u, hu, hshrunk⟩ := hshrinks.exists_turned hu'
    exact h.rows_of_get? hother hu row (hshrunk.rows.subset hmem)

end Stores

/-! ## Runs -/

namespace Catalog

/-- A change that succeeds and stores a whole number in a column of doubles. An insertion stores its
documents one by one, up to the first that is refused. -/
inductive WritesWhole (catalog : Catalog) (db : Database) : Step → Prop
  | insert {now : Time.Instant} {resource : String} {docs done : List Record} {doc : Record}
      {ids : List Value} {table : Table} (htable : catalog.schema.table resource = .ok table)
      (hdocs : done ++ [doc] <+: docs)
      (hstored : (catalog.insert resource now (done ++ [doc]) db).1.ids = .ok ids)
      (hwhole : table.FillsWhole doc ∨ Change.ListsWhole catalog.schema table doc) :
      WritesWhole catalog db (now, .insert resource docs)
  | update {now : Time.Instant} {resource : String} {id : Value} {doc : Record} {table : Table}
      (htable : catalog.schema.table resource = .ok table)
      (hstored : (catalog.update resource now id doc db).1 = .ok ())
      (hwhole : Change.ListsWhole catalog.schema table doc) :
      WritesWhole catalog db (now, .update resource id doc)
  | replace {now : Time.Instant} {resource : String} {id : Value} {doc : Record} {table : Table}
      (htable : catalog.schema.table resource = .ok table)
      (hstored : (catalog.replace resource now id doc db).1 = .ok ())
      (hwhole : table.FillsWhole doc ∨ table.NamedByWhole id
        ∨ Change.ListsWhole catalog.schema table doc) :
      WritesWhole catalog db (now, .replace resource id doc)

variable {catalog : Catalog} {db : Database}

/-- The whole numbers that changes store in columns of doubles. -/
def storingWhole (schema : Schema) : Breach where
  insert table doc := table.FillsWhole doc ∨ Change.ListsWhole schema table doc
  update table doc := Change.ListsWhole schema table doc
  replace table id doc :=
    table.FillsWhole doc ∨ table.NamedByWhole id ∨ Change.ListsWhole schema table doc

theorem writesWhole_iff {step : Step} :
    catalog.WritesWhole db step ↔ catalog.Breaches (storingWhole catalog.schema) db step := by
  constructor
  · rintro (⟨htable, hdocs, hstored, hwhole⟩ | ⟨htable, hstored, hwhole⟩
      | ⟨htable, hstored, hwhole⟩)
    · exact .insert htable hdocs hstored hwhole
    · exact .update htable hstored hwhole
    · exact .replace htable hstored hwhole
  · rintro (⟨htable, hdocs, hstored, hwhole⟩ | ⟨htable, hstored, hwhole⟩
      | ⟨htable, hstored, hwhole⟩)
    · exact .insert htable hdocs hstored hwhole
    · exact .update htable hstored hwhole
    · exact .replace htable hstored hwhole

/-- **Only changes that store a whole number break the columns of doubles.** -/
theorem brokenOnlyBy_storingWhole (hco : catalog.schema.Coherent) :
    catalog.BrokenOnlyBy (storingWhole catalog.schema) (Store.InDoubles catalog.schema) where
  empty _ _ _ hrow := by cases hrow
  creates _ _ h hcreates table htable row hrow :=
    h table htable row (hcreates.rows_eq table.name ▸ hrow)
  of_grows _ _ hgrows h := h.of_grows hgrows
  insert _ _ _ _ hbase hshares _ _ _ hregular _ h hrun :=
    inDoubles_of_insert_iff hco hregular hbase hshares h hrun
  update _ _ _ _ _ hbase hshares _ _ _ hregular _ h hrun :=
    inDoubles_of_update_iff hco hregular hbase hshares h hrun
  replace _ _ _ _ _ hbase hshares _ _ _ hregular _ h hrun :=
    inDoubles_of_replace_iff hco hregular hbase hshares h hrun
  remove _ _ _ _ hbase hshares _ _ _ _ h hrun := inDoubles_of_remove hco hbase hshares h hrun

/-- **All columns of doubles hold doubles throughout a run if and only if no change of the run
writes a whole number**: as a default, as the key of a replacement, or as the member of a list. -/
theorem doubles_kept_iff {settings : Settings} {domain : Domain}
    (hcompiles : Catalog.ofDomain settings domain = .ok catalog) (steps : List Step) :
    (∀ done, done <+: steps → (catalog.run done).store.InDoubles catalog.schema)
      ↔ ∀ done step, done ++ [step] <+: steps → ¬ catalog.WritesWhole (catalog.run done) step := by
  simpa only [writesWhole_iff]
    using (brokenOnlyBy_storingWhole (coherent_of_ofDomain hcompiles)).kept_iff
    (coherent_of_ofDomain hcompiles) steps

/-! ## Gauges on a panel

Gauges are known by the doubles at which they stand, and each shows a level, which is one at first.
A panel lists gauges. -/

def panelDomain : Domain := .ofList [
  ("gauge", { fields := .ofList [
    ("mark", { typeName := "float", primaryKey := true }),
    ("level", { typeName := "float", default? := some (.int 1) })] }),
  ("panel", { fields := .ofList [("gauges", { typeName := "list", target := some "gauge" })] })]

def panelCatalog : Catalog := .compiled {} panelDomain

theorem ofDomain_panel : Catalog.ofDomain {} panelDomain = .ok panelCatalog :=
  Catalog.ofDomain_compiled rfl

/-- A gauge under a mark, and a panel that lists it. -/
def panelSteps (mark : Value) (gauge : Record) : List Step := [
  (⟨0, 0⟩, .createTables),
  (⟨1, 0⟩, .replace "gauge" mark gauge),
  (⟨2, 0⟩, .insert "panel" [.ofList [("gauges", .array [mark])]])]

/-- A level that is given is made a double. -/
def leveledGauge : Record := .ofList [("mark", .int 7), ("level", .int 3)]

/-- Where a gauge is known by a double, it holds doubles, and so does the panel that lists it. -/
theorem doubles_of_panel_kept :
    Catalog.ofDomain {} panelDomain = .ok panelCatalog
      ∧ (panelCatalog.run (panelSteps (.float (.ofInt 7)) leveledGauge)).store.InDoubles
        panelCatalog.schema := by
  refine ⟨ofDomain_panel,
    (doubles_kept_iff ofDomain_panel _).2 (fun done step hprefix hwrites => ?_) _
    (List.prefix_refl (panelSteps (.float (.ofInt 7)) leveledGauge))⟩
  have hmem : step ∈ panelSteps (.float (.ofInt 7)) leveledGauge :=
    hprefix.subset (List.mem_append_right done (List.mem_singleton_self _))
  have hgauge : ∀ table ∈ (panelCatalog.schema.table "gauge").toOption,
      ¬ (table.FillsWhole leveledGauge ∨ table.NamedByWhole (.float (.ofInt 7))
        ∨ Change.ListsWhole panelCatalog.schema table leveledGauge) := by
    decide +kernel
  have hpanel : ∀ table ∈ (panelCatalog.schema.table "panel").toOption,
      ∀ panel ∈ [NameMap.ofList [("gauges", Value.array [.float (.ofInt 7)])]],
        ¬ (table.FillsWhole panel ∨ Change.ListsWhole panelCatalog.schema table panel) := by
    decide +kernel
  rcases by simpa [panelSteps] using hmem with rfl | rfl | rfl
  · cases hwrites
  · cases hwrites with
    | replace htable _ hwhole => exact hgauge _ (by rw [htable]; rfl) hwhole
  · cases hwrites with
    | insert htable hdocs _ hwhole =>
      exact hpanel _ (by rw [htable]; rfl) _
        (hdocs.subset (List.mem_append_right _ (by simp))) hwhole

/-- A gauge that is given no level. -/
def plainGauge : Record := .ofList [("mark", .int 7)]

/-- The identifier, the default and the member are stored as they are: three columns of doubles hold
whole numbers. -/
theorem whole_numbers_stored :
    Catalog.ofDomain {} panelDomain = .ok panelCatalog
      ∧ (∀ entry ∈ [("gauge", "mark", 7), ("gauge", "level", 1), ("panel_gauge", "gauge_id", 7)],
        ∃ table ∈ panelCatalog.schema.physical, table.name = entry.1
          ∧ ∃ c ∈ table.columns, c.name = entry.2.1 ∧ c.type = .float
            ∧ ∃ row ∈ (panelCatalog.run (panelSteps (.int 7) plainGauge)).store.rows table.name,
              row.cell c.name = .int entry.2.2)
      ∧ ¬ (panelCatalog.run (panelSteps (.int 7) plainGauge)).store.InDoubles
        panelCatalog.schema := by
  refine ⟨ofDomain_panel, by decide +kernel, fun h => ?_⟩
  obtain ⟨table, htable, row, hrow, c, hc, hfloat, hcell⟩ : ∃ table ∈ panelCatalog.schema.physical,
      ∃ row ∈ (panelCatalog.run (panelSteps (.int 7) plainGauge)).store.rows table.name,
        ∃ c ∈ table.columns, c.type = .float ∧ row.cell c.name = .int 7 := by
    decide +kernel
  have hdouble := h table htable row hrow c hc hfloat
  rw [hcell] at hdouble
  exact Value.not_isDouble_int 7 hdouble

end Catalog

end RecordStore
