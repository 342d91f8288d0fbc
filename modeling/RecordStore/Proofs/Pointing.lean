import RecordStore.Proofs.Sound

/-!
# Cells that point at rows

A cell of a column with a reference points at the rows with that key in another table. A row that is
written points at something then; what it points at may change later, but not its key.

* **`Store.Points`** — a value of a column points at a row that exists.
* **`Move.keeps_keys`** — every move but a drop leaves a row with each key that there was.
* **`Move.accounts`** — a row is an old one, or points at rows that were there before the move.
* **`Store.Intact.move`** — so cells that point at rows go on to do so.
-/

namespace RecordStore

/-- A value of a column points at a row, unless it is null or the column is no reference. -/
def Store.Points (s : Store) (c : Column) (v : Value) : Prop :=
  ∀ key, c.references = some key → v.isNull = false →
    ∃ target ∈ s.rows key.table, c.isHeldBy key.column v target = true

/-- The cells of the rows of a table point at rows. -/
def Store.Intact (s : Store) (table : Table) : Prop :=
  ∀ row ∈ s.rows table.name, ∀ c ∈ table.columns, s.Points c (row.cell c.name)

/-- The cells of a row that point at numbers of the type of doubles are doubles. -/
def Record.PointsExactly (columns : List Column) (r : Record) : Prop :=
  ∀ c ∈ columns, c.references.isSome = true → c.type = .float → (r.cell c.name).isNull = false →
    ∃ x, r.cell c.name = .float x

theorem Record.Suits.pointsExactly {times : Time.Instant → Prop} {columns : List Column}
    {r : Record} (h : r.Suits times columns) : r.PointsExactly columns :=
  fun c hc => (h c hc).2

/-! ## Rows after a move -/

/-- A table that is created has no rows, and no other table changes. -/
theorem Store.rows_create (s : Store) (table : Table) (name : String) :
    (s.create table).rows name = s.rows name := by
  unfold Store.create
  split
  · rfl
  · rename_i habsent
    show (s.put table.name { columns := table.columns }).rows name = s.rows name
    rw [Store.rows_put]
    split
    · rename_i hname
      subst hname
      have hnone : s.tables.get? table.name = none := by
        rw [NameMap.contains_iff, NameMap.mem_keys_iff] at habsent
        exact Option.not_isSome_iff_eq_none.1 habsent
      rw [Store.rows, hnone]
      rfl
    · rfl

/-- A new state of a link table leaves the rows of a resource. -/
theorem Store.rows_put_link {schema : Schema} (hwf : schema.WellFormed) (s : Store)
    {base link : Table} (hbase : base ∈ schema.bases) (hlink : link ∈ schema.links)
    (t : StoredTable) :
    (s.put link.name t).rows base.name = s.rows base.name := by
  rw [Store.rows_put, if_neg (hwf.bases_links_disjoint base hbase link hlink)]

section Moves

variable {schema : Schema} {times : Time.Instant → Prop} {drops : Prop} {s s' : Store}

/-- Every key is still there, or one that equals it. -/
def Store.Carries (schema : Schema) (s s' : Store) : Prop :=
  ∀ base ∈ schema.bases, ∀ row ∈ s.rows base.name, ∃ row' ∈ s'.rows base.name,
    base.KeepsKey row row'

/-- A move without removals keeps the keys of all rows. -/
theorem Move.keeps_keys (hwf : schema.WellFormed) (hmove : Move schema times False s s') :
    Store.Carries schema s s' := by
  have hsame {base : Table} {row : Record} : base.KeepsKey row row := .inl rfl
  intro base hbase row hrow
  cases hmove with
  | create => exact ⟨row, (Store.rows_create ..).symm ▸ hrow, hsame⟩
  | @append table t _ _ new next htable hstored =>
    refine ⟨row, ?_, hsame⟩
    rw [Store.rows_put]
    split
    · rename_i hname
      rw [hname, Store.rows_of_get? hstored] at hrow
      exact List.mem_append_left _ hrow
    · exact hrow
  | link hlink hstored =>
    exact ⟨row, (Store.rows_put_link hwf s hbase hlink _).symm ▸ hrow, hsame⟩
  | @rewrite table t place record old new htable hstored hold hassign hsuits hkey hadmissible =>
    rw [Store.rows_put]
    split
    · rename_i hname
      obtain rfl := hwf.eq_of_name (Schema.mem_physical_of_base hbase)
        (Schema.mem_physical_of_base htable) hname
      rw [Store.rows_of_get? hstored] at hrow
      -- the row is the changed one, or it stands in another place
      obtain ⟨i, hi⟩ := List.getElem?_of_mem hrow
      by_cases hplace : i = place
      · subst hplace
        obtain rfl : row = old := Option.some.inj (hi.symm.trans hold)
        -- only here the key changes, and the new one equals it
        exact ⟨new, List.mem_of_getElem? (List.getElem?_set_self'.trans (by rw [hold]; rfl)), hkey⟩
      · have hstill : (t.rows.set place new)[i]? = some row := by
          rw [List.getElem?_set_ne (Ne.symm hplace), hi]
        exact ⟨row, List.mem_of_getElem? hstill, hsame⟩
    · exact ⟨row, hrow, hsame⟩
  | drop hdrops => exact hdrops.elim
  | unlink hlink hstored =>
    exact ⟨row, (Store.rows_put_link hwf s hbase hlink _).symm ▸ hrow, hsame⟩

/-- The cells of a table that point at numbers of the type of doubles are doubles. -/
def Store.Exact (s : Store) (table : Table) : Prop :=
  ∀ row ∈ s.rows table.name, row.PointsExactly table.columns

/-- A filled row points as its record does: nothing else is filled into a reference. -/
theorem StoredTable.Sound.pointsExactly_fill {table : Table} {t : StoredTable}
    (h : t.Sound times table) (hwf : table.WellFormed)
    (hfillings : ∀ c ∈ table.columns, c.references.isSome = true →
      c.default? = none ∧ c.defaultNow = false)
    (now : Value) {record : Record} (hexact : record.PointsExactly table.columns) :
    (t.fill now record).1.PointsExactly table.columns := by
  intro c hc hsome hfloat hnull
  obtain ⟨n, -, hcell⟩ := StoredTable.fill_cell t now record
    (h.columns_eq ▸ hwf.names_nodup) (h.columns_eq ▸ hc) h.counter
  rw [hcell] at hnull ⊢
  cases hget : record.get? c.name with
  | some v =>
    rw [hget, Option.getD_some] at hnull
    rw [Option.getD_some, ← Record.cell_eq_of_get? hget]
    exact hexact c hc hsome hfloat (Record.cell_eq_of_get? hget ▸ hnull)
  | none =>
    obtain ⟨hdefault, hstamp⟩ := hfillings c hc hsome
    have hnumber : c.autoIncrement = false := by
      rw [Bool.eq_false_iff]
      intro hauto
      rw [hwf.number_integer c hc hauto] at hfloat
      cases hfloat
    rw [hget, Option.getD_none, StoredTable.filling, hnumber, hdefault, hstamp] at hnull
    cases hnull

theorem StoredTable.pointsExactly_assign {columns : List Column} {old record row : Record}
    (hold : old.PointsExactly columns) (hexact : record.PointsExactly columns)
    (hassign : StoredTable.assign old record = .ok row) : row.PointsExactly columns := by
  intro c hc hsome hfloat hnull
  rcases StoredTable.cell_assign hassign c.name with hcell | hcell
  · rw [hcell] at hnull ⊢
    exact hexact c hc hsome hfloat hnull
  · rw [hcell] at hnull ⊢
    exact hold c hc hsome hfloat hnull

/-- A row of a table is one of a store, or it points at rows of the store, and exactly so if the
rows of the table do. -/
def Store.Accounts (schema : Schema) (s : Store) (table : Table) (row : Record) : Prop :=
  row ∈ s.rows table.name ∨ (∀ c ∈ table.columns, s.Points c (row.cell c.name))
    ∧ (table ∈ schema.bases → s.Exact table → row.PointsExactly table.columns)

/-- After a new state of one table, only the rows of this table have to be looked at. -/
theorem Store.accounts_of_put (hwf : schema.WellFormed) (hsound : s.Sound schema times)
    {table changed : Table} (htable : table ∈ schema.physical)
    (hchanged : changed ∈ schema.physical)
    {t t' : StoredTable} (hstored : s.tables.get? changed.name = some t)
    (hrows : ∀ row ∈ t'.rows, row ∈ t.rows
      ∨ (∃ others, s.Admissible changed.uniqueGroups t.columns others row)
        ∧ (changed ∈ schema.bases → s.Exact changed → row.PointsExactly changed.columns))
    {row : Record} (hrow : row ∈ (s.put changed.name t').rows table.name) :
    s.Accounts schema table row := by
  rw [Store.rows_put] at hrow
  split at hrow
  · rename_i hname
    obtain rfl := hwf.eq_of_name htable hchanged hname
    rcases hrows row hrow with hold | ⟨⟨others, hadmissible⟩, hexact⟩
    · exact .inl (Store.rows_of_get? hstored ▸ hold)
    · -- the rules are those of the table, since its columns are
      have hcolumns := (hsound table htable t hstored).columns_eq
      exact .inr ⟨fun c hc => hadmissible.pointed c (hcolumns ▸ hc), hexact⟩
  · exact .inl hrow

theorem mem_append_new {rows : List Record} {new : Record} {P : Record → Prop} (hnew : P new) :
    ∀ row ∈ rows ++ [new], row ∈ rows ∨ P row := by
  intro row hmem
  rcases List.mem_append.1 hmem with hold | hlast
  · exact .inl hold
  · exact .inr (List.mem_singleton.1 hlast ▸ hnew)

/-- Every row after a move is accounted for by the store before it. -/
theorem Move.accounts (hwf : schema.WellFormed) (hsound : s.Sound schema times)
    (hmove : Move schema times drops s s') {table : Table} (htable : table ∈ schema.physical)
    {row : Record} (hrow : row ∈ s'.rows table.name) : s.Accounts schema table row := by
  cases hmove with
  | create => exact .inl (Store.rows_create .. ▸ hrow)
  | @append changed t now record new _ hbase hstored _ hsuits hfill hadmissible =>
    have hphysical := Schema.mem_physical_of_base hbase
    refine Store.accounts_of_put hwf hsound htable hphysical hstored
      (mem_append_new ⟨⟨_, hadmissible⟩, fun _ _ => ?_⟩) hrow
    have hnew : new = (t.fill (.string now.text) record).1 := by rw [hfill]
    rw [hnew]
    refine (hsound changed hphysical t hstored).pointsExactly_fill
      (hwf.tables changed hphysical) ?_ _
      hsuits.pointsExactly
    intro c hc hsome
    obtain ⟨key, hkey⟩ := Option.isSome_iff_exists.1 hsome
    obtain ⟨hdefault, hstamp, -⟩ := hwf.references changed hphysical c hc key hkey
    exact ⟨hdefault, hstamp⟩
  | link hlink hstored _ _ _ hadmissible =>
    refine Store.accounts_of_put hwf hsound htable (Schema.mem_physical_of_link hlink) hstored
      (mem_append_new ⟨⟨_, hadmissible⟩, fun hbase _ => ?_⟩) hrow
    -- a link table is not that of a resource
    exact absurd rfl (hwf.bases_links_disjoint _ hbase _ hlink)
  | rewrite hbase hstored hold hassign hsuits _ hadmissible =>
    refine Store.accounts_of_put hwf hsound htable (Schema.mem_physical_of_base hbase) hstored
      (fun r hr => ?_) hrow
    rcases List.mem_or_eq_of_mem_set hr with hmem | rfl
    · exact .inl hmem
    · -- what the record does not give, the changed row has from the old one
      refine .inr ⟨⟨_, hadmissible⟩, fun _ hexact => ?_⟩
      refine StoredTable.pointsExactly_assign (hexact _ ?_) hsuits.pointsExactly hassign
      rw [Store.rows_of_get? hstored]
      exact List.mem_of_getElem? hold
  | drop _ hbase hstored =>
    exact Store.accounts_of_put hwf hsound htable (Schema.mem_physical_of_base hbase) hstored
      (fun r hr => .inl (List.mem_of_mem_filter hr)) hrow
  | unlink hlink hstored =>
    exact Store.accounts_of_put hwf hsound htable (Schema.mem_physical_of_link hlink) hstored
      (fun r hr => .inl (List.mem_of_mem_filter hr)) hrow

theorem Store.Exact.move (hwf : schema.WellFormed) (hsound : s.Sound schema times)
    (hmove : Move schema times drops s s') {base : Table} (hbase : base ∈ schema.bases)
    (hexact : s.Exact base) : s'.Exact base := by
  intro row hrow
  rcases hmove.accounts hwf hsound (Schema.mem_physical_of_base hbase) hrow with hold | ⟨-, hnew⟩
  · exact hexact row hold
  · exact hnew hbase hexact

/-- What equals a key equals every key that equals it, if numbers of the type of doubles are
doubles. -/
theorem ColumnType.equal_key_trans {type : ColumnType} {key key' v : Value}
    (hkey : type.accepts key = true ∧ key.isNull = false)
    (hkey' : type.accepts key' = true ∧ key'.isNull = false) (hv : type.accepts v = true)
    (hvnull : v.isNull = false) (hexact : type = .float → ∃ x, v = .float x)
    (hequal : type.equal key key' = true) (hheld : type.equal key v = true) :
    type.equal key' v = true := by
  by_cases htype : type = .float
  · -- equality is not transitive here, but a double at its end makes up for it
    obtain ⟨x, rfl⟩ := hexact htype
    subst htype
    exact equal_float_trans hkey'.1 hkey'.2 hequal hheld
  · rw [equal_comm] at hequal
    exact equal_trans htype hkey'.1 hkey.1 hv hkey'.2 hkey.2 hvnull hequal hheld

/-- A row has its key, of the type of the key's column. -/
theorem Store.Sound.key_of_row (hsound : s.Sound schema times) (hwf : schema.WellFormed)
    {base : Table} (hbase : base ∈ schema.bases) {k : Column} (hk : base.keyColumn? = some k)
    {row : Record} (hrow : row ∈ s.rows base.name) :
    k.name ∈ row.keys
      ∧ (k.type.accepts (row.cell k.name) = true ∧ (row.cell k.name).isNull = false) := by
  have hphysical := Schema.mem_physical_of_base hbase
  obtain ⟨t, ht, hmem⟩ := Store.get?_of_mem_rows hrow
  have hsoundt := hsound base hphysical t ht
  obtain ⟨hkmem, hkname⟩ := Table.mem_of_column? hk
  constructor
  · rw [hsoundt.keys_eq row hmem]
    exact Table.mem_columnNames hkmem
  · rw [hkname]
    exact hsoundt.key_accepted (hwf.tables base hphysical) hk hmem

/-- What points at a row points at a row when no key is lost. -/
theorem Store.Points.carry (hwf : schema.WellFormed) (hsound : s.Sound schema times)
    (hsound' : s'.Sound schema times) (hcarries : Store.Carries schema s s') {table : Table}
    (htable : table ∈ schema.physical) {c : Column} (hc : c ∈ table.columns) {v : Value}
    (htakes : c.Takes times v)
    (hexact : c.references.isSome = true → c.type = .float → v.isNull = false → ∃ x, v = .float x)
    (hpoints : s.Points c v) : s'.Points c v := by
  intro key hkey hnull
  obtain ⟨-, hnow, base, hbase, k, rfl, hk, htype⟩ := hwf.references table htable c hc key hkey
  obtain ⟨row, hrow, hheld⟩ := hpoints _ hkey hnull
  obtain ⟨row', hrow', hkeeps⟩ := hcarries base hbase row hrow
  obtain ⟨hmem, hold⟩ := hsound.key_of_row hwf hbase hk hrow
  obtain ⟨hmem', hnew⟩ := hsound'.key_of_row hwf hbase hk hrow'
  refine ⟨row', hrow', ?_⟩
  rw [Column.isHeldBy_iff hmem] at hheld
  rw [Column.isHeldBy_iff hmem']
  obtain ⟨-, hkname⟩ := Table.mem_of_column? hk
  rw [Table.KeepsKey, ← hkname] at hkeeps
  rcases hkeeps with hsame | ⟨k', hk', hequal⟩
  · rw [hsame]
    exact hheld
  · obtain rfl : k' = k := Option.some.inj (hk'.symm.trans hk)
    have haccepts : c.type.accepts v = true := by
      -- references are not stamped
      rcases htakes with h | ⟨hstamp, -⟩
      · exact h
      · rw [hnow] at hstamp
        cases hstamp
    rw [htype] at hheld haccepts hexact ⊢
    exact ColumnType.equal_key_trans hold hnew haccepts hnull
      (fun hfloat => hexact (by rw [hkey]; rfl) hfloat hnull) hequal hheld

/-- **Cells that point at rows go on to do so**, as long as no rows of resources go. -/
theorem Store.Intact.move (hwf : schema.WellFormed) (hsound : s.Sound schema times)
    (hmove : Move schema times False s s') {table : Table} (htable : table ∈ schema.physical)
    (hexact : s'.Exact table) (hintact : s.Intact table) : s'.Intact table := by
  intro row hrow c hc
  have hsound' := hsound.move hwf hmove
  obtain ⟨t, ht, hmem⟩ := Store.get?_of_mem_rows hrow
  have htakes := (hsound' table htable t ht).fits row hmem c hc
  refine Store.Points.carry hwf hsound hsound' (hmove.keeps_keys hwf) htable hc htakes
    (hexact row hrow c hc) ?_
  -- whatever the row points at was there before the move, so its key still is
  rcases hmove.accounts hwf hsound htable hrow with hold | ⟨hpoints, -⟩
  · exact hintact row hold c hc
  · exact hpoints c hc

end Moves

end RecordStore
