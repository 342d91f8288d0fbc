import Mathlib.Data.List.Pairwise
import Mathlib.Logic.Relation
import RecordStore.Proofs.Equality
import RecordStore.Proofs.Row
import RecordStore.Proofs.WellFormed

/-!
# Sound stores

The ways in which the tables of a store change, and what stays true of them.

* **`Move`** — one statement of a change that succeeded: a table is created, a row is put at its end
  or changed in its place, rows of a resource go with the links to them, or links go. Whatever a
  catalog does to a store is a chain of such moves.
* **`Sound`** — every row of a table has the columns of the table with cells of their types, null
  only where the column takes it, and no two rows share a cell of the key or of a unique column.
* **`Sound.move`** — moves keep a store sound.

The times that the clock shows are a parameter of both: a stamped cell holds one of them, and it is
not asked here whether its text is a date.
-/

namespace RecordStore

/-- A column takes a value: one of its type or, if it is stamped, the text of a time. -/
def Column.Takes (times : Time.Instant → Prop) (c : Column) (v : Value) : Prop :=
  c.type.accepts v = true ∨ c.defaultNow = true ∧ ∃ now, times now ∧ v = .string now.text

/-- The columns take the cells of a record; a cell that the record lacks counts as null. -/
def Record.Fits (times : Time.Instant → Prop) (columns : List Column) (r : Record) : Prop :=
  ∀ c ∈ columns, c.Takes times (r.cell c.name)

/-- What a column of a resource is given: a value that it takes, and a double to point at a number
of the type of doubles. -/
def Column.Gets (times : Time.Instant → Prop) (c : Column) (v : Value) : Prop :=
  c.Takes times v ∧ (c.references.isSome = true → c.type = .float → v.isNull = false →
    ∃ x, v = .float x)

/-- The columns of a resource are given the cells of a record. -/
def Record.Suits (times : Time.Instant → Prop) (columns : List Column) (r : Record) : Prop :=
  ∀ c ∈ columns, c.Gets times (r.cell c.name)

/-- Two rows have the same cell in a column. -/
def Column.Clashes (c : Column) (a b : Record) : Prop :=
  (a.cell c.name).isNull = false ∧ (b.cell c.name).isNull = false
    ∧ c.type.equal (a.cell c.name) (b.cell c.name) = true

/-- The key of a changed row is the old one, or equal to it. -/
def Table.KeepsKey (table : Table) (old row : Record) : Prop :=
  row.cell table.primaryKey = old.cell table.primaryKey
    ∨ ∃ c, table.keyColumn? = some c
      ∧ c.type.equal (old.cell table.primaryKey) (row.cell table.primaryKey) = true

/-! ## Moves -/

inductive Move (schema : Schema) (times : Time.Instant → Prop) (drops : Prop) : Store → Store → Prop
  /-- a table is created -/
  | create {s : Store} {table : Table} (htable : table ∈ schema.physical) :
      Move schema times drops s (s.create table)
  /-- a row is put at the end of the table of a resource -/
  | append {s : Store} {table : Table} {t : StoredTable} {now : Time.Instant} {record row : Record}
      {next : Int} (htable : table ∈ schema.bases) (hstored : s.tables.get? table.name = some t)
      (hnow : times now) (hsuits : record.Suits times table.columns)
      (hfill : t.fill (.string now.text) record = (row, next))
      (hadmissible : s.Admissible table.uniqueGroups t.columns t.rows row) :
      Move schema times drops s
        (s.put table.name { t with nextId := next, rows := t.rows ++ [row] })
  /-- a row is put at the end of a link table -/
  | link {s : Store} {link : Table} {t : StoredTable} {now : Time.Instant} {record row : Record}
      {next : Int} (hlink : link ∈ schema.links) (hstored : s.tables.get? link.name = some t)
      (hnow : times now) (hfits : record.Fits times link.columns)
      (hfill : t.fill (.string now.text) record = (row, next))
      (hadmissible : s.Admissible link.uniqueGroups t.columns t.rows row) :
      Move schema times drops s (s.put link.name { t with nextId := next, rows := t.rows ++ [row] })
  /-- a row of a resource is changed in its place, and its key stays equal -/
  | rewrite {s : Store} {table : Table} {t : StoredTable} {place : Nat} {record old row : Record}
      (htable : table ∈ schema.bases) (hstored : s.tables.get? table.name = some t)
      (hold : t.rows[place]? = some old) (hassign : StoredTable.assign old record = .ok row)
      (hsuits : record.Suits times table.columns) (hkey : table.KeepsKey old row)
      (hadmissible : s.Admissible table.uniqueGroups t.columns (t.rows.eraseIdx place) row) :
      Move schema times drops s (s.put table.name { t with rows := t.rows.set place row })
  /-- rows of a resource go, to which no link is left -/
  | drop {s : Store} {table : Table} {t : StoredTable} {goes : Record → Bool} (hdrops : drops)
      (htable : table ∈ schema.bases) (hstored : s.tables.get? table.name = some t)
      (hflag : table.deletedColumn = none)
      (hlinks : ∀ link ∈ schema.links, ∀ c ∈ link.columns,
        c.references.any (·.table == table.name) = true → ∀ row ∈ s.rows link.name,
          (row.cell c.name).isNull = false → ∀ gone ∈ t.rows, goes gone = true →
            c.type.equal (row.cell c.name) (gone.cell table.primaryKey) = false) :
      Move schema times drops s (s.put table.name { t with rows := t.rows.filter (!goes ·) })
  /-- links go -/
  | unlink {s : Store} {link : Table} {t : StoredTable} {goes : Record → Bool}
      (hlink : link ∈ schema.links) (hstored : s.tables.get? link.name = some t) :
      Move schema times drops s (s.put link.name { t with rows := t.rows.filter (!goes ·) })

/-- A chain of moves. -/
abbrev Moves (schema : Schema) (times : Time.Instant → Prop) (drops : Prop) :
    Store → Store → Prop :=
  Relation.ReflTransGen (Move schema times drops)

/-! ## Soundness -/

namespace StoredTable

/-- What is true of the rows of a table at all times. -/
structure Sound (times : Time.Instant → Prop) (table : Table) (t : StoredTable) : Prop where
  columns_eq : t.columns = table.columns
  counter : isSigned64 t.nextId = true
  keys_eq : ∀ row ∈ t.rows, row.keys = table.columnNames
  fits : ∀ row ∈ t.rows, row.Fits times table.columns
  filled : ∀ row ∈ t.rows, ∀ c ∈ table.columns, (row.cell c.name).isNull = true →
    c.nullable = true ∧ c.primaryKey = false
  apart : ∀ c ∈ table.columns, c.isExclusive = true → t.rows.Pairwise fun a b => ¬ c.Clashes a b

end StoredTable

/-- Every table that exists is sound. -/
def Store.Sound (schema : Schema) (times : Time.Instant → Prop) (s : Store) : Prop :=
  ∀ table ∈ schema.physical, ∀ t, s.tables.get? table.name = some t → t.Sound times table

theorem Column.takes_null (times : Time.Instant → Prop) (c : Column) : c.Takes times .null :=
  .inl (ColumnType.accepts_null c.type)

theorem Column.gets_null (times : Time.Instant → Prop) (c : Column) : c.Gets times .null :=
  ⟨c.takes_null times, fun _ _ hnull => by cases hnull⟩

theorem Column.clashes_comm {c : Column} {a b : Record} (h : c.Clashes a b) : c.Clashes b a :=
  ⟨h.2.1, h.1, by rw [ColumnType.equal_comm]; exact h.2.2⟩

theorem Record.cell_of_get?_none {r : Record} {name : String} (h : r.get? name = none) :
    r.cell name = .null := by
  rw [Record.cell, h]
  rfl

/-- Only the cells that a record has need to be looked at. -/
theorem Record.fits_of_get? {times : Time.Instant → Prop} {columns : List Column} {r : Record}
    (h : ∀ c ∈ columns, ∀ v, r.get? c.name = some v → c.Takes times v) : r.Fits times columns := by
  intro c hc
  cases hget : r.get? c.name with
  | none => exact Record.cell_of_get?_none hget ▸ c.takes_null times
  | some v => exact Record.cell_eq_of_get? hget ▸ h c hc v hget

theorem Record.suits_of_get? {times : Time.Instant → Prop} {columns : List Column} {r : Record}
    (h : ∀ c ∈ columns, ∀ v, r.get? c.name = some v → c.Gets times v) : r.Suits times columns := by
  intro c hc
  cases hget : r.get? c.name with
  | none => exact Record.cell_of_get?_none hget ▸ c.gets_null times
  | some v => exact Record.cell_eq_of_get? hget ▸ h c hc v hget

theorem Record.Suits.fits {times : Time.Instant → Prop} {columns : List Column} {r : Record}
    (h : r.Suits times columns) : r.Fits times columns :=
  fun c hc => (h c hc).1

instance (c : Column) : Std.Symm fun a b => ¬ c.Clashes a b :=
  ⟨fun _ _ hab hba => hab (Column.clashes_comm hba)⟩

/-- A row that is held to be apart from others clashes with none of them. -/
theorem Store.Admissible.not_clashes {s : Store} {groups : List (List String)}
    {columns : List Column} {others : List Record} {row : Record}
    (h : s.Admissible groups columns others row) {c : Column} (hc : c ∈ columns)
    (hexclusive : c.isExclusive = true) {other : Record} (hother : other ∈ others) :
    ¬ c.Clashes other row := by
  rintro ⟨hsome, hrow, hequal⟩
  have happart := h.apart c hc hexclusive hrow other hother
  rw [Column.isHeldBy] at happart
  -- the check looks at the cell that is there, clashing at the cell or null
  cases hget : other.get? c.name with
  | none =>
    rw [Record.cell_of_get?_none hget] at hsome
    simp [Value.isNull] at hsome
  | some v =>
    rw [Record.cell_eq_of_get? hget] at hequal
    simp [hget, hequal] at happart

/-- A changed list, in another order. -/
theorem set_perm_cons_eraseIdx {α : Type} {items : List α} {place : Nat} (h : place < items.length)
    (x : α) : (items.set place x).Perm (x :: items.eraseIdx place) := by
  -- on the items, the place moving down with them
  induction items generalizing place with
  | nil => simp at h
  | cons y rest ih =>
    cases place with
    | zero => exact .refl _
    | succ n => exact ((ih (Nat.lt_of_succ_lt_succ h)).cons y).trans (.swap x y _)

namespace StoredTable.Sound

variable {times : Time.Instant → Prop} {table : Table} {t : StoredTable}

/-- A table without rows is sound. -/
theorem empty (times : Time.Instant → Prop) (table : Table) :
    StoredTable.Sound times table { columns := table.columns } where
  columns_eq := rfl
  counter := (by decide : isSigned64 1 = true)
  keys_eq := by simp
  fits := by simp
  filled := by simp
  apart := by simp

/-- A filled row has cells that the columns take. -/
theorem fits_fill (h : t.Sound times table) (hwf : table.WellFormed) {now : Time.Instant}
    (hnow : times now) {record : Record} (hfits : record.Fits times table.columns) :
    (t.fill (.string now.text) record).1.Fits times table.columns := by
  intro c hc
  have hnodup : (t.columns.map Column.name).Nodup := by
    rw [h.columns_eq]
    exact hwf.names_nodup
  obtain ⟨n, hn, hcell⟩ :=
    fill_cell t (.string now.text) record hnodup (h.columns_eq ▸ hc) h.counter
  rw [hcell]
  cases hget : record.get? c.name with
  | some v =>
    rw [Option.getD_some, ← Record.cell_eq_of_get? hget]
    exact hfits c hc
  | none =>
    rw [Option.getD_none, filling]
    split
    · -- the next number, which has 64 bits
      rename_i hnumber
      rw [Column.Takes, hwf.number_integer c hc hnumber]
      exact .inl hn
    · cases hdefault : c.default? with
      | some v => exact .inl (hwf.default_accepted c hc v hdefault)
      | none =>
        rw [Option.getD_none]
        split
        · rename_i hstamp
          exact .inr ⟨hstamp, now, hnow, rfl⟩
        · exact c.takes_null times

theorem append (h : t.Sound times table) (hwf : table.WellFormed) {s : Store} {now : Time.Instant}
    (hnow : times now) {record row : Record} {next : Int} (hfits : record.Fits times table.columns)
    (hfill : t.fill (.string now.text) record = (row, next))
    (hadmissible : s.Admissible table.uniqueGroups t.columns t.rows row) :
    StoredTable.Sound times table { t with nextId := next, rows := t.rows ++ [row] } := by
  have hrow : row = (t.fill (.string now.text) record).1 := by rw [hfill]
  have hnext : next = (t.fill (.string now.text) record).2 := by rw [hfill]
  -- every row after it is an old row or the new one
  have hall {P : Record → Prop} (hold : ∀ r ∈ t.rows, P r) (hnew : P row) :
      ∀ r ∈ t.rows ++ [row], P r := by
    intro r hr
    rcases List.mem_append.1 hr with hr | hr
    · exact hold r hr
    · exact List.mem_singleton.1 hr ▸ hnew
  constructor
  · exact h.columns_eq
  · rw [hnext]
    exact fill_counter t _ record h.counter
  · refine hall h.keys_eq ?_
    rw [hrow, keys_fill t _ record (h.columns_eq ▸ hwf.names_nodup), h.columns_eq]
    rfl
  · refine hall h.fits ?_
    rw [hrow]
    exact h.fits_fill hwf hnow hfits
  · exact hall h.filled fun c hc => hadmissible.filled c (h.columns_eq ▸ hc)
  -- old rows are apart from each other, and the new one from all of them
  · intro c hc hexclusive
    refine List.pairwise_append.2 ⟨h.apart c hc hexclusive, List.pairwise_singleton _ _, ?_⟩
    intro a ha b hb
    rw [List.mem_singleton.1 hb]
    exact hadmissible.not_clashes (h.columns_eq ▸ hc) hexclusive ha

/-- A changed row has cells that the columns take. -/
theorem fits_assign {columns : List Column} {old record row : Record}
    (hold : old.Fits times columns) (hfits : record.Fits times columns)
    (hassign : StoredTable.assign old record = .ok row) : row.Fits times columns := by
  intro c hc
  rcases cell_assign hassign c.name with hcell | hcell
  · exact hcell ▸ hfits c hc
  · exact hcell ▸ hold c hc

theorem rewrite (h : t.Sound times table) {s : Store} {place : Nat} {record old row : Record}
    (hold : t.rows[place]? = some old) (hassign : StoredTable.assign old record = .ok row)
    (hfits : record.Fits times table.columns)
    (hadmissible : s.Admissible table.uniqueGroups t.columns (t.rows.eraseIdx place) row) :
    StoredTable.Sound times table { t with rows := t.rows.set place row } := by
  have hmem : old ∈ t.rows := List.mem_of_getElem? hold
  -- every row after it is an old row or the changed one
  have hall {P : Record → Prop} (hrows : ∀ r ∈ t.rows, P r) (hnew : P row) :
      ∀ r ∈ t.rows.set place row, P r := by
    intro r hr
    rcases List.mem_or_eq_of_mem_set hr with hr | hr
    · exact hrows r hr
    · exact hr ▸ hnew
  constructor
  · exact h.columns_eq
  · exact h.counter
  · exact hall h.keys_eq ((keys_assign hassign).trans (h.keys_eq old hmem))
  · exact hall h.fits (fits_assign (h.fits old hmem) hfits hassign)
  · exact hall h.filled fun c hc => hadmissible.filled c (h.columns_eq ▸ hc)
  · intro c hc hexclusive
    -- clashing is symmetric, so the changed row may be looked at first
    obtain ⟨hplace, -⟩ := List.getElem?_eq_some_iff.1 hold
    refine ((set_perm_cons_eraseIdx hplace row).pairwise_iff (Std.Symm.symm _ _)).2 ?_
    refine List.pairwise_cons.2 ⟨fun other hother => ?_,
      (h.apart c hc hexclusive).sublist (List.eraseIdx_sublist ..)⟩
    intro hclash
    exact hadmissible.not_clashes (h.columns_eq ▸ hc) hexclusive hother (Column.clashes_comm hclash)

theorem filter (h : t.Sound times table) (stays : Record → Bool) :
    StoredTable.Sound times table { t with rows := t.rows.filter stays } where
  columns_eq := h.columns_eq
  counter := h.counter
  keys_eq row hrow := h.keys_eq row (List.mem_of_mem_filter hrow)
  fits row hrow := h.fits row (List.mem_of_mem_filter hrow)
  filled row hrow := h.filled row (List.mem_of_mem_filter hrow)
  apart c hc hexclusive := (h.apart c hc hexclusive).sublist List.filter_sublist

end StoredTable.Sound

namespace Table.WellFormed

variable {times : Time.Instant → Prop} {t : Table}

/-- A stamped column is given dates, and so points at nothing of the type of doubles. -/
theorem gets_of_stamp (hwf : t.WellFormed) {c : Column} (hc : c ∈ t.columns)
    (hname : c.name ∈ Change.stampColumns) {v : Value} (hv : c.Takes times v) :
    c.Gets times v := by
  obtain ⟨d, hd, hdname, hstamp⟩ := hwf.stamps _ hname
  obtain rfl : d = c := hwf.eq_of_name hd hc hdname
  refine ⟨hv, fun _ hfloat => ?_⟩
  rw [hwf.stamp_datetime d hc hstamp] at hfloat
  cases hfloat

theorem gets_now (hwf : t.WellFormed) {now : Time.Instant} (hnow : times now) {c : Column}
    (hc : c ∈ t.columns) (hname : c.name ∈ Change.stampColumns) :
    c.Gets times (.string now.text) := by
  obtain ⟨d, hd, hdname, hstamp⟩ := hwf.stamps _ hname
  obtain rfl : d = c := hwf.eq_of_name hd hc hdname
  exact hwf.gets_of_stamp hc hname (.inr ⟨hstamp, now, hnow, rfl⟩)

theorem gets_key (hwf : t.WellFormed) {k : Column} (hk : t.keyColumn? = some k) {v : Value}
    (hv : k.type.accepts v = true) : k.Gets times v := by
  obtain ⟨k', hk', -, -, href⟩ := hwf.key
  obtain rfl : k' = k := Option.some.inj (hk'.symm.trans hk)
  exact ⟨.inl hv, fun hsome => by rw [href] at hsome; cases hsome⟩

/-- The key column is none of those that are stamped. -/
theorem key_not_stamp (hwf : t.WellFormed) : t.primaryKey ∉ Change.stampColumns := by
  intro hmem
  obtain ⟨k, hk, -, hstamp, -⟩ := hwf.key
  obtain ⟨d, hd, hdname, hnow⟩ := hwf.stamps _ hmem
  obtain ⟨hkmem, hkname⟩ := Table.mem_of_column? hk
  rw [hwf.eq_of_name hd hkmem (hdname.trans hkname.symm), hstamp] at hnow
  cases hnow

/-- The key column is not the flag of deleted rows. -/
theorem key_not_flag (hwf : t.WellFormed) : t.deletedColumn ≠ some t.primaryKey := by
  intro hflag
  obtain ⟨k, hk, hprimary, -⟩ := hwf.key
  obtain ⟨d, hd, hdname, -, hnot, -⟩ := hwf.flag _ hflag
  obtain ⟨hkmem, hkname⟩ := Table.mem_of_column? hk
  rw [hwf.eq_of_name hd hkmem (hdname.trans hkname.symm), hprimary] at hnot
  cases hnot

end Table.WellFormed

/-- The key of a row is there, and of the type of its column. -/
theorem StoredTable.Sound.key_accepted {times : Time.Instant → Prop} {table : Table}
    {t : StoredTable} (h : t.Sound times table) (hwf : table.WellFormed) {c : Column}
    (hkey : table.keyColumn? = some c) {row : Record} (hrow : row ∈ t.rows) :
    c.type.accepts (row.cell table.primaryKey) = true
      ∧ (row.cell table.primaryKey).isNull = false := by
  obtain ⟨k, hk, hprimary, hstamp, -⟩ := hwf.key
  obtain rfl : k = c := Option.some.inj (hk.symm.trans hkey)
  obtain ⟨hmem, hname⟩ := Table.mem_of_column? hkey
  rw [← hname]
  constructor
  -- a key column is not stamped, so its cell is of its type
  · rcases h.fits row hrow k hmem with haccepts | ⟨hnow, -⟩
    · exact haccepts
    · rw [hnow] at hstamp
      simp at hstamp
  · cases hnull : (row.cell k.name).isNull with
    | false => rfl
    | true =>
      have hnot := (h.filled row hrow k hmem hnull).2
      rw [hprimary] at hnot
      simp at hnot

/-- Keys tell the rows apart. -/
theorem StoredTable.Sound.pairwise_keys {times : Time.Instant → Prop} {table : Table}
    {t : StoredTable} (h : t.Sound times table) (hwf : table.WellFormed) {c : Column}
    (hkey : table.keyColumn? = some c) : t.rows.Pairwise fun a b =>
      c.type.equal (a.cell table.primaryKey) (b.cell table.primaryKey) = false := by
  obtain ⟨k, hk, hprimary, -, -⟩ := hwf.key
  obtain rfl : k = c := Option.some.inj (hk.symm.trans hkey)
  obtain ⟨hmem, hname⟩ := Table.mem_of_column? hkey
  -- rows with equal keys would clash in the key, which is exclusive
  refine (h.apart k hmem (Column.isExclusive_of_primaryKey hprimary)).imp_of_mem ?_
  intro a b ha hb hclash
  rw [← Bool.not_eq_true]
  intro hequal
  refine hclash ⟨?_, ?_, hname ▸ hequal⟩
  · exact hname ▸ (h.key_accepted hwf hkey ha).2
  · exact hname ▸ (h.key_accepted hwf hkey hb).2

namespace Store.Sound

variable {schema : Schema} {times : Time.Instant → Prop} {drops : Prop} {s s' : Store}

/-- The store without tables is sound. -/
theorem empty (schema : Schema) (times : Time.Instant → Prop) :
    ({} : Store).Sound schema times := by
  intro table _ t ht
  simp [EmptyCollection.emptyCollection] at ht

/-- A new state of one table is all that has to be looked at. -/
theorem put (h : s.Sound schema times) (hwf : schema.WellFormed) {table : Table} {t : StoredTable}
    (htable : table ∈ schema.physical) (ht : t.Sound times table) :
    (s.put table.name t).Sound schema times := by
  intro other hother u hu
  rw [Store.put, NameMap.get?_insert] at hu
  split at hu
  · rename_i hname
    -- no two tables have the same name
    rw [hwf.eq_of_name hother htable hname, ← Option.some.inj hu]
    exact ht
  · exact h other hother u hu

/-- **Moves keep a store sound.** -/
theorem move (h : s.Sound schema times) (hwf : schema.WellFormed)
    (hmove : Move schema times drops s s') :
    s'.Sound schema times := by
  cases hmove with
  | @create table htable =>
    unfold Store.create
    split
    · exact h
    · exact h.put hwf htable (.empty times table)
  | append htable hstored hnow hsuits hfill hadmissible =>
    have hmem := Schema.mem_physical_of_base htable
    exact h.put hwf hmem
      ((h _ hmem _ hstored).append (hwf.tables _ hmem) hnow hsuits.fits hfill hadmissible)
  | link hlink hstored hnow hfits hfill hadmissible =>
    have hmem := Schema.mem_physical_of_link hlink
    exact h.put hwf hmem
      ((h _ hmem _ hstored).append (hwf.tables _ hmem) hnow hfits hfill hadmissible)
  | rewrite htable hstored hold hassign hsuits _ hadmissible =>
    have hmem := Schema.mem_physical_of_base htable
    exact h.put hwf hmem ((h _ hmem _ hstored).rewrite hold hassign hsuits.fits hadmissible)
  | drop _ htable hstored _ _ =>
    have hmem := Schema.mem_physical_of_base htable
    exact h.put hwf hmem ((h _ hmem _ hstored).filter _)
  | unlink hlink hstored =>
    have hmem := Schema.mem_physical_of_link hlink
    exact h.put hwf hmem ((h _ hmem _ hstored).filter _)

theorem moves (h : s.Sound schema times) (hwf : schema.WellFormed)
    (hmoves : Moves schema times drops s s') : s'.Sound schema times := by
  -- on the chain, one move at its end after the other
  induction hmoves with
  | refl => exact h
  | tail _ hmove ih => exact ih.move hwf hmove

end Store.Sound

end RecordStore
