import RecordStore.Proofs.Change
import RecordStore.Proofs.Document
import RecordStore.Proofs.Sound

/-!
# Changes as moves

Whatever a change does to a sound store is a chain of moves: each statement that it makes is one, or
one for every row. The rows that are written suit their tables, because the documents are checked,
the keys are those of rows or read as keys, and what is filled in is of the right type.

* **`move_of_append`**, **`moves_of_change`**, **`moves_of_delete`** — the statements.
* **`suits_insertedRow`**, **`suits_updatedRow`**, **`suits_replacedRow`** — the rows that are
  written.
* **`moves_of_insert`**, **`moves_of_update`**, **`moves_of_replace`** — the changes.
-/

namespace RecordStore

open RecordStore.Action

variable {schema : Schema} {times : Time.Instant → Prop} {drops : Prop} {tx tx' : Transaction}

/-! ## Statements -/

namespace Transaction

variable {table base : Table} {record row : Record} {now : Time.Instant}

/-- A row that was put into a table was admissible there. -/
theorem admissible_of_append (hshares : table.SharesRows base)
    (h : Yields (append now table record) tx row tx') :
    ∃ t next, tx.work.tables.get? base.name = some t
      ∧ t.fill (.string now.text) record = (row, next)
      ∧ tx.work.Admissible base.uniqueGroups t.columns t.rows row
      ∧ tx'.work = tx.work.put base.name { t with nextId := next, rows := t.rows ++ [row] } := by
  obtain ⟨-, t, next, ht, -, hfill, hrules, rfl⟩ := yields_append.1 h
  rw [hshares.name] at ht hrules
  refine ⟨t, next, ht, hfill, ?_, by rw [work_onto, hshares.name]⟩
  have hadmissible := Store.admissible_of_checkRules hrules
  rw [hshares.uniqueGroups] at hadmissible
  -- the number that is used up before the rules are checked is in no row
  refine hadmissible.of_rows_eq fun name => ?_
  rw [Store.rows_put]
  split
  · rename_i hname
    rw [hname, Store.rows_of_get? ht]
  · rfl

theorem move_of_append (hbase : base ∈ schema.bases) (hshares : table.SharesRows base)
    (hnow : times now) (hsuits : record.Suits times base.columns)
    (h : Yields (append now table record) tx row tx') :
    Move schema times drops tx.work tx'.work := by
  obtain ⟨t, next, ht, hfill, hadmissible, hwork⟩ := admissible_of_append hshares h
  rw [hwork]
  exact .append hbase ht hnow hsuits hfill hadmissible

theorem move_of_append_link {link : Table} (hlink : link ∈ schema.links) (hnow : times now)
    (hfits : record.Fits times link.columns) (h : Yields (append now link record) tx row tx') :
    Move schema times drops tx.work tx'.work := by
  obtain ⟨t, next, ht, hfill, hadmissible, hwork⟩ := admissible_of_append (.refl link) h
  rw [hwork]
  exact .link hlink ht hnow hfits hfill hadmissible

/-- Changing a row is a move if it keeps the key, whatever row it is. -/
theorem moves_of_change {place : Nat} (hbase : base ∈ schema.bases)
    (hshares : table.SharesRows base)
    (hsuits : record.Suits times base.columns)
    (hkey : ∀ t old row, tx.work.tables.get? base.name = some t → t.rows[place]? = some old →
      StoredTable.assign old record = .ok row → base.KeepsKey old row)
    (h : Yields (change table record place) tx () tx') :
    Moves schema times drops tx.work tx'.work := by
  obtain ⟨-, t, ht, ⟨-, rfl⟩ | ⟨old, row, hold, hassign, hrules, rfl⟩⟩ := yields_change.1 h
  -- there is no row at the place
  · exact .refl
  · rw [hshares.name] at ht
    have hadmissible := Store.admissible_of_checkRules hrules
    rw [hshares.uniqueGroups] at hadmissible
    rw [work_onto, hshares.name]
    exact .single
      (.rewrite hbase ht hold hassign hsuits (hkey t old row ht hold hassign) hadmissible)

/-- A step that is a chain of moves on every sound store is one for every item of a list, too. -/
theorem moves_of_forM {α : Type} {f : α → Action Unit} {items : List α} (hwf : schema.WellFormed)
    (hsound : tx.work.Sound schema times)
    (hstep : ∀ x ∈ items, ∀ tx tx', tx.work.Sound schema times → Yields (f x) tx () tx' →
      Moves schema times drops tx.work tx'.work)
    (h : Yields (items.forM f) tx () tx') : Moves schema times drops tx.work tx'.work := by
  -- the invariant: what was reached so far was reached by moves, and so is sound
  refine forM_induction (P := fun mid => Moves schema times drops tx.work mid.work) ?_ .refl h
  intro x hx mid mid' hmid hrun
  exact hmid.trans (hstep x hx mid mid' (hsound.moves hwf hmid) hrun)

/-- Rows that are changed by a record without a key keep theirs. -/
theorem moves_of_update {p : Predicate} {n : Nat} (hwf : schema.WellFormed)
    (hsound : tx.work.Sound schema times) (hbase : base ∈ schema.bases)
    (hshares : table.SharesRows base) (hsuits : record.Suits times base.columns)
    (hkey : record.get? base.primaryKey = none) (h : Yields (update table p record) tx n tx') :
    Moves schema times drops tx.work tx'.work := by
  obtain ⟨-, -, t, -, hrun, -⟩ := yields_update.1 h
  refine moves_of_forM hwf hsound ?_ hrun
  intro place _ mid mid' _ hstep
  refine moves_of_change hbase hshares hsuits ?_ hstep
  intro t old row _ _ hassign
  -- the record gives no key, so the cell is the old one
  refine .inl ?_
  rw [Record.cell, StoredTable.get?_assign hassign, hkey]
  rfl

theorem mem_places {t : StoredTable} {p : Predicate} {place : Nat} (h : place ∈ t.places p) :
    ∃ row, t.rows[place]? = some row ∧ p.holds t.columns row = true := by
  obtain ⟨⟨row, i⟩, hmem, rfl⟩ := List.mem_map.1 h
  obtain ⟨hzip, hholds⟩ := List.mem_filter.1 hmem
  exact ⟨row, List.mem_zipIdx_iff_getElem?.1 hzip, hholds⟩

/-- Equality with a value that is not null asks for an equal cell that is not null. -/
theorem holds_eq {columns : List Column} {row : Record} {name : String} {v : Value}
    (hv : v.isNull = false) :
    (Predicate.eq name v).holds columns row = true
      ↔ (row.cell name).isNull = false
        ∧ (typeIn columns name).equal (row.cell name) v = true := by
  cases v
    <;> simp_all [Predicate.eq, Predicate.holds, Operator.accepts, Operator.holds, Value.isNull]

/-- A row that is upserted is changed or added, and either is a move. -/
theorem moves_of_upsert {key : Value} (hwf : schema.WellFormed)
    (hsound : tx.work.Sound schema times) (hbase : base ∈ schema.bases)
    (hshares : table.SharesRows base) (hnow : times now) (hsuits : record.Suits times base.columns)
    (hkey : record.get? base.primaryKey = some key) (hnull : key.isNull = false)
    (h : Yields (upsert now table record) tx () tx') :
    Moves schema times drops tx.work tx'.work := by
  have hphysical := Schema.mem_physical_of_base hbase
  obtain ⟨-, -, t, ht, ⟨place, rest, hplaces, hchange⟩ | ⟨-, row, happend⟩⟩ := yields_upsert.1 h
  · refine moves_of_change hbase hshares hsuits ?_ hchange
    intro t' old row ht' hold hassign
    obtain ⟨c, hc, -⟩ := (hwf.tables base hphysical).key
    obtain rfl : t = t' := Option.some.inj (ht.symm.trans (hshares.name ▸ ht'))
    have hplace : place ∈ t.places (.eq table.primaryKey (record.cell table.primaryKey)) := by
      rw [hplaces]
      exact List.mem_cons_self
    -- the row was found by a predicate that asks for an equal key
    obtain ⟨found, hfound, hholds⟩ := mem_places hplace
    obtain rfl : found = old := Option.some.inj (hfound.symm.trans hold)
    have hcell : row.cell base.primaryKey = key := by
      rw [Record.cell, StoredTable.get?_assign hassign, hkey]
      rfl
    -- the predicate compares by the type of the stored column, which is that of the key
    rw [hshares.primaryKey, Record.cell_eq_of_get? hkey, (hsound base hphysical t ht').columns_eq,
      holds_eq hnull, Table.typeIn_keyColumn hc] at hholds
    exact .inr ⟨c, hc, hcell ▸ hholds.2⟩
  · exact .single (move_of_append hbase hshares hnow hsuits happend)

theorem moves_of_delete {link : Table} {p : Predicate} {n : Nat} (hlink : link ∈ schema.links)
    (h : Yields (delete link p) tx n tx') : Moves schema times drops tx.work tx'.work := by
  obtain ⟨-, -, t, ht, rfl, -⟩ := yields_delete.1 h
  exact .single (.unlink hlink ht)

end Transaction

/-! ## Rows that are written -/

section Rows

variable {table base : Table} {now : Time.Instant} {doc : Record}

/-- Cells that a suitable record has, or the time in a stamped column, are suitable. -/
theorem suits_of_stamped (hwf : base.WellFormed) (hnow : times now) {r new : Record}
    (h : r.Suits times base.columns)
    (hcells : ∀ name v, new.get? name = some v →
      r.get? name = some v ∨ name ∈ Change.stampColumns ∧ v = .string now.text) :
    new.Suits times base.columns := by
  refine Record.suits_of_get? fun c hc v hv => ?_
  rcases hcells _ _ hv with hold | ⟨hname, rfl⟩
  · exact Record.cell_eq_of_get? hold ▸ h c hc
  · exact hwf.gets_now hnow hc hname

/-- The columns take the fields of a checked document. -/
theorem fits_of_check (hwf : base.WellFormed) (hshares : table.SharesRows base)
    (hcheck : Document.checkPartial schema table doc = .ok ()) : doc.Fits times base.columns := by
  refine Record.fits_of_get? fun c hc v hv => .inl ?_
  exact Document.accepts_of_check hcheck hv ((hshares.column? _).trans (hwf.column?_name hc))

theorem mem_doubleNames_iff (hwf : base.WellFormed) (hshares : table.SharesRows base) {c : Column}
    (hc : c ∈ base.columns) : c.name ∈ Change.doubleNames table ↔ c.type = .float :=
  Change.mem_doubleNames_iff hshares hc fun _ hd _ hname => hwf.eq_of_name hd hc hname

/-- Making numbers doubles makes fitting cells suitable. -/
theorem suits_withDoubles (hwf : base.WellFormed) (hshares : table.SharesRows base)
    (h : doc.Fits times base.columns) :
    (Change.withDoubles table doc).Suits times base.columns := by
  refine Record.suits_of_get? fun c hc v hv => ?_
  rw [Change.get?_withDoubles] at hv
  split at hv
  · rename_i hname
    have htype := (mem_doubleNames_iff hwf hshares hc).1 hname
    obtain ⟨w, hw, rfl⟩ := Option.map_eq_some_iff.1 hv
    have haccepts : ColumnType.float.accepts w = true := by
      -- a column of doubles is not stamped
      rcases h c hc with hin | ⟨hstamp, -⟩
      · rwa [Record.cell_eq_of_get? hw, htype] at hin
      · rw [hwf.stamp_datetime c hc hstamp] at htype
        cases htype
    refine ⟨.inl (htype ▸ ColumnType.accepts_asDouble haccepts), fun _ _ hnull => ?_⟩
    rw [Value.isNull_asDouble] at hnull
    exact ColumnType.asDouble_eq_float haccepts hnull
  · rename_i hname
    -- no column of doubles: its cell is the field as it was given
    refine ⟨Record.cell_eq_of_get? hv ▸ h c hc, fun _ htype => ?_⟩
    exact absurd ((mem_doubleNames_iff hwf hshares hc).2 htype) hname

/-- The fields of a document that are stored in its row are fields of the document. -/
theorem get?_of_rowOf {name : String} {v : Value}
    (h : (Change.rowOf table doc).get? name = some v) : doc.get? name = some v := by
  rw [Change.get?_rowOf] at h
  split at h
  · exact h
  · cases h

theorem suits_fields (hwf : base.WellFormed) (hshares : table.SharesRows base)
    (hcheck : Document.checkPartial schema table doc = .ok ()) :
    (Change.withDoubles table (Change.rowOf table doc)).Suits times base.columns := by
  refine suits_withDoubles hwf hshares (Record.fits_of_get? fun c hc v hv => ?_)
  exact Record.cell_eq_of_get? (get?_of_rowOf hv) ▸ fits_of_check hwf hshares hcheck c hc

theorem get?_withMissing {v w : Value} {r : Record} {added name : String}
    (h : (Change.withMissing v r added).get? name = some w) :
    r.get? name = some w ∨ name = added ∧ w = v := by
  unfold Change.withMissing at h
  split at h
  · exact .inl h
  · rw [NameMap.get?_insert] at h
    split at h
    · rename_i hname
      exact .inr ⟨hname, (Option.some.inj h).symm⟩
    · exact .inl h

/-- A column of the inserted row is the document's, or a stamp that the document lacks. -/
theorem get?_of_insertedRow {name : String} {v : Value}
    (h : (Change.insertedRow table now doc).get? name = some v) :
    (Change.rowOf table (Change.withDoubles table doc)).get? name = some v
      ∨ name ∈ Change.stampColumns ∧ v = .string now.text := by
  unfold Change.insertedRow at h
  simp only [Change.stampColumns, List.foldl_cons, List.foldl_nil] at h
  -- the later stamp comes off first
  rcases get?_withMissing h with h | ⟨rfl, rfl⟩
  · rcases get?_withMissing h with h | ⟨rfl, rfl⟩
    · exact .inl h
    · exact .inr ⟨List.mem_cons_self, rfl⟩
  · exact .inr ⟨List.mem_cons_of_mem _ List.mem_cons_self, rfl⟩

/-- Only the times are added to the columns of a document. -/
theorem get?_insertedRow_of_not_mem {name : String} (h : name ∉ Change.stampColumns) :
    (Change.insertedRow table now doc).get? name
      = (Change.rowOf table (Change.withDoubles table doc)).get? name := by
  have hmissing (v : Value) (r : Record) {added : String} (hne : name ≠ added) :
      (Change.withMissing v r added).get? name = r.get? name := by
    unfold Change.withMissing
    split
    · rfl
    · exact NameMap.get?_insert_of_ne _ _ hne
  simp only [Change.stampColumns, List.mem_cons, List.not_mem_nil, or_false, not_or] at h
  unfold Change.insertedRow
  simp only [Change.stampColumns, List.foldl_cons, List.foldl_nil]
  rw [hmissing _ _ h.2, hmissing _ _ h.1]

theorem suits_insertedRow (hwf : base.WellFormed) (hshares : table.SharesRows base)
    (hnow : times now) (hcheck : Document.checkPartial schema table doc = .ok ()) :
    (Change.insertedRow table now doc).Suits times base.columns := by
  have hfits : doc.Fits times base.columns := fits_of_check hwf hshares hcheck
  have hdoc := suits_withDoubles hwf hshares hfits
  refine suits_of_stamped hwf hnow hdoc fun name v hv => ?_
  exact (get?_of_insertedRow hv).imp get?_of_rowOf id

/-- The fields of a checked document that are no lists are columns. -/
theorem names_of_check (hshares : table.SharesRows base)
    (hcheck : Document.checkPartial schema table doc = .ok ()) {r : Record}
    (hkeys : r.keys = doc.keys) :
    ∀ name ∈ (Change.rowOf table r).keys, name ∈ base.columnNames := by
  intro name hname
  obtain ⟨v, hv⟩ := Option.isSome_iff_exists.1 ((NameMap.mem_keys_iff ..).1 hname)
  rw [Change.get?_rowOf] at hv
  split at hv
  · rename_i hlist
    have hmem : name ∈ doc.keys := hkeys ▸ (NameMap.mem_keys_iff ..).2 (by simp [hv])
    have hfield := forM_eq_ok_iff.1 hcheck (name, doc.cell name)
      ((NameMap.get?_eq_some_iff ..).1 (Record.get?_of_mem_keys hmem))
    -- the check refuses a field that is neither a column nor a list
    unfold Document.checkField at hfield
    rw [Option.isNone_iff_eq_none.1 hlist] at hfield
    cases hcolumn : table.column? name with
    | none =>
      rw [hcolumn] at hfield
      cases hfield
    | some c =>
      obtain ⟨hc, rfl⟩ := Table.mem_of_column? hcolumn
      exact Table.mem_columnNames (hshares.columns ▸ hc)
  · cases hv

/-- The inserted row has columns of the table only. -/
theorem names_insertedRow (hwf : base.WellFormed) (hshares : table.SharesRows base)
    (hcheck : Document.checkPartial schema table doc = .ok ()) :
    ∀ name ∈ (Change.insertedRow table now doc).keys, name ∈ base.columnNames := by
  intro name hname
  obtain ⟨v, hv⟩ := Option.isSome_iff_exists.1 ((NameMap.mem_keys_iff ..).1 hname)
  rcases get?_of_insertedRow hv with hrow | ⟨hstamp, -⟩
  · refine names_of_check hshares hcheck (Change.keys_withDoubles table doc) name ?_
    exact (NameMap.mem_keys_iff ..).2 (by simp [hrow])
  · exact hwf.stamp_mem hstamp

/-- The row of an update suits its table if the document was checked. -/
theorem suits_updatedRow (hwf : base.WellFormed) (hshares : table.SharesRows base)
    (hnow : times now) (hcheck : Document.checkPartial schema table doc = .ok ()) :
    (Change.updatedRow table now doc).Suits times base.columns := by
  refine suits_of_stamped hwf hnow (suits_fields hwf hshares hcheck) fun name v hv => ?_
  rw [Change.get?_updatedRow] at hv
  split at hv
  · rename_i hname
    exact .inr ⟨hname ▸ List.mem_cons_of_mem _ List.mem_cons_self, (Option.some.inj hv).symm⟩
  -- the key that the document gives is taken out again
  · split at hv
    · cases hv
    · exact .inl hv

/-- A column that shares its name with no other one has its own cell in a row that replaces
another. -/
theorem get?_replacedRow (hshares : table.SharesRows base) {key : Value} {stored : Option Record}
    {c : Column} (hc : c ∈ base.columns) (howns : ∀ d ∈ base.columns, d.name = c.name → d = c) :
    (Change.replacedRow table now key stored doc).get? c.name
      = some (Change.replacedCell table now key stored
          (Change.withDoubles table (Change.rowOf table doc)) c) := by
  refine NameMap.get?_ofList_of_forall ?_ fun entry hentry hname => ?_
  · rw [List.map_map, hshares.columns]
    exact List.mem_map.2 ⟨c, hc, rfl⟩
  · obtain ⟨d, hd, rfl⟩ := List.mem_map.1 hentry
    rw [howns d (hshares.columns ▸ hd) hname]

/-- The row of a replacement has no other columns than its table. -/
theorem names_replacedRow (hshares : table.SharesRows base) {key : Value} {stored : Option Record} :
    ∀ name ∈ (Change.replacedRow table now key stored doc).keys, name ∈ base.columnNames := by
  intro name hname
  by_contra hnot
  have hnone : (Change.replacedRow table now key stored doc).get? name = none := by
    refine NameMap.get?_ofList_of_not_mem ?_
    rw [List.map_map, hshares.columns]
    exact hnot
  rw [NameMap.mem_keys_iff, hnone] at hname
  cases hname

/-- A default is suitable: a column that points at a row has none. -/
theorem gets_default (hwf : schema.WellFormed) (hbase : base ∈ schema.bases) {c : Column}
    (hc : c ∈ base.columns) : c.Gets times (c.default?.getD .null) := by
  have hphysical := Schema.mem_physical_of_base hbase
  cases hdefault : c.default? with
  | none => exact c.gets_null times
  | some v =>
    refine ⟨.inl ((hwf.tables base hphysical).default_accepted c hc v hdefault), fun href => ?_⟩
    obtain ⟨key, hkey⟩ := Option.isSome_iff_exists.1 href
    rw [(hwf.references base hphysical c hc key hkey).1] at hdefault
    cases hdefault

/-- Where the cell of a replaced row comes from decides why it is suitable. -/
theorem gets_replacedCell (hwf : schema.WellFormed) (hbase : base ∈ schema.bases)
    (hshares : table.SharesRows base) (hnow : times now) {key : Value} {k : Column}
    (hk : base.keyColumn? = some k) (hkey : k.type.accepts key = true) {stored : Option Record}
    (hstored : ∀ r, stored = some r → r.Fits times base.columns) {fields : Record}
    (hfields : fields.Suits times base.columns) {c : Column} (hc : c ∈ base.columns) :
    c.Gets times (Change.replacedCell table now key stored fields c) := by
  have hbasewf := hwf.tables base (Schema.mem_physical_of_base hbase)
  unfold Change.replacedCell
  -- the given key, a field of the document, an old or new time, or a default
  split
  · rename_i hname
    obtain ⟨hkmem, hkname⟩ := Table.mem_of_column? hk
    obtain rfl : c = k :=
      hbasewf.eq_of_name hc hkmem (hname.trans (hshares.primaryKey.trans hkname.symm))
    exact hbasewf.gets_key hk hkey
  · split
    · rename_i v hv
      exact Record.cell_eq_of_get? hv ▸ hfields c hc
    · split
      · rename_i hstamp
        have hmem : c.name ∈ Change.stampColumns := by simpa using hstamp
        split
        · rename_i v hv
          obtain ⟨r, hr, hrow⟩ := Option.bind_eq_some_iff.1 (Option.eq_some_of_filter_eq_some hv)
          exact hbasewf.gets_of_stamp hc hmem (Record.cell_eq_of_get? hrow ▸ hstored r hr c hc)
        · exact hbasewf.gets_now hnow hc hmem
      · exact gets_default hwf hbase hc

/-- The row of a replacement suits its table: each cell is the key, a checked value, a stored or
current time, a default or null. -/
theorem suits_replacedRow (hwf : schema.WellFormed) (hbase : base ∈ schema.bases)
    (hshares : table.SharesRows base) (hnow : times now)
    (hcheck : Document.checkPartial schema table doc = .ok ()) {key : Value} {k : Column}
    (hk : base.keyColumn? = some k) (hkey : k.type.accepts key = true) {stored : Option Record}
    (hstored : ∀ r, stored = some r → r.Fits times base.columns) :
    (Change.replacedRow table now key stored doc).Suits times base.columns := by
  have hbasewf := hwf.tables base (Schema.mem_physical_of_base hbase)
  intro c hc
  rw [Record.cell_eq_of_get?
    (get?_replacedRow hshares hc fun _ hd hname => hbasewf.eq_of_name hd hc hname)]
  exact gets_replacedCell hwf hbase hshares hnow hk hkey hstored
    (suits_fields hbasewf hshares hcheck) hc

/-- The record that raises the flag of a row. -/
theorem suits_flag (hwf : base.WellFormed) (hnow : times now) {deleted : String}
    (hdeleted : base.deletedColumn = some deleted) :
    Record.Suits times base.columns
      (.ofList [(deleted, .bool true), (updatedColumn, .string now.text)]) := by
  have hflag : Record.Suits times base.columns (.ofList [(deleted, .bool true)]) := by
    refine Record.suits_of_get? fun c hc v hv => ?_
    change (NameMap.insert .empty deleted (Value.bool true)).get? c.name = some v at hv
    rw [NameMap.get?_insert] at hv
    split at hv
    · rename_i hname
      -- the flag is a column of booleans that points nowhere
      obtain ⟨d, hd, hdname, htype, -, href⟩ := hwf.flag deleted hdeleted
      obtain rfl := hwf.eq_of_name hc hd (hname.trans hdname.symm)
      obtain rfl := Option.some.inj hv
      exact ⟨.inl (htype ▸ rfl), fun hsome => by rw [href] at hsome; cases hsome⟩
    · simp at hv
  refine suits_of_stamped hwf hnow hflag fun name v hv => ?_
  change (NameMap.insert (.ofList [(deleted, Value.bool true)]) updatedColumn _).get?
    name = some v at hv
  rw [NameMap.get?_insert] at hv
  split at hv
  · rename_i hname
    exact .inr ⟨hname ▸ List.mem_cons_of_mem _ List.mem_cons_self, (Option.some.inj hv).symm⟩
  · exact .inl hv

end Rows

/-! ## Links -/

namespace Change

variable {table base link target : Table} {now : Time.Instant} {m : ListField}
  {ownerKey targetKey : Column}

theorem get?_linkRow (owner member : Value) (name : String) :
    (linkRow m owner member).get? name
      = if name = m.memberColumn then some member
        else if name = m.ownerColumn then some owner else none := by
  show (NameMap.insert (NameMap.insert .empty m.ownerColumn owner) m.memberColumn member).get? name
    = _
  rw [NameMap.get?_insert, NameMap.get?_insert, NameMap.get?_empty]

/-- A link fits its table if its owner and its member are keys. -/
theorem fits_linkRow (hwf : link.WellFormed)
    (hserves : schema.Serves base m link target ownerKey targetKey) {owner member : Value}
    (howner : ownerKey.type.accepts owner = true) (hmember : targetKey.type.accepts member = true) :
    (linkRow m owner member).Fits times link.columns := by
  have hcolumns := hserves.columns_eq
  have hownercol : Compile.linkColumn m.ownerColumn base ownerKey ∈ link.columns := by
    rw [hcolumns]
    simp
  have hmembercol : Compile.linkColumn m.memberColumn target targetKey ∈ link.columns := by
    rw [hcolumns]
    simp
  refine Record.fits_of_get? fun c hc v hv => .inl ?_
  rw [get?_linkRow] at hv
  split at hv
  · rename_i hname
    rw [hwf.eq_of_name hc hmembercol hname, ← Option.some.inj hv]
    exact hmember
  · split at hv
    · rename_i hname
      rw [hwf.eq_of_name hc hownercol hname, ← Option.some.inj hv]
      exact howner
    · cases hv

/-- Adding links is one move for each of them. -/
theorem moves_of_addLinks (hwf : schema.WellFormed) (hsound : tx.work.Sound schema times)
    (hserves : schema.Serves base m link target ownerKey targetKey) (hnow : times now)
    {owner : Value} {members : List Value} (howner : ownerKey.type.accepts owner = true)
    (hmembers : ∀ member ∈ members, targetKey.type.accepts member = true)
    (h : Yields (addLinks schema now m owner members) tx () tx') :
    Moves schema times drops tx.work tx'.work := by
  obtain ⟨link', hlink', hrun⟩ := yields_addLinks.1 h
  obtain rfl : link = link' := Except.ok.inj (hserves.link_eq.symm.trans hlink')
  have hmem := (Schema.mem_of_linkTable hlink').1
  refine Transaction.moves_of_forM hwf hsound ?_ hrun
  intro member hmember mid mid' _ hstep
  obtain ⟨id, hinsert⟩ := yields_discard.1 hstep
  obtain ⟨-, row, happend, -⟩ := Transaction.yields_insert.1 hinsert
  refine .single (Transaction.move_of_append_link hmem hnow ?_ happend)
  exact fits_linkRow (hwf.tables link (Schema.mem_physical_of_link hmem)) hserves howner
    (hmembers member hmember)

/-- Setting the links of an owner removes links and adds links, or it does nothing. -/
theorem moves_of_setLinks (hwf : schema.WellFormed) (hsound : tx.work.Sound schema times)
    (hserves : schema.Serves base m link target ownerKey targetKey) (hnow : times now)
    {owner : Value} {members : List Value} (howner : ownerKey.type.accepts owner = true)
    (hmembers : ∀ member ∈ members, targetKey.type.accepts member = true)
    (h : Yields (setLinks schema now m owner members) tx () tx') :
    Moves schema times drops tx.work tx'.work := by
  obtain ⟨current, -, ⟨-, rfl⟩ | ⟨-, link', n, mid, hlink', hdelete, hadd⟩⟩ := yields_setLinks.1 h
  · exact .refl
  · have hdeleted : Moves schema times drops tx.work mid.work :=
      Transaction.moves_of_delete (Schema.mem_of_linkTable hlink').1 hdelete
    -- the old links go before the new ones are put, each on a sound store
    exact hdeleted.trans
      (moves_of_addLinks hwf (hsound.moves hwf hdeleted) hserves hnow howner hmembers hadd)

/-! ## Keys -/

/-- The key of a visible row is that of a row that a filter for it finds. -/
theorem holds_of_visibleKey {id key : Value} (h : Yields (visibleKey table id) tx (some key) tx') :
    ∃ t row p, tx.work.tables.get? table.name = some t ∧ row ∈ t.rows
      ∧ key = row.cell table.primaryKey
      ∧ Predicate.ofFilter table (keyFilter table .eq id) .lookup false = .ok p
      ∧ p.holds t.columns row = true := by
  unfold visibleKey at h
  simp only [yields_bind, yields_result, yields_pure] at h
  obtain ⟨p, _, ⟨hp, rfl⟩, rows, _, hrows, hkey, rfl⟩ := h
  obtain ⟨-, -, t, ht, rfl⟩ := Transaction.yields_select.1 hrows
  obtain ⟨row, hhead, hget⟩ := Option.bind_eq_some_iff.1 hkey.symm
  obtain ⟨r, hr, hholds, rfl⟩ := StoredTable.mem_select (List.mem_of_head? hhead)
  rw [StoredTable.get?_cut_of_mem r (by simp)] at hget
  exact ⟨t, r, p, ht, hr, (Option.some.inj hget).symm, hp, hholds⟩

theorem row_of_visibleKey {id key : Value} (h : Yields (visibleKey table id) tx (some key) tx') :
    ∃ t row, tx.work.tables.get? table.name = some t ∧ row ∈ t.rows
      ∧ key = row.cell table.primaryKey := by
  obtain ⟨t, row, -, ht, hrow, hkey, -⟩ := holds_of_visibleKey h
  exact ⟨t, row, ht, hrow, hkey⟩

/-- An identifier that is read as a key is one that the key column takes. -/
theorem accepts_of_keyFor {id key : Value} {k : Column} (hk : table.keyColumn? = some k)
    (h : keyFor table id = .ok key) : k.type.accepts key = true ∧ key.isNull = false := by
  unfold keyFor at h
  simp only [hk] at h
  split at h
  · simp [reject] at h
  · rename_i hgood
    rw [← Except.ok.inj h]
    simpa [and_comm] using hgood

/-- The members that a checked document gives for the lists of a resource are keys. -/
theorem members_accepted (hshares : table.SharesRows base) {doc : Record}
    (hcheck : Document.checkPartial schema table doc = .ok ())
    (hserves : schema.Serves base m link target ownerKey targetKey) {members : List Value}
    (hmem : (m, members) ∈ listsOf table doc) :
    ∀ member ∈ members, targetKey.type.accepts member = true := by
  intro member hmember
  exact (Document.members_of_check hcheck hmem (hserves.list_apart hshares) hserves.target_eq
    hserves.targetKey_eq member hmember).2

/-- The key of a row that was added is a value of the key column. -/
theorem key_accepted_of_append (hwf : schema.WellFormed) (hbase : base ∈ schema.bases)
    (hshares : table.SharesRows base) (hsound : tx'.work.Sound schema times) {record row : Record}
    (h : Yields (Transaction.append now table record) tx row tx') {k : Column}
    (hk : base.keyColumn? = some k) : k.type.accepts (row.cell table.primaryKey) = true
      ∧ (row.cell table.primaryKey).isNull = false := by
  have hphysical := Schema.mem_physical_of_base hbase
  obtain ⟨t, next, -, -, -, hwork⟩ := Transaction.admissible_of_append hshares h
  have hstored : tx'.work.tables.get? base.name
      = some { t with nextId := next, rows := t.rows ++ [row] } := by
    rw [hwork, Store.put, NameMap.get?_insert_self]
  rw [hshares.primaryKey]
  exact (hsound base hphysical _ hstored).key_accepted (hwf.tables base hphysical) hk
    (List.mem_append_right _ List.mem_cons_self)

/-- Lists are no columns, so making numbers doubles leaves them as they are. -/
theorem mem_listsOf_withDoubles {doc : Record} (happart : ∀ m ∈ table.lists,
    table.hasColumn m.field = false) {entry : ListField × List Value} :
    entry ∈ listsOf table (withDoubles table doc) ↔ entry ∈ listsOf table doc := by
  obtain ⟨m, members⟩ := entry
  rw [mem_listsOf, mem_listsOf]
  refine exists_congr fun v => and_congr_left fun hlist => ?_
  have hcolumn := happart m (Table.mem_of_listField? hlist.1).1
  have hnot : m.field ∉ doubleNames table := by
    intro hmem
    obtain ⟨c, hc, hname, -⟩ := mem_doubleNames.1 hmem
    rw [Table.hasColumn_iff.2 (hname ▸ Table.mem_columnNames hc)] at hcolumn
    cases hcolumn
  rw [← NameMap.get?_eq_some_iff, get?_withDoubles, if_neg hnot, NameMap.get?_eq_some_iff]

/-! ## Changes -/

/-- Every list of a resource has its link table. -/
theorem serves_of_mem (hwf : schema.WellFormed) (hbase : base ∈ schema.bases)
    (hshares : table.SharesRows base) {k : Column} (hk : base.keyColumn? = some k)
    (hm : m ∈ table.lists) :
    ∃ link target targetKey, schema.Serves base m link target k targetKey := by
  obtain ⟨link, target, ownerKey, targetKey, hserves⟩ := hwf.lists base hbase m (hshares.lists ▸ hm)
  obtain rfl : ownerKey = k := Option.some.inj (hserves.ownerKey_eq.symm.trans hk)
  exact ⟨link, target, targetKey, hserves⟩

/-- A list that a checked document gives has a link table, which takes its members. -/
theorem serves_of_mem_listsOf (hwf : schema.WellFormed) (hbase : base ∈ schema.bases)
    (hshares : table.SharesRows base) {k : Column} (hk : base.keyColumn? = some k) {doc : Record}
    (hcheck : Document.checkPartial schema table doc = .ok ()) {members : List Value}
    (h : (m, members) ∈ listsOf table doc) :
    ∃ link target targetKey, schema.Serves base m link target k targetKey
      ∧ ∀ member ∈ members, member.isNull = false ∧ targetKey.type.accepts member = true := by
  obtain ⟨link, target, targetKey, hserves⟩ :=
    serves_of_mem hwf hbase hshares hk (list_of_mem_listsOf h)
  exact ⟨link, target, targetKey, hserves,
    Document.members_of_check hcheck h (hserves.list_apart hshares)
    hserves.target_eq hserves.targetKey_eq⟩

/-- An insertion adds one row and then links, whose owner is the key of this row. -/
theorem moves_of_insert (hwf : schema.WellFormed) (hsound : tx.work.Sound schema times)
    (hbase : base ∈ schema.bases) (hshares : table.SharesRows base) (hnow : times now)
    {doc new : Record} {id : Value}
    (h : Yields (insert schema table now doc) tx (id, new) tx') :
    Moves schema times drops tx.work tx'.work := by
  obtain ⟨hcheck, ⟨mid, hinsert, hlinks⟩, -⟩ := yields_insert.1 h
  obtain ⟨-, row, happend, rfl⟩ := Transaction.yields_insert.1 hinsert
  have hpartial := Document.checkPartial_of_check hcheck
  have hbasewf := hwf.tables base (Schema.mem_physical_of_base hbase)
  obtain ⟨k, hk, -⟩ := hbasewf.key
  have hrow : Move schema times drops tx.work mid.work :=
    Transaction.move_of_append hbase hshares hnow
    (suits_insertedRow hbasewf hshares hnow hpartial) happend
  have hmid := hsound.move hwf hrow
  -- the links are given the key that the row has got, whatever filled it
  obtain ⟨hkey, -⟩ := key_accepted_of_append hwf hbase hshares hmid happend hk
  refine (Relation.ReflTransGen.single hrow).trans (Transaction.moves_of_forM hwf hmid ?_ hlinks)
  rintro ⟨m, members⟩ hmem mid' mid'' hsound' hstep
  obtain ⟨_, _, _, hserves, hmembers⟩ := serves_of_mem_listsOf hwf hbase hshares hk hpartial
    ((mem_listsOf_withDoubles (hwf.lists_apart hbase hshares)).1 hmem)
  exact moves_of_addLinks hwf hsound' hserves hnow hkey
    (fun member hmember => (hmembers member hmember).2) hstep

/-- The row with which a document changes another one gives no key. -/
theorem get?_key_updatedRow (hbasewf : base.WellFormed) (hshares : table.SharesRows base)
    (now : Time.Instant) (doc : Record) :
    (updatedRow table now doc).get? base.primaryKey = none := by
  have hne : base.primaryKey ≠ updatedColumn := fun heq =>
    hbasewf.key_not_stamp (heq ▸ List.mem_cons_of_mem _ List.mem_cons_self)
  rw [get?_updatedRow, if_neg hne, if_pos hshares.primaryKey.symm]

/-- An update changes rows and then sets links, whose owner is the key of a row that was found. -/
theorem moves_of_update (hwf : schema.WellFormed) (hsound : tx.work.Sound schema times)
    (hbase : base ∈ schema.bases) (hshares : table.SharesRows base) (hnow : times now)
    {id : Value} {doc : Record} (h : Yields (update schema table now id doc) tx () tx') :
    Moves schema times drops tx.work tx'.work := by
  obtain ⟨key, n, mid, hfound, hcheck, hupdate, hlinks⟩ := yields_update.1 h
  have hphysical := Schema.mem_physical_of_base hbase
  have hbasewf := hwf.tables base hphysical
  obtain ⟨k, hk, -⟩ := hbasewf.key
  obtain ⟨t, row, ht, hrow, rfl⟩ := row_of_visibleKey hfound
  rw [hshares.name] at ht
  -- the key is read off a row, so it is of the type of the key's column
  have hkey : k.type.accepts (row.cell table.primaryKey) = true := by
    rw [hshares.primaryKey]
    exact ((hsound base hphysical t ht).key_accepted hbasewf hk hrow).1
  have hnokey : (updatedRow table now doc).get? base.primaryKey = none :=
    get?_key_updatedRow hbasewf hshares now doc
  have hrows : Moves schema times drops tx.work mid.work :=
    Transaction.moves_of_update hwf hsound hbase
    hshares (suits_updatedRow hbasewf hshares hnow hcheck) hnokey hupdate
  refine hrows.trans (Transaction.moves_of_forM hwf (hsound.moves hwf hrows) ?_ hlinks)
  rintro ⟨m, members⟩ hmem mid' mid'' hsound' hstep
  obtain ⟨_, _, _, hserves, hmembers⟩ := serves_of_mem_listsOf hwf hbase hshares hk hcheck hmem
  exact moves_of_setLinks hwf hsound' hserves hnow hkey
    (fun member hmember => (hmembers member hmember).2) hstep

/-- The members for a list are those of the document, or none. -/
theorem membersFor_cases (hshares : table.SharesRows base) (hfields : base.listNames.Nodup)
    (doc : Record) (hm : m ∈ table.lists) :
    (m, membersFor table doc m) ∈ listsOf table doc ∨ membersFor table doc m = [] := by
  unfold membersFor
  cases hfind : (listsOf table doc).find? (·.1.field == m.field) with
  | none => exact .inr rfl
  | some entry =>
    obtain ⟨m', members⟩ := entry
    have hmem := List.mem_of_find?_eq_some hfind
    have hfield : m'.field = m.field := by simpa using List.find?_some hfind
    rw [Table.listNames, ← hshares.lists] at hfields
    -- lists have different fields, so the one found by its field is this one
    obtain rfl : m' = m :=
      List.inj_on_of_nodup_map hfields (list_of_mem_listsOf hmem) hm hfield
    exact .inl hmem

theorem membersFor_accepted (hshares : table.SharesRows base) (hfields : base.listNames.Nodup)
    {doc : Record} (hcheck : Document.checkPartial schema table doc = .ok ()) (hm : m ∈ table.lists)
    (hserves : schema.Serves base m link target ownerKey targetKey) :
    ∀ member ∈ membersFor table doc m, targetKey.type.accepts member = true := by
  rcases membersFor_cases hshares hfields doc hm with hgave | hnone
  · exact members_accepted hshares hcheck hserves hgave
  · rw [hnone]
    exact List.forall_mem_nil _

/-- A row that was selected with all its columns fits. -/
theorem fits_of_select {t : StoredTable} (ht : t.Sound times base)
    {plan : Plan} (hcolumns : plan.columns = base.columnNames) {row : Record}
    (h : row ∈ t.select plan) : row.Fits times base.columns := by
  obtain ⟨r, hr, -, rfl⟩ := StoredTable.mem_select h
  intro c hc
  have hget := StoredTable.get?_cut_of_mem r (Table.mem_columnNames hc)
  rw [hcolumns, Record.cell_eq_of_get? hget]
  exact ht.fits r hr c hc

/-- The row that a document replaces another one by is put by moves. -/
theorem moves_of_replacedRow (hwf : schema.WellFormed) (hsound : tx.work.Sound schema times)
    (hbase : base ∈ schema.bases) (hshares : table.SharesRows base) (hnow : times now)
    {id key : Value} {doc : Record} {rows : List Record}
    (hcheck : Document.checkPartial schema table doc = .ok ()) (hkeyfor : keyFor table id = .ok key)
    (hstored : Yields (Transaction.select
      { Plan.scan table (.eq table.primaryKey key) with limit := some 1 }) tx rows tx)
    (h : Yields (Transaction.upsert now table (replacedRow table now key rows.head? doc))
      tx () tx') :
    Moves schema times drops tx.work tx'.work := by
  have hphysical := Schema.mem_physical_of_base hbase
  have hbasewf := hwf.tables base hphysical
  obtain ⟨k, hk, -⟩ := hbasewf.key
  obtain ⟨hkey, hnull⟩ := accepts_of_keyFor (hshares.keyColumn?.trans hk) hkeyfor
  -- the old row is needed for its times only
  have hold (r : Record) (hr : rows.head? = some r) : r.Fits times base.columns := by
    obtain ⟨-, -, t, ht, rfl⟩ := Transaction.yields_select.1 hstored
    refine fits_of_select (hsound base hphysical t (hshares.name ▸ ht)) ?_
      (List.mem_of_head? hr)
    exact congrArg (List.map Column.name) hshares.columns
  have hsuits := suits_replacedRow hwf hbase hshares hnow hcheck hk hkey hold
  have hgiven : (replacedRow table now key rows.head? doc).get? base.primaryKey = some key := by
    obtain ⟨hkmem, hkname⟩ := Table.mem_of_column? hk
    rw [← hkname, get?_replacedRow hshares hkmem fun _ hd hname =>
      hbasewf.eq_of_name hd hkmem hname, replacedCell,
      if_pos (hkname.trans hshares.primaryKey.symm)]
  exact Transaction.moves_of_upsert hwf hsound hbase hshares hnow hsuits hgiven hnull h

/-- A replacement changes or adds one row and then sets links, whose owner is its key. -/
theorem moves_of_replace (hwf : schema.WellFormed) (hsound : tx.work.Sound schema times)
    (hbase : base ∈ schema.bases) (hshares : table.SharesRows base) (hnow : times now)
    {id : Value} {doc : Record} (h : Yields (replace schema table now id doc) tx () tx') :
    Moves schema times drops tx.work tx'.work := by
  obtain ⟨key, rows, mid, hcheck, hkeyfor, hstored, hupsert, hlinks⟩ := yields_replace.1 h
  have hpartial := Document.checkPartial_of_check hcheck
  obtain ⟨k, hk, -⟩ := (hwf.tables base (Schema.mem_physical_of_base hbase)).key
  obtain ⟨hkey, -⟩ := accepts_of_keyFor (hshares.keyColumn?.trans hk) hkeyfor
  have hrow : Moves schema times drops tx.work mid.work :=
    moves_of_replacedRow hwf hsound hbase hshares hnow hpartial hkeyfor hstored hupsert
  refine hrow.trans (Transaction.moves_of_forM hwf (hsound.moves hwf hrow) ?_ hlinks)
  intro m hm mid' mid'' hsound' hstep
  obtain ⟨_, _, _, hserves⟩ := serves_of_mem hwf hbase hshares hk hm
  -- a list that the document does not give is emptied
  exact moves_of_setLinks hwf hsound' hserves hnow hkey
    (membersFor_accepted hshares (hwf.fields_nodup base hbase) hpartial hm hserves) hstep

end Change

end RecordStore
