import RecordStore.Proofs.Overwriting
import RecordStore.Proofs.Progress

/-!
# Keys of a run

The keys of a resource are there, equal themselves and tell its rows apart after every run, whatever
names the settings give. If the generated key has the name of a stamp or of the flag, it is written
over by a text or a truth value, which its column does not take; but a key that is no date is
compared with such a value, too, and then a row with the key of another one is refused as well.

* **`Column.Told`** — a value that equals itself in a column.
* **`Store.KeysApart`** — keys tell the rows of every resource apart.
* **`Catalog.keysApart_run`** — after every run they do.
-/

namespace RecordStore

open RecordStore.Action

/-! ## Values that equal themselves -/

/-- The value equals itself in the column, unless it is null. -/
def Column.Told (k : Column) (v : Value) : Prop := v.isNull = false → k.type.equal v v = true

namespace Column

theorem told_of_accepts {k : Column} {v : Value} (h : k.type.accepts v = true) : k.Told v :=
  fun hnull => ColumnType.equal_self h hnull

theorem told_bool (k : Column) (b : Bool) : k.Told (.bool b) := by
  intro _
  unfold ColumnType.equal
  split
  · exact Value.same_self _
  · cases b <;> rfl

theorem told_text {k : Column} (h : k.type ≠ .datetime) (s : String) : k.Told (.string s) := by
  intro _
  unfold ColumnType.equal
  split
  · exact Value.same_self _
  · have hself : compare s s = .eq := Std.LawfulEqCmp.compare_eq_iff_eq.2 rfl
    rw [ColumnType.compare?, if_neg h, hself]
    rfl

end Column

/-- What a record gives for the key equals itself. -/
def Table.GivesTold (base : Table) (k : Column) (record : Record) : Prop :=
  ∀ v, record.get? base.primaryKey = some v → k.Told v

/-! ## One table -/

namespace StoredTable.KeysApart

variable {t t' : StoredTable} {k : Column} {s : Store} {groups : List (List String)}
  {others : List Record} {row : Record}

theorem empty (columns : List Column) (k : Column) (name : String) :
    KeysApart { columns := columns } k name :=
  ⟨nofun, nofun, .nil⟩

theorem of_sublist {name : String} (h : t.KeysApart k name) (hrows : t'.rows.Sublist t.rows) :
    t'.KeysApart k name where
  filled row hrow := h.filled row (hrows.subset hrow)
  equal_self row hrow := h.equal_self row (hrows.subset hrow)
  apart := h.apart.sublist hrows

/-- A row that is admissible beside other rows has a key of its own, if it equals itself. -/
theorem of_admissible (h : t.KeysApart k k.name) {columns : List Column} (hk : k ∈ columns)
    (hprimary : k.primaryKey = true) (hadmissible : s.Admissible groups columns others row)
    (hothers : others.Sublist t.rows) (htold : k.Told (row.cell k.name))
    (hrows : t'.rows.Perm (row :: others)) : t'.KeysApart k k.name := by
  have hnull : (row.cell k.name).isNull = false := by
    rw [← Bool.not_eq_true]
    intro hnull
    have hnot := (hadmissible.filled k hk hnull).2
    rw [hprimary] at hnot
    cases hnot
  have hapart : ∀ other ∈ others, k.type.equal (row.cell k.name) (other.cell k.name) = false := by
    intro other hother
    have hfilled := h.filled other (hothers.subset hother)
    cases hget : other.get? k.name with
    | none =>
      rw [Record.cell, hget] at hfilled
      cases hfilled
    | some v =>
      have hheld :=
        hadmissible.apart k hk (Column.isExclusive_of_primaryKey hprimary) hnull other hother
      rwa [Column.isHeldBy, hget, Option.any_some, ← Record.cell_eq_of_get? hget,
        ColumnType.equal_comm] at hheld
  refine ⟨fun r hr => ?_, fun r hr => ?_, (hrows.pairwise_iff (Std.Symm.symm _ _)).2
    (List.pairwise_cons.2 ⟨hapart, h.apart.sublist hothers⟩)⟩
  · rcases List.mem_cons.1 (hrows.subset hr) with rfl | hother
    · exact hnull
    · exact h.filled r (hothers.subset hother)
  · rcases List.mem_cons.1 (hrows.subset hr) with rfl | hother
    · exact htold hnull
    · exact h.equal_self r (hothers.subset hother)

/-- A row that is put behind the others is told apart from them. -/
theorem append (h : t.KeysApart k k.name) (hk : k ∈ t.columns) (hprimary : k.primaryKey = true)
    (hadmissible : s.Admissible groups t.columns t.rows row) (htold : k.Told (row.cell k.name))
    (next : Int) : { t with nextId := next, rows := t.rows ++ [row] }.KeysApart k k.name :=
  h.of_admissible hk hprimary hadmissible (.refl _) htold (List.perm_append_singleton row t.rows)

/-- A row that is put in the place of another one is told apart from the rest. -/
theorem set (h : t.KeysApart k k.name) (hk : k ∈ t.columns) (hprimary : k.primaryKey = true)
    {place : Nat} (hplace : place < t.rows.length)
    (hadmissible : s.Admissible groups t.columns (t.rows.eraseIdx place) row)
    (htold : k.Told (row.cell k.name)) :
    { t with rows := t.rows.set place row }.KeysApart k k.name :=
  h.of_admissible hk hprimary hadmissible (List.eraseIdx_sublist ..) htold
    (set_perm_cons_eraseIdx hplace row)

end StoredTable.KeysApart

/-! ## Statements -/

namespace Transaction

variable {table base : Table} {record : Record} {tx tx' : Transaction} {k : Column}

theorem told_of_assign {old row : Record} (htold : base.GivesTold k record)
    (hold : k.Told (old.cell base.primaryKey)) (hassign : StoredTable.assign old record = .ok row) :
    k.Told (row.cell base.primaryKey) := by
  rw [Record.cell, StoredTable.get?_assign hassign]
  cases hgiven : record.get? base.primaryKey with
  | some v => exact htold v hgiven
  | none => exact hold

/-- Rows that are changed by a record keep their keys apart. -/
theorem keysApart_of_update {p : Predicate} {n : Nat} {t : StoredTable}
    (ht : tx.work.tables.get? table.name = some t) (hk : k ∈ t.columns)
    (hprimary : k.primaryKey = true) (hname : k.name = base.primaryKey)
    (htold : base.GivesTold k record) (hkeys : t.KeysApart k base.primaryKey)
    (h : Yields (update table p record) tx n tx') :
    ∃ t', tx' = tx.onto (tx.work.put table.name t') ∧ t'.KeysApart k base.primaryKey := by
  obtain ⟨-, -, u, hu, hrun, -⟩ := yields_update.1 h
  -- the invariant: the copy differs from the one at the start in this table, with its keys apart
  have hinv := forM_induction
    (P := fun mid => ∃ t', mid = tx.onto (tx.work.put table.name t') ∧ t'.columns = t.columns
      ∧ t'.KeysApart k base.primaryKey) ?_
    ⟨t, by rw [Store.put_of_get? ht]; rfl, rfl, hkeys⟩ hrun
  · obtain ⟨t', htx', -, hkeys'⟩ := hinv
    exact ⟨t', htx', hkeys'⟩
  · rintro place - _ mid' ⟨t', rfl, hcolumns, hkeys'⟩ hstep
    obtain ⟨-, w, hw, ⟨-, rfl⟩ | ⟨old, row, hold, hassign, hrules, rfl⟩⟩ := yields_change.1 hstep
    · exact ⟨t', rfl, hcolumns, hkeys'⟩
    · rw [work_onto, Store.get?_put, if_pos rfl] at hw
      obtain rfl := Option.some.inj hw
      refine ⟨{ t' with rows := t'.rows.set place row }, ?_, hcolumns, ?_⟩
      · rw [onto_onto, work_onto, Store.put_put]
      have hplace : place < t'.rows.length := (List.getElem?_eq_some_iff.1 hold).1
      have holdtold : k.Told (old.cell base.primaryKey) := fun _ =>
        hkeys'.equal_self old (List.mem_of_getElem? hold)
      have htoldrow := told_of_assign htold holdtold hassign
      rw [← hname] at hkeys' htoldrow ⊢
      exact hkeys'.set (hcolumns ▸ hk) hprimary hplace
        (Store.admissible_of_checkRules hrules) htoldrow

end Transaction

/-! ## Changes -/

/-- Keys tell the rows of every resource apart. -/
def Store.KeysApart (schema : Schema) (s : Store) : Prop :=
  s.OfBases schema fun base t => ∀ k, base.keyColumn? = some k → t.KeysApart k base.primaryKey

/-- Whichever resource of the table it is, keys tell its rows apart. -/
theorem Store.Regular.keysApart_of_shares {schema : Schema} {table base : Table} {s : Store}
    {k : Column} (hregular : s.Regular schema) (hkeysapart : s.KeysApart schema)
    (hbase : base ∈ schema.bases) (hshares : table.SharesRows base) (hk : table.keyColumn? = some k)
    (t : StoredTable) (ht : s.tables.get? table.name = some t) :
    t.columns = table.columns ∧ t.KeysApart k table.primaryKey := by
  rw [hshares.name] at ht
  rw [hshares.columns, hshares.primaryKey]
  rw [hshares.keyColumn?] at hk
  exact ⟨(hregular.columns_eq base (Schema.mem_physical_of_base hbase) t ht).1,
    hkeysapart base hbase t ht k hk⟩

section Changes

variable {schema : Schema} {table base : Table} {now : Time.Instant} {tx tx' : Transaction}
  {s s' : Store} {doc : Record} {k : Column}

theorem Schema.Coherent.key_facts (hco : schema.Coherent) (hbase : base ∈ schema.bases)
    (hk : base.keyColumn? = some k) :
    k ∈ base.columns ∧ k.name = base.primaryKey ∧ k.primaryKey = true := by
  obtain ⟨k', hk', hprimary, -⟩ := hco.keyed base (Schema.mem_physical_of_base hbase)
  rw [Option.some.inj (hk'.symm.trans hk)] at hprimary
  exact ⟨(Table.mem_of_column? hk).1, (Table.mem_of_column? hk).2, hprimary⟩

/-- The key that is filled into a row equals itself. -/
theorem told_filled (hco : schema.Coherent) (hbase : base ∈ schema.bases)
    (hk : base.keyColumn? = some k) {t : StoredTable} (hcolumns : t.columns = base.columns)
    (hcounter : isSigned64 t.nextId = true) {record row : Record} {next : Int}
    (hfill : t.fill (.string now.text) record = (row, next)) (htold : base.GivesTold k record) :
    k.Told (row.cell base.primaryKey) := by
  obtain ⟨hkmem, hkname⟩ := Table.mem_of_column? hk
  obtain ⟨c, hc, hname, n, hn, hcell⟩ := StoredTable.fill_cell_or hcounter (.string now.text) record
    base.primaryKey (by rw [hcolumns, List.mem_map]; exact ⟨k, hkmem, hkname⟩)
  rw [hfill] at hcell
  rw [hcolumns] at hc
  rw [hcell]
  cases hgiven : record.get? base.primaryKey with
  | some v => exact htold v hgiven
  | none =>
    rw [Option.getD_none]
    unfold StoredTable.filling
    split
    · rename_i hnumber
      obtain ⟨hkey, htype⟩ := hco.numbered base (Schema.mem_physical_of_base hbase) c hc hnumber
      obtain rfl := Option.some.inj (hk.symm.trans hkey)
      exact Column.told_of_accepts (htype ▸ hn)
    · cases hdefault : c.default? with
      | some v =>
        obtain ⟨b, rfl⟩ := hco.key_default base hbase c hc hname v hdefault
        exact Column.told_bool k b
      | none =>
        rw [Option.getD_none]
        split
        · rename_i hnow
          have hstamp := hname ▸ hco.stamps_only base hbase c hc hnow
          exact Column.told_text (hco.key_stamp base hbase k hk hstamp) _
        · exact nofun

theorem givesTold_insertedRow (hco : schema.Coherent) (hbase : base ∈ schema.bases)
    (hshares : table.SharesRows base) (hk : base.keyColumn? = some k)
    (hcheck : Document.checkPartial schema table doc = .ok ()) :
    base.GivesTold k (Change.insertedRow table now doc) := by
  intro v hv
  rcases get?_of_insertedRow hv with hv | ⟨hstamp, rfl⟩
  · exact Column.told_of_accepts (plain_withDoubles hco hbase hshares hk
      (fun w hw => accepts_key_of_check hshares hk hcheck hw) (get?_of_rowOf hv))
  · exact Column.told_text (hco.key_stamp base hbase k hk hstamp) _

/-- A key that is stamped is stamped with a text. -/
theorem told_stamp (hco : schema.Coherent) (hbase : base ∈ schema.bases)
    (hk : base.keyColumn? = some k) (hname : base.primaryKey = updatedColumn) :
    k.Told (.string now.text) :=
  Column.told_text (hco.key_stamp base hbase k hk
    (hname ▸ List.mem_cons_of_mem _ List.mem_cons_self)) _

theorem givesTold_updatedRow (hco : schema.Coherent) (hbase : base ∈ schema.bases)
    (hshares : table.SharesRows base) (hk : base.keyColumn? = some k) :
    base.GivesTold k (Change.updatedRow table now doc) := by
  intro v hv
  rw [Change.get?_updatedRow, if_pos hshares.primaryKey.symm] at hv
  split at hv
  · rename_i hname
    exact Option.some.inj hv ▸ told_stamp hco hbase hk hname
  · cases hv

/-- Flagging a row tells nothing about its key. -/
theorem givesTold_flag (hco : schema.Coherent) (hbase : base ∈ schema.bases)
    (hk : base.keyColumn? = some k) (deleted : String) :
    base.GivesTold k (.ofList [(deleted, .bool true), (updatedColumn, .string now.text)]) := by
  intro v hv
  rw [Change.get?_flag] at hv
  split at hv
  · rename_i hname
    exact Option.some.inj hv ▸ told_stamp hco hbase hk hname
  · split at hv
    · exact Option.some.inj hv ▸ Column.told_bool k true
    · cases hv

/-- An inserted row is given a key that no row has, or the next number. -/
theorem keysApart_of_insert (hco : schema.Coherent) (hregular : tx.work.Regular schema)
    (hbase : base ∈ schema.bases) (hshares : table.SharesRows base) (h : tx.work.KeysApart schema)
    {x : Value × Record} (hrun : Yields (Change.insert schema table now doc) tx x tx') :
    tx'.work.KeysApart schema := by
  have hcheck := Document.checkPartial_of_check (Change.yields_insert.1 hrun).1
  obtain ⟨t, row, next, ht, hfill, hadmissible, -, hlists⟩ :=
    Change.effect_of_insert hco hbase hshares hrun
  obtain ⟨hcolumns, hcounter⟩ := hregular.columns_eq base (Schema.mem_physical_of_base hbase) t ht
  refine h.put_lists hco hbase hshares (fun k hk => ?_)
    (fun _ hentry => Change.list_of_mem_listsOf hentry) hlists
  obtain ⟨hkmem, hkname, hprimary⟩ := hco.key_facts hbase hk
  have hkeys := h base hbase t ht k hk
  have htold := told_filled hco hbase hk hcolumns hcounter hfill
    (givesTold_insertedRow hco hbase hshares hk hcheck)
  rw [← hkname] at hkeys htold ⊢
  exact hkeys.append (hcolumns ▸ hkmem) hprimary hadmissible htold next

/-- An update leaves the keys of rows as they are. -/
theorem keysApart_of_update (hco : schema.Coherent) (hregular : tx.work.Regular schema)
    (hbase : base ∈ schema.bases) (hshares : table.SharesRows base) (h : tx.work.KeysApart schema)
    {id : Value} (hrun : Yields (Change.update schema table now id doc) tx () tx') :
    tx'.work.KeysApart schema := by
  obtain ⟨key, n, mid, -, -, hupdate, hlists⟩ := Change.steps_of_update hco hbase hshares hrun
  obtain ⟨k, hk, hprimary, -⟩ := hco.keyed base (Schema.mem_physical_of_base hbase)
  obtain ⟨hkmem, hkname⟩ := Table.mem_of_column? hk
  obtain ⟨t, -, ht, -⟩ := Transaction.overwrites_of_update hupdate
  have ht' := ht
  rw [hshares.name] at ht'
  have hcolumns := (hregular.columns_eq base (Schema.mem_physical_of_base hbase) t ht').1
  obtain ⟨t', rfl, hkeys⟩ := Transaction.keysApart_of_update ht (hcolumns ▸ hkmem) hprimary hkname
    (givesTold_updatedRow hco hbase hshares hk) (h base hbase t ht' k hk) hupdate
  rw [Transaction.work_onto, hshares.name] at hlists
  refine h.put_lists hco hbase hshares (fun k' hk' => ?_)
    (fun _ hentry => Change.list_of_mem_listsOf hentry) hlists
  exact Option.some.inj (hk.symm.trans hk') ▸ hkeys

/-- A replaced row keeps its key, and a new one has a key that no row has. -/
theorem keysApart_of_replace (hco : schema.Coherent) (hregular : tx.work.Regular schema)
    (hbase : base ∈ schema.bases) (hshares : table.SharesRows base) (h : tx.work.KeysApart schema)
    {id : Value} (hrun : Yields (Change.replace schema table now id doc) tx () tx') :
    tx'.work.KeysApart schema := by
  obtain ⟨key, t, t', -, hkeyfor, ht, hupserts, hlists⟩ :=
    Change.effect_of_replace hco hbase hshares hrun
  obtain ⟨hcolumns, hcounter⟩ := hregular.columns_eq base (Schema.mem_physical_of_base hbase) t ht
  refine h.put_lists hco hbase hshares (fun k hk => ?_) (fun _ hm => hm) hlists
  obtain ⟨hkmem, hkname, hprimary⟩ := hco.key_facts hbase hk
  have hkeys := h base hbase t ht k hk
  have htold : base.GivesTold k
      (Change.replacedRow table now key (t.select (Change.storedPlan table key)).head? doc) := by
    intro v hv
    rw [get?_key_replacedRow hshares hk] at hv
    exact Option.some.inj hv ▸
      Column.told_of_accepts (Change.accepts_of_keyFor (hshares.keyColumn?.trans hk) hkeyfor).1
  cases hupserts with
  | @change place rest old row hplaces hold hassign hrules =>
    have htoldrow := Transaction.told_of_assign htold
      (fun _ => hkeys.equal_self old (List.mem_of_getElem? hold)) hassign
    rw [← hkname] at hkeys htoldrow ⊢
    exact hkeys.set (hcolumns ▸ hkmem) hprimary (List.getElem?_eq_some_iff.1 hold).1
      (Store.admissible_of_checkRules hrules) htoldrow
  | append _ _ hfill hrules =>
    have htoldrow := told_filled hco hbase hk hcolumns hcounter hfill htold
    rw [← hkname] at hkeys htoldrow ⊢
    exact hkeys.append (hcolumns ▸ hkmem) hprimary
      (Store.admissible_of_checkRules hrules) htoldrow _

/-- Removed rows take their keys with them, and flagged rows keep theirs. -/
theorem keysApart_of_remove (hco : schema.Coherent) (hregular : tx.work.Regular schema)
    (hbase : base ∈ schema.bases) (hshares : table.SharesRows base) (h : tx.work.KeysApart schema)
    {lookup : Filter} {n : Nat} (hrun : Yields (Change.remove schema table now lookup) tx n tx') :
    tx'.work.KeysApart schema := by
  obtain ⟨p, -, ⟨deleted, -, hflag⟩ | ⟨-, hremoved⟩⟩ := Change.yields_remove.1 hrun
  · obtain ⟨t, -, ht, -⟩ := Transaction.overwrites_of_update hflag
    have ht' := ht
    rw [hshares.name] at ht'
    have hcolumns := (hregular.columns_eq base (Schema.mem_physical_of_base hbase) t ht').1
    obtain ⟨key, hkey, -⟩ := hco.keyed base (Schema.mem_physical_of_base hbase)
    obtain ⟨hkmem, hkname, hprimary⟩ := hco.key_facts hbase hkey
    obtain ⟨t', rfl, hkeys⟩ := Transaction.keysApart_of_update ht (hcolumns ▸ hkmem) hprimary hkname
      (givesTold_flag hco hbase hkey deleted) (h base hbase t ht' key hkey) hflag
    rw [Transaction.work_onto, hshares.name]
    refine h.put hco hbase fun k hk => ?_
    exact Option.some.inj (hkey.symm.trans hk) ▸ hkeys
  -- rows only go
  · exact h.shrinks (Change.effect_of_removeRows hremoved) fun _ _ _ hrows hkeys k hk =>
      (hkeys k hk).of_sublist hrows.rows

/-- Every change keeps the keys of a table apart. -/
theorem keptByChanges_keysApart {catalog : Catalog} (hco : catalog.schema.Coherent) :
    catalog.KeptByChanges (Store.KeysApart catalog.schema) where
  empty := Store.OfBases.empty catalog.schema _
  creates _ _ h hcreates := h.creates hco hcreates fun _ _ k _ => .empty _ k _
  insert _ _ _ _ hbase hshares _ _ _ hregular h hrun :=
    keysApart_of_insert hco hregular hbase hshares h hrun
  update _ _ _ _ _ hbase hshares _ _ _ hregular h hrun :=
    keysApart_of_update hco hregular hbase hshares h hrun
  replace _ _ _ _ _ hbase hshares _ _ _ hregular h hrun :=
    keysApart_of_replace hco hregular hbase hshares h hrun
  remove _ _ _ _ hbase hshares _ _ _ hregular h hrun :=
    keysApart_of_remove hco hregular hbase hshares h hrun

end Changes

/-- **After every run keys tell the rows of every resource apart**, whatever names the settings
give. -/
theorem Catalog.keysApart_run {catalog : Catalog} (hco : catalog.schema.Coherent)
    (steps : List Step) :
    (catalog.run steps).store.KeysApart catalog.schema :=
  kept_of_run hco (keptByChanges_keysApart hco) steps

end RecordStore
