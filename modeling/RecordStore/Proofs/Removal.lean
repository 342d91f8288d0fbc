import RecordStore.Proofs.Moves

/-!
# Removals as moves

Rows are removed in two steps: the links to and from them go first, found by the keys of the rows,
then the rows themselves, found by their keys again. In a sound store a key finds its own row only,
so the rows that go are those that were selected, and no link is left to any of them.

* **`holds_selectedKeys`** — the keys of the selected rows find the selected rows.
* **`tables_of_removeRows`** — which rows are left, in every table.
* **`moves_of_remove`** — a removal is a chain of moves.
-/

namespace RecordStore

open RecordStore.Action

variable {schema : Schema} {times : Time.Instant → Prop} {drops : Prop} {tx tx' : Transaction}

namespace StoredTable

variable {t : StoredTable}

/-- A table without some of its rows. -/
def without (t : StoredTable) (gone : Record → Bool) : StoredTable :=
  { t with rows := t.rows.filter (!gone ·) }

theorem without_eq_self {gone : Record → Bool} (h : ∀ row ∈ t.rows, gone row = false) :
    t.without gone = t := by
  have hrows : t.rows.filter (!gone ·) = t.rows :=
    List.filter_eq_self.2 fun row hrow => by rw [h row hrow]; rfl
  rw [without, hrows]

theorem without_without (t : StoredTable) (f g : Record → Bool) :
    (t.without f).without g = t.without fun row => f row || g row := by
  simp [without, List.filter_filter, Bool.and_comm]

theorem without_congr {f g : Record → Bool} (h : ∀ row ∈ t.rows, f row = g row) :
    t.without f = t.without g := by
  have hrows : t.rows.filter (!f ·) = t.rows.filter (!g ·) :=
    List.filter_congr fun row hrow => by rw [h row hrow]
  rw [without, without, hrows]

/-- The keys of the rows are there, equal themselves and tell the rows apart. -/
structure KeysApart (t : StoredTable) (k : Column) (name : String) : Prop where
  filled : ∀ row ∈ t.rows, (row.cell name).isNull = false
  equal_self : ∀ row ∈ t.rows, k.type.equal (row.cell name) (row.cell name) = true
  apart : t.rows.Pairwise fun a b => k.type.equal (a.cell name) (b.cell name) = false

instance (k : Column) (name : String) :
    Std.Symm fun a b : Record => k.type.equal (a.cell name) (b.cell name) = false :=
  ⟨fun _ _ h => (ColumnType.equal_comm ..).trans h⟩

/-- Rows with equal keys are one row. -/
theorem KeysApart.eq_of_equal {k : Column} {name : String} (h : t.KeysApart k name) {a b : Record}
    (ha : a ∈ t.rows) (hb : b ∈ t.rows) (hequal : k.type.equal (a.cell name) (b.cell name) = true) :
    a = b := by
  by_contra hne
  rw [h.apart.forall ha hb hne] at hequal
  cases hequal

theorem Sound.keysApart {base : Table} (ht : t.Sound times base) (hwf : base.WellFormed)
    {k : Column} (hk : base.keyColumn? = some k) : t.KeysApart k base.primaryKey where
  filled _ hrow := (ht.key_accepted hwf hk hrow).2
  equal_self _ hrow :=
    ColumnType.equal_self (ht.key_accepted hwf hk hrow).1 (ht.key_accepted hwf hk hrow).2
  apart := ht.pairwise_keys hwf hk

end StoredTable

/-- The stored tables have the columns of the schema. -/
def Store.HasColumns (schema : Schema) (s : Store) : Prop :=
  ∀ table ∈ schema.physical, ∀ t, s.tables.get? table.name = some t → t.columns = table.columns

theorem Store.Sound.hasColumns {s : Store} (h : s.Sound schema times) : s.HasColumns schema :=
  fun table htable t ht => (h table htable t ht).columns_eq

namespace Change

variable {table base : Table} {now : Time.Instant}

/-! ## Flags -/

/-- Flagging rows as deleted keeps their keys. -/
theorem moves_of_flagDeleted (hwf : schema.WellFormed) (hsound : tx.work.Sound schema times)
    (hbase : base ∈ schema.bases) (hshares : table.SharesRows base) (hnow : times now)
    {deleted : String} (hdeleted : table.deletedColumn = some deleted) {p : Predicate} {n : Nat}
    (h : Yields (flagDeleted table now deleted p) tx n tx') :
    Moves schema times drops tx.work tx'.work := by
  have hbasewf := hwf.tables base (Schema.mem_physical_of_base hbase)
  rw [hshares.deletedColumn] at hdeleted
  refine Transaction.moves_of_update hwf hsound hbase
    hshares (suits_flag hbasewf hnow hdeleted) ?_ h
  have hstamp : base.primaryKey ≠ updatedColumn := fun heq =>
    hbasewf.key_not_stamp (heq ▸ List.mem_cons_of_mem _ List.mem_cons_self)
  have hflag : base.primaryKey ≠ deleted := fun heq =>
    hbasewf.key_not_flag (heq ▸ hdeleted)
  exact (get?_flag deleted now base.primaryKey).trans (by rw [if_neg hstamp, if_neg hflag])

/-! ## Keys of the rows that are selected -/

/-- The keys that a removal collects are those of the rows that satisfy its predicate. -/
theorem mem_selectedKeys {p : Predicate} {t : StoredTable} {key : Value} :
    key ∈ selectedKeys table p t
      ↔ ∃ row ∈ t.rows, p.holds t.columns row = true ∧ key = row.cell table.primaryKey := by
  have hcut (row : Record) : (StoredTable.cut [table.primaryKey] row).get? table.primaryKey
      = some (row.cell table.primaryKey) := StoredTable.get?_cut_of_mem row (by simp)
  unfold selectedKeys
  rw [List.mem_filterMap]
  constructor
  · rintro ⟨cut, hcutmem, hget⟩
    obtain ⟨row, hrow, hholds, rfl⟩ := StoredTable.mem_select hcutmem
    exact ⟨row, hrow, hholds, Option.some.inj (hget.symm.trans (hcut row))⟩
  · rintro ⟨row, hrow, hholds, rfl⟩
    exact ⟨_, StoredTable.mem_select_of_holds rfl rfl hrow hholds, hcut row⟩

theorem holds_isIn (columns : List Column) (row : Record) (name : String) (items : List Value) :
    (Predicate.compare name .isIn (.array items)).holds columns row
      = (!(row.cell name).isNull && items.any ((typeIn columns name).equal (row.cell name))) := rfl

/-- Where keys tell rows apart, the rows with the keys of the selected rows are the selected
rows. -/
theorem holds_selectedKeys {k : Column} (hk : table.keyColumn? = some k) {t : StoredTable}
    (hcolumns : t.columns = table.columns) (hkeys : t.KeysApart k table.primaryKey) (p : Predicate)
    {row : Record} (hrow : row ∈ t.rows) :
    (Predicate.compare table.primaryKey .isIn (.array (selectedKeys table p t))).holds t.columns row
      = p.holds t.columns row := by
  rw [holds_isIn, hcolumns, Table.typeIn_keyColumn hk, hkeys.filled row hrow, Bool.not_false,
    Bool.true_and, ← hcolumns, Bool.eq_iff_iff, List.any_eq_true]
  constructor
  -- a row with the key of a selected one is that row
  · rintro ⟨key, hkey, hequal⟩
    obtain ⟨other, hother, hholds, rfl⟩ := mem_selectedKeys.1 hkey
    rw [hkeys.eq_of_equal hrow hother hequal]
    exact hholds
  · intro hholds
    exact ⟨_, mem_selectedKeys.2 ⟨row, hrow, hholds, rfl⟩, hkeys.equal_self row hrow⟩

/-! ## Links and rows -/

theorem moves_of_unlink (hwf : schema.WellFormed) {v : Value} {links : List (Table × String)}
    (hlinks : ∀ link ∈ links, link.1 ∈ schema.links) (hsound : tx.work.Sound schema times)
    (h : Yields (links.forM fun link =>
      discard (Transaction.delete link.1 (.compare link.2 .isIn v))) tx () tx') :
    Moves schema times drops tx.work tx'.work := by
  refine Transaction.moves_of_forM hwf hsound ?_ h
  intro link hlink mid mid' _ hstep
  obtain ⟨n, hdelete⟩ := yields_discard.1 hstep
  exact Transaction.moves_of_delete (hlinks link hlink) hdelete

/-- Removing links takes exactly the rows with a cell among the keys from their tables. -/
theorem tables_of_unlink {v : Value} {links : List (Table × String)}
    (hcolumns : ∀ link ∈ links, ∀ t, tx.work.tables.get? link.1.name = some t →
      t.columns = link.1.columns)
    (h : Yields (links.forM fun link =>
      discard (Transaction.delete link.1 (.compare link.2 .isIn v))) tx () tx') (name : String) :
    tx'.work.tables.get? name = (tx.work.tables.get? name).map (·.without fun row =>
      links.any fun link => link.1.name == name
        && (Predicate.compare link.2 .isIn v).holds link.1.columns row) := by
  -- on the columns that point at the table; one link table may stand there twice
  induction links generalizing tx with
  | nil =>
    obtain ⟨-, rfl⟩ := (yields_pure () ()).1 h
    simp [StoredTable.without]
  | cons link rest ih =>
    obtain ⟨mid, hfirst, hrest⟩ := yields_forM_cons.1 h
    obtain ⟨n, hdelete⟩ := yields_discard.1 hfirst
    obtain ⟨-, -, t, ht, rfl, -⟩ := Transaction.yields_delete.1 hdelete
    have hown := hcolumns link List.mem_cons_self t ht
    have hcolumns' : ∀ other ∈ rest, ∀ u,
        (tx.work.put link.1.name
          (t.without ((Predicate.compare link.2 .isIn v).holds t.columns))).tables.get?
          other.1.name = some u → u.columns = other.1.columns := by
      intro other hother u hu
      rw [Store.get?_put] at hu
      split at hu
      · rename_i hname
        rw [← Option.some.inj hu]
        exact hcolumns other (List.mem_cons_of_mem _ hother) t (hname ▸ ht)
      · exact hcolumns other (List.mem_cons_of_mem _ hother) u hu
    rw [ih hcolumns' hrest, Transaction.work_onto, Store.get?_put]
    split
    · rename_i hname
      subst hname
      -- the rows that went here, and those that go later
      show some ((t.without _).without _) = _
      rw [ht, Option.map_some, StoredTable.without_without, hown]
      simp
    · rename_i hname
      have hne : (link.1.name == name) = false := beq_eq_false_iff_ne.2 (Ne.symm hname)
      simp [hne]

theorem mem_linksTo {name : String} {link : Table × String} :
    link ∈ schema.linksTo name
      ↔ link.1 ∈ schema.links ∧ ∃ c ∈ link.1.columns, c.references.any (·.table == name) = true
        ∧ link.2 = c.name := by
  obtain ⟨table, column⟩ := link
  unfold Schema.linksTo
  simp only [List.mem_flatMap, List.mem_map, List.mem_filter, Prod.mk.injEq]
  constructor
  · rintro ⟨_, hlink, c, ⟨hc, href⟩, rfl, rfl⟩
    exact ⟨hlink, c, hc, href, rfl⟩
  · rintro ⟨hlink, c, hc, href, rfl⟩
    exact ⟨table, hlink, c, ⟨hc, href⟩, rfl, rfl⟩

/-- Whether a row of the table of a name is a link to or from a row with one of the keys. -/
def linksToKeys (schema : Schema) (table : String) (keys : List Value) (name : String)
    (row : Record) : Bool :=
  (schema.linksTo table).any fun link => link.1.name == name
    && (Predicate.compare link.2 .isIn (.array keys)).holds link.1.columns row

theorem linksToKeys_nil (name other : String) (row : Record) :
    linksToKeys schema name [] other row = false := by
  simp [linksToKeys, holds_isIn]

/-- A table that is no link table has no links among its rows. -/
theorem linksToKeys_of_ne (name : String) (keys : List Value) {other : String}
    (hother : ∀ link ∈ schema.links, link.name ≠ other) (row : Record) :
    linksToKeys schema name keys other row = false := by
  unfold linksToKeys
  rw [List.any_eq_false]
  intro link hlink
  simp [hother link.1 (mem_linksTo.1 hlink).1]

/-- How rows are removed, if there are any: the links to their keys go, and then the rows. -/
theorem removal_of_removeRows (hcolumns : tx.work.HasColumns schema)
    (hapart : ∀ link ∈ schema.links, link.name ≠ table.name) {k : Column}
    (hk : table.keyColumn? = some k) {p : Predicate} {n : Nat}
    (hkeys : ∀ t, tx.work.tables.get? table.name = some t →
      t.columns = table.columns ∧ t.KeysApart k table.primaryKey)
    (h : Yields (removeRows schema table p) tx n tx') :
    ∃ t, tx.work.tables.get? table.name = some t ∧ n = (t.matching p).length
      ∧ (selectedKeys table p t = [] ∧ (∀ row ∈ t.rows, p.holds t.columns row = false) ∧ tx' = tx
        ∨ ∃ mid, Yields ((schema.linksTo table.name).forM fun link =>
          discard (Transaction.delete link.1
              (.compare link.2 .isIn (.array (selectedKeys table p t))))) tx () mid
          ∧ (∀ name, mid.work.tables.get? name = (tx.work.tables.get? name).map
              (·.without (linksToKeys schema table.name (selectedKeys table p t) name)))
          ∧ mid.work.tables.get? table.name = some t
          ∧ tx'.work = mid.work.put table.name (t.without (p.holds t.columns))) := by
  obtain ⟨-, t, ht, h⟩ := yields_removeRows.1 h
  obtain ⟨hown, hkeys⟩ := hkeys t ht
  have hselected : ∀ row ∈ t.rows, (Predicate.compare table.primaryKey .isIn
      (.array (selectedKeys table p t))).holds t.columns row = p.holds t.columns row :=
    fun row hrow => holds_selectedKeys hk hown hkeys p hrow
  refine ⟨t, ht, ?_⟩
  rcases h with ⟨hnone, rfl, rfl⟩ | ⟨-, mid, hlinks, hdelete⟩
  · have hfalse : ∀ row ∈ t.rows, p.holds t.columns row = false := by
      intro row hrow
      rw [← hselected row hrow, hnone, holds_isIn]
      simp
    refine ⟨?_, .inl ⟨hnone, hfalse, rfl⟩⟩
    rw [StoredTable.matching, List.filter_eq_nil_iff.2 fun row hrow => by simp [hfalse row hrow]]
    rfl
  · have hlinkcolumns : ∀ link ∈ schema.linksTo table.name, ∀ u,
        tx.work.tables.get? link.1.name = some u → u.columns = link.1.columns := fun link hlink =>
      hcolumns link.1 (Schema.mem_physical_of_link (mem_linksTo.1 hlink).1)
    have hleft := tables_of_unlink hlinkcolumns hlinks
    -- the rows of the resource are still there
    have hkept : mid.work.tables.get? table.name = some t := by
      rw [hleft, ht, Option.map_some]
      exact congrArg some (StoredTable.without_eq_self fun row _ =>
        linksToKeys_of_ne _ _ hapart row)
    obtain ⟨-, -, u, hu, rfl, hn⟩ := Transaction.yields_delete.1 hdelete
    obtain rfl : u = t := Option.some.inj (hu.symm.trans hkept)
    refine ⟨?_, .inr ⟨mid, hlinks, hleft, hkept, ?_⟩⟩
    · rw [hn, StoredTable.matching, StoredTable.matching, List.filter_congr hselected]
    · rw [Transaction.work_onto]
      exact congrArg _ (StoredTable.without_congr hselected)

/-- No row that is left is a link to one of the keys. -/
theorem equal_of_not_linksToKeys (hwf : schema.WellFormed) {link : Table}
    (hlink : link ∈ schema.links) {c : Column} (hc : c ∈ link.columns) {name : String}
    (href : c.references.any (·.table == name) = true) {keys : List Value} {row : Record}
    (hrow : linksToKeys schema name keys link.name row = false)
    (hnull : (row.cell c.name).isNull = false) {key : Value} (hkey : key ∈ keys) :
    c.type.equal (row.cell c.name) key = false := by
  have hpair : ((link, c.name) : Table × String) ∈ schema.linksTo name :=
    mem_linksTo.2 ⟨hlink, c, hc, href, rfl⟩
  have hpart := List.any_eq_false.1 hrow _ hpair
  rw [holds_isIn, (hwf.tables link (Schema.mem_physical_of_link hlink)).typeIn_name hc, hnull]
    at hpart
  simp only [beq_self_eq_true, Bool.true_and, Bool.not_false, Bool.not_eq_true] at hpart
  simpa using List.any_eq_false.1 hpart _ hkey

/-- **What is left when rows are removed**: the rows that were not selected, and the links to none
of their keys. -/
theorem tables_of_removeRows (hcolumns : tx.work.HasColumns schema)
    (hapart : ∀ link ∈ schema.links, link.name ≠ table.name) {k : Column}
    (hk : table.keyColumn? = some k) {p : Predicate} {n : Nat}
    (hkeys : ∀ t, tx.work.tables.get? table.name = some t →
      t.columns = table.columns ∧ t.KeysApart k table.primaryKey)
    (h : Yields (removeRows schema table p) tx n tx') :
    ∃ t, tx.work.tables.get? table.name = some t ∧ n = (t.matching p).length
      ∧ tx'.work.tables.get? table.name = some (t.without (p.holds t.columns))
      ∧ ∀ name ≠ table.name, tx'.work.tables.get? name = (tx.work.tables.get? name).map
          (·.without (linksToKeys schema table.name (selectedKeys table p t) name)) := by
  obtain ⟨t, ht, hn, ⟨hnone, hfalse, rfl⟩ | ⟨mid, -, hleft, -, hwork⟩⟩ :=
    removal_of_removeRows hcolumns hapart hk hkeys h
  · refine ⟨t, ht, hn, ?_, fun name _ => ?_⟩
    · rw [ht, StoredTable.without_eq_self hfalse]
    · rw [hnone]
      cases tx'.work.tables.get? name with
      | none => rfl
      | some u => exact (congrArg some (StoredTable.without_eq_self fun row _ =>
          linksToKeys_nil table.name name row)).symm
  · refine ⟨t, ht, hn, ?_, fun name hname => ?_⟩
    · rw [hwork, Store.get?_put, if_pos rfl]
    · rw [hwork, Store.get?_put, if_neg hname, hleft]

/-- In a sound store keys tell the rows of a resource apart. -/
theorem keysApart_of_sound {s : Store} (hwf : schema.WellFormed) (hsound : s.Sound schema times)
    (hbase : base ∈ schema.bases) (hshares : table.SharesRows base) {k : Column}
    (hk : table.keyColumn? = some k) (t : StoredTable) (ht : s.tables.get? table.name = some t) :
    t.columns = table.columns ∧ t.KeysApart k table.primaryKey := by
  have hphysical := Schema.mem_physical_of_base hbase
  have hsoundt := hsound base hphysical t (hshares.name ▸ ht)
  rw [hshares.columns, hshares.primaryKey]
  rw [hshares.keyColumn?] at hk
  exact ⟨hsoundt.columns_eq, hsoundt.keysApart (hwf.tables base hphysical) hk⟩

/-- Removing rows is a chain of moves, of which the last drops the rows. -/
theorem moves_of_removeRows (hwf : schema.WellFormed) (hsound : tx.work.Sound schema times)
    (hbase : base ∈ schema.bases) (hshares : table.SharesRows base)
    (hflag : table.deletedColumn = none) (hdrops : drops) {p : Predicate} {n : Nat}
    (h : Yields (removeRows schema table p) tx n tx') :
    Moves schema times drops tx.work tx'.work := by
  obtain ⟨k, hk, -⟩ := (hwf.tables base (Schema.mem_physical_of_base hbase)).key
  have hapart : ∀ link ∈ schema.links, link.name ≠ table.name := fun link hlink =>
    hshares.name ▸ (hwf.bases_links_disjoint base hbase link hlink).symm
  have hkeycolumn := hshares.keyColumn?.trans hk
  obtain ⟨t, -, -, ⟨-, -, rfl⟩ | ⟨mid, hlinks, hleft, ht', hwork⟩⟩ :=
    removal_of_removeRows hsound.hasColumns hapart hkeycolumn
      (keysApart_of_sound hwf hsound hbase hshares hkeycolumn) h
  · exact .refl
  · have hunlinked : Moves schema times drops tx.work mid.work :=
      moves_of_unlink hwf (fun link hlink => (mem_linksTo.1 hlink).1) hsound hlinks
    rw [hshares.name] at ht' hwork hleft
    rw [hwork]
    refine hunlinked.tail (.drop hdrops hbase ht' (hshares.deletedColumn ▸ hflag) ?_)
    intro link hlink c hc href row hrow hnull gone hgone hholds
    -- a link that is left is one that was to none of the keys
    obtain ⟨u, hu, hmem⟩ := Store.get?_of_mem_rows hrow
    rw [hleft] at hu
    obtain ⟨before, -, rfl⟩ := Option.map_eq_some_iff.1 hu
    have hnot := (List.mem_filter.1 hmem).2
    have hkey : gone.cell base.primaryKey ∈ selectedKeys table p t :=
      mem_selectedKeys.2 ⟨gone, hgone, hholds, by rw [hshares.primaryKey]⟩
    exact equal_of_not_linksToKeys hwf hlink hc href (Bool.not_eq_true' _ ▸ hnot) hnull hkey

/-- Whatever is removed, and however, is removed by moves. -/
theorem moves_of_remove (hwf : schema.WellFormed) (hsound : tx.work.Sound schema times)
    (hbase : base ∈ schema.bases) (hshares : table.SharesRows base) (hnow : times now)
    (hdrops : table.deletedColumn = none → drops) {lookup : Filter} {n : Nat}
    (h : Yields (remove schema table now lookup) tx n tx') :
    Moves schema times drops tx.work tx'.work := by
  obtain ⟨p, -, ⟨deleted, hdeleted, h⟩ | ⟨hflag, h⟩⟩ := yields_remove.1 h
  · exact moves_of_flagDeleted hwf hsound hbase hshares hnow hdeleted h
  · exact moves_of_removeRows hwf hsound hbase hshares hflag (hdrops hflag) h

end Change

end RecordStore
