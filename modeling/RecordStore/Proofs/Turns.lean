import RecordStore.Proofs.Effect

/-!
# How a change turns the tables

Every change turns each table into another one: some rows stay, possibly changed, the others go, and
new rows are put behind them. What is said here holds whatever names the settings give; the key of a
row may then be overwritten, but never by a number that its column does not take.

* **`StoredTable.Turns`**, **`Store.Turns`** — what one change makes of a table, and of all of them.
* **`turns_of_insert`**, **`turns_of_update`**, **`turns_of_replace`**, **`turns_of_remove`** — the
  changes.
-/

namespace RecordStore

open RecordStore.Action

/-! ## One table -/

/-- The key of a changed row is the old one, one that equals it and that the column takes, or no
number. -/
def Table.KeepsNumber (table : Table) (k : Column) (old row : Record) : Prop :=
  row.cell table.primaryKey = old.cell table.primaryKey
    ∨ (row.cell table.primaryKey).double? = none
    ∨ k.type.equal (old.cell table.primaryKey) (row.cell table.primaryKey) = true
      ∧ k.type.accepts (row.cell table.primaryKey) = true

/-- A record gives a number for the key only if the column takes it. -/
def Table.GivesPlainKey (table : Table) (k : Column) (record : Record) : Prop :=
  ∀ v, record.get? table.primaryKey = some v → k.Plain v

namespace StoredTable

/-- Some rows stay, possibly changed, the others go, and new rows are put behind them. -/
def Turns (keeps : Record → Record → Prop) (gives : Record → Prop) (groups : List (List String))
    (now : Value) (t t' : StoredTable) : Prop :=
  ∃ stay rows records, stay.Sublist t.rows ∧ List.Forall₂ keeps stay rows
    ∧ (∀ record ∈ records, gives record) ∧ Adds groups now { t with rows := rows } records t'

variable {keeps : Record → Record → Prop} {gives : Record → Prop} {groups : List (List String)}
  {now : Value} {t t' : StoredTable}

theorem Turns.columns_eq (h : t.Turns keeps gives groups now t') : t'.columns = t.columns := by
  obtain ⟨_, _, _, -, -, -, hadds⟩ := h
  exact hadds.columns_eq

theorem Turns.refl (hkeeps : ∀ row, keeps row row) (t : StoredTable) :
    t.Turns keeps gives groups now t :=
  ⟨t.rows, t.rows, [], .refl _, List.forall₂_same.2 fun row _ => hkeeps row, by simp, .nil t⟩

theorem turns_of_shrinks (hkeeps : ∀ row, keeps row row) (h : t.Shrinks t') :
    t.Turns keeps gives groups now t' := by
  refine ⟨t'.rows, t'.rows, [], h.rows, List.forall₂_same.2 fun row _ => hkeeps row, by simp, ?_⟩
  have heq : { t with rows := t'.rows } = t' := by
    rw [← h.columns_eq, ← h.nextId_eq]
  rw [heq]
  exact .nil t'

theorem turns_of_adds (hkeeps : ∀ row, keeps row row) {records : List Record}
    (hgives : ∀ record ∈ records, gives record) (h : t.Adds groups now records t') :
    t.Turns keeps gives groups now t' :=
  ⟨t.rows, t.rows, records, .refl _, List.forall₂_same.2 fun row _ => hkeeps row, hgives, h⟩

theorem turns_of_forall₂ {rows : List Record} (h : List.Forall₂ keeps t.rows rows) :
    t.Turns keeps gives groups now { t with rows := rows } :=
  ⟨t.rows, rows, [], .refl _, h, by simp, .nil _⟩

theorem turns_of_rewrites {record : Record}
    (hkeeps : ∀ old row, record.RewrittenBy old row → keeps old row) (h : t.Rewrites record t') :
    t.Turns keeps gives groups now t' := by
  have heq : { t with rows := t'.rows } = t' := by
    rw [← h.columns_eq, ← h.nextId_eq]
  rw [← heq]
  exact turns_of_forall₂ (h.rows.imp hkeeps)

theorem turns_of_setsLinks {link : Table} {m : ListField} {owner : Value} {members : List Value}
    (hgives : ∀ member, gives (Change.linkRow m owner member))
    (h : t.SetsLinks link m now owner members t') :
    t.Turns Eq gives link.uniqueGroups now t' := by
  rcases h with ⟨-, rfl⟩ | ⟨-, hadds⟩
  · exact .refl (fun _ => rfl) t'
  · refine ⟨_, _, _, List.filter_sublist, List.forall₂_same.2 fun _ _ => rfl, ?_, hadds⟩
    intro record hrecord
    obtain ⟨member, -, rfl⟩ := List.mem_map.1 hrecord
    exact hgives member

end StoredTable

/-! ## All tables -/

/-- What one change makes of the tables of a schema. -/
structure Store.Turns (schema : Schema) (now : Value) (s s' : Store) : Prop where
  isSome_eq : ∀ name, (s'.tables.get? name).isSome = (s.tables.get? name).isSome
  bases : ∀ base ∈ schema.bases, ∀ k, base.keyColumn? = some k → ∀ t t',
    s.tables.get? base.name = some t → s'.tables.get? base.name = some t' →
      t.Turns (base.KeepsNumber k) (base.GivesPlainKey k) base.uniqueGroups now t'
  links : ∀ link ∈ schema.links, ∀ t t',
    s.tables.get? link.name = some t → s'.tables.get? link.name = some t' →
      t.Turns Eq (fun record => record.get? link.primaryKey = none) link.uniqueGroups now t'

theorem Store.Turns.refl (schema : Schema) (now : Value) (s : Store) : s.Turns schema now s where
  isSome_eq _ := rfl
  bases base _ k _ t t' ht ht' := by
    obtain rfl := Option.some.inj (ht.symm.trans ht')
    exact .refl (fun _ => .inl rfl) t
  links link _ t t' ht ht' := by
    obtain rfl := Option.some.inj (ht.symm.trans ht')
    exact .refl (fun _ => rfl) t

/-- Rows are taken from any tables. -/
theorem Store.Turns.of_shrinks (schema : Schema) (now : Value) {s s' : Store}
    (h : s.TurnsEach StoredTable.Shrinks s') : s.Turns schema now s' where
  isSome_eq := h.isSome_eq
  bases _ _ _ _ _ _ ht ht' := StoredTable.turns_of_shrinks (fun _ => .inl rfl) (h.turned ht ht')
  links _ _ _ _ ht ht' := StoredTable.turns_of_shrinks (fun _ => rfl) (h.turned ht ht')

section Changes

variable {schema : Schema} {table base : Table} {now : Time.Instant} {tx tx' : Transaction}
  {s s' : Store} {doc : Record}

/-- A row of a link table gives no key. -/
theorem Schema.Coherent.get?_key_linkRow (hco : schema.Coherent) (hbase : base ∈ schema.bases)
    {m : ListField} (hm : m ∈ base.lists) {link : Table}
    (hlink : schema.linkTable m.linkTable = .ok link) (owner member : Value) :
    (Change.linkRow m owner member).get? link.primaryKey = none := by
  have hnames := (hco.list_names base hbase m hm link hlink).1
  simp only [List.nodup_cons, List.mem_cons, List.not_mem_nil, or_false, not_or] at hnames
  rw [Change.get?_linkRow, if_neg hnames.1.2, if_neg hnames.1.1]

/-- A change writes the table of its resource and then the tables of some of its lists. -/
theorem Store.Turns.of_lists (hco : schema.Coherent) (hbase : base ∈ schema.bases)
    {t t' : StoredTable} (ht : s.tables.get? base.name = some t)
    (hturns : ∀ k, base.keyColumn? = some k → t.Turns (base.KeepsNumber k) (base.GivesPlainKey k)
      base.uniqueGroups (.string now.text) t')
    {α : Type} {items : List α} {list : α → ListField}
    {R : α → Table → StoredTable → StoredTable → Prop} (hmem : ∀ x ∈ items, list x ∈ base.lists)
    (hlinks : ∀ x ∈ items, ∀ link, schema.linkTable (list x).linkTable = .ok link → ∀ u u',
      R x link u u' → u.Turns Eq (fun record => record.get? link.primaryKey = none)
        link.uniqueGroups (.string now.text) u')
    (h : (s.put base.name t').ListsTurn schema items list R s') :
    s.Turns schema (.string now.text) s' := by
  refine ⟨fun name => ?_, fun other hother k hk u u' hu hu' => ?_, fun link hlink u u' hu hu' => ?_⟩
  · rw [h.isSome_eq name, Store.get?_put]
    split
    · rename_i hname
      rw [hname, ht]
      rfl
    · rfl
  · by_cases hname : other.name = base.name
    · obtain rfl := hco.eq_of_name (Schema.mem_physical_of_base hother)
        (Schema.mem_physical_of_base hbase) hname
      have hown := h.get?_written hco hbase (.refl other) hmem
      obtain rfl := Option.some.inj (ht.symm.trans hu)
      obtain rfl := Option.some.inj (hown.symm.trans hu')
      exact hturns k hk
    · rw [h.get?_other hco hbase (.refl base) hmem hother hname] at hu'
      obtain rfl := Option.some.inj (hu.symm.trans hu')
      exact .refl (fun _ => .inl rfl) u
  · rcases h.link_cases hco hbase hmem hlink hu hu' with rfl | ⟨x, hx, hlinktable, hR⟩
    · exact .refl (fun _ => rfl) u'
    · exact hlinks x hx link hlinktable u u' hR

/-! ### The keys that changes give -/

theorem Column.plain_of_accepts {k : Column} {v : Value} (h : k.type.accepts v = true) :
    k.Plain v :=
  fun _ => h

theorem Column.plain_of_none {k : Column} {v : Value} (h : v.double? = none) : k.Plain v := by
  intro hsome
  rw [h] at hsome
  cases hsome

/-- The key of a document is of the type of its column, after numbers were made doubles, too. -/
theorem plain_withDoubles (hco : schema.Coherent) (hbase : base ∈ schema.bases)
    (hshares : table.SharesRows base) {k : Column} (hk : base.keyColumn? = some k) {r : Record}
    (hr : ∀ w, r.get? base.primaryKey = some w → k.type.accepts w = true) {v : Value}
    (hv : (Change.withDoubles table r).get? base.primaryKey = some v) :
    k.type.accepts v = true := by
  rw [Change.get?_withDoubles] at hv
  split at hv
  · rename_i hdouble
    obtain ⟨w, hw, rfl⟩ := Option.map_eq_some_iff.1 hv
    obtain ⟨c, hc, hname, htype⟩ := Change.mem_doubleNames.1 hdouble
    rw [hshares.columns] at hc
    -- a column of doubles shares its name with no other, so it is the key
    have hfound := Table.column?_of_lone hc (hco.lone base hbase c hc (.inl htype))
    rw [hname] at hfound
    obtain rfl := Option.some.inj (hk.symm.trans hfound)
    have haccepts := hr w hw
    rw [htype] at haccepts ⊢
    exact ColumnType.accepts_asDouble haccepts
  · exact hr v hv

theorem accepts_key_of_check (hshares : table.SharesRows base) {k : Column}
    (hk : base.keyColumn? = some k) (hcheck : Document.checkPartial schema table doc = .ok ())
    {w : Value} (hw : doc.get? base.primaryKey = some w) : k.type.accepts w = true :=
  Document.accepts_of_check hcheck hw ((hshares.column? _).trans hk)

/-- A column that is no stamp is given what the document says, with numbers made doubles. -/
theorem get?_insertedRow_column (hco : schema.Coherent) (hbase : base ∈ schema.bases)
    (hshares : table.SharesRows base) {name : String} (hname : name ∈ base.columnNames)
    (hstamp : name ∉ Change.stampColumns) :
    (Change.insertedRow table now doc).get? name = (Change.withDoubles table doc).get? name := by
  rw [get?_insertedRow_of_not_mem hstamp, Change.get?_rowOf,
    hco.listField?_of_column hbase hshares hname]
  rfl

/-- The row of an insertion gives a plain key, or none. -/
theorem givesPlainKey_insertedRow (hco : schema.Coherent) (hbase : base ∈ schema.bases)
    (hshares : table.SharesRows base) {k : Column} (hk : base.keyColumn? = some k)
    (hcheck : Document.checkPartial schema table doc = .ok ()) :
    base.GivesPlainKey k (Change.insertedRow table now doc) := by
  intro v hv
  rcases get?_of_insertedRow hv with hv | ⟨-, rfl⟩
  · exact Column.plain_of_accepts (plain_withDoubles hco hbase hshares hk
      (fun w hw => accepts_key_of_check hshares hk hcheck hw) (get?_of_rowOf hv))
  -- a key that has the name of a stamp is a text
  · exact Column.plain_of_none rfl

/-- What rewrites rows without a number for the key keeps the numbers of keys. -/
theorem keepsNumber_of_rewrittenBy {k : Column} {record old row : Record}
    (hrecord : ∀ v, record.get? base.primaryKey = some v → v.double? = none)
    (h : record.RewrittenBy old row) : base.KeepsNumber k old row := by
  rcases h.2 base.primaryKey with hsame | ⟨v, hv, hgiven⟩
  · exact .inl (by rw [Record.cell, Record.cell, hsame])
  · refine .inr (.inl ?_)
    rw [Record.cell_eq_of_get? hgiven]
    exact hrecord v hv

theorem double?_key_updatedRow (hshares : table.SharesRows base) {v : Value}
    (hv : (Change.updatedRow table now doc).get? base.primaryKey = some v) : v.double? = none := by
  rw [Change.get?_updatedRow, if_pos hshares.primaryKey.symm] at hv
  split at hv
  · rw [← Option.some.inj hv]
    rfl
  · cases hv

theorem get?_key_replacedRow (hshares : table.SharesRows base) {k : Column}
    (hk : base.keyColumn? = some k) (key : Value) (stored : Option Record) :
    (Change.replacedRow table now key stored doc).get? base.primaryKey = some key := by
  obtain ⟨hkmem, hkname⟩ := Table.mem_of_column? hk
  refine NameMap.get?_ofList_of_forall ?_ fun entry hentry hname => ?_
  · rw [List.map_map, hshares.columns, List.mem_map]
    exact ⟨k, hkmem, hkname⟩
  · obtain ⟨c, -, rfl⟩ := List.mem_map.1 hentry
    exact if_pos (hname.trans hshares.primaryKey.symm)

/-! ### The changes -/

/-- An insertion turns the table of the resource and the link tables of its lists. -/
theorem turns_of_insert (hco : schema.Coherent) (hbase : base ∈ schema.bases)
    (hshares : table.SharesRows base) {id : Value} {new : Record}
    (h : Yields (Change.insert schema table now doc) tx (id, new) tx') :
    tx.work.Turns schema (.string now.text) tx'.work := by
  have hcheck := Document.checkPartial_of_check (Change.yields_insert.1 h).1
  obtain ⟨t, row, next, ht, hfill, hadmissible, -, hlists⟩ :=
    Change.effect_of_insert hco hbase hshares h
  have hm {entry : ListField × List Value}
      (hentry : entry ∈ Change.listsOf table (Change.withDoubles table doc)) :
      entry.1 ∈ base.lists :=
    hshares.lists ▸ Change.list_of_mem_listsOf hentry
  refine .of_lists hco hbase ht (fun k hk => ?_) (fun entry hentry => hm hentry) ?_ hlists
  · refine StoredTable.turns_of_adds (fun _ => .inl rfl) ?_ (.cons hfill hadmissible (.nil _))
    intro record hrecord
    rw [List.mem_singleton.1 hrecord]
    exact givesPlainKey_insertedRow hco hbase hshares hk hcheck
  · intro entry hentry link hlink u u' hadds
    refine StoredTable.turns_of_adds (fun _ => rfl) (fun record hrecord => ?_) hadds
    obtain ⟨member, -, rfl⟩ := List.mem_map.1 hrecord
    exact hco.get?_key_linkRow hbase (hm hentry) hlink _ _

/-- An update turns the table of the resource and the link tables of the lists that are given. -/
theorem turns_of_update (hco : schema.Coherent) (hbase : base ∈ schema.bases)
    (hshares : table.SharesRows base) {id : Value}
    (h : Yields (Change.update schema table now id doc) tx () tx') :
    tx.work.Turns schema (.string now.text) tx'.work := by
  obtain ⟨key, t, t', -, ht, hrewrites, hlists⟩ := Change.effect_of_update hco hbase hshares h
  have hm {entry : ListField × List Value} (hentry : entry ∈ Change.listsOf table doc) :
      entry.1 ∈ base.lists := hshares.lists ▸ Change.list_of_mem_listsOf hentry
  refine .of_lists hco hbase ht (fun k hk => ?_) (fun entry hentry => hm hentry) ?_ hlists
  · exact StoredTable.turns_of_rewrites
      (fun old row => keepsNumber_of_rewrittenBy fun v hv =>
        double?_key_updatedRow hshares hv) hrewrites
  · exact fun entry hentry link hlink u u' hsets =>
      StoredTable.turns_of_setsLinks (hco.get?_key_linkRow hbase (hm hentry) hlink _) hsets

/-- A replacement turns the table of the resource and the link tables of all its lists. -/
theorem turns_of_replace (hco : schema.Coherent) (hbase : base ∈ schema.bases)
    (hshares : table.SharesRows base)
    (hcolumns : ∀ t, tx.work.tables.get? base.name = some t → t.columns = base.columns) {id : Value}
    (h : Yields (Change.replace schema table now id doc) tx () tx') :
    tx.work.Turns schema (.string now.text) tx'.work := by
  obtain ⟨key, t, t', -, hkeyfor, ht, hupserts, hlists⟩ :=
    Change.effect_of_replace hco hbase hshares h
  have hm {m : ListField} (hm : m ∈ table.lists) : m ∈ base.lists := hshares.lists ▸ hm
  refine .of_lists hco hbase ht (fun k hk => ?_) (fun m hmem => hm hmem) ?_ hlists
  · obtain ⟨haccepts, hnull⟩ := Change.accepts_of_keyFor (hshares.keyColumn?.trans hk) hkeyfor
    have hgiven : (Change.replacedRow table now key (t.select (Change.storedPlan table key)).head?
        doc).get? base.primaryKey = some key := get?_key_replacedRow hshares hk key _
    cases hupserts with
    | @change place rest old row hplaces hold hassign =>
      refine StoredTable.turns_of_forall₂ (forall₂_set (fun _ => .inl rfl) hold (.inr (.inr ?_)))
      have hcell : row.cell base.primaryKey = key := by
        rw [Record.cell, StoredTable.get?_assign hassign, hgiven]
        rfl
      -- the row was found by a predicate that asks for an equal key
      obtain ⟨found, hfound, hholds⟩ :=
        Transaction.mem_places (by rw [hplaces]; exact List.mem_cons_self)
      obtain rfl : found = old := Option.some.inj (hfound.symm.trans hold)
      rw [hshares.primaryKey, Record.cell_eq_of_get? hgiven, Transaction.holds_eq hnull,
        hcolumns t ht] at hholds
      have htype := Table.typeIn_keyColumn hk
      rw [hcell, ← htype]
      exact ⟨hholds.2, htype ▸ haccepts⟩
    | append _ _ hfill hrules =>
      have hadmissible := Store.admissible_of_checkRules hrules
      rw [hshares.uniqueGroups] at hadmissible
      refine StoredTable.turns_of_adds (fun _ => .inl rfl) ?_ (.cons hfill hadmissible (.nil _))
      intro record hrecord v hv
      rw [List.mem_singleton.1 hrecord, hgiven] at hv
      exact Option.some.inj hv ▸ Column.plain_of_accepts haccepts
  · exact fun m hmem link hlink u u' hsets =>
      StoredTable.turns_of_setsLinks (hco.get?_key_linkRow hbase (hm hmem) hlink _) hsets

/-- A removal turns the table of the resource and the link tables at either end of its rows. -/
theorem turns_of_remove (hco : schema.Coherent) (hbase : base ∈ schema.bases)
    (hshares : table.SharesRows base) {lookup : Filter} {n : Nat}
    (h : Yields (Change.remove schema table now lookup) tx n tx') :
    tx.work.Turns schema (.string now.text) tx'.work := by
  rcases Change.effect_of_remove h with ⟨deleted, t, t', -, ht, hrewrites, hwork⟩ | hshrinks
  · rw [hshares.name] at ht hwork
    rw [hwork]
    have hnone : ∀ m ∈ ([] : List ListField), m ∈ base.lists := by simp
    refine .of_lists hco hbase ht (fun k hk => ?_) hnone (R := fun _ _ _ _ => True) (by simp)
      ⟨by simp, fun _ _ => rfl, fun _ => rfl⟩
    refine StoredTable.turns_of_rewrites
      (fun old row => keepsNumber_of_rewrittenBy fun v hv => ?_) hrewrites
    -- the flag is a truth value, and the time a text
    rw [Change.get?_flag] at hv
    split at hv
    · rw [← Option.some.inj hv]
      rfl
    · split at hv
      · rw [← Option.some.inj hv]
        rfl
      · cases hv
  · exact .of_shrinks schema _ hshrinks

end Changes

end RecordStore
