import RecordStore.Proofs.Cells
import RecordStore.Proofs.Finding
import RecordStore.Proofs.Keys
import RecordStore.Proofs.Reading
import RecordStore.Proofs.Replay

/-!
# What an update changes

An update concerns one visible row: the one whose key the identifier equals. The row is given the
cells of the document and is stamped with the time; its key stays, and so does every cell that the
document does not give. The links of the row are those of the lists that the document gives. Nothing
else changes.

No other row has the key, except in a column of doubles. There whole numbers are compared exactly
with each other but as doubles with a double, so a row that was replaced under a whole number can
stand beside another one that equals the same double.

* **`Record.Updates`**, **`Store.UpdatedAround`** — the row that is updated, and everything around
  it.
* **`Catalog.updated_rows`** — what an update makes of the store, and when it finds no row.
* **`Catalog.two_rows_equal_one_key`** — two rows that equal the double under which one is updated.
-/

namespace RecordStore

open RecordStore.Action

/-! ## The row that is updated -/

/-- A document gives its cells to a row, which is stamped with the time. The key of the row and the
cells that the document does not give stay. -/
structure Record.Updates (table : Table) (now : Time.Instant) (doc old row : Record) : Prop where
  keys_eq : row.keys = old.keys
  stamp : row.get? updatedColumn = some (.string now.text)
  given : ∀ c ∈ table.columns, c.name ≠ table.primaryKey → c.name ≠ updatedColumn →
    ∀ v, doc.get? c.name = some v → row.get? c.name = some (c.stored v)
  kept : ∀ name ≠ updatedColumn, name = table.primaryKey ∨ doc.get? name = none →
    row.get? name = old.get? name

/-- A visible row whose key an identifier equals, and no row beside it has the key, but for a whole
number in a column of doubles that is compared with a double. -/
structure Table.FindsOne (table : Table) (k : Column) (id : Value) (old : Record)
    (others : List Record) : Prop where
  visible : table.finds [] old = true
  equal : k.type.equal (old.cell table.primaryKey) (k.type.interpret id) = true
  lone : ∀ other ∈ others,
    k.type.equal (other.cell table.primaryKey) (k.type.interpret id) = true →
      k.type = .float ∧ (other.cell table.primaryKey).integer?.isSome = true
        ∧ (old.cell table.primaryKey).integer?.isSome = true ∧ (k.type.interpret id).integer? = none

/-- A table is written, the links of one owner are set in the link tables of the lists that a
document gives, and nothing else changes. -/
structure Store.UpdatedAround (schema : Schema) (table : Table) (doc : Record) (owner : Value)
    (t' : StoredTable) (s s' : Store) : Prop where
  own : s'.tables.get? table.name = some t'
  links : ∀ entry ∈ Change.listsOf table doc, ∃ link u u',
    schema.linkTable entry.1.linkTable = .ok link ∧ s.tables.get? link.name = some u
      ∧ s'.tables.get? link.name = some u' ∧ u'.columns = u.columns
      ∧ (u'.withoutOwner entry.1 owner).rows = (u.withoutOwner entry.1 owner).rows
  others : ∀ name ≠ table.name, name ∉ (Change.listsOf table doc).map (·.1.linkTable) →
    s'.tables.get? name = s.tables.get? name

section Row

variable {schema : Schema} {table base : Table} {now : Time.Instant} {doc old row : Record}

/-- What is assigned by the row of an update are the values of the document and the time. -/
theorem updates_of_assign (hco : schema.Coherent) (hbase : base ∈ schema.bases)
    (hshares : table.SharesRows base)
    (h : StoredTable.assign old (Change.updatedRow table now doc) = .ok row) :
    doc.Updates table now old row := by
  have hget (name : String) := (StoredTable.get?_assign h name).trans
    (congrArg (Option.or · (old.get? name)) (Change.get?_updatedRow table now doc name))
  refine ⟨StoredTable.keys_assign h, ?_, fun c hc hkey hstamp v hv =>
    ?_, fun name hstamp hkept => ?_⟩
  · rw [hget, if_pos rfl]
    rfl
  · rw [hget, if_neg hstamp, if_neg hkey, hco.get?_given hbase hshares hc hv]
    rfl
  · rw [hget, if_neg hstamp]
    split
    · rfl
    · rename_i hkey
      have hnone := hkept.resolve_left hkey
      rw [Change.get?_withDoubles, Change.get?_rowOf, hnone]
      simp

end Row

/-! ## The rows beside it -/

theorem mem_of_mem_beside {α : Type} {items before after : List α} {x y : α}
    (hitems : items = before ++ x :: after) (hy : y ∈ before ++ after) : y ∈ items := by
  rw [hitems]
  exact (List.perm_middle (a := x)).mem_iff.2 (List.mem_cons_of_mem _ hy)

/-- The rows beside one of which keys tell it apart have other keys. -/
theorem StoredTable.KeysApart.beside {t : StoredTable} {k : Column} {name : String}
    (hkeys : t.KeysApart k name) {before after : List Record} {old other : Record}
    (hrows : t.rows = before ++ old :: after) (hother : other ∈ before ++ after) :
    k.type.equal (other.cell name) (old.cell name) = false := by
  have hpairwise := hkeys.apart
  rw [hrows, List.perm_middle.pairwise_iff (Std.Symm.symm _ _), List.pairwise_cons] at hpairwise
  rw [ColumnType.equal_comm]
  exact hpairwise.1 other hother

/-- Where keys tell rows apart, two of them equal one key only if that compares as a double and they
as whole numbers. -/
theorem StoredTable.KeysApart.lone {t : StoredTable} {k : Column} {name : String}
    (hkeys : t.KeysApart k name) (hplain : ∀ row ∈ t.rows, k.Plain (row.cell name)) {key : Value}
    (haccepts : k.type.accepts key = true) (hnull : key.isNull = false) {before after : List Record}
    {old other : Record} (hrows : t.rows = before ++ old :: after)
    (hold : k.type.equal (old.cell name) key = true) (hother : other ∈ before ++ after)
    (hequal : k.type.equal (other.cell name) key = true) :
    k.type = .float ∧ (other.cell name).integer?.isSome = true
      ∧ (old.cell name).integer?.isSome = true
      ∧ key.integer? = none := by
  have hmem : old ∈ t.rows := hrows ▸ List.mem_append_right _ List.mem_cons_self
  have hmem' := mem_of_mem_beside hrows hother
  by_contra hnot
  refine Bool.eq_false_iff.1 (hkeys.beside hrows hother) ?_
  by_cases htype : k.type = .float
  · rw [htype] at haccepts hold hequal ⊢
    obtain ⟨z, hz⟩ := ColumnType.exists_double_of_accepts haccepts hnull
    obtain ⟨x, hx⟩ := ColumnType.exists_double_of_equal hz hequal
    obtain ⟨y, hy⟩ := ColumnType.exists_double_of_equal hz hold
    refine ColumnType.equal_float_of_equal hx hy hz hequal hold fun ha hb => ?_
    rw [Option.isSome_iff_ne_none]
    exact fun hc => hnot ⟨htype, ha, hb, hc⟩
  · obtain ⟨holdaccepts, holdnull⟩ :=
      ColumnType.accepts_of_equal htype hold (hplain old hmem) haccepts hnull
    obtain ⟨hotheraccepts, hothernull⟩ :=
      ColumnType.accepts_of_equal htype hequal (hplain other hmem') haccepts hnull
    rw [ColumnType.equal_comm] at hold
    exact ColumnType.equal_trans htype hotheraccepts
      haccepts holdaccepts hothernull hnull holdnull hequal
      hold

theorem exists_of_forall₂_append {α β : Type} {R : α → β → Prop} {xs ys : List α} {zs : List β}
    (h : List.Forall₂ R (xs ++ ys) zs) :
    ∃ xs' ys', zs = xs' ++ ys' ∧ List.Forall₂ R xs xs' ∧ List.Forall₂ R ys ys' := by
  induction xs generalizing zs with
  | nil => exact ⟨[], zs, rfl, .nil, h⟩
  | cons x xs ih =>
    obtain ⟨z, rest, hz, hrest, rfl⟩ := List.forall₂_cons_left_iff.1 h
    obtain ⟨xs', ys', rfl, hxs, hys⟩ := ih hrest
    exact ⟨z :: xs', ys', rfl, .cons hz hxs, hys⟩

/-- If one row satisfies a predicate, it alone is changed. -/
theorem StoredTable.Overwrites.eq_of_one {t t' : StoredTable} {p : Predicate} {record old : Record}
    {before after : List Record} (h : t.Overwrites p record t')
    (hrows : t.rows = before ++ old :: after) (hold : p.holds t.columns old = true)
    (hothers : ∀ other ∈ before ++ after, p.holds t.columns other = false) :
    ∃ row, assign old record = .ok row ∧ t' = { t with rows := before ++ row :: after } := by
  have hsame {xs ys : List Record} (hxs : ∀ x ∈ xs, p.holds t.columns x = false)
      (hrows : List.Forall₂ (fun old row => if p.holds t.columns old = true then
        assign old record = .ok row else row = old) xs ys) : ys = xs := by
    induction hrows with
    | nil => rfl
    | @cons x y _ _ hfirst _ ih =>
      rw [hxs x List.mem_cons_self, if_neg Bool.false_ne_true] at hfirst
      rw [hfirst, ih fun z hz => hxs z (List.mem_cons_of_mem _ hz)]
  obtain ⟨hcolumns, hnext, hforall⟩ := h
  rw [hrows] at hforall
  -- the rows fall into those before it, the row itself and those after it
  obtain ⟨before', rest, hsplit, hbefore, hrest⟩ := exists_of_forall₂_append hforall
  obtain ⟨row, after', hrow, hafter, rfl⟩ := List.forall₂_cons_left_iff.1 hrest
  rw [if_pos hold] at hrow
  refine ⟨row, hrow, ?_⟩
  rw [hsame (fun x hx => hothers x (List.mem_append_left _ hx)) hbefore,
    hsame (fun x hx => hothers x (List.mem_append_right _ hx)) hafter] at hsplit
  rw [← hcolumns, ← hnext, ← hsplit]

/-! ## The links -/

/-- Setting the links of an owner leaves those of all others, in their order. -/
theorem StoredTable.SetsLinks.rows_withoutOwner {schema : Schema} {base link : Table}
    {m : ListField} {k : Column} {owner : Value} {members : List Value} {t t' : StoredTable}
    {time : Time.Instant} (h : t.SetsLinks link m (.string time.text) owner members t')
    (hlink : t.LinkOf schema base m link k) (hco : schema.Coherent) (howner : owner.isNull = false)
    (hself : k.type.equal owner owner = true) :
    (t'.withoutOwner m owner).rows = (t.withoutOwner m owner).rows := by
  rcases h with ⟨-, rfl⟩ | ⟨-, hadds⟩
  · rfl
  · have hwithout : (t.withoutOwner m owner).LinkOf schema base m link k :=
      ⟨hlink.base_mem, hlink.list_mem, hlink.link_eq, hlink.key_eq, hlink.columns_eq, hlink.counter⟩
    obtain ⟨new, hrows, howned, -⟩ := hadds.exists_links hwithout hco
    have hcolumns : t'.columns = t.columns := hadds.columns_eq
    -- the new links are the owner's, so they do not count
    have hnew :
      new.filter (fun row => !(Predicate.eq m.ownerColumn owner).holds t.columns row) = [] := by
      refine List.filter_eq_nil_iff.2 fun row hrow => ?_
      have hholds : (Predicate.eq m.ownerColumn owner).holds t.columns row = true := by
        rw [Transaction.holds_eq howner, howned row hrow, hlink.typeIn_owner hco]
        exact ⟨howner, hself⟩
      simp [hholds]
    show t'.rows.filter _ = _
    rw [hcolumns, hrows, List.filter_append, hnew, List.append_nil]
    show (t.rows.filter _).filter _ = t.rows.filter _
    simp [List.filter_filter]

/-- What an update leaves around its row: the lists that were given, and all other links as they
were. -/
theorem updatedAround_of_listsTurn {schema : Schema} {table base : Table}
    {k : Column} {owner : Value}
    {doc : Record} {now : Time.Instant} {t t' : StoredTable} {s s' : Store} (hco : schema.Coherent)
    (hregular : s.Regular schema) (hbase : base ∈ schema.bases) (hshares : table.SharesRows base)
    (hk : base.keyColumn? = some k) (ht : s.tables.get? base.name = some t)
    (howner : owner.isNull = false) (hself : k.type.equal owner owner = true)
    (h : (s.put base.name t').ListsTurn schema (Change.listsOf table doc) Prod.fst
      (fun entry link => StoredTable.SetsLinks link entry.1 (.string now.text) owner entry.2) s') :
    s.UpdatedAround schema table doc owner t' s' := by
  have hlist : ∀ entry ∈ Change.listsOf table doc, entry.1 ∈ table.lists :=
    fun _ hentry => Change.list_of_mem_listsOf hentry
  refine ⟨?_, fun entry hentry => ?_, fun name hname hnot => ?_⟩
  · rw [hshares.name]
    exact h.get?_written hco hbase hshares hlist
  · obtain ⟨link, u, u', hu, hu', hlinkof, hsets⟩ :=
      h.turned hco hbase hregular ht hk hentry (hshares.lists ▸ hlist entry hentry)
    exact ⟨link, u, u', hlinkof.link_eq, hu, hu', hsets.columns_eq,
      hsets.rows_withoutOwner hlinkof hco howner hself⟩
  · rw [h.other name hnot, Store.get?_put, if_neg (hshares.name ▸ hname)]

/-! ## Updates -/

section Update

variable {schema : Schema} {table base : Table} {k : Column} {now : Time.Instant} {id : Value}
  {doc : Record} {tx tx' : Transaction}

/-- A filter for a key finds the visible rows with the key. -/
theorem finds_keyFilter (hk : table.keyColumn? = some k)
    (hflag : table.deletedColumn ≠ some table.primaryKey) (id : Value) (row : Record) :
    table.finds (Change.keyFilter table .eq id) row
      = (Operator.eq.accepts k.type (row.cell table.primaryKey) (k.type.interpret id)
        && table.finds [] row) := by
  have hentry : Filter.holds (Change.keyFilter table .eq id) table row
      = Operator.eq.accepts k.type (row.cell table.primaryKey) (k.type.interpret id) := by
    have hcolumn : table.column? table.primaryKey = some k := hk
    simp [Filter.holds, Change.keyFilter, FilterEntry.holds, hcolumn, Operator.compared,
      Operator.takesPattern]
  have hhides : ∀ deleted, table.deletedColumn = some deleted →
      table.hidesDeleted (Change.keyFilter table .eq id) deleted
        = table.hidesDeleted [] deleted := by
    intro deleted hdeleted
    have hne : (table.primaryKey == deleted) = false :=
      beq_eq_false_iff_ne.2 fun hname => hflag (hname ▸ hdeleted)
    simp [Table.hidesDeleted, Filter.references, Change.keyFilter, hne]
  rw [Table.finds, Table.finds, hentry, Bool.and_assoc, Bool.and_assoc]
  cases hdeleted : table.deletedColumn with
  | none => rfl
  | some deleted =>
    rw [Option.all_some, Option.all_some, hhides deleted hdeleted]
    rfl

/-- A cell that is not null satisfies the equality with a value only if that is not null either. -/
theorem Operator.accepts_eq_iff {type : ColumnType} {v w : Value} (hv : v.isNull = false) :
    Operator.eq.accepts type v w = true ↔ w.isNull = false ∧ type.equal v w = true := by
  cases w with
  | null =>
    show v.isNull = true ↔ _
    rw [hv]
    exact ⟨nofun, nofun⟩
  | _ =>
    show (!v.isNull && type.equal v _) = true ↔ _
    rw [hv]
    exact (and_iff_right rfl).symm

/-- An identifier can be looked for if it is read as a value of the key's type, and the filter of
the datasource can be. -/
theorem ofFilter_key_isOk_iff (hk : table.keyColumn? = some k) :
    (∃ p, Predicate.ofFilter table (Change.keyFilter table .eq id) .lookup false = .ok p)
      ↔ k.type.accepts (k.type.interpret id) = true
        ∧ ∃ q, Predicate.ofFilter table [] .lookup false = .ok q := by
  have hsource : Predicate.ofSourceEntry table .lookup ⟨table.primaryKey, .eq, id⟩
      = Predicate.ofEntry table ⟨table.primaryKey, .eq, id⟩ := by
    rw [Predicate.ofSourceEntry, if_neg (by simp)]
  simp only [Predicate.ofFilter_eq_ok_iff]
  constructor
  · rintro ⟨p, asked, given, hasked, hgiven, -⟩
    obtain ⟨q, rest, hfirst, -, -⟩ := List.forall₂_cons_left_iff.1 (mapM_eq_ok_iff.1 hasked)
    rw [hsource] at hfirst
    exact ⟨((Predicate.ofEntry_key_eq_ok_iff hk).1 hfirst).1, _, [], given, rfl, hgiven, rfl⟩
  · rintro ⟨haccepts, q, asked, given, -, hgiven, -⟩
    have hentry := (Predicate.ofEntry_key_eq_ok_iff hk).2 ⟨haccepts, rfl⟩
    rw [← hsource] at hentry
    exact ⟨_, _, given, mapM_eq_ok_iff.2 (.cons hentry .nil), hgiven, rfl⟩

/-- The key that an update finds is that of a visible row that the identifier equals. -/
theorem found_of_visibleKey (hk : table.keyColumn? = some k)
    (hflag : table.deletedColumn ≠ some table.primaryKey)
    (hkeys : ∀ t, tx.work.tables.get? table.name = some t →
      t.columns = table.columns ∧ t.KeysApart k table.primaryKey)
    {key : Value} (h : Yields (Change.visibleKey table id) tx (some key) tx) :
    k.type.accepts (k.type.interpret id) = true ∧ (k.type.interpret id).isNull = false
      ∧ ∃ t old, tx.work.tables.get? table.name = some t ∧ old ∈ t.rows
        ∧ key = old.cell table.primaryKey ∧ table.finds [] old = true
        ∧ k.type.equal (old.cell table.primaryKey) (k.type.interpret id) = true := by
  obtain ⟨t, old, p, ht, hold, rfl, hp, hholds⟩ := Change.holds_of_visibleKey h
  obtain ⟨hcolumns, hkeys⟩ := hkeys t ht
  rw [hcolumns, Predicate.holds_of_ofFilter hp, finds_keyFilter hk hflag, Bool.and_eq_true,
    Operator.accepts_eq_iff (hkeys.filled old hold)] at hholds
  exact ⟨((ofFilter_key_isOk_iff hk).1 ⟨p, hp⟩).1, hholds.1.1, t, old, ht, hold, rfl, hholds.2,
    hholds.1.2⟩

/-- **What an update changes**: the visible row with the identifier's key, and the links of its
lists. -/
theorem updatedAround_of_update (hco : schema.Coherent) (hregular : tx.work.Regular schema)
    (hkeysapart : tx.work.KeysApart schema) (hbase : base ∈ schema.bases)
    (hshares : table.SharesRows base) (hk : table.keyColumn? = some k)
    (hflag : table.deletedColumn ≠ some table.primaryKey)
    (h : Yields (Change.update schema table now id doc) tx () tx') :
    ∃ t before old after row, tx.work.tables.get? table.name = some t
      ∧ t.rows = before ++ old :: after ∧ table.FindsOne k id old (before ++ after)
      ∧ doc.Updates table now old row
      ∧ tx.work.UpdatedAround schema table doc (old.cell table.primaryKey)
        { t with rows := before ++ row :: after } tx'.work := by
  obtain ⟨key, n, mid, hvisible, -, hupdate, hlists⟩ := Change.steps_of_update hco hbase hshares h
  have hstored := hregular.keysApart_of_shares hkeysapart hbase hshares hk
  obtain ⟨haccepts, hidnull, t, old, ht, hold, rfl, hfinds, hequal⟩ :=
    found_of_visibleKey hk hflag hstored hvisible
  obtain ⟨hcolumns, hkeys⟩ := hstored t ht
  obtain ⟨before, after, hrows⟩ := List.append_of_mem hold
  have hnull := hkeys.filled old hold
  -- the row alone has its key, as it is stored
  have hholds (row : Record) (hrow : row ∈ t.rows) :
      (Predicate.eq table.primaryKey (old.cell table.primaryKey)).holds t.columns row
        = k.type.equal (row.cell table.primaryKey) (old.cell table.primaryKey) := by
    rw [Bool.eq_iff_iff, Transaction.holds_eq hnull, hcolumns, Table.typeIn_keyColumn hk,
      and_iff_right (hkeys.filled row hrow)]
  obtain ⟨u, t', hu, hoverwrites, rfl, -⟩ := Transaction.overwrites_of_update hupdate
  obtain rfl : u = t := Option.some.inj (hu.symm.trans ht)
  obtain ⟨row, hassign, rfl⟩ := hoverwrites.eq_of_one hrows
    ((hholds old hold).trans (hkeys.equal_self old hold)) fun other hother =>
      (hholds other (mem_of_mem_beside hrows hother)).trans (hkeys.beside hrows hother)
  have hplain : ∀ row ∈ u.rows, k.Plain (row.cell table.primaryKey) := by
    intro row hrow
    rw [hshares.primaryKey]
    exact hregular.plain base hbase k (hshares.keyColumn? ▸ hk) row
      (Store.rows_of_get? (hshares.name ▸ ht) ▸ hrow)
  refine ⟨u, before, old, after, row, ht, hrows, ⟨hfinds, hequal, fun other hother hotherequal =>
    hkeys.lone hplain haccepts hidnull hrows hequal hother hotherequal⟩,
    updates_of_assign hco hbase hshares hassign, ?_⟩
  rw [hshares.name] at ht hlists
  exact updatedAround_of_listsTurn hco hregular hbase hshares (hshares.keyColumn? ▸ hk) ht hnull
    (hkeys.equal_self old hold) hlists

/-- An update of a row that is not found fails with that answer, and nothing changes. -/
theorem transact_update_of_unfound {db : Database} {t : StoredTable}
    (ht : db.store.tables.get? table.name = some t) (hcolumns : t.columns = table.columns)
    {p : Predicate}
    (hp : Predicate.ofFilter table (Change.keyFilter table .eq id) .lookup false = .ok p)
    (hnone : ∀ row ∈ t.rows, table.finds (Change.keyFilter table .eq id) row = false) :
    db.transact (Change.update schema table now id doc)
      = (.error (.notFound (.row table.resource id)), db) := by
  have hmatching : t.matching p = [] := by
    rw [StoredTable.matching_of_ofFilter hcolumns hp]
    exact List.filter_eq_nil_iff.2 fun row hrow => by simp [hnone row hrow]
  have hvisible : Yields (Change.visibleKey table id) (.begin db) none (.begin db) := by
    unfold Change.visibleKey
    rw [yields_bind]
    refine ⟨p, .begin db, (yields_result _ _).2 ⟨hp, rfl⟩, yields_bind.2 ⟨[], .begin db, ?_,
      (yields_pure _ _).2 ⟨rfl, rfl⟩⟩⟩
    refine Transaction.yields_select.2 ⟨rfl, rfl, t, ht, ?_⟩
    rw [StoredTable.select]
    show [] = (StoredTable.window _ _ (sortRows t.columns _ (t.matching p))).map _
    rw [hmatching]
    rfl
  have houtcome : outcome (Change.update schema table now id doc) (.begin db)
      = (.error (.notFound (.row table.resource id)), .begin db) := by
    rw [Change.update, outcome_bind, show outcome (Change.visibleKey table id) _ = _ from hvisible]
    rfl
  rw [Database.transact_eq, houtcome]
  rfl

end Update

namespace Catalog

variable {settings : Settings} {domain : Domain} {catalog : Catalog}
  {resource : String} {table : Table}
  {k : Column}

/-- **What an update changes.** If it succeeds, the identifier equals the key of a visible row,
which alone has it but for the whole numbers of a column of doubles; this row is given the cells of
the document and is stamped, the links of its lists are set, and everything else stays. If no
visible row has the key, the update fails with that answer, and everything stays. -/
theorem updated_rows (hcompiles : Catalog.ofDomain settings domain = .ok catalog)
    (steps : List Step) (htable : catalog.schema.table resource = .ok table)
    (hk : table.keyColumn? = some k) (hflag : table.deletedColumn ≠ some table.primaryKey)
    (now : Time.Instant) (id : Value) (doc : Record) :
    (∀ db', catalog.update resource now id doc (catalog.run steps) = (.ok (), db') →
      ∃ t before old after row,
        (catalog.run steps).store.tables.get? table.name = some t
        ∧ t.rows = before ++ old :: after ∧ table.FindsOne k id old (before ++ after)
        ∧ doc.Updates table now old row
        ∧ (catalog.run steps).store.UpdatedAround
          catalog.schema table doc (old.cell table.primaryKey)
          { t with rows := before ++ row :: after } db'.store)
    ∧ (∀ t p, (catalog.run steps).store.tables.get? table.name = some t →
      Predicate.ofFilter table [] .lookup false = .ok p →
      k.type.accepts (k.type.interpret id) = true →
      (∀ row ∈ t.rows, table.finds [] row = true →
        k.type.equal (row.cell table.primaryKey) (k.type.interpret id) = false) →
      catalog.update resource now id doc (catalog.run steps)
        = (.error (.notFound (.row table.resource id)), catalog.run steps)) := by
  have hco := coherent_of_ofDomain hcompiles
  have hregular := regular_run hco steps
  have hkeysapart := keysApart_run hco steps
  obtain ⟨base, hbase, hshares⟩ := hco.shared table (Schema.mem_of_table htable).1
  constructor
  · intro db' h
    rw [update, htable] at h
    change Database.transact _ (Change.update catalog.schema table now id doc) = (.ok (), db') at h
    obtain ⟨tx', hrun, hdb⟩ := Database.transact_ok (congrArg Prod.fst h)
    obtain rfl : db' = ⟨tx'.work, tx'.faults⟩ := (congrArg Prod.snd h).symm.trans hdb
    have hstart : (Transaction.begin (catalog.run steps)).work.Regular catalog.schema := hregular
    exact updatedAround_of_update hco hstart hkeysapart hbase hshares hk hflag hrun
  · intro t p ht hp haccepts hnone
    obtain ⟨hcolumns, hkeys⟩ := hregular.keysApart_of_shares hkeysapart hbase hshares hk t ht
    obtain ⟨q, hq⟩ := (ofFilter_key_isOk_iff hk).2 ⟨haccepts, p, hp⟩
    rw [update, htable]
    refine transact_update_of_unfound ht hcolumns hq fun row hrow => ?_
    rw [finds_keyFilter hk hflag, Bool.and_eq_false_iff, or_iff_not_imp_right, Bool.not_eq_false]
    intro hfinds
    rw [← Bool.not_eq_true, Operator.accepts_eq_iff (hkeys.filled row hrow), hnone row hrow hfinds]
    simp

/-- A team that the second person leads, with both people as its members. -/
def ledTeam : Record := .ofList [("lead", .int 2), ("members", .array [.int 2, .int 1])]

/-- The team of the sample is given another leader and another member; there is no ninth team. -/
theorem team_of_sample_updated : ∃ table k db',
    sampleCatalog.schema.table "team" = .ok table ∧ table.keyColumn? = some k
      ∧ sampleCatalog.update "team" ⟨4, 0⟩ (.int 1) ledTeam
        (sampleCatalog.run pairedSteps) = (.ok (), db')
      ∧ (∃ t before old after row,
        (sampleCatalog.run pairedSteps).store.tables.get? table.name = some t
        ∧ t.rows = before ++ old :: after ∧ table.FindsOne k (.int 1) old (before ++ after)
        ∧ ledTeam.Updates table ⟨4, 0⟩ old row
        ∧ (sampleCatalog.run pairedSteps).store.UpdatedAround sampleCatalog.schema table ledTeam
          (old.cell table.primaryKey) { t with rows := before ++ row :: after } db'.store)
      ∧ sampleCatalog.update "team" ⟨4, 0⟩ (.int 9) ledTeam (sampleCatalog.run pairedSteps)
        = (.error (.notFound (.row table.resource (.int 9))), sampleCatalog.run pairedSteps) := by
  have hparts : ((sampleCatalog.schema.table "team").toOption.bind fun table =>
      table.keyColumn?.bind fun k =>
      ((sampleCatalog.run pairedSteps).store.tables.get? table.name).bind fun t =>
      (Predicate.ofFilter table [] .lookup false).toOption.map fun _ =>
        decide (table.deletedColumn ≠ some table.primaryKey)
          && k.type.accepts (k.type.interpret (.int 9))
          && t.rows.all fun row =>
            !k.type.equal (row.cell table.primaryKey) (k.type.interpret (.int 9))) = some true := by
    decide +kernel
  obtain ⟨table, htable, hparts⟩ := Option.bind_eq_some_iff.1 hparts
  obtain ⟨k, hk, hparts⟩ := Option.bind_eq_some_iff.1 hparts
  obtain ⟨t, ht, hparts⟩ := Option.bind_eq_some_iff.1 hparts
  obtain ⟨p, hp, hfacts⟩ := Option.map_eq_some_iff.1 hparts
  simp only [Bool.and_eq_true, decide_eq_true_eq, List.all_eq_true, Bool.not_eq_true'] at hfacts
  obtain ⟨⟨hflag, haccepts⟩, hnone⟩ := hfacts
  have htable := eq_ok_of_toOption htable
  have hupdates (id : Value) :=
    updated_rows ofDomain_sample pairedSteps htable hk hflag ⟨4, 0⟩ id ledTeam
  have hupdate := eq_ok_of_fst_toOption (a := ())
    (r := sampleCatalog.update "team" ⟨4, 0⟩ (.int 1) ledTeam (sampleCatalog.run pairedSteps))
    (by decide +kernel)
  exact ⟨table, k, _, htable, hk, hupdate, (hupdates (.int 1)).1 _ hupdate,
    (hupdates (.int 9)).2 t p ht (eq_ok_of_toOption hp) haccepts fun row hrow _ => hnone row hrow⟩

/-- Gauges are known by the doubles at which they stand. -/
def gaugeDomain : Domain := .ofList [("gauge", { fields := .ofList [
  ("mark", { typeName := "float", primaryKey := true }),
  ("note", { typeName := "string" })] })]

def gaugeCatalog : Catalog := .compiled {} gaugeDomain

/-- Two gauges replaced under whole numbers that are one double. -/
def gaugeSteps : List Step := [
  (⟨0, 0⟩, .createTables),
  (⟨1, 0⟩, .replace "gauge" (.int 9007199254740992) (.ofList [("mark", .int 9007199254740992)])),
  (⟨2, 0⟩, .replace "gauge" (.int 9007199254740993) (.ofList [("mark", .int 9007199254740993)]))]

/-- The update under the double succeeds, though two visible rows equal it. -/
theorem two_rows_equal_one_key :
    Catalog.ofDomain {} gaugeDomain = .ok gaugeCatalog ∧ Settings.NamesApart {}
      ∧ ∃ table ∈ gaugeCatalog.schema.bases, ∃ k ∈ table.keyColumn?, table.name = "gauge"
        ∧ (gaugeCatalog.update "gauge" ⟨3, 0⟩ (.float (.ofInt 9007199254740992))
            (.ofList [("note", .string "full")]) (gaugeCatalog.run gaugeSteps)).1.toOption = some ()
        ∧ (((gaugeCatalog.run gaugeSteps).store.rows "gauge").filter fun row => table.finds [] row
            && k.type.equal (row.cell table.primaryKey) (.float (.ofInt 9007199254740992))).length
              = 2
        ∧ (((gaugeCatalog.update "gauge" ⟨3, 0⟩ (.float (.ofInt 9007199254740992))
            (.ofList [("note", .string "full")])
            (gaugeCatalog.run gaugeSteps)).2.store.rows "gauge").filter fun row =>
              table.finds [] row
            && k.type.equal (row.cell table.primaryKey) (.float (.ofInt 9007199254740992))).length
              = 2 := by
  refine ⟨ofDomain_compiled rfl, by decide, ?_⟩
  decide +kernel

end Catalog

end RecordStore
