import RecordStore.Proofs.Calls
import RecordStore.Proofs.Run
import RecordStore.Proofs.Sending

/-!
# Changes that a database can be sent

The statements of a change are put together from rows that suit their tables, from filters that were
judged and from keys: those of stored rows, those that identifiers are read as and those that a
document lists. So their values fit the columns they are for, and they can be written for a
database. There is one exception. Rows are found by a list of keys when they are removed and when
their lists are loaded, and a database takes no list for a column of documents. If the key of a
resource is a document, these statements cannot be written, although the store carries them out.

* **`Call.Proper`** — what is known of every statement: its cells fit, and so does what it compares
  with.
* **`proper_insertProgram`**, **`proper_updateProgram`**, **`proper_replaceProgram`**,
  **`proper_removeProgram`**, **`proper_recordsProgram`** — the statements of the programs are
  proper.
* **`Catalog.statements_written_iff`** — which statements can be written.
* **`Catalog.document_key_is_not_removed`** — a removal that the store does and no database can be
  sent.
-/

namespace RecordStore

open RecordStore.Action

/-! ## Statements that can be written -/

/-- Whether a comparison asks if a document is in a list. -/
def Table.listsDocuments (table : Table) : Predicate → Bool
  | .compare column .isIn (.array items) =>
    !items.isEmpty && (table.column? column).any (·.type == .json)
  | _ => false

/-- What can be compared in a statement is no list for a column of documents. -/
theorem Table.listsDocuments_of_canCompare {table : Table} {leaf : Predicate}
    (h : table.canCompare leaf = true) : table.listsDocuments leaf = false := by
  unfold listsDocuments
  split
  · rename_i column items
    rw [canCompare] at h
    cases hcolumn : table.column? column with
    | none => simp
    | some c =>
      rw [hcolumn, Option.any_some, Sql.canCompare] at h
      cases hempty : items.isEmpty <;> simp_all
  · rfl

namespace Call

def table : Call → Table
  | .select plan => plan.table
  | .insert table _ => table
  | .upsert table _ => table
  | .update table _ _ => table
  | .delete table _ => table

/-- The comparisons by which a statement finds its rows. -/
def leaves : Call → List Predicate
  | .select plan => plan.predicate.leaves
  | .insert _ _ => []
  | .upsert _ _ => []
  | .update _ p _ => p.leaves
  | .delete _ p => p.leaves

/-- Whether a statement finds its rows by a list of documents. -/
def listsDocuments (call : Call) : Bool := call.leaves.any call.table.listsDocuments

/-- Whether the columns that a statement names exist and take the cells that are written to them. -/
def CellsFit : Call → Prop
  | .select plan => ∀ name ∈ plan.columns, plan.table.hasColumn name = true
  | .insert table row => table.canStore row
  | .upsert table row => row.contains table.primaryKey = true ∧ table.canStore row
  | .update table _ row => row.isEmpty = false ∧ table.canStore row
  | .delete _ _ => True

end Call

/-- The cells of a record can be stored if each of them has a column that takes it. -/
theorem Table.canStore.forall_entries {table : Table} {r : Record} (h : table.canStore r) :
    ∀ entry ∈ r.entries, ∃ c, table.column? entry.1 = some c ∧ c.type.accepts entry.2 = true := by
  rintro ⟨name, v⟩ hentry
  have hget := (NameMap.get?_eq_some_iff ..).2 hentry
  obtain ⟨c, hc⟩ :=
    Option.isSome_iff_exists.1 (h.1 name ((NameMap.mem_keys_iff ..).2 (by simp [hget])))
  obtain ⟨hmem, rfl⟩ := Table.mem_of_column? hc
  exact ⟨c, hc, h.2 c hmem v hget⟩

namespace Call

variable {call : Call} {db : String} {k : Column}

/-- A statement whose cells fit can be written if its comparisons can be made. -/
theorem exists_write (hcells : call.CellsFit) :
    (∃ s, call.write db = .ok s) ↔ ∀ leaf ∈ call.leaves, call.table.canCompare leaf = true := by
  cases call with
  | select plan => exact Sql.select_ok_iff.trans (and_iff_right hcells)
  | insert table row => exact iff_of_true (Sql.insert_ok_iff.2 hcells) (List.forall_mem_nil _)
  | upsert table row => exact iff_of_true (Sql.upsert_ok_iff.2 hcells) (List.forall_mem_nil _)
  | update table p row =>
    refine Sql.update_ok_iff.trans ?_
    rw [and_iff_right hcells.1, and_iff_right hcells.2.forall_entries]
    rfl
  | delete table p => exact Sql.delete_ok_iff

/-- A statement of a change: its cells fit, and it finds its rows by comparisons that can be made,
or by a list of keys of the resource. -/
inductive Proper (k : Column) (call : Call) : Prop
  | compares (hcells : call.CellsFit)
      (hleaves : ∀ leaf ∈ call.leaves, call.table.canCompare leaf = true)
  | keys {c : Column} {column : String} {items : List Value} (hcells : call.CellsFit)
    (hleaves : call.leaves = [.compare column .isIn (.array items)])
    (hcolumn : call.table.column? column = some c) (htype : c.type = k.type)
    (hitems : ∀ v ∈ items, Sql.Bind.takesItem k.type v = true)

/-- **A statement of a change can be written if it finds its rows by no list of documents**, which
it does only if the key is a document. -/
theorem Proper.exists_write (h : call.Proper k) :
    ((∃ s, call.write db = .ok s) ↔ call.listsDocuments = false)
      ∧ (call.listsDocuments = true → k.type = .json) := by
  cases h with
  | compares hcells hleaves =>
    have hnone : call.listsDocuments = false :=
      List.any_eq_false.2 fun leaf hleaf => by
        simp [Table.listsDocuments_of_canCompare (hleaves leaf hleaf)]
    exact ⟨iff_of_true ((Call.exists_write hcells).2 hleaves) hnone,
      fun h => by rw [hnone] at h; cases h⟩
  | @keys c column items hcells hleaves hcolumn htype hitems =>
    have hall : items.all (Sql.Bind.takesItem k.type) = true := List.all_eq_true.2 hitems
    rw [Call.exists_write hcells, listsDocuments, hleaves, List.forall_mem_singleton, List.any_cons,
      List.any_nil, Bool.or_false, Table.canCompare, Table.listsDocuments, hcolumn, Option.any_some,
      Option.any_some, htype, Sql.canCompare, hall]
    cases items.isEmpty <;> simp

theorem proper_of_writes (hcells : call.CellsFit) (hnone : call.leaves = []) : call.Proper k :=
  .compares hcells (by rw [hnone]; exact List.forall_mem_nil _)

/-- A statement that finds its rows by one comparison with a value that the column takes. -/
theorem proper_of_eq {c : Column} {column : String} {v : Value} (hcells : call.CellsFit)
    (hleaves : call.leaves = [.eq column v]) (hcolumn : call.table.column? column = some c)
    (haccepts : c.type.accepts v = true) : call.Proper k := by
  refine .compares hcells ?_
  rw [hleaves, List.forall_mem_singleton, Predicate.eq, Table.canCompare, hcolumn, Option.any_some]
  exact haccepts

end Call

/-! ## Cells that can be stored -/

section Cells

variable {schema : Schema} {table base : Table} {now : Time.Instant} {doc : Record}

/-- What a column takes while the clock is regular is of its type. -/
theorem Column.Takes.accepts (hwf : base.WellFormed) {c : Column} (hc : c ∈ base.columns)
    {v : Value} (h : c.Takes Time.Instant.IsRegular v) : c.type.accepts v = true := by
  rcases h with haccepts | ⟨hstamp, now, hnow, rfl⟩
  · exact haccepts
  · rw [hwf.stamp_datetime c hc hstamp]
    exact ColumnType.accepts_clock hnow

theorem canStore_of_fits (hwf : base.WellFormed) (hshares : table.SharesRows base) {r : Record}
    (hnames : ∀ name ∈ r.keys, name ∈ base.columnNames)
    (hfits : r.Fits Time.Instant.IsRegular base.columns) : table.canStore r := by
  refine ⟨fun name hname => ?_, fun c hc v hv => ?_⟩
  · rw [hshares.hasColumn, Table.hasColumn_iff]
    exact hnames name hname
  · rw [hshares.columns] at hc
    exact Record.cell_eq_of_get? hv ▸ (hfits c hc).accepts hwf hc

theorem canStore_insertedRow (hwf : base.WellFormed) (hshares : table.SharesRows base)
    (hnow : now.IsRegular) (hcheck : Document.checkPartial schema table doc = .ok ()) :
    table.canStore (Change.insertedRow table now doc) :=
  canStore_of_fits hwf hshares (names_insertedRow hwf hshares hcheck)
    (suits_insertedRow hwf hshares hnow hcheck).fits

/-- The row of an update can be stored: its values were checked, and its time is a date. -/
theorem canStore_updatedRow (hwf : base.WellFormed) (hshares : table.SharesRows base)
    (hnow : now.IsRegular) (hcheck : Document.checkPartial schema table doc = .ok ()) :
    table.canStore (Change.updatedRow table now doc) := by
  refine canStore_of_fits hwf hshares (fun name hname => ?_)
    (suits_updatedRow hwf hshares hnow hcheck).fits
  obtain ⟨v, hv⟩ := Option.isSome_iff_exists.1 ((NameMap.mem_keys_iff ..).1 hname)
  rw [Change.get?_updatedRow] at hv
  split at hv
  · rename_i hupdated
    exact hupdated ▸ hwf.stamp_mem (List.mem_cons_of_mem _ List.mem_cons_self)
  · split at hv
    · cases hv
    · refine names_of_check hshares hcheck rfl name ?_
      rw [← Change.keys_withDoubles table]
      exact (NameMap.mem_keys_iff ..).2 (by simp [hv])

theorem canStore_replacedRow (hwf : schema.WellFormed) (hbase : base ∈ schema.bases)
    (hshares : table.SharesRows base) (hnow : now.IsRegular)
    (hcheck : Document.checkPartial schema table doc = .ok ()) {key : Value} {k : Column}
    (hk : base.keyColumn? = some k) (hkey : k.type.accepts key = true) {stored : Option Record}
    (hstored : ∀ r, stored = some r → r.Fits Time.Instant.IsRegular base.columns) :
    table.canStore (Change.replacedRow table now key stored doc) :=
  canStore_of_fits (hwf.tables base (Schema.mem_physical_of_base hbase))
    hshares (names_replacedRow hshares)
    (suits_replacedRow hwf hbase hshares hnow hcheck hk hkey hstored).fits

theorem canStore_flag (hwf : base.WellFormed) (hshares : table.SharesRows base)
    (hnow : now.IsRegular) {deleted : String} (hdeleted : base.deletedColumn = some deleted) :
    table.canStore (.ofList [(deleted, .bool true), (updatedColumn, .string now.text)]) := by
  refine canStore_of_fits hwf hshares (fun name hname => ?_) (suits_flag hwf hnow hdeleted).fits
  rw [NameMap.mem_keys_iff, Change.get?_flag] at hname
  split at hname
  · rename_i hupdated
    exact hupdated ▸ hwf.stamp_mem (List.mem_cons_of_mem _ List.mem_cons_self)
  · split at hname
    · rename_i hflag
      obtain ⟨c, hc, hcname, -⟩ := hwf.flag deleted hdeleted
      exact hflag ▸ hcname ▸ Table.mem_columnNames hc
    · cases hname

theorem isEmpty_of_get? {r : Record} {name : String} {v : Value} (h : r.get? name = some v) :
    r.isEmpty = false := by
  rw [NameMap.isEmpty, List.isEmpty_eq_false_iff]
  exact List.ne_nil_of_mem ((NameMap.get?_eq_some_iff ..).1 h)

end Cells

/-! ## Programs of proper statements

The tables are those of a well-formed schema, `base` the one in the store that `table` reads and
writes, and `k` the column of its key. -/

section Programs

variable {schema : Schema} {table base : Table} {now : Time.Instant} {k : Column} {tx : Transaction}
  {m : ListField} {link target : Table} {targetKey : Column}

/-- A key is of the type of its column and not null. -/
def Column.IsKey (k : Column) (v : Value) : Prop := Sql.Bind.takesItem k.type v = true

theorem Column.isKey_iff {v : Value} : k.IsKey v ↔ v.isNull = false ∧ k.type.accepts v = true := by
  simp [Column.IsKey, Sql.Bind.takesItem]

theorem StoredTable.Sound.isKey {times : Time.Instant → Prop} {t : StoredTable}
    (h : t.Sound times base) (hwf : base.WellFormed) (hk : base.keyColumn? = some k) {row : Record}
    (hrow : row ∈ t.rows) :
    k.IsKey (row.cell base.primaryKey) :=
  Column.isKey_iff.2 (h.key_accepted hwf hk hrow).symm

namespace Schema.Serves

theorem link_wellFormed (hserves : schema.Serves base m link target k targetKey)
    (hwf : schema.WellFormed) :
    link.WellFormed :=
  hwf.tables link (Schema.mem_physical_of_link (Schema.mem_of_linkTable hserves.link_eq).1)

/-- The columns of a link table that hold the owner and the member. -/
theorem column?_owner (hserves : schema.Serves base m link target k targetKey)
    (hwf : schema.WellFormed) :
    link.column? m.ownerColumn = some (Compile.linkColumn m.ownerColumn base k) := by
  have hmem : Compile.linkColumn m.ownerColumn base k ∈ link.columns := by
    rw [hserves.columns_eq]
    simp
  exact (hserves.link_wellFormed hwf).column?_name hmem

theorem column?_member (hserves : schema.Serves base m link target k targetKey)
    (hwf : schema.WellFormed) :
    link.column? m.memberColumn = some (Compile.linkColumn m.memberColumn target targetKey) := by
  have hmem : Compile.linkColumn m.memberColumn target targetKey ∈ link.columns := by
    rw [hserves.columns_eq]
    simp
  exact (hserves.link_wellFormed hwf).column?_name hmem

end Schema.Serves

namespace Fetch

theorem proper_membersByOwnerProgram (hwf : schema.WellFormed)
    (hserves : schema.Serves base m link target k targetKey) {owners : List Value}
    (howners : ∀ v ∈ owners, k.IsKey v) :
    (membersByOwnerProgram schema m owners).Every now (Call.Proper k) tx := by
  have howner := hserves.column?_owner hwf
  have hcolumns : ∀ name ∈ [m.ownerColumn, m.memberColumn], link.hasColumn name = true := by
    simp [Table.hasColumn, howner, hserves.column?_member hwf]
  have hselect : (Program.select (linkPlan link m owners)).Every now (Call.Proper k) tx :=
    Program.every_call (.keys hcolumns rfl howner rfl howners)
  rw [membersByOwnerProgram, hserves.link_eq, Program.result_ok_bind]
  exact hselect.bind fun _ _ _ => Program.every_pure _

end Fetch

namespace Change

theorem canStore_linkRow (hwf : schema.WellFormed)
    (hserves : schema.Serves base m link target k targetKey) {owner member : Value}
    (howner : k.type.accepts owner = true) (hmember : targetKey.type.accepts member = true) :
    link.canStore (linkRow m owner member) := by
  have hlinkwf := hserves.link_wellFormed hwf
  refine canStore_of_fits hlinkwf (.refl link) (fun name hname => ?_)
    (fits_linkRow hlinkwf hserves howner hmember)
  rw [NameMap.mem_keys_iff, get?_linkRow] at hname
  rw [← Table.hasColumn_iff, Table.hasColumn]
  split at hname
  · rename_i hcolumn
    rw [hcolumn, hserves.column?_member hwf, Option.isSome_some]
  · split at hname
    · rename_i hcolumn
      rw [hcolumn, hserves.column?_owner hwf, Option.isSome_some]
    · cases hname

theorem proper_addLinksProgram (hwf : schema.WellFormed)
    (hserves : schema.Serves base m link target k targetKey) {owner : Value} {members : List Value}
    (howner : k.IsKey owner) (hmembers : ∀ member ∈ members, targetKey.type.accepts member = true) :
    (addLinksProgram schema m owner members).Every now (Call.Proper k) tx := by
  rw [addLinksProgram, hserves.link_eq, Program.result_ok_bind]
  refine Program.every_forM fun member hmember _ => ?_
  have hrow := canStore_linkRow hwf hserves (Column.isKey_iff.1 howner).2 (hmembers member hmember)
  exact (Program.every_call (c := .insert link _) (Call.proper_of_writes hrow rfl)).discard

/-- The links of an owner are read, removed and added by its key. -/
theorem proper_setLinksProgram (hwf : schema.WellFormed)
    (hserves : schema.Serves base m link target k targetKey) {owner : Value} {members : List Value}
    (howner : k.IsKey owner) (hmembers : ∀ member ∈ members, targetKey.type.accepts member = true) :
    (setLinksProgram schema m owner members).Every now (Call.Proper k) tx := by
  refine (Fetch.proper_membersByOwnerProgram hwf hserves fun v hv => ?_).bind fun current _ _ => ?_
  · exact List.mem_singleton.1 hv ▸ howner
  split
  · exact Program.every_pure ()
  have hdelete (mid : Transaction) :
      (Program.delete link (.eq m.ownerColumn owner)).Every now (Call.Proper k) mid :=
    Program.every_call
      (Call.proper_of_eq trivial rfl (hserves.column?_owner hwf) (Column.isKey_iff.1 howner).2)
  rw [hserves.link_eq, Program.result_ok_bind]
  exact (hdelete _).discard.bind fun _ _ _ => proper_addLinksProgram hwf hserves howner hmembers

theorem hasColumn_key (hkeycolumn : table.keyColumn? = some k) :
    ∀ name ∈ [table.primaryKey], table.hasColumn name = true := by
  rw [List.forall_mem_singleton, Table.hasColumn, ← Table.keyColumn?, hkeycolumn,
    Option.isSome_some]

theorem proper_visibleKeyProgram (hkeycolumn : table.keyColumn? = some k)
    (hdefaults : (Filter.ofRecord table.defaultFilter).listsNull = false)
    (hflag : table.flagTakesTruth = true) (id : Value) :
    (visibleKeyProgram table id).Every now (Call.Proper k) tx := by
  refine Program.every_result_bind fun p hp => ?_
  have hselect : (Program.select
      { Plan.scan table p with columns := [table.primaryKey], limit := some 1 }).Every
        now (Call.Proper k) tx :=
    Program.every_call (.compares (hasColumn_key hkeycolumn)
      ((Predicate.canCompare_of_ofFilter hp).2 ⟨rfl, hdefaults, .inr hflag⟩))
  exact hselect.bind fun _ _ _ => Program.every_pure _

/-- The key that an inserted row gets is one, whatever filled it. -/
theorem isKey_of_insert (hwf : schema.WellFormed)
    (hsound : tx.work.Sound schema Time.Instant.IsRegular) (hbase : base ∈ schema.bases)
    (hshares : table.SharesRows base) (hk : base.keyColumn? = some k) (hnow : now.IsRegular)
    {record : Record} (hsuits : record.Suits Time.Instant.IsRegular base.columns) {id : Value}
    {tx' : Transaction} (h : Yields (Transaction.insert now table record) tx id tx') :
    k.IsKey id := by
  obtain ⟨-, row, happend, rfl⟩ := Transaction.yields_insert.1 h
  have hmove : Move schema Time.Instant.IsRegular True tx.work tx'.work :=
    Transaction.move_of_append hbase hshares hnow hsuits happend
  exact Column.isKey_iff.2
    (key_accepted_of_append hwf hbase hshares (hsound.move hwf hmove) happend hk).symm

/-- The statements of an insertion are proper: its row was checked, and its key is that of a stored
row. -/
theorem proper_insertProgram (hwf : schema.WellFormed)
    (hsound : tx.work.Sound schema Time.Instant.IsRegular) (hbase : base ∈ schema.bases)
    (hshares : table.SharesRows base) (hk : base.keyColumn? = some k) (hnow : now.IsRegular)
    (doc : Record) :
    (insertProgram schema table now doc).Every now (Call.Proper k) tx := by
  have hbasewf := hwf.tables base (Schema.mem_physical_of_base hbase)
  refine Program.every_result_bind fun _ hcheck => ?_
  have hpartial := Document.checkPartial_of_check hcheck
  have hrow : (Program.insert table (insertedRow table now doc)).Every now (Call.Proper k) tx :=
    Program.every_call
      (Call.proper_of_writes (canStore_insertedRow hbasewf hshares hnow hpartial) rfl)
  refine hrow.bind fun id mid hinsert => ?_
  rw [Program.run_insert] at hinsert
  have hid := isKey_of_insert hwf hsound hbase hshares hk hnow
    (suits_insertedRow hbasewf hshares hnow hpartial) hinsert
  refine (Program.every_forM fun (m, members) hmem _ => ?_).bind fun _ _ _ => Program.every_pure _
  obtain ⟨_, _, _, hserves, hmembers⟩ := serves_of_mem_listsOf hwf hbase hshares hk hpartial
    ((mem_listsOf_withDoubles (hwf.lists_apart hbase hshares)).1 hmem)
  exact proper_addLinksProgram hwf hserves hid fun member hmember => (hmembers member hmember).2

/-- The statements of an update are proper: its row was checked, and its key is that of a row that
was found. -/
theorem proper_updateProgram (hwf : schema.WellFormed)
    (hsound : tx.work.Sound schema Time.Instant.IsRegular) (hbase : base ∈ schema.bases)
    (hshares : table.SharesRows base) (hk : base.keyColumn? = some k) (hnow : now.IsRegular)
    (hdefaults : (Filter.ofRecord table.defaultFilter).listsNull = false)
    (hflag : table.flagTakesTruth = true) (id : Value) (doc : Record) :
    (updateProgram schema table now id doc).Every now (Call.Proper k) tx := by
  have hphysical := Schema.mem_physical_of_base hbase
  have hbasewf := hwf.tables base hphysical
  have hkeycolumn := hshares.keyColumn?.trans hk
  refine (proper_visibleKeyProgram hkeycolumn hdefaults hflag id).bind fun found mid hfound => ?_
  cases found with
  | none => exact Program.every_fail _
  | some key =>
    -- the key is read off a row
    rw [run_visibleKeyProgram] at hfound
    obtain ⟨t, row, ht, hrow, rfl⟩ := row_of_visibleKey hfound
    have hkey : k.IsKey (row.cell table.primaryKey) :=
      hshares.primaryKey ▸ (hsound base hphysical t (hshares.name ▸ ht)).isKey hbasewf hk hrow
    refine Program.every_result_bind fun _ hcheck => ?_
    have hstamp : (updatedRow table now doc).get? updatedColumn = some (.string now.text) := by
      rw [get?_updatedRow, if_pos rfl]
    have hupdate : (Program.update table (.eq table.primaryKey (row.cell table.primaryKey))
        (updatedRow table now doc)).Every now (Call.Proper k) mid :=
      Program.every_call (Call.proper_of_eq ⟨isEmpty_of_get? hstamp,
        canStore_updatedRow hbasewf hshares hnow hcheck⟩ rfl hkeycolumn (Column.isKey_iff.1 hkey).2)
    refine hupdate.discard.bind fun _ _ _ => Program.every_forM fun (m, members) hmem _ => ?_
    obtain ⟨_, _, _, hserves, hmembers⟩ := serves_of_mem_listsOf hwf hbase hshares hk hcheck hmem
    exact proper_setLinksProgram hwf hserves hkey fun member hmember => (hmembers member hmember).2

/-- The statements of a replacement are proper: its row was checked, and its key is a value of the
key column. -/
theorem proper_replaceProgram (hwf : schema.WellFormed)
    (hsound : tx.work.Sound schema Time.Instant.IsRegular) (hbase : base ∈ schema.bases)
    (hshares : table.SharesRows base) (hk : base.keyColumn? = some k) (hnow : now.IsRegular)
    (id : Value) (doc : Record) :
    (replaceProgram schema table now id doc).Every now (Call.Proper k) tx := by
  have hphysical := Schema.mem_physical_of_base hbase
  have hbasewf := hwf.tables base hphysical
  have hkeycolumn := hshares.keyColumn?.trans hk
  refine Program.every_result_bind fun _ hcheck => Program.every_result_bind fun key hkeyfor => ?_
  have hpartial := Document.checkPartial_of_check hcheck
  obtain ⟨haccepts, hnull⟩ := accepts_of_keyFor hkeycolumn hkeyfor
  have hkey : k.IsKey key := Column.isKey_iff.2 ⟨hnull, haccepts⟩
  have hstored :
    (Program.select { Plan.scan table (.eq table.primaryKey key) with limit := some 1 }).Every
      now (Call.Proper k) tx := by
    refine Program.every_call (Call.proper_of_eq ?_ rfl hkeycolumn haccepts)
    exact fun name hname => Table.hasColumn_iff.2 hname
  refine hstored.bind fun rows mid hrows => ?_
  rw [Program.run_select] at hrows
  obtain ⟨-, rfl, t, ht, rfl⟩ := Transaction.yields_select.1 hrows
  have hfits : ∀ r,
    (t.select { Plan.scan table (.eq table.primaryKey key) with limit := some 1 }).head? = some r →
      r.Fits Time.Instant.IsRegular base.columns := fun r hr =>
    fits_of_select (hsound base hphysical t (hshares.name ▸ ht))
      (congrArg (List.map Column.name) hshares.columns) (List.mem_of_head? hr)
  generalize (t.select { Plan.scan table (.eq table.primaryKey key) with limit := some 1 }).head?
    = stored at *
  have hcontains : (replacedRow table now key stored doc).contains table.primaryKey = true := by
    obtain ⟨hkmem, hkname⟩ := Table.mem_of_column? hkeycolumn
    rw [NameMap.contains_iff, NameMap.mem_keys_iff, ← hkname,
      get?_replacedRow hshares (hshares.columns ▸ hkmem)
      fun _ hd hname => hbasewf.eq_of_name hd (hshares.columns ▸ hkmem) hname]
    rfl
  have hupsert :
    (Program.upsert table (replacedRow table now key stored doc)).Every now (Call.Proper k) mid :=
    Program.every_call (Call.proper_of_writes
      ⟨hcontains, canStore_replacedRow hwf hbase hshares hnow hpartial hk haccepts hfits⟩ rfl)
  refine hupsert.bind fun _ _ _ => Program.every_forM fun m hm _ => ?_
  obtain ⟨_, _, _, hserves⟩ := serves_of_mem hwf hbase hshares hk hm
  exact proper_setLinksProgram hwf hserves hkey
    (membersFor_accepted hshares (hwf.fields_nodup base hbase) hpartial hm hserves)

/-- A column that points at a resource is of the type of its key. -/
theorem type_of_linksTo (hwf : schema.WellFormed) (hbase : base ∈ schema.bases)
    (hk : base.keyColumn? = some k) {entry : Table × String}
    (h : entry ∈ schema.linksTo base.name) :
    ∃ c, entry.1.column? entry.2 = some c ∧ c.type = k.type := by
  obtain ⟨link, column⟩ := entry
  obtain ⟨hlink, c, hc, hreferences, rfl⟩ := mem_linksTo.1 h
  obtain ⟨key, hkey, htable⟩ := (Option.any_eq_true ..).1 hreferences
  have hphysical := Schema.mem_physical_of_link hlink
  obtain ⟨-, -, target, htarget, k', rfl, hk', htype⟩ := hwf.references link hphysical c hc key hkey
  obtain rfl : target = base := hwf.eq_of_name (Schema.mem_physical_of_base htarget)
    (Schema.mem_physical_of_base hbase) (by simpa using htable)
  obtain rfl : k' = k := Option.some.inj (hk'.symm.trans hk)
  exact ⟨c, (hwf.tables link hphysical).column?_name hc, htype⟩

/-- Rows are removed by a list of keys, and links by a list of keys of one of their ends. -/
theorem proper_delete_keys {t : Table} {c : Column} {column : String} {keys : List Value}
    (hcolumn : t.column? column = some c) (htype : c.type = k.type)
    (hkeys : ∀ v ∈ keys, k.IsKey v) :
    (Program.delete t (.compare column .isIn (.array keys))).Every now (Call.Proper k) tx :=
  Program.every_call (.keys trivial rfl hcolumn htype hkeys)

/-- Rows are removed by a list of their keys, and so are the links at either end. -/
theorem proper_removeRowsProgram (hwf : schema.WellFormed)
    (hsound : tx.work.Sound schema Time.Instant.IsRegular) (hbase : base ∈ schema.bases)
    (hshares : table.SharesRows base) (hk : base.keyColumn? = some k) {p : Predicate}
    (hleaves : ∀ leaf ∈ p.leaves, table.canCompare leaf = true) :
    (removeRowsProgram schema table p).Every now (Call.Proper k) tx := by
  have hphysical := Schema.mem_physical_of_base hbase
  have hbasewf := hwf.tables base hphysical
  have hkeycolumn := hshares.keyColumn?.trans hk
  have hselect : (Program.select { Plan.scan table p with columns := [table.primaryKey] }).Every
      now (Call.Proper k) tx :=
    Program.every_call (.compares (hasColumn_key hkeycolumn) hleaves)
  refine hselect.bind fun rows mid hrows => ?_
  rw [Program.run_select] at hrows
  obtain ⟨-, rfl, t, ht, rfl⟩ := Transaction.yields_select.1 hrows
  -- the keys are those of the selected rows
  have hkeys : ∀ v ∈ selectedKeys table p t, k.IsKey v := by
    intro v hv
    obtain ⟨row, hrow, -, rfl⟩ := mem_selectedKeys.1 hv
    exact hshares.primaryKey ▸ (hsound base hphysical t (hshares.name ▸ ht)).isKey hbasewf hk hrow
  show Program.Every now (Call.Proper k)
    (if (selectedKeys table p t).isEmpty then pure 0 else _) mid
  split
  · exact Program.every_pure 0
  refine (Program.every_forM fun entry hentry _ => ?_).bind fun _ _ _ => ?_
  · rw [hshares.name] at hentry
    obtain ⟨c, hcolumn, htype⟩ := type_of_linksTo hwf hbase hk hentry
    exact (proper_delete_keys hcolumn htype hkeys).discard
  · exact proper_delete_keys hkeycolumn rfl hkeys

theorem proper_removeProgram (hwf : schema.WellFormed)
    (hsound : tx.work.Sound schema Time.Instant.IsRegular) (hbase : base ∈ schema.bases)
    (hshares : table.SharesRows base) (hk : base.keyColumn? = some k) (hnow : now.IsRegular)
    (hdefaults : (Filter.ofRecord table.defaultFilter).listsNull = false)
    (hflag : table.flagTakesTruth = true) {lookup : Filter} (hlookup : lookup.listsNull = false) :
    (removeProgram schema table now lookup).Every now (Call.Proper k) tx := by
  refine Program.every_result_bind fun p hp => ?_
  have hleaves := (Predicate.canCompare_of_ofFilter hp).2 ⟨hlookup, hdefaults, .inr hflag⟩
  cases hdeleted : table.deletedColumn with
  | none => exact proper_removeRowsProgram hwf hsound hbase hshares hk hleaves
  | some deleted =>
    have hstamp := (get?_flag deleted now updatedColumn).trans (if_pos rfl)
    exact Program.every_call (.compares ⟨isEmpty_of_get? hstamp,
      canStore_flag (hwf.tables base (Schema.mem_physical_of_base hbase)) hshares hnow
        (hshares.deletedColumn ▸ hdeleted)⟩ hleaves)

end Change

namespace Fetch

/-- The key of a record, if it is among the columns that were read, is that of a row. -/
def KeyedBy (table : Table) (k : Column) (records : List Record) : Prop :=
  ∀ r ∈ records, ∀ v, r.get? table.primaryKey = some v → k.IsKey v

theorem proper_withMembersProgram (hwf : schema.WellFormed)
    (hserves : schema.Serves base m link target k targetKey) {records : List Record}
    (hkeyed : KeyedBy table k records) :
    (withMembersProgram schema table records m).Every now (Call.Proper k) tx := by
  have howners : ∀ v ∈ records.filterMap (·.get? table.primaryKey), k.IsKey v := by
    intro v hv
    obtain ⟨r, hr, hget⟩ := List.mem_filterMap.1 hv
    exact hkeyed r hr v hget
  unfold withMembersProgram
  dsimp only
  split
  · exact Program.every_pure records
  · exact (proper_membersByOwnerProgram hwf hserves howners).bind fun _ _ _ => Program.every_pure _

/-- A list has another name than the key, so records keep their keys when they are given it. -/
theorem keyedBy_withMembers (hfield : m.field ≠ table.primaryKey) {records new : List Record}
    (hkeyed : KeyedBy table k records) {tx' : Transaction}
    (h : Yields (withMembers schema table records m) tx new tx') : KeyedBy table k new := by
  obtain ⟨-, hsame⟩ := sameBeside_withMembers h
  intro r hr v hv
  obtain ⟨old, hold, hbeside⟩ := exists_of_mem_right hsame hr
  rw [hbeside _ (by simpa using hfield.symm)] at hv
  exact hkeyed old hold v hv

/-- The keys by which lists are loaded are those of the rows that were selected. -/
theorem proper_recordsProgram (hwf : schema.WellFormed)
    (hsound : tx.work.Sound schema Time.Instant.IsRegular) (hbase : base ∈ schema.bases)
    (hshares : table.SharesRows base) (hk : base.keyColumn? = some k) (settings : Settings)
    {plan : Plan} (hplan : plan.table = table)
    (hcolumns : ∀ name ∈ plan.columns, plan.table.hasColumn name = true)
    (hleaves : ∀ leaf ∈ plan.predicate.leaves, plan.table.canCompare leaf = true) :
    (recordsProgram schema settings plan).Every now (Call.Proper k) tx := by
  subst hplan
  have hphysical := Schema.mem_physical_of_base hbase
  have hbasewf := hwf.tables base hphysical
  have hselect : (Program.select plan).Every now (Call.Proper k) tx :=
    Program.every_call (.compares hcolumns hleaves)
  refine hselect.bind fun rows mid hrows => ?_
  rw [Program.run_select] at hrows
  obtain ⟨-, rfl, t, ht, rfl⟩ := Transaction.yields_select.1 hrows
  have hkeyed : KeyedBy plan.table k (t.select plan) := by
    intro r hr v hv
    obtain ⟨row, hrow, -, rfl⟩ := StoredTable.mem_select hr
    rw [StoredTable.get?_cut, hshares.primaryKey] at hv
    split at hv
    · rw [← Option.some.inj hv]
      exact (hsound base hphysical t (hshares.name ▸ ht)).isKey hbasewf hk hrow
    · cases hv
  refine (Program.every_foldlM hkeyed fun m hm records hrecords mid' => ?_).bind fun full _ _ => ?_
  · obtain ⟨field, -, hfield⟩ := List.mem_filterMap.1 hm
    obtain ⟨_, _, _, hserves⟩ :=
      Change.serves_of_mem hwf hbase hshares hk (Table.mem_of_listField? hfield).1
    refine ⟨proper_withMembersProgram hwf hserves hrecords, fun new _ hnew => ?_⟩
    rw [run_withMembersProgram] at hnew
    refine keyedBy_withMembers (fun heq => ?_) hrecords hnew
    have happart := hserves.field_apart
    rw [heq, hshares.primaryKey, Table.hasColumn, ← Table.keyColumn?, hk] at happart
    cases happart
  · cases settings.dateFormat with
    | none => exact Program.every_pure full
    | some format => exact Program.every_result _

end Fetch

end Programs

/-! ## Changes and loading -/

/-- A change of a resource, or the loading of what a plan reads. -/
inductive Task where
  | insert (doc : Record)
  | update (id : Value) (doc : Record)
  | replace (id : Value) (doc : Record)
  | remove (lookup : Filter)
  | load (plan : Plan)

namespace Task

/-- What the store does. -/
def action (catalog : Catalog) (table : Table) (now : Time.Instant) : Task → Action Unit
  | .insert doc => discard (Change.insert catalog.schema table now doc)
  | .update id doc => Change.update catalog.schema table now id doc
  | .replace id doc => Change.replace catalog.schema table now id doc
  | .remove lookup => discard (Change.remove catalog.schema table now lookup)
  | .load plan => discard (Fetch.records catalog.schema catalog.settings plan)

/-- The statements that it is made of. -/
def program (catalog : Catalog) (table : Table) (now : Time.Instant) : Task → Program Unit
  | .insert doc => discard (Change.insertProgram catalog.schema table now doc)
  | .update id doc => Change.updateProgram catalog.schema table now id doc
  | .replace id doc => Change.replaceProgram catalog.schema table now id doc
  | .remove lookup => discard (Change.removeProgram catalog.schema table now lookup)
  | .load plan => discard (Fetch.recordsProgram catalog.schema catalog.settings plan)

theorem run_program (catalog : Catalog) (table : Table) (now : Time.Instant) (task : Task) :
    (task.program catalog table now).run now = task.action catalog table now := by
  cases task with
  | insert doc => rw [program, Program.run_discard, Change.run_insertProgram, action]
  | update id doc => exact Change.run_updateProgram ..
  | replace id doc => exact Change.run_replaceProgram ..
  | remove lookup => rw [program, Program.run_discard, Change.run_removeProgram, action]
  | load plan => rw [program, Program.run_discard, Fetch.run_recordsProgram, action]

/-- Whether what a task looks up can be sent: no list that it or the datasource compares with holds
null, and a plan can be sent itself. -/
def CanLookUp (db : String) (table : Table) : Task → Prop
  | .insert _ => True
  | .update _ _ => (Filter.ofRecord table.defaultFilter).listsNull = false
  | .replace _ _ => True
  | .remove lookup => lookup.listsNull = false
      ∧ (Filter.ofRecord table.defaultFilter).listsNull = false
  | .load plan => plan.table = table ∧ ∃ s, Sql.select db plan = .ok s

end Task

namespace Catalog

variable {settings : Settings} {domain : Domain} {catalog : Catalog}
  {resource : String} {table : Table}

/-- **The statements of changes and of loading.** A task is a program of statements, and each of
them can be written for a database unless it finds its rows by a list of documents, which it does
only if the key of the resource is a document. -/
theorem statements_written_iff (hcompiles : Catalog.ofDomain settings domain = .ok catalog)
    (hnames : settings.NamesApart) {steps : List Step} (hclock : ∀ step ∈ steps, step.1.IsRegular)
    {now : Time.Instant} (hnow : now.IsRegular) (htable : catalog.schema.table resource = .ok table)
    (db : String) {task : Task} (htask : task.CanLookUp db table) :
    (task.program catalog table now).run now = task.action catalog table now
      ∧ ∃ k, table.keyColumn? = some k
        ∧ ∀ call ∈ (task.program catalog table now).calls now (.begin (catalog.run steps)),
          ((∃ s, call.write db = .ok s) ↔ call.listsDocuments = false)
            ∧ (call.listsDocuments = true → k.type = .json) := by
  have hwf := wellFormed_of_ofDomain hcompiles hnames
  obtain ⟨base, hbase, hshares⟩ := base_of_table hwf htable
  obtain ⟨k, hk, -⟩ := (hwf.tables base (Schema.mem_physical_of_base hbase)).key
  have hflag := flagTakesTruth_of_names hcompiles hnames htable
  have hsound :
    (Transaction.begin (catalog.run steps)).work.Sound catalog.schema Time.Instant.IsRegular :=
    sound_run hwf hclock
  refine ⟨task.run_program catalog table now, k, hshares.keyColumn?.trans hk, ?_⟩
  suffices h :
    (task.program catalog table now).Every now (Call.Proper k) (.begin (catalog.run steps)) from
    fun call hcall => (h call hcall).exists_write
  cases task with
  | insert doc => exact (Change.proper_insertProgram hwf hsound hbase hshares hk hnow doc).discard
  | update id doc =>
    exact Change.proper_updateProgram hwf hsound hbase hshares hk hnow htask hflag id doc
  | replace id doc => exact Change.proper_replaceProgram hwf hsound hbase hshares hk hnow id doc
  | remove lookup =>
    exact (Change.proper_removeProgram hwf hsound hbase
      hshares hk hnow htask.2 hflag htask.1).discard
  | load plan =>
    obtain ⟨hplan, hsent⟩ := htask
    obtain ⟨hcolumns, hleaves⟩ := Sql.select_ok_iff.1 hsent
    exact (Fetch.proper_recordsProgram hwf hsound hbase hshares hk _ hplan hcolumns hleaves).discard

/-- A person of the sample is removed by three statements, for the row goes after the links to it
are found and removed, and all of them can be written. -/
theorem person_removal_written : ∃ table, sampleCatalog.schema.table "person" = .ok table
    ∧ (((Task.remove [⟨"id", .eq, .int 1⟩]).program sampleCatalog table ⟨3, 0⟩).calls ⟨3, 0⟩
        (.begin (sampleCatalog.run sampleSteps))).length = 3
    ∧ ∀ call ∈ ((Task.remove [⟨"id", .eq, .int 1⟩]).program sampleCatalog table ⟨3, 0⟩).calls ⟨3, 0⟩
        (.begin (sampleCatalog.run sampleSteps)), ∃ s, call.write "public" = .ok s := by
  have hfacts : ((sampleCatalog.schema.table "person").toOption.map fun table =>
      decide ((((Task.remove [⟨"id", .eq, .int 1⟩]).program sampleCatalog table ⟨3, 0⟩).calls ⟨3, 0⟩
          (.begin (sampleCatalog.run sampleSteps))).length = 3
        ∧ (Filter.ofRecord table.defaultFilter).listsNull = false
        ∧ table.keyColumn?.map Column.type = some .integer)) = some true := by
    decide +kernel
  obtain ⟨table, htable, hfacts⟩ := Option.map_eq_some_iff.1 hfacts
  obtain ⟨hlength, hdefaults, hinteger⟩ := of_decide_eq_true hfacts
  have htable := eq_ok_of_toOption htable
  have hclock : ∀ step ∈ sampleSteps, step.1.IsRegular := by decide
  have hnow : (⟨3, 0⟩ : Time.Instant).IsRegular := by decide
  have htask : (Task.remove [⟨"id", .eq, .int 1⟩]).CanLookUp "public" table := ⟨rfl, hdefaults⟩
  obtain ⟨-, k, hk, hcalls⟩ :=
    statements_written_iff ofDomain_sample (by decide) hclock hnow htable "public" htask
  refine ⟨table, htable, hlength, fun call hcall => (hcalls call hcall).1.2 ?_⟩
  rw [hk] at hinteger
  refine Bool.eq_false_iff.2 fun hlists => ?_
  rw [Option.map_some, (hcalls call hcall).2 hlists] at hinteger
  cases hinteger

/-- Things that are known by a document. -/
def keyedDomain : Domain := .ofList [
  ("doc", { fields := .ofList [("key", { typeName := "dict", primaryKey := true })] })]

def keyedCatalog : Catalog := .compiled {} keyedDomain

def keyedSteps : List Step := [
  (⟨0, 0⟩, .createTables),
  (⟨1, 0⟩, .insert "doc" [.ofList [("key", .object [("a", .int 1)])]])]

/-- The store removes the one thing there is. Of the two statements that it takes, the second cannot
be written: the row is removed by a list of keys, which are documents. -/
theorem document_key_is_not_removed : Catalog.ofDomain {} keyedDomain = .ok keyedCatalog
    ∧ (keyedCatalog.remove "doc" ⟨2, 0⟩ [] (keyedCatalog.run keyedSteps)).1.toOption = some 1
    ∧ ((keyedCatalog.schema.table "doc").toOption.map fun table =>
        (((Task.remove []).program keyedCatalog table ⟨2, 0⟩).calls ⟨2, 0⟩
          (.begin (keyedCatalog.run keyedSteps))).map fun call =>
            (call.write "public").toOption.isSome)
      = some [true, false] :=
  ⟨ofDomain_compiled rfl, by decide +kernel⟩

end Catalog

end RecordStore
