import RecordStore.Proofs.Breaches
import RecordStore.Proofs.ColumnNames
import RecordStore.Proofs.Fields
import RecordStore.Proofs.Replay

/-!
# Lengths that fields declare

A field may declare how long its texts and lists are. What a document gives for an ordinary field is
measured before it is stored. Three other values are stored as they are, however long: those of a
declared key, given by a document or as the identifier of a replacement, those of a field that
points at a resource, and the default of an ordinary field. Everything that is stored for a field is
within its bounds as long as these are, and no longer.

* **`Field.fits`** — whether the length of a value is within the bounds of a field.
* **`Field.overruns`** — the values out of bounds that changes store for a field.
* **`Catalog.brokenOnlyBy_overruns`** — a change keeps the lengths if and only if it stores none.
* **`Catalog.lengths_kept_iff`** — and so does a run; and the lengths of what is measured are always
  kept.
-/

namespace RecordStore

open Compile RecordStore.Action

/-! ## Lengths -/

/-- Whether the length of a value, if it has one, is within bounds. -/
def Value.isWithin (least greatest : Option Nat) (v : Value) : Bool :=
  (Document.length? v).all fun n => least.all (· ≤ n) && greatest.all (n ≤ ·)

namespace Document

theorem length?_asDouble (v : Value) : length? v.asDouble = length? v := by
  cases v <;> rfl

/-- A value is within the lengths of a column exactly if the check of its length passes. -/
theorem checkLength_eq_ok_iff {c : Column} {v : Value} :
    checkLength c v = .ok () ↔ v.isWithin c.minLength c.maxLength = true := by
  have hlast (rejection : Rejection) (broken : Prop) [Decidable broken] :
      (if broken then reject rejection else pure () : Except Error Unit) = .ok () ↔ ¬ broken := by
    split <;> simp [reject, pure, Except.pure, *]
  have hnext (rejection : Rejection) (broken : Prop) [Decidable broken] (rest : Except Error Unit) :
      (if broken then reject rejection >>= fun _ : Unit => rest else rest) = .ok ()
        ↔ ¬ broken ∧ rest = .ok () := by
    split <;> simp [reject, bind, Except.bind, *]
  have hpass (rest : Except Error Unit) :
    ((.ok () : Except Error Unit) >>= fun _ => rest) = rest := rfl
  unfold checkLength Value.isWithin
  cases length? v with
  | none => exact iff_of_true rfl rfl
  | some n =>
    -- the greatest length is checked first
    cases c.maxLength <;> cases c.minLength <;> simp [hpass, hnext, hlast, and_comm]

/-- A value that passes the check of a column is as long as the column allows. -/
theorem isWithin_of_checkValue {c : Column} {v : Value} (h : checkValue c v = .ok ()) :
    v.isWithin c.minLength c.maxLength = true := by
  unfold checkValue at h
  split at h
  · cases v <;> simp_all [Value.isNull, Value.isWithin, length?]
  · split at h
    · cases h
    · exact checkLength_eq_ok_iff.1 h

end Document

theorem Column.isWithin_stored (c : Column) (least greatest : Option Nat) (v : Value) :
    (c.stored v).isWithin least greatest = v.isWithin least greatest := by
  rw [Column.stored]
  split
  · rw [Value.isWithin, Document.length?_asDouble, Value.isWithin]
  · rfl

namespace Field

/-- Whether the length of a value is within the bounds of a field. -/
def fits (spec : Field) (v : Value) : Bool := v.isWithin spec.minLength spec.maxLength

theorem fits_stored (spec : Field) (c : Column) (v : Value) :
    spec.fits (c.stored v) = spec.fits v :=
  c.isWithin_stored _ _ v

/-- What is stored for a field that a document does not give. -/
def filled (spec : Field) : Value := if spec.isOrdinary then spec.default?.getD .null else .null

/-- What a new row has for a field: what the document gives, or else what is filled in. -/
def valueIn (spec : Field) (field : String) (doc : Record) : Value :=
  (doc.get? field).getD spec.filled

/-- Whether only values within the bounds can be stored: all that are given are measured, and what
is filled in is within the bounds. -/
def isMeasured (spec : Field) : Bool :=
  spec.minLength.isNone && spec.maxLength.isNone || spec.isOrdinary && spec.fits spec.filled

/-- The values that are out of the bounds of a field of a resource and are stored for it. A
replacement stores its document under the identifier, and an update leaves the key. -/
def overruns (spec : Field) (resource field : String) : Breach where
  insert table doc := table.name = resource ∧ spec.fits (spec.valueIn field doc) = false
  update table doc := table.name = resource ∧ table.primaryKey ≠ field
    ∧ ∃ v, doc.get? field = some v ∧ spec.fits v = false
  replace table id doc := table.name = resource ∧ ∃ key, Change.keyFor table id = .ok key
    ∧ spec.fits (spec.valueIn field (doc.insert table.primaryKey key)) = false

end Field

/-- What is stored for a field of a resource is within its bounds. -/
def Store.KeepsLength (resource field : String) (spec : Field) (s : Store) : Prop :=
  ∀ row ∈ s.rows resource, spec.fits (row.cell field) = true

instance (resource field : String) (spec : Field) (s : Store) :
    Decidable (s.KeepsLength resource field spec) :=
  inferInstanceAs (Decidable (∀ row ∈ s.rows resource, _))

/-! ## The column of a field -/

/-- A column that has nothing but what is given for a field or filled in. -/
structure Table.Holds (base : Table) (field : String) (spec : Field) (c : Column) : Prop where
  mem : c ∈ base.columns
  owns : base.Owns c
  name_eq : c.name = field
  not_stamp : field ∉ Change.stampColumns
  not_flag : base.deletedColumn ≠ some field
  default_eq : c.default? = if spec.isOrdinary then spec.default? else none
  not_stamped : c.defaultNow = false

section Rows

variable {schema : Schema} {table base : Table} {field : String} {spec : Field} {c : Column}
  {now : Time.Instant} {doc old row : Record}

theorem Table.Holds.default_filled (h : base.Holds field spec c) :
    c.default?.getD .null = spec.filled := by
  rw [h.default_eq, Field.filled]
  split <;> rfl

/-- A number that is generated has no length. -/
theorem Table.Holds.fits_filling (h : base.Holds field spec c) (hco : schema.Coherent)
    (hbase : base ∈ schema.bases) (now : Value) (n : Int) :
    spec.fits (StoredTable.filling now n c) = spec.fits spec.filled := by
  have hfilled := h.default_filled
  cases hnumber : c.autoIncrement with
  | false =>
    rw [← hfilled]
    simp [StoredTable.filling, hnumber, h.not_stamped]
  | true =>
    -- only the key is numbered, which has no default
    obtain ⟨hkey, -⟩ := hco.numbered base (Schema.mem_physical_of_base hbase) c h.mem hnumber
    obtain ⟨k, hk, -, -, hdefault⟩ := hco.keyed base (Schema.mem_physical_of_base hbase)
    obtain rfl := Option.some.inj (hkey.symm.trans hk)
    rw [hdefault, Option.getD_none] at hfilled
    rw [← hfilled, StoredTable.filling, if_pos hnumber]
    rfl

theorem Table.Holds.fits_given (h : base.Holds field spec c) (doc : Record) (v : Value)
    (hv : spec.fits v = spec.fits spec.filled) :
    spec.fits (((doc.get? c.name).map c.stored).getD v) = spec.fits (spec.valueIn field doc) := by
  rw [Field.valueIn, h.name_eq]
  cases doc.get? field with
  | none => exact hv
  | some w => exact spec.fits_stored c w

theorem Table.Holds.fits_inserted (h : base.Holds field spec c) (hco : schema.Coherent)
    (hbase : base ∈ schema.bases) (hshares : table.SharesRows base) {t : StoredTable}
    (hcolumns : t.columns = base.columns) (hcounter : isSigned64 t.nextId = true) {next : Int}
    (hfill : t.fill (.string now.text) (Change.insertedRow table now doc) = (row, next)) :
    spec.fits (row.cell field) = spec.fits (spec.valueIn field doc) := by
  obtain ⟨n, hcell⟩ :=
    hco.cell_inserted hbase hshares h.mem h.owns (h.name_eq ▸ h.not_stamp) hcolumns hcounter
    hfill
  rw [← h.name_eq, hcell, h.fits_given doc _ (h.fits_filling hco hbase _ n), h.name_eq]

theorem Table.Holds.fits_replaced (h : base.Holds field spec c) (hco : schema.Coherent)
    (hbase : base ∈ schema.bases) (hshares : table.SharesRows base) {key : Value}
    {stored : Option Record}
    (hcells : ∀ name v, (Change.replacedRow table now key stored doc).get? name = some v →
      row.get? name = some v) :
    spec.fits (row.cell field)
      = spec.fits (spec.valueIn field (doc.insert table.primaryKey key)) := by
  have hcell := hco.cell_replaced hbase hshares h.mem h.owns (h.name_eq ▸ h.not_stamp) hcells
  rw [h.name_eq] at hcell
  rw [hcell, Field.valueIn, NameMap.get?_insert, hshares.primaryKey]
  split
  · rfl
  · have hgiven := h.fits_given doc _ (congrArg spec.fits h.default_filled)
    rwa [h.name_eq] at hgiven

/-- A row that is overwritten by an update has what is given for the field, unless it is the key. -/
theorem Table.Holds.cell_updated (h : base.Holds field spec c) (hco : schema.Coherent)
    (hbase : base ∈ schema.bases) (hshares : table.SharesRows base)
    (hassign : StoredTable.assign old (Change.updatedRow table now doc) = .ok row) :
    row.cell field = if field = table.primaryKey then old.cell field
      else ((doc.get? field).map c.stored).getD (old.cell field) := by
  have hstamp : field ≠ updatedColumn :=
    fun hname => h.not_stamp (by rw [hname]; simp [Change.stampColumns])
  have hget := StoredTable.get?_assign hassign field
  rw [Change.get?_updatedRow, if_neg hstamp] at hget
  split
  · rename_i hkey
    rw [if_pos hkey, Option.none_or] at hget
    rw [Record.cell, hget, Record.cell]
  · rename_i hkey
    rw [if_neg hkey, ← h.name_eq, hco.get?_withDoubles_rowOf hbase hshares h.mem, h.name_eq] at hget
    rw [Record.cell, hget]
    cases doc.get? field with
    | none => rfl
    | some v => rfl

end Rows

/-! ## Changes -/

section Changes

variable {schema : Schema} {table base other : Table} {field : String} {spec : Field} {c : Column}
  {now : Time.Instant} {tx tx' : Transaction} {doc : Record}

/-- The rows of a resource after a change of one resource: those that were written, or those of
before. -/
theorem Store.ListsTurn.rows_eq {α : Type} {items : List α} {list : α → ListField}
    {R : α → Table → StoredTable → StoredTable → Prop} {s s' : Store} {t' : StoredTable}
    (h : (s.put other.name t').ListsTurn schema items list R s') (hco : schema.Coherent)
    (hother : other ∈ schema.bases) (hlists : ∀ x ∈ items, list x ∈ other.lists)
    (hbase : base ∈ schema.bases) :
    s'.rows base.name = if base.name = other.name then t'.rows else s.rows base.name := by
  rw [Store.rows, h.get?_base hco hother (.refl other) hlists hbase]
  exact Store.rows_put ..

/-- An insertion stores one row, so it keeps the lengths exactly if this row does. -/
theorem keepsLength_of_insert_iff (hco : schema.Coherent) (hregular : tx.work.Regular schema)
    (hbase : base ∈ schema.bases) (hholds : base.Holds field spec c) (hother : other ∈ schema.bases)
    (hshares : table.SharesRows other) (h : tx.work.KeepsLength base.name field spec)
    {x : Value × Record} (hrun : Yields (Change.insert schema table now doc) tx x tx') :
    tx'.work.KeepsLength base.name field spec
      ↔ ¬ (spec.overruns base.name field).insert table doc := by
  obtain ⟨t, row, next, ht, hfill, -, -, hlists⟩ := Change.effect_of_insert hco hother hshares hrun
  rw [Store.KeepsLength, hlists.rows_eq hco hother
    (fun entry hentry => hshares.lists ▸ Change.list_of_mem_listsOf hentry) hbase]
  by_cases hname : base.name = other.name
  · obtain rfl :=
      hco.eq_of_name (Schema.mem_physical_of_base hbase) (Schema.mem_physical_of_base hother) hname
    obtain ⟨hcolumns, hcounter⟩ := hregular.columns_eq base (Schema.mem_physical_of_base hbase) t ht
    rw [if_pos rfl, List.forall_mem_append, List.forall_mem_singleton,
      hholds.fits_inserted hco hbase hshares hcolumns hcounter hfill]
    have hold : ∀ row ∈ t.rows, spec.fits (row.cell field) = true := Store.rows_of_get? ht ▸ h
    rw [and_iff_right hold]
    simp [Field.overruns, hshares.name]
  · rw [if_neg hname]
    exact iff_of_true h fun hbreach => hname (hbreach.1.symm.trans hshares.name)

/-- A replacement stores the cell that the document or a default gives. -/
theorem keepsLength_of_replace_iff (hco : schema.Coherent) (hbase : base ∈ schema.bases)
    (hholds : base.Holds field spec c) (hother : other ∈ schema.bases)
    (hshares : table.SharesRows other) (h : tx.work.KeepsLength base.name field spec) {id : Value}
    (hrun : Yields (Change.replace schema table now id doc) tx () tx') :
    tx'.work.KeepsLength base.name field spec
      ↔ ¬ (spec.overruns base.name field).replace table id doc := by
  obtain ⟨key, t, t', -, hkey, ht, hupserts, hlists⟩ :=
    Change.effect_of_replace hco hother hshares hrun
  rw [Store.KeepsLength, hlists.rows_eq hco hother (fun m hm => hshares.lists ▸ hm) hbase]
  by_cases hname : base.name = other.name
  · obtain rfl :=
      hco.eq_of_name (Schema.mem_physical_of_base hbase) (Schema.mem_physical_of_base hother) hname
    obtain ⟨before, row, after, hnew, -, hcells, -, hbefore⟩ :=
      hupserts.exists_row (hshares.name ▸ ht)
    have hold : ∀ row ∈ t.rows, spec.fits (row.cell field) = true := Store.rows_of_get? ht ▸ h
    -- the other rows are those of before
    have hothers : (∀ r ∈ before, spec.fits (r.cell field) = true)
        ∧ ∀ r ∈ after, spec.fits (r.cell field) = true := by
      rcases hbefore with hsame | ⟨old, hsame, -⟩
      · rwa [hsame, List.forall_mem_append] at hold
      · rw [hsame, List.forall_mem_append, List.forall_mem_cons] at hold
        exact ⟨hold.1, hold.2.2⟩
    rw [if_pos rfl, hnew, List.forall_mem_append, List.forall_mem_cons,
      hholds.fits_replaced hco hbase hshares hcells, and_iff_right hothers.1,
      and_iff_left hothers.2]
    simp [Field.overruns, hshares.name, hkey]
  · rw [if_neg hname]
    exact iff_of_true h fun hbreach => hname (hbreach.1.symm.trans hshares.name)

/-- An update overwrites some rows, and the one that it has found is among them. -/
theorem Change.overwritten_of_update (hco : schema.Coherent) (hregular : tx.work.Regular schema)
    (hkeys : tx.work.KeysApart schema) (hother : other ∈ schema.bases)
    (hshares : table.SharesRows other) {id : Value}
    (hrun : Yields (Change.update schema table now id doc) tx () tx') :
    ∃ t t', tx.work.tables.get? other.name = some t
      ∧ (∀ row ∈ t'.rows, row ∈ t.rows
        ∨ ∃ old ∈ t.rows, StoredTable.assign old (Change.updatedRow table now doc) = .ok row)
      ∧ (∃ old ∈ t.rows, ∃ row ∈ t'.rows,
        StoredTable.assign old (Change.updatedRow table now doc) = .ok row)
      ∧ ∃ key, (tx.work.put other.name t').ListsTurn schema (listsOf table doc) Prod.fst
        (fun entry link => StoredTable.SetsLinks link entry.1
          (.string now.text) key entry.2) tx'.work := by
  obtain ⟨key, n, mid, hfound, -, hupdate, hlists⟩ := Change.steps_of_update hco hother hshares hrun
  obtain ⟨t, t', ht, hoverwrites, rfl, -⟩ := Transaction.overwrites_of_update hupdate
  obtain ⟨u, old, hu, hold, rfl⟩ := Change.row_of_visibleKey hfound
  obtain rfl : u = t := Option.some.inj (hu.symm.trans ht)
  obtain ⟨k, hk, -⟩ := hco.keyed other (Schema.mem_physical_of_base hother)
  have htablekey := hshares.keyColumn?.trans hk
  obtain ⟨hcolumns, hkeys⟩ := hregular.keysApart_of_shares hkeys hother hshares htablekey u ht
  have hnull := hkeys.filled old hold
  have hholds :
    (Predicate.eq table.primaryKey (old.cell table.primaryKey)).holds u.columns old = true := by
    rw [Transaction.holds_eq hnull, hcolumns, Table.typeIn_keyColumn htablekey]
    exact ⟨hnull, hkeys.equal_self old hold⟩
  rw [hshares.name] at ht hlists
  refine ⟨u, t', ht, fun row hrow => ?_, ?_, _, hlists⟩
  · obtain ⟨before, hbefore, hwritten⟩ := exists_of_mem_right hoverwrites.rows hrow
    split at hwritten
    · exact .inr ⟨before, hbefore, hwritten⟩
    · exact .inl (hwritten ▸ hbefore)
  · obtain ⟨row, hrow, hwritten⟩ := exists_of_mem_left hoverwrites.rows hold
    rw [if_pos hholds] at hwritten
    exact ⟨old, hold, row, hrow, hwritten⟩

/-- An update stores a cell only if the document gives it, and leaves all others. -/
theorem keepsLength_of_update_iff (hco : schema.Coherent) (hregular : tx.work.Regular schema)
    (hkeys : tx.work.KeysApart schema) (hbase : base ∈ schema.bases)
    (hholds : base.Holds field spec c) (hother : other ∈ schema.bases)
    (hshares : table.SharesRows other) (h : tx.work.KeepsLength base.name field spec) {id : Value}
    (hrun : Yields (Change.update schema table now id doc) tx () tx') :
    tx'.work.KeepsLength base.name field spec
      ↔ ¬ (spec.overruns base.name field).update table doc := by
  obtain ⟨t, t', ht, hrows, ⟨old, hold, row, hrow, hwritten⟩, key, hlists⟩ :=
    Change.overwritten_of_update hco hregular hkeys hother hshares hrun
  rw [Store.KeepsLength, hlists.rows_eq hco hother
    (fun entry hentry => hshares.lists ▸ Change.list_of_mem_listsOf hentry) hbase]
  by_cases hname : base.name = other.name
  · obtain rfl :=
      hco.eq_of_name (Schema.mem_physical_of_base hbase) (Schema.mem_physical_of_base hother) hname
    rw [if_pos rfl]
    constructor
    · rintro hall ⟨-, hkey, v, hv, hlong⟩
      have hfits := hall row hrow
      rw [hholds.cell_updated hco hbase hshares hwritten, if_neg hkey.symm, hv, Option.map_some,
        Option.getD_some, spec.fits_stored, hlong] at hfits
      cases hfits
    · intro hnot new hnew
      have hbefore : ∀ row ∈ t.rows, spec.fits (row.cell field) = true := Store.rows_of_get? ht ▸ h
      rcases hrows new hnew with hsame | ⟨old, hold, hwritten⟩
      · exact hbefore new hsame
      rw [hholds.cell_updated hco hbase hshares hwritten]
      split
      · exact hbefore old hold
      · rename_i hkey
        cases hv : doc.get? field with
        | none => exact hbefore old hold
        | some v =>
          rw [Option.map_some, Option.getD_some, spec.fits_stored, ← Bool.not_eq_false]
          exact fun hlong => hnot ⟨hshares.name, Ne.symm hkey, v, hv, hlong⟩
  · rw [if_neg hname]
    exact iff_of_true h fun hbreach => hname (hbreach.1.symm.trans hshares.name)

/-- Removing stores nothing for a field. -/
theorem keepsLength_of_remove (hco : schema.Coherent) (hbase : base ∈ schema.bases)
    (hholds : base.Holds field spec c) (hother : other ∈ schema.bases)
    (hshares : table.SharesRows other) (h : tx.work.KeepsLength base.name field spec)
    {lookup : Filter} {n : Nat} (hrun : Yields (Change.remove schema table now lookup) tx n tx') :
    tx'.work.KeepsLength base.name field spec := by
  intro row hrow
  rcases Change.effect_of_remove hrun with ⟨deleted, t, t', hdeleted, ht, hrewrites, hwork⟩
    | hshrinks
  · rw [hwork, Store.rows_put] at hrow
    split at hrow
    · rename_i hname
      obtain rfl :=
        hco.eq_of_name (Schema.mem_physical_of_base hbase) (Schema.mem_physical_of_base hother)
        (hname.trans hshares.name)
      obtain ⟨old, hold, hrewritten⟩ := exists_of_mem_right hrewrites.rows hrow
      have hsame : row.get? field = old.get? field := by
        refine (hrewritten.2 field).resolve_right ?_
        rintro ⟨v, hv, -⟩
        rw [Change.get?_flag, if_neg fun hname =>
          hholds.not_stamp (by rw [hname]; simp [Change.stampColumns]),
          if_neg fun hname => hholds.not_flag
            (by rw [hname, ← hshares.deletedColumn, hdeleted])] at hv
        cases hv
      rw [Record.cell, hsame]
      rw [hshares.name] at ht
      exact h old (Store.rows_of_get? ht ▸ hold)
    · exact h row hrow
  · obtain ⟨u', hu', hmem⟩ := Store.get?_of_mem_rows hrow
    obtain ⟨u, hu, hshrunk⟩ := hshrinks.exists_turned hu'
    exact h row (Store.rows_of_get? hu ▸ hshrunk.rows.subset hmem)

end Changes

namespace Catalog

/-- **Only changes that store a value out of bounds break the lengths of a field.** -/
theorem brokenOnlyBy_overruns {catalog : Catalog} {base : Table} {field : String} {spec : Field}
    {c : Column} (hco : catalog.schema.Coherent) (hbase : base ∈ catalog.schema.bases)
    (hholds : base.Holds field spec c) :
    catalog.BrokenOnlyBy (spec.overruns base.name field)
      (Store.KeepsLength base.name field spec) where
  empty _ hrow := by cases hrow
  creates _ _ h hcreates row hrow := h row (hcreates.rows_eq base.name ▸ hrow)
  of_grows _ _ hgrows h row hrow := h row ((hgrows base.name).subset hrow)
  insert _ _ _ _ hother hshares _ _ _ hregular _ h hrun :=
    keepsLength_of_insert_iff hco hregular hbase hholds hother hshares h hrun
  update _ _ _ _ _ hother hshares _ _ _ hregular hkeys h hrun :=
    keepsLength_of_update_iff hco hregular hkeys hbase hholds hother hshares h hrun
  replace _ _ _ _ _ hother hshares _ _ _ _ _ h hrun :=
    keepsLength_of_replace_iff hco hbase hholds hother hshares h hrun
  remove _ _ _ _ hother hshares _ _ _ _ h hrun :=
    keepsLength_of_remove hco hbase hholds hother hshares h hrun

end Catalog

/-! ## Compiled domains -/

/-- What is stored in an ordinary column is as long as the column allows, or it is what is filled
in. -/
theorem Schema.grants_lengths (schema : Schema) : schema.Grants fun c v =>
    v.isWithin c.minLength c.maxLength = true ∨ v = c.default?.getD .null where
  given _ _ c _ v hcheck := by
    rw [c.isWithin_stored]
    exact .inl (Document.isWithin_of_checkValue hcheck)
  filled _ _ _ _ := .inr rfl

namespace Compile.Part

variable {settings : Settings} {domain : Domain} {tables : List Table} {part : Part}
  {field : String}
  {spec : Field}

/-- The column of a field has nothing but what is given for the field or filled in. -/
theorem holds_of_field (h : part.Compiled settings domain tables)
    (hentry : (field, spec) ∈ part.entry.2.fields.entries) {c : Column}
    (hc : c ∈ part.related.columns) (hcolumn : FieldColumn tables field spec c)
    (links : List BuiltLink) :
    (part.base links).Holds field spec c where
  mem := hc
  owns := owns_of_field h hc (hcolumn.name_eq ▸ mem_keys_of_entry hentry)
  name_eq := hcolumn.name_eq
  not_stamp := (field_not_set h hentry).1
  not_flag := (field_not_set h hentry).2
  default_eq := hcolumn.default?_eq
  not_stamped := hcolumn.defaultNow_eq

end Compile.Part

theorem Field.fits_of_unbounded {spec : Field} (hleast : spec.minLength = none)
    (hgreatest : spec.maxLength = none) (v : Value) : spec.fits v = true := by
  rw [fits, Value.isWithin, hleast, hgreatest]
  cases Document.length? v <;> rfl

namespace Catalog

variable {settings : Settings} {domain : Domain} {catalog : Catalog}
  {name field : String} {r : Resource}
  {spec : Field}

/-- What is measured is within its bounds after every run. -/
theorem keepsLength_of_measured {parts : List Part} {links : List BuiltLink}
    (hassembly : Assembly settings domain catalog.schema parts links)
    (hco : catalog.schema.Coherent) {part : Part} (hpart : part ∈ parts)
    (hfield : (field, spec) ∈ part.entry.2.fields.entries) (hcolumn : spec.hasColumn = true)
    (hmeasured : spec.isMeasured = true) (steps : List Step) :
    (catalog.run steps).store.KeepsLength (part.base links).name field spec := by
  rw [Field.isMeasured, Bool.or_eq_true, Bool.and_eq_true, Bool.and_eq_true,
    Option.isNone_iff_eq_none, Option.isNone_iff_eq_none] at hmeasured
  rcases hmeasured with ⟨hleast, hgreatest⟩ | ⟨hordinary, hfilled⟩
  · exact fun row _ => Field.fits_of_unbounded hleast hgreatest _
  have hcompiled := hassembly.compiled part hpart
  have hbase : part.base links ∈ catalog.schema.bases := hassembly.mem_bases.2 ⟨part, hpart, rfl⟩
  obtain ⟨c, hc, hfc⟩ := Part.exists_fieldColumn hcompiled hfield hcolumn
  cases hfc with
  | @ordinary type =>
    intro row hrow
    obtain ⟨t, ht, hmem⟩ := Store.get?_of_mem_rows hrow
    rw [Record.cell]
    cases hcell : row.get? field with
    | none => rfl
    | some v =>
      have hgranted := hasCells_run hco (Schema.grants_lengths _) steps _ hbase t ht row hmem _
        (Part.ordinary_of_field hcompiled hfield hordinary hc links) v hcell
      rcases hgranted with hwithin | hdefault
      · exact hwithin
      · rw [Option.getD_some, hdefault]
        rwa [Field.filled, if_pos hordinary] at hfilled
  | key _ hkey => simp [Field.isOrdinary, hkey] at hordinary
  | reference htarget => simp [Field.isOrdinary, htarget] at hordinary

/-- **What is stored for a field is within its bounds throughout a run if and only if no change of
the run stores a value out of bounds**: for a declared key, for a field that points at a resource,
or as a default. For an ordinary field without a default, or with one that is within the bounds, no
run does. -/
theorem lengths_kept_iff (hcompiles : Catalog.ofDomain settings domain = .ok catalog)
    (hresource : domain.get? name = some r) (hown : r.isAlias = false)
    (hfield : (field, spec) ∈ r.fields.entries) (hcolumn : spec.hasColumn = true)
    (steps : List Step) :
    ((∀ done, done <+: steps → (catalog.run done).store.KeepsLength name field spec)
      ↔ ∀ done step, done ++ [step] <+: steps →
        ¬ catalog.Breaches (spec.overruns name field) (catalog.run done) step)
    ∧ (spec.isMeasured = true → (catalog.run steps).store.KeepsLength name field spec) := by
  have hco := coherent_of_ofDomain hcompiles
  obtain ⟨schema, hschema, rfl⟩ := map_eq_ok_iff.1 hcompiles
  obtain ⟨parts, links, hassembly⟩ := exists_assembly hschema
  obtain ⟨part, hpart, hentry, -⟩ := hassembly.exists_part_of_own hresource hown
  have hbase : part.base links ∈ schema.bases := hassembly.mem_bases.2 ⟨part, hpart, rfl⟩
  have hname : (part.base links).name = name := by
    have heq := (hassembly.name_eq hpart).1
    rwa [hentry] at heq
  have hmem : (field, spec) ∈ part.entry.2.fields.entries := by rwa [hentry]
  obtain ⟨c, hc, hfc⟩ := Part.exists_fieldColumn (hassembly.compiled part hpart) hmem hcolumn
  have hholds := Part.holds_of_field (hassembly.compiled part hpart) hmem hc hfc links
  rw [← hname]
  exact ⟨(brokenOnlyBy_overruns hco hbase hholds).kept_iff hco steps,
    fun hmeasured => keepsLength_of_measured hassembly hco hpart hmem hcolumn hmeasured steps⟩

/-! ## Badges of three characters

Badges are known by short codes and are in some state, which is written in at most four characters.
Visits name a badge. -/

def badgeDomain : Domain := .ofList [
  ("badge", { fields := .ofList [
    ("code", { typeName := "string", primaryKey := true, maxLength := some 3 }),
    ("state",
      { typeName := "string", maxLength := some 4, default? := some (.string "unused") })] }),
  ("visit", { fields := .ofList [
    ("badge", { typeName := "string", target := some "badge", maxLength := some 3 })] })]

def badgeCatalog : Catalog := .compiled {} badgeDomain

theorem ofDomain_badge : Catalog.ofDomain {} badgeDomain = .ok badgeCatalog :=
  Catalog.ofDomain_compiled rfl

/-- A badge under a code, and a visit with it. -/
def badgeSteps (code : String) (badge : Record) : List Step := [
  (⟨0, 0⟩, .createTables),
  (⟨1, 0⟩, .replace "badge" (.string code) badge),
  (⟨2, 0⟩, .insert "visit" [.ofList [("badge", .string code)]])]

def codeField : Field := { typeName := "string", primaryKey := true, maxLength := some 3 }

/-- A badge with a code of three characters, whose state is left to its default. -/
def shortBadge : Record := .ofList [("code", .string "B-1")]

/-- A code of three characters is within its bounds. -/
theorem code_of_badge_within :
    Catalog.ofDomain {} badgeDomain = .ok badgeCatalog
      ∧ (∃ r, badgeDomain.get? "badge" = some r
        ∧ r.isAlias = false ∧ ("code", codeField) ∈ r.fields.entries)
      ∧ codeField.hasColumn = true
      ∧ (badgeCatalog.run (badgeSteps "B-1" shortBadge)).store.KeepsLength
        "badge" "code" codeField := by
  refine ⟨ofDomain_badge, ⟨_, rfl, rfl, List.mem_cons_self⟩, rfl, ?_⟩
  have hbadge : ∀ table ∈ (badgeCatalog.schema.table "badge").toOption,
      ∀ key ∈ (Change.keyFor table (.string "B-1")).toOption,
        codeField.fits (codeField.valueIn "code" (shortBadge.insert table.primaryKey key))
          = true := by
    decide +kernel
  have hvisit : ∀ table ∈ (badgeCatalog.schema.table "visit").toOption, table.name ≠ "badge" := by
    decide +kernel
  refine (lengths_kept_iff ofDomain_badge rfl rfl List.mem_cons_self rfl _).1.2
    (fun done step hprefix hbreaches => ?_) _ (List.prefix_refl _)
  have hmem : step ∈ badgeSteps "B-1" shortBadge :=
    hprefix.subset (List.mem_append_right done (List.mem_singleton_self _))
  rcases by simpa [badgeSteps] using hmem with rfl | rfl | rfl
  · cases hbreaches
  · cases hbreaches with
    | replace htable _ hbreach =>
      obtain ⟨-, key, hkey, hlong⟩ := hbreach
      rw [hbadge _ (by rw [htable]; rfl) key (by rw [hkey]; rfl)] at hlong
      cases hlong
  · cases hbreaches with
    | insert htable _ _ hbreach => exact hvisit _ (by rw [htable]; rfl) hbreach.1

/-- A badge whose code is too long. -/
def longBadge : Record := .ofList [("code", .string "B-100")]

/-- The code of a badge is stored as it is, so are the default of its state and the badge of a
visit: all are longer than they may be. -/
theorem long_values_stored :
    Catalog.ofDomain {} badgeDomain = .ok badgeCatalog ∧ Settings.NamesApart {}
      ∧ ∀ entry ∈ [("badge", "code"), ("badge", "state"), ("visit", "badge")],
        ∃ r ∈ badgeDomain.get? entry.1, r.isAlias = false
          ∧ ∃ field ∈ r.fields.entries, field.1 = entry.2
          ∧ field.2.hasColumn = true
          ∧ ¬ (badgeCatalog.run (badgeSteps "B-100" longBadge)).store.KeepsLength
            entry.1 field.1 field.2 := by
  refine ⟨ofDomain_badge, by decide, ?_⟩
  decide +kernel

end Catalog

end RecordStore
