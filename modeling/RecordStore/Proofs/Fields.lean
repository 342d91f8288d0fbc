import RecordStore.Proofs.Cells

/-!
# The columns of fields

A field is stored in one column, unless it lists the keys of a resource. There are three kinds of
columns: a declared key, the key of a row of another resource, and any other value. Of these only
the last keeps all that the field declares. A key drops the default and the bounds of lengths, and
so does a reference, which has the type of the key that it holds.

* **`Compile.FieldColumn`** — what the column of a field is.
* **`Compile.Part.exists_fieldColumn`** — every field that is no list of keys has one.
* **`Compile.Part.ordinary_of_field`** — the columns that keep what is declared are ordinary ones.
* **`Compile.Part.split_of_default`** — columns with a default stand before those that point at a
  resource.
-/

namespace RecordStore

/-- A field that is neither the key nor points at a resource. -/
def Field.isOrdinary (spec : Field) : Bool := !spec.primaryKey && spec.target.isNone

/-- A field that does not list the keys of a resource. -/
def Field.hasColumn (spec : Field) : Bool := spec.target.isNone || spec.cardinality == .one

namespace Compile

/-- The column of an ordinary field. -/
def ordinaryColumn (field : String) (spec : Field) (type : ColumnType) : Column where
  name := field
  type := type
  nullable := spec.isNullable
  unique := spec.unique
  default? := spec.default?
  required := spec.required
  minLength := spec.minLength
  maxLength := spec.maxLength

/-- The column of a declared key. -/
def keyColumn (field : String) (type : ColumnType) : Column where
  name := field
  type := type
  nullable := false
  unique := true
  primaryKey := true
  autoIncrement := type == .integer

/-- What the column of a field is. -/
inductive FieldColumn (tables : List Table) (field : String) (spec : Field) : Column → Prop
  | ordinary {type : ColumnType} (htype : ColumnType.ofName? spec.typeName = some type)
      (hordinary : spec.isOrdinary = true) :
      FieldColumn tables field spec (ordinaryColumn field spec type)
  | key {type : ColumnType} (htype : ColumnType.ofName? spec.typeName = some type)
      (hkey : spec.primaryKey = true) : FieldColumn tables field spec (keyColumn field type)
  | reference {target : String} {table : Table} {key : Column} (htarget : spec.target = some target)
      (htable : table ∈ tables) (hkey : table.keyColumn? = some key) :
      FieldColumn tables field spec (referenceColumn ⟨field, spec, target⟩ table key)

variable {settings : Settings} {domain : Domain} {tables : List Table}
  {field : String} {spec : Field}
  {c : Column}

namespace FieldColumn

theorem name_eq (h : FieldColumn tables field spec c) : c.name = field := by
  cases h <;> rfl

theorem defaultNow_eq (h : FieldColumn tables field spec c) : c.defaultNow = false := by
  cases h <;> rfl

/-- Only ordinary columns have a default. -/
theorem default?_eq (h : FieldColumn tables field spec c) :
    c.default? = if spec.isOrdinary then spec.default? else none := by
  cases h with
  | ordinary _ hordinary =>
    rw [if_pos hordinary]
    rfl
  | key _ hprimary =>
    rw [if_neg (by simp [Field.isOrdinary, hprimary])]
    rfl
  | reference htarget =>
    rw [if_neg (by simp [Field.isOrdinary, htarget])]
    rfl

end FieldColumn

theorem fieldColumn_of_plainColumn {resource : String} {type : ColumnType}
    (htype : ColumnType.ofName? spec.typeName = some type) (htarget : spec.target = none)
    (h : plainColumn resource field spec type = .ok c) : FieldColumn tables field spec c := by
  unfold plainColumn at h
  split at h
  · cases h
  · split at h
    · rename_i hkey
      obtain rfl := Except.ok.inj h
      exact .key htype hkey
    · rename_i hkey
      obtain rfl := Except.ok.inj h
      exact .ordinary htype (by simp [Field.isOrdinary, hkey, htarget])

namespace Part

variable {part : Part}

/-- **A field that is no list of keys has a column.** -/
theorem exists_fieldColumn (h : part.Compiled settings domain tables)
    (hentry : (field, spec) ∈ part.entry.2.fields.entries) (hcolumn : spec.hasColumn = true) :
    ∃ c ∈ part.related.columns, FieldColumn tables field spec c := by
  cases htarget : spec.target with
  | none =>
    obtain ⟨own, hplain⟩ := ownTable_eq_ok h.plain_eq
    obtain ⟨column?, hmem, hown⟩ := exists_of_mem_left hplain.own_eq hentry
    unfold ownColumn at hown
    dsimp only at hown
    rw [htarget] at hown
    split at hown
    · cases hown
    · split at hown
      · cases hown
      · rename_i type htype
        obtain ⟨c, hc, rfl⟩ := map_eq_ok_iff.1 hown
        refine ⟨c, ?_, fieldColumn_of_plainColumn htype htarget hc⟩
        show c ∈ part.plain.columns ++ part.references.filterMap Reference.column?
        rw [hplain.columns_eq]
        simp [hmem]
  | some target =>
    have hone : spec.cardinality = .one := by simpa [Field.hasColumn, htarget] using hcolumn
    have hrelation : ⟨field, spec, target⟩ ∈ part.entry.2.relations :=
      List.mem_filterMap.2 ⟨(field, spec), hentry, by simp [htarget]⟩
    obtain ⟨ref, hmem, href⟩ := exists_of_mem_left (refers_of_relate h.references_eq) hrelation
    cases href with
    | column htable hkey _ =>
      exact ⟨_, List.mem_append_right _ (List.mem_filterMap.2 ⟨_, hmem, rfl⟩),
        .reference htarget htable hkey⟩
    | link _ hmany =>
      rw [hone] at hmany
      cases hmany

/-- The key of a table has the name of a field just when the field is declared as the key. -/
theorem primaryKey_eq_iff (h : part.Compiled settings domain tables)
    (hentry : (field, spec) ∈ part.entry.2.fields.entries) :
    part.plain.primaryKey = field ↔ spec.primaryKey = true := by
  obtain ⟨own, hplain⟩ := ownTable_eq_ok h.plain_eq
  have hmem : spec.primaryKey = true ↔ field ∈ part.entry.2.keyFields := by
    constructor
    · exact fun hkey => List.mem_map.2 ⟨(field, spec), List.mem_filter.2 ⟨hentry, hkey⟩, rfl⟩
    · intro hkey
      obtain ⟨⟨_, other⟩, hother, rfl⟩ := List.mem_map.1 hkey
      obtain ⟨hother, hprimary⟩ := List.mem_filter.1 hother
      rw [← NameMap.get?_eq_some_iff] at hentry hother
      obtain rfl := Option.some.inj (hentry.symm.trans hother)
      exact hprimary
  rw [hmem, hplain.primaryKey_eq]
  cases hkeys : part.entry.2.keyFields with
  | nil =>
    -- the name of the generated key is reserved
    refine iff_of_false (fun heq => not_reserved hplain hentry ?_) List.not_mem_nil
    rw [reservedNames, hkeys]
    exact List.mem_append_right _ (List.mem_singleton.2 heq.symm)
  | cons key rest =>
    obtain rfl : rest = [] := by
      have hone := hplain.one_key
      rw [hkeys] at hone
      simpa using hone
    rw [List.head?_cons, Option.getD_some, List.mem_singleton]
    exact eq_comm

/-- The name of a field is not set beside the fields. -/
theorem field_not_set (h : part.Compiled settings domain tables)
    (hentry : (field, spec) ∈ part.entry.2.fields.entries) :
    field ∉ Change.stampColumns ∧ part.plain.deletedColumn ≠ some field := by
  obtain ⟨own, hplain⟩ := ownTable_eq_ok h.plain_eq
  have hreserved : field ∉ reservedNames settings part.entry.2 := not_reserved hplain hentry
  simp only [reservedNames, List.mem_append, not_or] at hreserved
  obtain ⟨⟨hstamp, hflag⟩, -⟩ := hreserved
  refine ⟨hstamp, ?_⟩
  rw [hplain.deletedColumn_eq]
  split
  · rename_i hsoft
    rw [if_pos hsoft, List.mem_singleton] at hflag
    exact fun heq => hflag (Option.some.inj heq).symm
  · exact nofun

/-- The column of an ordinary field is an ordinary one. -/
theorem ordinary_of_field (h : part.Compiled settings domain tables) {type : ColumnType}
    (hentry : (field, spec) ∈ part.entry.2.fields.entries) (hordinary : spec.isOrdinary = true)
    (hmem : ordinaryColumn field spec type ∈ part.related.columns) (links : List BuiltLink) :
    (part.base links).Ordinary (ordinaryColumn field spec type) where
  mem := hmem
  owns := owns_of_field h hmem (mem_keys_of_entry hentry)
  not_key hkey := by
    have hprimary := (primaryKey_eq_iff h hentry).1 hkey.symm
    simp [Field.isOrdinary, hprimary] at hordinary
  not_stamp := (field_not_set h hentry).1
  not_flag := (field_not_set h hentry).2
  not_numbered := rfl
  not_stamped := rfl

/-! ### Columns with a default -/

/-- No column that points at a resource stands before one that has a default. -/
theorem split_of_default (h : part.Compiled settings domain tables) (hc : c ∈ part.related.columns)
    {v : Value} (hv : c.default? = some v) :
    ∃ before after, part.related.columns = before ++ c :: after
      ∧ ∀ d ∈ before ++ [c], d.references = none := by
  have hplain : c ∈ part.plain.columns := by
    rcases List.mem_append.1 (show c ∈ part.plain.columns ++ _ from hc) with hplain | href
    · exact hplain
    · obtain ⟨_, _, ref, href, hcolumn⟩ :=
        exists_of_mem_filterMap (refers_of_relate h.references_eq) href
      obtain ⟨_, _, _, _, _, rfl⟩ := column_of_reference href hcolumn
      cases hv
  obtain ⟨before, after, hsplit⟩ := List.append_of_mem hplain
  refine ⟨before, after ++ part.references.filterMap Reference.column?, ?_, fun d hd => ?_⟩
  · show part.plain.columns ++ _ = _
    rw [hsplit, List.append_assoc, List.cons_append]
  · refine references_of_ownTable h.plain_eq d ?_
    rw [hsplit]
    simpa [or_assoc] using Or.inl (b := d ∈ after) (List.mem_append.1 hd)

/-- A column whose default is null is neither stamped nor numbered. -/
theorem of_null_default (h : part.Compiled settings domain tables) (hc : c ∈ part.related.columns)
    (hnull : c.default? = some .null) : c.name ∉ Change.stampColumns ∧ c.autoIncrement = false := by
  cases origin_of_mem h hc with
  | identity => cases hnull
  | stamp => cases hnull
  | flag => cases hnull
  | reference => cases hnull
  | field hentry _ hdeclares =>
    refine ⟨hdeclares.name_eq ▸ (field_not_set h hentry).1, Bool.eq_false_iff.2 fun hnumber => ?_⟩
    rw [hdeclares.key_default (hdeclares.number_key hnumber)] at hnull
    cases hnull

end Part

end Compile

end RecordStore
