import RecordStore.Proofs.Cells

/-!
# Whole numbers in columns of doubles

A document's numbers are made doubles where a column holds doubles, so no change writes a whole
number there. Only two things are stored as they are: the default of a column and, by a replacement,
the key. Beside the key all whole numbers in a column of doubles are therefore one number, its
default.

* **`Schema.Coherent.isDouble_doubleOf_iff`** — a new row has a double in such a column unless the
  document leaves the column to a whole number.
* **`Table.HoldsDoubles`** — a whole number in a column of doubles that is not the key is the
  default.
* **`Catalog.holdsDoubles_run`** — after every run this is so in the rows of every resource.
-/

namespace RecordStore

open RecordStore.Action

/-- Whether a value is written as a whole number. -/
def Value.isWhole : Value → Bool
  | .int _ => true
  | _ => false

/-- What a column of doubles reads back as it was stored: null or a double. -/
def Value.IsDouble (v : Value) : Prop := v.isNull = false → ∃ x, v = .float x

namespace Value

theorem isDouble_null : Value.null.IsDouble := nofun

theorem not_isDouble_int (n : Int) : ¬ (Value.int n).IsDouble := by
  intro h
  obtain ⟨x, hx⟩ := h rfl
  cases hx

/-- Of the values that a column of doubles takes, only whole numbers are not doubles. -/
theorem isDouble_iff {v : Value} (h : ColumnType.float.accepts v = true) :
    v.IsDouble ↔ v.isWhole = false := by
  cases hnull : v.isNull with
  | true => cases v <;> simp_all [IsDouble, isWhole, isNull]
  | false =>
    rcases ColumnType.accepts_float h hnull with ⟨n, rfl⟩ | ⟨x, rfl⟩
    · exact iff_of_false (not_isDouble_int n) (by simp [isWhole])
    · exact iff_of_true (fun _ => ⟨x, rfl⟩) rfl

theorem isDouble_asDouble {v : Value} (h : ColumnType.float.accepts v = true) :
    v.asDouble.IsDouble := by
  intro hnull
  rw [isNull_asDouble] at hnull
  exact ColumnType.asDouble_eq_float h hnull

end Value

/-! ## Columns of doubles

A column of doubles shares its name with no other one. So it is no stamp and is not numbered, and
its cell is the one that was given, with numbers made doubles, or its default, or null. -/

section Columns

variable {schema : Schema} {table base : Table} {c : Column}

theorem Schema.Coherent.double_not_stamp (hco : schema.Coherent) (hbase : base ∈ schema.bases)
    (hc : c ∈ base.columns) (hfloat : c.type = .float) : c.name ∉ Change.stampColumns := by
  intro hstamp
  obtain ⟨d, hd, hname, -, htype⟩ := hco.stamped base hbase c.name hstamp
  rw [hco.lone base hbase c hc (.inl hfloat) d hd hname, hfloat] at htype
  cases htype

/-- A column of doubles is not numbered, and no time is filled in. -/
theorem Schema.Coherent.double_not_generated (hco : schema.Coherent) (hbase : base ∈ schema.bases)
    (hc : c ∈ base.columns) (hfloat : c.type = .float) :
    c.autoIncrement = false ∧ c.defaultNow = false := by
  constructor
  · by_contra hnumber
    have htype :=
      (hco.numbered base (Schema.mem_physical_of_base hbase) c hc (by simpa using hnumber)).2
    rw [hfloat] at htype
    cases htype
  · by_contra hnow
    exact hco.double_not_stamp hbase hc hfloat
      (hco.stamps_only base hbase c hc (by simpa using hnow))

/-- Of a column of doubles nothing but the default is filled in. -/
theorem Schema.Coherent.filling_double (hco : schema.Coherent) (hbase : base ∈ schema.bases)
    (hc : c ∈ base.columns) (hfloat : c.type = .float) (now : Value) (n : Int) :
    StoredTable.filling now n c = c.default?.getD .null := by
  obtain ⟨hauto, hnow⟩ := hco.double_not_generated hbase hc hfloat
  simp [StoredTable.filling, hauto, hnow]

theorem get?_withDoubles_double (hshares : table.SharesRows base) (hc : c ∈ base.columns)
    (hfloat : c.type = .float) (r : Record) :
    (Change.withDoubles table r).get? c.name = (r.get? c.name).map Value.asDouble := by
  have hdouble : c.name ∈ Change.doubleNames table :=
    Change.mem_doubleNames.2 ⟨c, hshares.columns.symm ▸ hc, rfl, hfloat⟩
  rw [Change.get?_withDoubles, if_pos hdouble]

/-- What a new row has in a column of doubles: the number that the document gives as a double, or
the default, or null. -/
def Column.doubleOf (c : Column) (doc : Record) : Value :=
  ((doc.get? c.name).map Value.asDouble).getD (c.default?.getD .null)

/-- What a checked document stores in a column of doubles is one, unless it leaves the column to a
default that is a whole number. -/
theorem Schema.Coherent.isDouble_doubleOf_iff (hco : schema.Coherent) (hbase : base ∈ schema.bases)
    (hshares : table.SharesRows base) {doc : Record}
    (hcheck : Document.checkPartial schema table doc = .ok ()) (hc : c ∈ base.columns)
    (hfloat : c.type = .float) : (c.doubleOf doc).IsDouble
      ↔ ¬ (doc.get? c.name = none ∧ c.default?.any Value.isWhole = true) := by
  have hfound := Table.column?_of_lone hc (hco.lone base hbase c hc (.inl hfloat))
  rw [Column.doubleOf]
  cases hv : doc.get? c.name with
  | some v =>
    have haccepts := Document.accepts_of_check hcheck hv ((hshares.column? _).trans hfound)
    rw [hfloat] at haccepts
    exact iff_of_true (Value.isDouble_asDouble haccepts) (by simp)
  | none =>
    cases hd : c.default? with
    | some d =>
      have haccepts := hco.default_accepted base hbase c hc d hd
      rw [hfloat] at haccepts
      simpa using Value.isDouble_iff haccepts
    | none => simpa using Value.isDouble_null

/-- What a column of doubles stores is what is given as a double, or the default, or null. -/
theorem Column.doubleOf_eq (hfloat : c.type = .float) (doc : Record) :
    c.doubleOf doc = ((doc.get? c.name).map c.stored).getD (c.default?.getD .null) := by
  have hstored : c.stored = Value.asDouble := funext fun v => if_pos hfloat
  rw [Column.doubleOf, hstored]

theorem Schema.Coherent.cell_inserted_double (hco : schema.Coherent) (hbase : base ∈ schema.bases)
    (hshares : table.SharesRows base) (hc : c ∈ base.columns) (hfloat : c.type = .float)
    {t : StoredTable} (hcolumns : t.columns = base.columns) (hcounter : isSigned64 t.nextId = true)
    {now : Time.Instant} {doc row : Record} {next : Int}
    (hfill : t.fill (.string now.text) (Change.insertedRow table now doc) = (row, next)) :
    row.cell c.name = c.doubleOf doc := by
  obtain ⟨n, hcell⟩ := hco.cell_inserted hbase hshares hc (hco.lone base hbase c hc (.inl hfloat))
    (hco.double_not_stamp hbase hc hfloat) hcolumns hcounter hfill
  rw [hcell, hco.filling_double hbase hc hfloat, Column.doubleOf_eq hfloat]

end Columns

/-! ## Rows that hold doubles -/

/-- A whole number that a record has in a column of doubles, other than the key, is the default
there. -/
def Table.HoldsDoubles (base : Table) (r : Record) : Prop :=
  ∀ c ∈ base.columns, c.type = .float →
    c.name ≠ base.primaryKey → ∀ n, r.get? c.name = some (.int n) →
    c.default? = some (.int n)

/-- No number is a whole one once it is made a double. -/
theorem Value.asDouble_ne_int (v : Value) (n : Int) : v.asDouble ≠ .int n := by
  cases h : v.double? with
  | some x =>
    rw [Value.asDouble_of_double? h]
    exact nofun
  | none =>
    rw [Value.asDouble_of_none h]
    rintro rfl
    cases h

/-- A column of doubles is an ordinary one, unless it is the key. -/
theorem Schema.Coherent.ordinary_double {schema : Schema} {base : Table} {c : Column}
    (hco : schema.Coherent) (hbase : base ∈ schema.bases) (hc : c ∈ base.columns)
    (hfloat : c.type = .float) (hkey : c.name ≠ base.primaryKey) : base.Ordinary c where
  mem := hc
  owns := hco.lone base hbase c hc (.inl hfloat)
  not_key := hkey
  not_stamp := hco.double_not_stamp hbase hc hfloat
  not_flag hflag := by
    obtain ⟨d, hd, hname, hdefault⟩ := hco.flagged base hbase c.name hflag
    obtain rfl := hco.lone base hbase c hc (.inl hfloat) d hd hname
    have haccepts := hco.default_accepted base hbase d hd _ hdefault
    rw [hfloat] at haccepts
    cases haccepts
  not_numbered := (hco.double_not_generated hbase hc hfloat).1
  not_stamped := (hco.double_not_generated hbase hc hfloat).2

/-- A whole number comes from a default. -/
theorem Schema.grants_doubles (schema : Schema) : schema.Grants fun c v =>
    c.type = .float → ∀ n, v = .int n → c.default? = some (.int n) where
  given _ _ c _ v _ hfloat n hn := by
    rw [Column.stored, if_pos hfloat] at hn
    exact absurd hn (v.asDouble_ne_int n)
  filled _ _ c _ _ n hn := by
    cases hdefault : c.default? with
    | some v => exact congrArg some (by rwa [hdefault] at hn)
    | none =>
      rw [hdefault] at hn
      cases hn

/-- The rows of every resource hold doubles. -/
def Store.HoldsDoubles (schema : Schema) (s : Store) : Prop :=
  s.OfBases schema fun base t => ∀ row ∈ t.rows, base.HoldsDoubles row

/-- **After every run a whole number in a column of doubles is the default of the column, or a
key.** -/
theorem Catalog.holdsDoubles_run {catalog : Catalog} (hco : catalog.schema.Coherent)
    (steps : List Step) :
    (catalog.run steps).store.HoldsDoubles catalog.schema := by
  intro base hbase t ht row hrow c hc hfloat hkey n hn
  exact hasCells_run hco (Schema.grants_doubles _) steps base hbase t ht row hrow c
    (hco.ordinary_double hbase hc hfloat hkey) _ hn hfloat n rfl

end RecordStore
