import RecordStore.Proofs.Meaning
import RecordStore.Proofs.Pages
import RecordStore.Proofs.Translation

/-!
# How operators are related

Six operators compare the cells of a column with one value, and one compares them with the items of
a list. All of them ask one comparison of two values for its outcome, so at most one of equality and
the two strict orders holds of a cell, and the weaker operators follow from these. That one of the
three does hold takes more: the cell must be comparable with the value, which every value of the
column is. A stamp that was taken past the year 9999 is no date, and neither equals, precedes nor
follows one.

* **`Operator.Related`** — how the comparisons of a cell with one value depend on each other.
* **`Operator.Decides`** — exactly one of equality and the two strict orders holds.
* **`Catalog.operators_related`** — the operators on the rows of every run.
-/

namespace RecordStore

/-! ## Cells -/

namespace Operator

/-- Whether an operator compares with one value, and neither with a pattern nor with a list. -/
def comparesOne (op : Operator) : Bool := op != .isIn && !op.takesPattern

/-- How the comparisons of a cell with one value depend on each other: at most one of equality and
the two strict orders holds, the weaker orders hold when the strict one or equality does, inequality
holds when equality does not, and a null cell satisfies none of them. -/
structure Related (cell : Value) (satisfied : Operator → Bool) : Prop where
  exclusive : ∀ op ∈ [Operator.eq, .lt, .gt], ∀ other ∈ [Operator.eq, .lt, .gt],
    satisfied op = true → satisfied other = true → op = other
  lte : satisfied .lte = (satisfied .lt || satisfied .eq)
  gte : satisfied .gte = (satisfied .gt || satisfied .eq)
  ne : satisfied .ne = (!cell.isNull && !satisfied .eq)
  null : cell.isNull = true → ∀ op, op.comparesOne = true → satisfied op = false

/-- Exactly one of equality and the two strict orders holds. -/
def Decides (satisfied : Operator → Bool) : Prop :=
  ∃! op, op ∈ [Operator.eq, .lt, .gt] ∧ satisfied op = true

variable {type : ColumnType} {cell v : Value}

theorem accepts_of_value (op : Operator) (hv : v.isNull = false) :
    op.accepts type cell v = (!cell.isNull && op.holds type cell v) := by
  have hnull : v ≠ .null := by
    rintro rfl
    cases hv
  exact accepts_eq (fun _ => hnull) fun _ => hnull

/-- The comparisons of every cell with a value are related, be the two comparable or not. -/
theorem related_accepts (hjson : type ≠ .json) (cell : Value) (hv : v.isNull = false) :
    Related cell fun op => op.accepts type cell v where
  exclusive := by
    -- the three ask one comparison, each for an outcome of its own
    simp only [List.forall_mem_cons, accepts_of_value _ hv, holds, ColumnType.equal, if_neg hjson,
      Bool.and_eq_true, beq_iff_eq]
    rcases type.compare? cell v with _ | outcome
    · simp
    · cases outcome <;> simp
  lte := by
    simp only [accepts_of_value _ hv, holds, ColumnType.equal, if_neg hjson,
      Bool.and_or_distrib_left]
  gte := by
    simp only [accepts_of_value _ hv, holds, ColumnType.equal, if_neg hjson,
      Bool.and_or_distrib_left]
  ne := by
    simp only [accepts_of_value _ hv, holds]
    cases cell.isNull <;> rfl
  null hcell op _ := by rw [accepts_of_value op hv, hcell, Bool.not_true, Bool.false_and]

/-- A cell that can be compared with a value is equal to it, before it or after it. -/
theorem decides_of_compare? (hjson : type ≠ .json) (hcell : cell.isNull = false)
    (hv : v.isNull = false) {o : Ordering} (h : type.compare? cell v = some o) :
    Decides fun op => op.accepts type cell v := by
  simp only [Decides, accepts_of_value _ hv, hcell, Bool.not_false, Bool.true_and]
  cases o with
  | eq => exact ⟨.eq, by simp [holds, ColumnType.equal, hjson, h], by simp [holds, h]⟩
  | lt => exact ⟨.lt, by simp [holds, h], by simp [holds, ColumnType.equal, hjson, h]⟩
  | gt => exact ⟨.gt, by simp [holds, h], by simp [holds, ColumnType.equal, hjson, h]⟩

theorem decides_of_accepts (hjson : type ≠ .json) (hcell : type.accepts cell = true)
    (hfilled : cell.isNull = false) (hv : type.accepts v = true) (hvalue : v.isNull = false) :
    Decides fun op => op.accepts type cell v := by
  obtain ⟨o, ho⟩ := ColumnType.exists_compare? hjson ⟨hcell, hfilled⟩ ⟨hv, hvalue⟩
  exact decides_of_compare? hjson hfilled hvalue ho

/-- One of three that hold exactly once, as a sum. -/
theorem Decides.toNat_add {satisfied : Operator → Bool} (h : Decides satisfied) :
    (satisfied .lt).toNat + (satisfied .eq).toNat + (satisfied .gt).toNat = 1 := by
  obtain ⟨op, ⟨hmem, hop⟩, hunique⟩ := h
  have hother (other : Operator) (hother : other ∈ [Operator.eq, .lt, .gt]) (hne : other ≠ op) :
      satisfied other = false :=
    Bool.eq_false_iff.2 fun hholds => hne (hunique other ⟨hother, hholds⟩)
  simp only [List.mem_cons, List.not_mem_nil, or_false] at hmem
  obtain rfl | rfl | rfl := hmem
  · rw [hop, hother .lt (by simp) (by decide), hother .gt (by simp) (by decide)]
    rfl
  · rw [hop, hother .eq (by simp) (by decide), hother .gt (by simp) (by decide)]
    rfl
  · rw [hop, hother .eq (by simp) (by decide), hother .lt (by simp) (by decide)]
    rfl

/-- If each row whose cell is not null is decided, the three comparisons count these rows. -/
theorem countP_add_countP_add_countP {rows : List Record} {cell : Record → Value}
    {satisfied : Operator → Record → Bool}
    (hrelated : ∀ row ∈ rows, Related (cell row) fun op => satisfied op row)
    (hdecides : ∀ row ∈ rows, (cell row).isNull = false → Decides fun op => satisfied op row) :
    rows.countP (satisfied .lt) + rows.countP (satisfied .eq) + rows.countP (satisfied .gt)
      = rows.countP fun row => !(cell row).isNull := by
  induction rows with
  | nil => rfl
  | cons row rest ih =>
    have hrest := ih (fun other h => hrelated other (List.mem_cons_of_mem row h))
      fun other h => hdecides other (List.mem_cons_of_mem row h)
    have hrow : (satisfied .lt row).toNat + (satisfied .eq row).toNat + (satisfied .gt row).toNat
        = (!(cell row).isNull).toNat := by
      cases hnull : (cell row).isNull with
      | false => exact (hdecides row List.mem_cons_self hnull).toNat_add
      | true =>
        have hnone := (hrelated row List.mem_cons_self).null hnull
        rw [hnone .lt rfl, hnone .eq rfl, hnone .gt rfl]
        rfl
    have hite (b : Bool) : (if b = true then 1 else 0) = b.toNat := by cases b <;> rfl
    simp only [List.countP_cons, hite]
    omega

/-! ## What a filter gives to compare with -/

namespace Takes

variable {op : Operator} {w : Value} {items : List Value}

theorem accepts_one (hop : op.comparesOne = true) (h : op.Takes type v w) :
    type.accepts (type.interpret v) = true ∧ w = type.interpret v := by
  cases h with
  | list => cases hop
  | pattern hpattern => simp [comparesOne, hpattern] at hop
  | scalar _ _ _ haccepts => exact ⟨haccepts, rfl⟩

theorem accepts_items (h : isIn.Takes type (.array items) w) :
    (∀ v ∈ items, type.accepts (type.interpret v) = true)
      ∧ w = .array (items.map type.interpret) := by
  cases h with
  | list _ haccepts => exact ⟨haccepts, rfl⟩
  | scalar hin => exact absurd rfl hin

end Takes

end Operator

theorem Table.typeIn_column? {table : Table} {field : String} {c : Column}
    (h : table.column? field = some c) :
    typeIn table.columns field = c.type := by
  rw [typeIn, ← Table.column?, h]
  rfl

/-! ## Entries of filters -/

namespace Predicate

variable {table : Table} {field : String} {c : Column} {op : Operator} {v : Value} {p : Predicate}

/-- An entry that compares with one value is judged by the value alone, whatever the operator. -/
theorem accepts_of_ofEntry (hcolumn : table.column? field = some c) (hop : op.comparesOne = true)
    (h : ofEntry table ⟨field, op, v⟩ = .ok p) :
    c.type.accepts (c.type.interpret v) = true ∧ p = .compare field op (c.type.interpret v) := by
  obtain ⟨c', w, hcolumn', rfl, htakes⟩ := takes_of_ofEntry h
  obtain rfl := Option.some.inj (hcolumn.symm.trans hcolumn')
  obtain ⟨haccepts, rfl⟩ := Operator.Takes.accepts_one hop htakes
  exact ⟨haccepts, rfl⟩

theorem ofEntry_of_takes (hcolumn : table.column? field = some c) (hop : op.comparesOne = true)
    (h : op.Takes c.type v (c.type.interpret v)) :
    ofEntry table ⟨field, op, v⟩ = .ok (.compare field op (c.type.interpret v)) := by
  obtain ⟨p, hp⟩ := exists_ofEntry_iff.2
    (show table.TakesEntry ⟨field, op, v⟩ from ⟨c, c.type.interpret v, hcolumn, h⟩)
  rw [hp, (accepts_of_ofEntry hcolumn hop hp).2]

theorem ofEntry_of_accepts (hcolumn : table.column? field = some c) (hjson : c.type ≠ .json)
    (hop : op.comparesOne = true) (hv : v.isNull = false)
    (haccepts : c.type.accepts (c.type.interpret v) = true) :
    ofEntry table ⟨field, op, v⟩ = .ok (.compare field op (c.type.interpret v)) := by
  have hsingle : op ≠ .isIn ∧ op.takesPattern = false := by simpa [Operator.comparesOne] using hop
  exact ofEntry_of_takes hcolumn hop
    (.scalar hsingle.1 hsingle.2
      (fun _ => ⟨hjson, by rw [ColumnType.isNull_interpret, hv]⟩) haccepts)

/-- Every column can be asked whether it is filled. -/
theorem ofEntry_filled (hcolumn : table.column? field = some c) :
    ofEntry table ⟨field, .ne, .null⟩ = .ok (.compare field .ne .null) := by
  have hnull : c.type.interpret .null = .null := by cases c.type <;> rfl
  have htakes : Operator.ne.Takes c.type .null (c.type.interpret .null) :=
    .scalar nofun rfl nofun (by rw [hnull, ColumnType.accepts_null])
  rw [ofEntry_of_takes hcolumn rfl htakes, hnull]

/-- A list of values, none of them null, is accepted if each of them is to be compared by equality,
and a row satisfies it when it equals one of them. -/
theorem list_of_ofEntry {items : List Value} (hcolumn : table.column? field = some c)
    (hjson : c.type ≠ .json) (hitems : ∀ v ∈ items, v.isNull = false)
    (h : ofEntry table ⟨field, .isIn, .array items⟩ = .ok p) :
    (∀ v ∈ items, ofEntry table ⟨field, .eq, v⟩ = .ok (.compare field .eq (c.type.interpret v)))
      ∧ ∀ row, p.holds table.columns row = true
        ↔ ∃ v ∈ items, (compare field .eq (c.type.interpret v)).holds table.columns row = true := by
  obtain ⟨c', w, hcolumn', rfl, htakes⟩ := takes_of_ofEntry h
  obtain rfl := Option.some.inj (hcolumn.symm.trans hcolumn')
  obtain ⟨haccepts, rfl⟩ := Operator.Takes.accepts_items htakes
  refine ⟨fun v hv => ofEntry_of_accepts hcolumn hjson
    rfl (hitems v hv) (haccepts v hv), fun row => ?_⟩
  have hitem (v : Value) (hv : v ∈ items) :
      Operator.eq.accepts c.type (row.cell field) (c.type.interpret v)
        = (!(row.cell field).isNull && c.type.equal (row.cell field) (c.type.interpret v)) := by
    rw [Operator.accepts_of_value _
      (by rw [ColumnType.isNull_interpret, hitems v hv]), Operator.holds]
  simp only [holds, Table.typeIn_column? hcolumn]
  rw [Operator.accepts_of_value _ rfl, Operator.holds, List.any_map, Bool.and_eq_true,
    List.any_eq_true]
  constructor
  · rintro ⟨hfilled, v, hv, hequal⟩
    exact ⟨v, hv, by rw [hitem v hv, hfilled]; exact hequal⟩
  · rintro ⟨v, hv, hholds⟩
    rw [hitem v hv, Bool.and_eq_true] at hholds
    exact ⟨hholds.1, v, hv, hholds.2⟩

end Predicate

/-! ## Rows -/

/-- The rows of a table under the comparisons of a column with one value, beside the predicate that
the column is filled: the comparisons of every row are related, so at most one of equality and the
two strict orders holds; one of them does if the cell is a value of the column that is not null, and
if all cells are values of the column, the three count the filled rows. -/
structure StoredTable.ComparesBy (t : StoredTable) (field : String) (type : ColumnType)
    (compared : Operator → Predicate) (filled : Predicate) : Prop where
  related : ∀ row : Record, Operator.Related (row.cell field) fun op =>
    (compared op).holds t.columns row
  decides : ∀ row : Record, type.accepts (row.cell field) = true → (row.cell field).isNull = false →
    Operator.Decides fun op => (compared op).holds t.columns row
  counts : (∀ row ∈ t.rows, type.accepts (row.cell field) = true) →
    (t.matching (compared .lt)).length + (t.matching (compared .eq)).length
      + (t.matching (compared .gt)).length = (t.matching filled).length

/-- A value that a column accepts is compared with all cells of the column. -/
theorem StoredTable.comparesBy_of_accepts {t : StoredTable} {field : String} {type : ColumnType}
    {v : Value} (htype : typeIn t.columns field = type) (hjson : type ≠ .json)
    (haccepts : type.accepts v = true) (hv : v.isNull = false) :
    t.ComparesBy field type (fun op => .compare field op v) (.compare field .ne .null) := by
  have hholds (row : Record) (op : Operator) (w : Value) :
      (Predicate.compare field op w).holds t.columns row = op.accepts type (row.cell field) w := by
    rw [Predicate.holds, htype]
  have hrelated (row : Record) : Operator.Related (row.cell field)
      fun op => (Predicate.compare field op v).holds t.columns row := by
    simp only [hholds]
    exact Operator.related_accepts hjson _ hv
  have hdecides (row : Record) (hcell : type.accepts (row.cell field) = true)
      (hfilled : (row.cell field).isNull = false) : Operator.Decides
      fun op => (Predicate.compare field op v).holds t.columns row := by
    simp only [hholds]
    exact Operator.decides_of_accepts hjson hcell hfilled haccepts hv
  refine ⟨hrelated, hdecides, fun hcells => ?_⟩
  have hcount := Operator.countP_add_countP_add_countP (fun row _ => hrelated row)
    fun row hrow => hdecides row (hcells row hrow)
  simp only [StoredTable.matching, ← List.countP_eq_length_filter]
  rw [hcount]
  exact congrArg (List.countP · t.rows) (funext fun row => (hholds row .ne .null).symm)

namespace Catalog

variable {settings : Settings} {domain : Domain} {catalog : Catalog}
  {resource field : String} {table : Table}
  {t : StoredTable} {c : Column}

/-- **The operators on the rows of a run**, in a column that is none of documents. A value that is
not null and that one of the six operators accepts is accepted by all of them, and their comparisons
are related, decided and counted. The cells by which the rows are counted are values of the column,
if the names that the settings give are apart and the clock was regular. A list of values that are
not null is satisfied by the rows that equal one of them, each of which is accepted by itself. -/
theorem operators_related (hcompiles : Catalog.ofDomain settings domain = .ok catalog)
    (steps : List Step) (htable : catalog.schema.table resource = .ok table)
    (ht : (catalog.run steps).store.tables.get? table.name = some t)
    (hcolumn : table.column? field = some c) (hjson : c.type ≠ .json) :
    (∃ filled, Predicate.ofEntry table ⟨field, .ne, .null⟩ = .ok filled ∧
        ∀ v : Value, v.isNull = false → ∀ op : Operator, op.comparesOne = true →
          (∃ p, Predicate.ofEntry table ⟨field, op, v⟩ = .ok p) →
        ∃ compared : Operator → Predicate,
          (∀ op : Operator, op.comparesOne = true →
            Predicate.ofEntry table ⟨field, op, v⟩ = .ok (compared op))
          ∧ t.ComparesBy field c.type compared filled)
      ∧ (∀ items p, Predicate.ofEntry table ⟨field, .isIn, .array items⟩ = .ok p →
        (∀ v ∈ items, v.isNull = false) →
        ∃ equals : Value → Predicate,
          (∀ v ∈ items, Predicate.ofEntry table ⟨field, .eq, v⟩ = .ok (equals v))
          ∧ (∀ row, p.holds t.columns row = true
            ↔ ∃ v ∈ items, (equals v).holds t.columns row = true)
          ∧ ∀ row : Record, (row.cell field).isNull = true → p.holds t.columns row = false)
      ∧ (settings.NamesApart → (∀ step ∈ steps, step.1.IsRegular) →
        ∀ row ∈ t.rows, c.type.accepts (row.cell field) = true) := by
  have hco := coherent_of_ofDomain hcompiles
  obtain ⟨base, hbase, hshares⟩ := hco.shared table (Schema.mem_of_table htable).1
  have hphysical := Schema.mem_physical_of_base hbase
  rw [hshares.name] at ht
  have hcolumns : t.columns = table.columns :=
    ((regular_run hco steps).columns_eq base hphysical t ht).1.trans hshares.columns.symm
  have htype : typeIn t.columns field = c.type := hcolumns ▸ Table.typeIn_column? hcolumn
  refine ⟨⟨.compare field .ne .null, ?_, fun v hv op hop ⟨p, hp⟩ => ?_⟩,
    fun items p hp hitems => ?_,
    fun hnames hclock row hrow => ?_⟩
  · exact Predicate.ofEntry_filled hcolumn
  · obtain ⟨haccepts, -⟩ := Predicate.accepts_of_ofEntry hcolumn hop hp
    exact ⟨fun op => .compare field op (c.type.interpret v),
      fun op hop => Predicate.ofEntry_of_accepts hcolumn hjson hop hv haccepts,
      StoredTable.comparesBy_of_accepts htype hjson
        haccepts (by rw [ColumnType.isNull_interpret, hv])⟩
  · obtain ⟨hequals, hrows⟩ := Predicate.list_of_ofEntry hcolumn hjson hitems hp
    rw [← hcolumns] at hrows
    refine ⟨_, hequals, hrows, fun row hnull => Bool.eq_false_iff.2 fun hholds => ?_⟩
    obtain ⟨v, hv, hequal⟩ := (hrows row).1 hholds
    have hvalue : (c.type.interpret v).isNull = false := by
      rw [ColumnType.isNull_interpret, hitems v hv]
    rw [Predicate.holds, htype, (Operator.related_accepts hjson _ hvalue).null hnull .eq rfl]
      at hequal
    cases hequal
  · have hsorts : t.SortsBy ⟨field, .asc⟩ :=
      sortsBy_run (wellFormed_of_ofDomain hcompiles hnames) hclock hphysical ht (htype ▸ hjson)
    exact htype ▸ hsorts.2 row hrow

/-! ### A sample -/

/-- How many rows of a resource are before a value in a column, equal to it, after it, and filled at
all, if the column is none of documents and accepts the value. -/
def countsAround (catalog : Catalog) (resource field : String) (v : Value) (db : Database) :
    Option (List Nat) :=
  (catalog.schema.table resource).toOption.bind fun table =>
    ((table.column? field).filter (·.type ≠ .json)).bind fun _ =>
      (db.store.tables.get? table.name).bind fun t =>
        [⟨field, .lt, v⟩, ⟨field, .eq, v⟩, ⟨field, .gt, v⟩, ⟨field, .ne, .null⟩].mapM fun entry =>
          (Predicate.ofEntry table entry).toOption.map fun p => (t.matching p).length

/-- A second team, which nobody leads. -/
def leaderlessSteps : List Step := sampleSteps ++ [(⟨3, 0⟩, .insert "team" [{}])]

/-- The leaders of two teams, beside a key that is spelled out, and beside a list of keys. -/
theorem leaders_related : ∃ (table : Table) (t : StoredTable) (c : Column) (filled : Predicate)
    (compared : Operator → Predicate) (p : Predicate),
    sampleCatalog.schema.table "team" = .ok table
      ∧ (sampleCatalog.run leaderlessSteps).store.tables.get? table.name = some t
      ∧ Predicate.ofEntry table ⟨"lead", .gte, .string "1"⟩ = .ok (compared .gte)
      ∧ t.ComparesBy "lead" c.type compared filled
      ∧ (t.matching (compared .lt)).length + (t.matching (compared .eq)).length
          + (t.matching (compared .gt)).length = (t.matching filled).length
      ∧ Predicate.ofEntry table ⟨"lead", .isIn, .array [.int 7, .string "1"]⟩ = .ok p
      ∧ (∀ row : Record, (row.cell "lead").isNull = true → p.holds t.columns row = false)
      ∧ sampleCatalog.countsAround "team" "lead" (.string "1") (sampleCatalog.run leaderlessSteps)
        = some [0, 1, 0, 1] := by
  have hparts : ((sampleCatalog.schema.table "team").toOption.bind fun table =>
      (table.column? "lead").bind fun c =>
      ((sampleCatalog.run leaderlessSteps).store.tables.get? table.name).bind fun t =>
      (Predicate.ofEntry table ⟨"lead", .isIn, .array [.int 7, .string "1"]⟩).toOption.bind fun _ =>
      (Predicate.ofEntry table ⟨"lead", .lte, .string "1"⟩).toOption.map fun _ =>
        decide (c.type ≠ .json)) = some true := by
    decide +kernel
  obtain ⟨table, htable, hparts⟩ := Option.bind_eq_some_iff.1 hparts
  obtain ⟨c, hcolumn, hparts⟩ := Option.bind_eq_some_iff.1 hparts
  obtain ⟨t, ht, hparts⟩ := Option.bind_eq_some_iff.1 hparts
  obtain ⟨p, hp, hparts⟩ := Option.bind_eq_some_iff.1 hparts
  obtain ⟨q, hq, hjson⟩ := Option.map_eq_some_iff.1 hparts
  have htable := eq_ok_of_toOption htable
  have hp := eq_ok_of_toOption hp
  obtain ⟨⟨filled, -, hvalues⟩, hlists, hcells⟩ :=
    operators_related ofDomain_sample leaderlessSteps htable ht hcolumn (of_decide_eq_true hjson)
  obtain ⟨compared, hcompared, hby⟩ :=
    hvalues (.string "1") rfl .lte rfl ⟨q, eq_ok_of_toOption hq⟩
  obtain ⟨-, -, -, hnull⟩ := hlists [.int 7, .string "1"] p hp (by decide)
  exact ⟨table, t, c, filled, compared, p, htable, ht, hcompared .gte rfl, hby,
    hby.counts (hcells (by decide) (by decide)), hp, hnull, by decide +kernel⟩

/-- Filled cells that are neither before a value, nor equal to it, nor after it: a stamp of the year
10000 beside a date, and a flag of deleted rows, which stands in the place of a key, beside a
key. -/
theorem filled_cells_in_no_order :
    (Catalog.ofDomain {} sampleDomain = .ok sampleCatalog
      ∧ sampleCatalog.countsAround "person" "_created" (.string "2024-01-01T00:00:00Z")
        (sampleCatalog.run lastComesLate) = some [2, 0, 0, 3])
    ∧ Catalog.ofDomain sharedNameSettings (.ofList [("note", { softDelete := true })])
      = .ok sharedNameCatalog
      ∧ sharedNameCatalog.countsAround "note" "id" (.int 1) (sharedNameCatalog.run sharedNameSteps)
        = some [0, 1, 1, 3] := by
  refine ⟨⟨ofDomain_sample, ?_⟩, ofDomain_compiled rfl, ?_⟩
  all_goals decide +kernel

end Catalog

end RecordStore
