import RecordStore.Proofs.Document

/-!
# Rows that a filter finds

Which rows of a resource a filter finds, told by the filter itself: its entries and those of the
datasource hold, and the row is not flagged as deleted, unless one of the two filters is about the
flag. The predicate into which the filter is translated says the same of every row.

* **`FilterEntry.holds`**, **`Table.finds`** — what filters say of rows.
* **`Predicate.holds_of_ofFilter`** — the predicate of a filter holds of the rows that the filter
  finds.
-/

namespace RecordStore

/-! ## Filters on rows -/

/-- The value with which an operator compares the cells of a column: a text that spells a number or
a truth value is taken for it, each item of a list for itself, and a pattern as it is written. -/
def Operator.compared (op : Operator) (type : ColumnType) (v : Value) : Value :=
  if op = .isIn then .array ((Change.memberValues v).map type.interpret)
  else if op.takesPattern then v
  else type.interpret v

/-- Whether a row satisfies an entry of a filter. -/
def FilterEntry.holds (entry : FilterEntry) (table : Table) (row : Record) : Bool :=
  (table.column? entry.field).any fun c =>
    entry.op.accepts c.type (row.cell entry.field) (entry.op.compared c.type entry.value)

/-- Whether a row satisfies all entries of a filter. -/
def Filter.holds (filter : Filter) (table : Table) (row : Record) : Bool :=
  filter.all (·.holds table row)

/-- Whether the flag of deleted rows decides what is found, which it does not where a filter is
about it. -/
def Table.hidesDeleted (table : Table) (filter : Filter) (deleted : String) : Bool :=
  !filter.references deleted && !(Filter.ofRecord table.defaultFilter).references deleted

/-- Whether a filter finds a row: the row satisfies the filter and that of the datasource, and it is
not deleted, where that decides. -/
def Table.finds (table : Table) (filter : Filter) (row : Record) : Bool :=
  filter.holds table row && (Filter.ofRecord table.defaultFilter).holds table row
    && table.deletedColumn.all fun deleted =>
      !table.hidesDeleted filter deleted || decide (row.cell deleted = .bool false)

/-! ## Their predicates -/

/-- In a column of any type only `false` equals `false`. -/
theorem ColumnType.equal_false_iff (type : ColumnType) (v : Value) :
    type.equal v (.bool false) = true ↔ v = .bool false := by
  unfold ColumnType.equal
  split
  · rw [Value.same_iff]
    cases v <;> simp [Value.canonical]
  · cases v with
    | bool b => cases b <;> simp [ColumnType.compare?]
    | _ => simp [ColumnType.compare?, ColumnType.compareNumbers?, Value.integer?, Value.double?]

namespace Predicate

variable {table : Table} {row : Record}

/-- A conjunction holds when all its parts do, however it is flattened. -/
theorem holds_all (columns : List Column) (row : Record) (ps : List Predicate) :
    (all ps).holds columns row = ps.all (holds columns row) := by
  have hparts (p : Predicate) : p.parts.all (holds columns row) = p.holds columns row := by
    cases p with
    | compare column op v => simp [parts]
    | and qs => rw [holds_and]; rfl
  have hflat : (ps.flatMap parts).all (holds columns row) = ps.all (holds columns row) := by
    rw [List.all_flatMap]
    exact congrArg ps.all (funext hparts)
  unfold all
  split
  · rename_i p hone
    rw [← hflat, hone, List.all_cons, List.all_nil, Bool.and_true]
  · rw [holds_and, hflat]

theorem eq_interpret_of_scalar {field : String} {type : ColumnType} {v w : Value}
    (h : scalar field type v = .ok w) : w = type.interpret v := by
  unfold scalar at h
  dsimp only at h
  split at h
  · cases h
  · split at h
    · exact (Except.ok.inj h).symm
    · cases h

theorem interpreted_of_mapM {field : String} {type : ColumnType} {items values : List Value}
    (h : items.mapM (scalar field type) = .ok values) : values = items.map type.interpret := by
  induction mapM_eq_ok_iff.1 h with
  | nil => rfl
  | cons hfirst hrest ih =>
    rw [List.map_cons, eq_interpret_of_scalar hfirst, ih (mapM_eq_ok_iff.2 hrest)]

/-- What an operator compares with, if the filter's value is one that it can take. -/
theorem eq_compared_of_operand {field : String} {type : ColumnType} {op : Operator} {v w : Value}
    (h : operand field type op v = .ok w) : w = op.compared type v := by
  unfold operand at h
  unfold Operator.compared
  split at h
  · rename_i hop
    rw [if_pos hop]
    cases v with
    | array items =>
      obtain ⟨values, hvalues, rfl⟩ := map_eq_ok_iff.1 h
      rw [interpreted_of_mapM hvalues]
      rfl
    | _ => cases h
  · rename_i hop
    rw [if_neg hop]
    split at h
    · rename_i hpattern
      rw [if_pos hpattern]
      unfold patternOperand at h
      split at h <;> split at h <;> cases h
      rfl
    · rename_i hpattern
      rw [if_neg hpattern]
      obtain ⟨x, hx, hw⟩ := bind_eq_ok_iff.1 h
      rw [← eq_interpret_of_scalar hx]
      split at hw
      · cases hw
      · exact (Except.ok.inj hw).symm

/-- The predicate of an entry holds of a row exactly if the entry does. -/
theorem holds_of_ofEntry {entry : FilterEntry} {p : Predicate} (h : ofEntry table entry = .ok p)
    (row : Record) : p.holds table.columns row = entry.holds table row := by
  unfold ofEntry at h
  cases hcolumn : table.column? entry.field with
  | none =>
    rw [hcolumn] at h
    cases h
  | some c =>
    rw [hcolumn] at h
    dsimp only at h
    split at h
    · cases h
    · obtain ⟨v, hv, rfl⟩ := map_eq_ok_iff.1 h
      have hname := (Table.mem_of_column? hcolumn).2
      have htype : typeIn table.columns entry.field = c.type := by
        rw [typeIn, ← Table.column?, hcolumn]
        rfl
      rw [holds, hname, htype, FilterEntry.holds, hcolumn, eq_compared_of_operand hv]
      rfl

/-- The predicates of the entries hold when the entries do. -/
theorem all_holds_of_entries {filter : Filter} {ps : List Predicate}
    (h : filter.mapM (ofEntry table) = .ok ps) (row : Record) :
    ps.all (holds table.columns row) = filter.holds table row := by
  rw [Filter.holds]
  induction mapM_eq_ok_iff.1 h with
  | nil => rfl
  | cons hfirst hrest ih =>
    rw [List.all_cons, List.all_cons, ih (mapM_eq_ok_iff.2 hrest), holds_of_ofEntry hfirst]

/-- A filter is translated entry by entry: what is asked for, the filter of the datasource and what
hides deleted rows. -/
theorem ofFilter_eq_ok_iff {filter : Filter} {source : FilterSource} {showDeleted : Bool}
    {p : Predicate} : ofFilter table filter source showDeleted = .ok p
      ↔ ∃ asked given, filter.mapM (ofSourceEntry table source) = .ok asked
        ∧ (Filter.ofRecord table.defaultFilter).mapM (ofEntry table) = .ok given
        ∧ p = .all (asked ++ given
          ++ visibility table filter (Filter.ofRecord table.defaultFilter) showDeleted) := by
  unfold ofFilter
  simp only [bind_eq_ok_iff]
  constructor
  · rintro ⟨asked, hasked, given, hgiven, hp⟩
    exact ⟨asked, given, hasked, hgiven, (Except.ok.inj hp).symm⟩
  · rintro ⟨asked, given, hasked, hgiven, rfl⟩
    exact ⟨asked, hasked, given, hgiven, rfl⟩

/-- The rule about deleted rows holds of rows that are not flagged, where the flag decides. -/
theorem all_holds_visibility (columns : List Column) (filter : Filter) (row : Record) :
    (visibility table filter (Filter.ofRecord table.defaultFilter) false).all (holds columns row)
      = table.deletedColumn.all fun deleted =>
        !table.hidesDeleted filter deleted || decide (row.cell deleted = .bool false) := by
  have hflag (deleted : String) : (eq deleted (.bool false)).holds columns row
      = decide (row.cell deleted = .bool false) := by
    rw [Bool.eq_iff_iff, decide_eq_true_iff, eq, holds]
    show (!_ && ColumnType.equal _ _ _) = true ↔ _
    rw [Bool.and_eq_true, ColumnType.equal_false_iff]
    exact ⟨And.right, fun h => ⟨by rw [h]; rfl, h⟩⟩
  unfold visibility
  cases table.deletedColumn with
  | none => rfl
  | some deleted =>
    dsimp only [Option.all_some]
    rw [Bool.not_false, Bool.true_and]
    change List.all (if table.hidesDeleted filter deleted = true then _ else _) _ = _
    cases table.hidesDeleted filter deleted with
    | false => rfl
    | true => rw [if_pos rfl, List.all_cons, List.all_nil, hflag, Bool.and_true,
        Bool.not_true, Bool.false_or]

/-- **The predicate of a lookup holds of the rows that the lookup finds.** -/
theorem holds_of_ofFilter {filter : Filter} {p : Predicate}
    (h : ofFilter table filter .lookup false = .ok p) (row : Record) :
    p.holds table.columns row = table.finds filter row := by
  obtain ⟨asked, given, hasked, hgiven, rfl⟩ := ofFilter_eq_ok_iff.1 h
  rw [holds_all, List.all_append, List.all_append, all_holds_of_entries hasked,
    all_holds_of_entries hgiven, all_holds_visibility, Table.finds]

end Predicate

/-- The rows that satisfy the predicate of a lookup are those that the lookup finds. -/
theorem StoredTable.matching_of_ofFilter {table : Table} {t : StoredTable} {lookup : Filter}
    {p : Predicate} (hcolumns : t.columns = table.columns)
    (hp : Predicate.ofFilter table lookup .lookup false = .ok p) :
    t.matching p = t.rows.filter (table.finds lookup) := by
  rw [matching, hcolumns]
  exact List.filter_congr fun row _ => Predicate.holds_of_ofFilter hp row

end RecordStore
