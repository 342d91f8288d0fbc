import RecordStore.Store.Row
import RecordStore.Proofs.Except

/-!
# What becomes of a row

How the cells of a new or changed row come from the record it is made of, and what a row has to be
for the rules of its table to be kept.

* **`fill`** gives a row the columns of its table, each with the record's value or with a filling
  (`fill_cell`, `keys_fill`), and numbers that stay within 64 bits (`fill_counter`).
* **`assign`** keeps the columns of a row and replaces the cells that the record gives
  (`keys_assign`, `get?_assign`).
* **`select`** returns matching rows, cut to columns (`mem_select`, `get?_cut`).
* **`checkRules`** succeeds for rows that are admissible (`Admissible`).
-/

namespace RecordStore

theorem Record.cell_eq_of_get? {r : Record} {name : String} {v : Value} (h : r.get? name = some v) :
    r.cell name = v := by
  rw [Record.cell, h, Option.getD_some]

theorem Record.get?_of_mem_keys {r : Record} {name : String} (h : name ∈ r.keys) :
    r.get? name = some (r.cell name) := by
  obtain ⟨v, hv⟩ := Option.isSome_iff_exists.1 ((NameMap.mem_keys_iff r name).1 h)
  rw [hv, Record.cell_eq_of_get? hv]

/-! ## Tables of a store -/

theorem Store.table_eq_ok_iff (s : Store) (name : String) (t : StoredTable) :
    s.table name = .ok t ↔ s.tables.get? name = some t := by
  unfold Store.table
  cases s.tables.get? name <;> simp

theorem Store.put_put (s : Store) (name : String) (t t' : StoredTable) :
    (s.put name t).put name t' = s.put name t' := by
  unfold Store.put
  rw [NameMap.insert_insert]

theorem Store.put_of_get? {s : Store} {name : String} {t : StoredTable}
    (h : s.tables.get? name = some t) : s.put name t = s := by
  rw [Store.put, NameMap.insert_of_get? h]

theorem Store.get?_put (s : Store) (name other : String) (t : StoredTable) :
    (s.put name t).tables.get? other = if other = name then some t else s.tables.get? other :=
  NameMap.get?_insert ..

theorem Store.rows_put (s : Store) (name other : String) (t : StoredTable) :
    (s.put name t).rows other = if other = name then t.rows else s.rows other := by
  unfold Store.rows Store.put
  rw [NameMap.get?_insert]
  split <;> rfl

theorem Store.rows_of_get? {s : Store} {name : String} {t : StoredTable}
    (h : s.tables.get? name = some t) : s.rows name = t.rows := by
  simp [Store.rows, h]

theorem Store.get?_of_mem_rows {s : Store} {name : String} {row : Record} (h : row ∈ s.rows name) :
    ∃ t, s.tables.get? name = some t ∧ row ∈ t.rows := by
  cases hget : s.tables.get? name with
  | none => simp [Store.rows, hget] at h
  | some t => exact ⟨t, rfl, Store.rows_of_get? hget ▸ h⟩

namespace StoredTable

/-! ## Columns that exist -/

/-- A record can be stored exactly if it names columns of the table. -/
theorem checkColumns_eq_ok_iff (t : StoredTable) (record : Record) :
    t.checkColumns record = .ok () ↔ ∀ name ∈ record.keys, name ∈ t.columns.map Column.name := by
  unfold checkColumns
  split
  · rename_i name hfind
    have hmem := List.mem_of_find?_eq_some hfind
    -- the name that was found is no column: both sides are false
    have habsent := List.find?_some hfind
    constructor
    · simp
    · intro h
      obtain ⟨c, hc, hname⟩ := List.mem_map.1 (h name hmem)
      simp only [Bool.not_eq_true', List.any_eq_false] at habsent
      exact absurd (beq_iff_eq.2 hname) (habsent c hc)
  · rename_i hfind
    simp only [true_iff]
    intro name hname
    have := List.find?_eq_none.1 hfind name hname
    simp_all

/-! ## Filling

The columns are filled from left to right. What a column is filled with does not depend on the cells
before it but for the numbers that were used up. -/

section Fill

variable {now : Value} {record : Record}

theorem get?_fillColumns_of_not_mem {columns : List Column} {name : String} (state : Record × Int)
    (h : name ∉ columns.map Column.name) :
    (columns.foldl (fillColumn now record) state).1.get? name = state.1.get? name := by
  -- on the columns that are still to be filled, with what is filled so far as the state
  induction columns generalizing state with
  | nil => rfl
  | cons c rest ih =>
    simp only [List.map_cons, List.mem_cons, not_or] at h
    rw [List.foldl_cons, ih _ h.2]
    exact NameMap.get?_insert_of_ne _ _ h.1

/-- A value that the record gives is the cell of the row. -/
theorem get?_fillColumns_of_given {columns : List Column} {name : String} {v : Value}
    (state : Record × Int) (hv : record.get? name = some v) (h : name ∈ columns.map Column.name) :
    (columns.foldl (fillColumn now record) state).1.get? name = some v := by
  induction columns generalizing state with
  | nil => simp at h
  | cons c rest ih =>
    rw [List.foldl_cons]
    -- a later column of the name would write over this one
    by_cases hrest : name ∈ rest.map Column.name
    · exact ih _ hrest
    · have hname : name = c.name := by simpa [hrest] using h
      rw [get?_fillColumns_of_not_mem _ hrest]
      subst hname
      simp [fillColumn, hv]

theorem keys_fillColumns {columns : List Column} (state : Record × Int)
    (h : (state.1.keys ++ columns.map Column.name).Nodup) :
    (columns.foldl (fillColumn now record) state).1.keys
      = state.1.keys ++ columns.map Column.name := by
  induction columns generalizing state with
  | nil => simp
  | cons c rest ih =>
    -- a new name goes to the end, so the order of the columns is that of the keys
    have habsent : ¬ state.1.contains c.name = true := by
      rw [NameMap.contains_iff]
      intro hmem
      exact (List.nodup_append.1 h).2.2 _ hmem _ (by simp) rfl
    have hstep : (fillColumn now record state c).1.keys = state.1.keys ++ [c.name] := by
      simp only [fillColumn]
      rw [NameMap.keys_insert, if_neg habsent]
    rw [List.foldl_cons, ih _ (by rw [hstep]; simpa using h), hstep, List.map_cons,
      List.append_assoc, List.singleton_append]

theorem isSigned64_successor (n : Int) : isSigned64 (successor n) = true := by
  unfold isSigned64 successor
  have hlow := Int.le_bmod (x := n + 1) (m := 2 ^ 64) (by decide)
  have hhigh := Int.bmod_lt (x := n + 1) (m := 2 ^ 64) (by decide)
  simp only [Nat.pow_eq, Bool.and_eq_true, decide_eq_true_eq]
  omega

theorem isSigned64_max {m n : Int} (hm : isSigned64 m = true) (hn : isSigned64 n = true) :
    isSigned64 (max m n) = true := by
  rcases Int.le_total m n with h | h
  · rwa [Int.max_eq_right h]
  · rwa [Int.max_eq_left h]

theorem isSigned64_numberAfter {n : Int} (given : Option Value) (h : isSigned64 n = true) :
    isSigned64 (numberAfter n given) = true := by
  unfold numberAfter
  split
  · exact isSigned64_successor n
  · split
    · exact isSigned64_max h (isSigned64_successor _)
    · exact h

theorem fillColumn_counter {state : Record × Int} (c : Column) (h : isSigned64 state.2 = true) :
    isSigned64 (fillColumn now record state c).2 = true := by
  simp only [fillColumn]
  split
  · exact isSigned64_numberAfter _ h
  · exact h

theorem fillColumns_counter {columns : List Column} {state : Record × Int}
    (h : isSigned64 state.2 = true) :
    isSigned64 (columns.foldl (fillColumn now record) state).2 = true := by
  induction columns generalizing state with
  | nil => exact h
  | cons c rest ih => exact ih (fillColumn_counter c h)

/-- The cell of a column is the record's value, or a filling with a number of 64 bits. -/
theorem get?_fillColumns {columns : List Column} {state : Record × Int} {c : Column}
    (hnodup : (columns.map Column.name).Nodup) (hc : c ∈ columns)
    (hcounter : isSigned64 state.2 = true) :
    ∃ n, isSigned64 n = true ∧ (columns.foldl (fillColumn now record) state).1.get? c.name
      = some ((record.get? c.name).getD (filling now n c)) := by
  induction columns generalizing state with
  | nil => simp at hc
  | cons d rest ih =>
    rw [List.map_cons, List.nodup_cons] at hnodup
    rw [List.foldl_cons]
    rcases List.mem_cons.1 hc with rfl | hrest
    -- filled here: names differ, so no later column touches the cell
    · refine ⟨state.2, hcounter, ?_⟩
      rw [get?_fillColumns_of_not_mem _ hnodup.1]
      simp [fillColumn]
    · exact ih hnodup.2 hrest (fillColumn_counter d hcounter)

end Fill

section Fill

variable (t : StoredTable) (now : Value) (record : Record)

theorem keys_fill (h : (t.columns.map Column.name).Nodup) :
    (t.fill now record).1.keys = t.columns.map Column.name :=
  keys_fillColumns ({}, t.nextId) (by simpa using h)

theorem fill_counter (h : isSigned64 t.nextId = true) : isSigned64 (t.fill now record).2 = true :=
  fillColumns_counter h

theorem fill_given {name : String} {v : Value} (hv : record.get? name = some v)
    (h : name ∈ t.columns.map Column.name) : (t.fill now record).1.get? name = some v :=
  get?_fillColumns_of_given _ hv h

theorem fill_cell {c : Column} (hnodup : (t.columns.map Column.name).Nodup) (hc : c ∈ t.columns)
    (hcounter : isSigned64 t.nextId = true) :
    ∃ n, isSigned64 n = true
      ∧ (t.fill now record).1.cell c.name = (record.get? c.name).getD (filling now n c) := by
  obtain ⟨n, hn, hcell⟩ :=
    @get?_fillColumns now record t.columns ({}, t.nextId) c hnodup hc hcounter
  exact ⟨n, hn, Record.cell_eq_of_get? hcell⟩

/-- A column that is given nothing, and is neither numbered nor a stamp, has its default or null. -/
theorem cell_of_not_given {t : StoredTable} {now : Value} {record row : Record} {next : Int}
    (hfill : t.fill now record = (row, next)) {c : Column}
    (hnodup : (t.columns.map Column.name).Nodup) (hc : c ∈ t.columns)
    (hcounter : isSigned64 t.nextId = true) (hnone : record.get? c.name = none)
    (hauto : c.autoIncrement = false) (hnow : c.defaultNow = false) :
    row.cell c.name = c.default?.getD .null := by
  obtain ⟨n, -, hcell⟩ := fill_cell t now record hnodup hc hcounter
  rw [hfill, hnone] at hcell
  rw [hcell, Option.getD_none, filling, hauto, hnow]
  rfl

end Fill

/-! ## Changing -/

theorem assignCell_eq_ok_iff (row : Record) (entry : String × Value) (new : Record) :
    assignCell row entry = .ok new
      ↔ entry.1 ∈ row.keys ∧ row.insert entry.1 entry.2 = new := by
  unfold assignCell
  rw [← NameMap.contains_iff]
  split <;> simp_all

/-- Cells are assigned one after the other: the row keeps its names, and each name that is assigned
has its new value. -/
theorem foldlM_assignCell {entries : List (String × Value)} {row new : Record}
    (hnodup : (entries.map Prod.fst).Nodup) (h : entries.foldlM assignCell row = .ok new) :
    new.keys = row.keys ∧ ∀ name, new.get? name = (entries.lookup name).or (row.get? name) := by
  induction entries generalizing row with
  | nil =>
    obtain rfl : row = new := by simpa [pure, Except.pure] using h
    exact ⟨rfl, fun _ => rfl⟩
  | cons entry rest ih =>
    obtain ⟨key, value⟩ := entry
    rw [List.map_cons, List.nodup_cons] at hnodup
    rw [List.foldlM_cons] at h
    cases hstep : assignCell row (key, value) with
    | error e => simp [hstep, bind, Except.bind] at h
    | ok mid =>
      obtain ⟨hmem, rfl⟩ := (assignCell_eq_ok_iff ..).1 hstep
      simp only [hstep, bind, Except.bind] at h
      obtain ⟨hkeys, hcells⟩ := ih hnodup.2 h
      refine ⟨hkeys.trans (NameMap.keys_insert_of_mem _ hmem), fun name => ?_⟩
      rw [hcells name, List.lookup_cons, NameMap.get?_insert]
      -- names differ in the record, so a cell that is written is not written again
      by_cases hname : name = key
      · subst hname
        have habsent : rest.lookup name = none := by
          rw [List.lookup_eq_none_iff]
          intro other hother
          have hne : name ≠ other.1 :=
            fun heq => hnodup.1 (List.mem_map.2 ⟨other, hother, heq.symm⟩)
          simpa using hne
        simp [habsent]
      · have hne : (name == key) = false := by simpa using hname
        simp [hne, hname]

/-- A row can be changed to have the cells of a record if it has them. -/
theorem exists_assign {row record : Record} (h : ∀ name ∈ record.keys, name ∈ row.keys) :
    ∃ new, assign row record = .ok new := by
  have hfold (entries : List (String × Value)) (row : Record)
      (h : ∀ entry ∈ entries, entry.1 ∈ row.keys) :
      ∃ new, entries.foldlM assignCell row = .ok new := by
    induction entries generalizing row with
    | nil => exact ⟨row, rfl⟩
    | cons entry rest ih =>
      have hmem := h entry List.mem_cons_self
      obtain ⟨new, hnew⟩ := ih (row.insert entry.1 entry.2) fun other hother => by
        rw [NameMap.keys_insert_of_mem _ hmem]
        exact h other (List.mem_cons_of_mem _ hother)
      rw [List.foldlM_cons]
      exact ⟨new, bind_eq_ok_iff.2 ⟨_, (assignCell_eq_ok_iff ..).2 ⟨hmem, rfl⟩, hnew⟩⟩
  exact hfold record.entries row fun entry hentry => h _ (List.mem_map_of_mem hentry)

theorem keys_assign {row record new : Record} (h : assign row record = .ok new) :
    new.keys = row.keys :=
  (foldlM_assignCell record.nodup h).1

/-- A changed row has the record's cells where the record has any. -/
theorem get?_assign {row record new : Record} (h : assign row record = .ok new) (name : String) :
    new.get? name = (record.get? name).or (row.get? name) :=
  (foldlM_assignCell record.nodup h).2 name

/-- A cell of a changed row is the record's, or the old one. -/
theorem cell_assign {row record new : Record} (h : assign row record = .ok new) (name : String) :
    new.cell name = record.cell name ∨ new.cell name = row.cell name := by
  rw [Record.cell, get?_assign h name]
  cases hgiven : record.get? name with
  | some v => exact .inl (Record.cell_eq_of_get? hgiven).symm
  | none => exact .inr rfl

end StoredTable

/-! ## Selecting -/

namespace StoredTable

theorem window_sublist {α : Type} (limit : Option Nat) (offset : Nat) (items : List α) :
    (window limit offset items).Sublist items := by
  cases limit with
  | none => exact List.drop_sublist _ _
  | some n => exact (List.take_sublist _ _).trans (List.drop_sublist _ _)

/-- A selected row is a matching row, cut to the columns of the plan. -/
theorem mem_select {t : StoredTable} {plan : Plan} {row : Record} (h : row ∈ t.select plan) :
    ∃ r ∈ t.rows, plan.predicate.holds t.columns r = true ∧ row = cut plan.columns r := by
  obtain ⟨r, hr, rfl⟩ := List.mem_map.1 h
  have hmatching := (perm_sortRows ..).mem_iff.1 ((window_sublist ..).subset hr)
  obtain ⟨hmem, hholds⟩ := List.mem_filter.1 hmatching
  exact ⟨r, hmem, hholds, rfl⟩

/-- Without a page every matching row is selected. -/
theorem mem_select_of_holds {t : StoredTable} {plan : Plan} (hlimit : plan.limit = none)
    (hoffset : plan.offset = 0) {r : Record} (hr : r ∈ t.rows)
    (hholds : plan.predicate.holds t.columns r = true) : cut plan.columns r ∈ t.select plan := by
  refine List.mem_map.2 ⟨r, ?_, rfl⟩
  rw [hlimit, hoffset, window, List.drop_zero]
  exact (perm_sortRows ..).mem_iff.2 (List.mem_filter.2 ⟨hr, hholds⟩)

/-- The columns that a row is cut to are all that it has. -/
theorem get?_cut (columns : List String) (row : Record) (name : String) :
    (cut columns row).get? name = if name ∈ columns then some (row.cell name) else none := by
  have hnames : (columns.map fun name => (name, row.cell name)).map Prod.fst = columns := by
    rw [List.map_map]
    exact List.map_id columns
  rw [cut]
  split
  · rename_i hname
    refine NameMap.get?_ofList_of_forall (hnames.symm ▸ hname) fun entry hentry hother => ?_
    obtain ⟨other, -, rfl⟩ := List.mem_map.1 hentry
    exact congrArg row.cell hother
  · rename_i hname
    exact NameMap.get?_ofList_of_not_mem (hnames.symm ▸ hname)

theorem get?_cut_of_mem {columns : List String} (row : Record) {name : String}
    (h : name ∈ columns) :
    (cut columns row).get? name = some (row.cell name) := by
  rw [get?_cut, if_pos h]

end StoredTable

/-! ## Admissible rows -/

theorem Column.isHeldBy_iff {c : Column} {name : String} {v : Value} {row : Record}
    (h : name ∈ row.keys) : c.isHeldBy name v row = c.type.equal (row.cell name) v := by
  rw [Column.isHeldBy, Record.get?_of_mem_keys h]
  rfl

theorem Column.isExclusive_of_primaryKey {c : Column} (h : c.primaryKey = true) :
    c.isExclusive = true := by
  rw [isExclusive, h, Bool.or_true]

namespace Store

/-- What the rules of a table ask of a row beside the other rows of the table. -/
structure Admissible (s : Store) (groups : List (List String)) (columns : List Column)
    (others : List Record) (row : Record) : Prop where
  /-- null stands only in columns that take it, and not in the key -/
  filled : ∀ c ∈ columns, (row.cell c.name).isNull = true → c.nullable = true ∧ c.primaryKey = false
  /-- no other row has the cell of a column whose values differ -/
  apart : ∀ c ∈ columns, c.isExclusive = true → (row.cell c.name).isNull = false →
    ∀ other ∈ others, c.isHeldBy c.name (row.cell c.name) other = false
  /-- a cell that points at a row of another table has the key of a row there -/
  pointed : ∀ c ∈ columns, ∀ key, c.references = some key → (row.cell c.name).isNull = false →
    ∃ target ∈ s.rows key.table, c.isHeldBy key.column (row.cell c.name) target = true
  /-- no other row has the same cells in all columns of a group -/
  ungrouped : ∀ group ∈ groups, ∀ other ∈ others, sharesGroup group row other = false

theorem checkReference_eq_ok {s : Store} {table : String} {c : Column} {v : Value}
    (h : s.checkReference table c v = .ok ()) (key : ForeignKey) (hkey : c.references = some key) :
    ∃ target ∈ s.rows key.table, c.isHeldBy key.column v target = true := by
  unfold checkReference at h
  simp only [hkey] at h
  obtain ⟨t, htable, h⟩ := bind_eq_ok_iff.1 h
  split at h
  · rename_i hany
    obtain ⟨target, hmem, hheld⟩ := List.any_eq_true.1 hany
    -- the table that is pointed at exists, or the check would have failed before
    rw [rows_of_get? ((table_eq_ok_iff ..).1 htable)]
    exact ⟨target, hmem, hheld⟩
  · simp [violated] at h

theorem checkReference_of_rows {s : Store} {name : String} {c : Column} {v : Value}
    (h : ∀ key, c.references = some key →
      ∃ target ∈ s.rows key.table, c.isHeldBy key.column v target = true) :
    s.checkReference name c v = .ok () := by
  unfold checkReference
  cases hreferences : c.references with
  | none => rfl
  | some key =>
    obtain ⟨target, htarget, hheld⟩ := h key hreferences
    obtain ⟨t, ht, hmem⟩ := get?_of_mem_rows htarget
    have hany : t.rows.any (c.isHeldBy key.column v) = true :=
      List.any_eq_true.2 ⟨target, hmem, hheld⟩
    simp [Store.table, ht, bind, Except.bind, hany]

/-- What it means that a cell passes the rules of its column. -/
theorem checkCell_eq_ok {s : Store} {table : String} {others : List Record} {row : Record}
    {c : Column} (h : s.checkCell table others row c = .ok ()) :
    ((row.cell c.name).isNull = true → c.nullable = true ∧ c.primaryKey = false)
      ∧ ((row.cell c.name).isNull = false →
        (c.isExclusive = true → ∀ other ∈ others, c.isHeldBy c.name (row.cell c.name) other = false)
        ∧ s.checkReference table c (row.cell c.name) = .ok ()) := by
  unfold checkCell at h
  -- null and other values are checked by different rules
  cases hnull : (row.cell c.name).isNull with
  | true =>
    simp only [hnull, if_true] at h
    refine ⟨fun _ => ?_, fun hfalse => absurd hfalse (by simp)⟩
    cases hn : c.nullable <;> cases hk : c.primaryKey <;> simp_all [violated]
  | false =>
    simp only [hnull] at h
    refine ⟨fun htrue => absurd htrue (by simp), fun _ => ?_⟩
    cases hheld : c.isExclusive && others.any (c.isHeldBy c.name (row.cell c.name)) with
    | true => simp [hheld, violated] at h
    | false =>
      refine ⟨fun hexclusive => ?_, by simpa [hheld] using h⟩
      simpa [hexclusive] using hheld

/-- Whether a row is admissible depends on the rows of the store alone. -/
theorem Admissible.of_rows_eq {s s' : Store} {groups : List (List String)} {columns : List Column}
    {others : List Record} {row : Record} (h : s.Admissible groups columns others row)
    (hrows : ∀ name, s'.rows name = s.rows name) : s'.Admissible groups columns others row where
  filled := h.filled
  apart := h.apart
  pointed c hc key hkey hnull := by
    rw [hrows]
    exact h.pointed c hc key hkey hnull
  ungrouped := h.ungrouped

/-- The rules are kept by admissible rows only. -/
theorem admissible_of_checkRules {s : Store} {table : Table} {columns : List Column}
    {others : List Record} {row : Record} (h : s.checkRules table columns others row = .ok ()) :
    s.Admissible table.uniqueGroups columns others row := by
  unfold checkRules at h
  obtain ⟨_, hcells, hgroups⟩ := bind_eq_ok_iff.1 h
  have hcolumn := forM_eq_ok_iff.1 hcells
  refine ⟨?_, ?_, ?_, ?_⟩
  · intro c hc
    exact (checkCell_eq_ok (hcolumn c hc)).1
  · intro c hc hexclusive hnull
    exact ((checkCell_eq_ok (hcolumn c hc)).2 hnull).1 hexclusive
  · intro c hc key hkey hnull
    exact checkReference_eq_ok ((checkCell_eq_ok (hcolumn c hc)).2 hnull).2 key hkey
  · intro group hgroup other hother
    have hcheck := forM_eq_ok_iff.1 hgroups group hgroup
    unfold checkGroup at hcheck
    cases hshared : others.any (sharesGroup group row) with
    | true => simp [hshared, violated] at hcheck
    | false => simpa using List.any_eq_false.1 hshared other hother

theorem checkRules_of_admissible {s : Store} {table : Table} {columns : List Column}
    {others : List Record} {row : Record} (h : s.Admissible table.uniqueGroups columns others row) :
    s.checkRules table columns others row = .ok () := by
  refine bind_eq_ok_iff.2
    ⟨(), forM_eq_ok_iff.2 fun c hc => ?_, forM_eq_ok_iff.2 fun group hgroup => ?_⟩
  · unfold checkCell
    dsimp only
    cases hnull : (row.cell c.name).isNull with
    | true =>
      obtain ⟨hnullable, hprimary⟩ := h.filled c hc hnull
      simp [hnullable, hprimary]
    | false =>
      have hapart :
        (c.isExclusive && others.any (c.isHeldBy c.name (row.cell c.name))) = false := by
        cases hexclusive : c.isExclusive with
        | false => rfl
        | true => simpa using h.apart c hc hexclusive hnull
      rw [hapart]
      exact checkReference_of_rows fun key hkey => h.pointed c hc key hkey hnull
  · have hnone : others.any (sharesGroup group row) = false := by
      simpa using h.ungrouped group hgroup
    rw [checkGroup, hnone]
    rfl

/-- The key of an admissible row is not null, and no other row has an equal key. -/
theorem Admissible.key {s : Store} {groups : List (List String)} {columns : List Column}
    {others : List Record} {row : Record} (h : s.Admissible groups columns others row) {k : Column}
    (hk : k ∈ columns) (hprimary : k.primaryKey = true) :
    (row.cell k.name).isNull = false
      ∧ ∀ other ∈ others, k.isHeldBy k.name (row.cell k.name) other = false := by
  have hnull : (row.cell k.name).isNull = false := by
    by_contra hnull
    have hnot := (h.filled k hk (by simpa using hnull)).2
    rw [hprimary] at hnot
    cases hnot
  exact ⟨hnull, h.apart k hk (Column.isExclusive_of_primaryKey hprimary) hnull⟩

end Store

end RecordStore
