import Mathlib.Data.List.Induction
import RecordStore.Proofs.Listing

/-!
# Replaying a replacement

A replacement that succeeded and is made again leaves the store as it is. The row that it left is
found and is given the cells that it has: the times of the first run are those of the stored row,
whatever the clock shows. A reader finds the members of each list already, so no link is written
anew.

* **`Upserts.exists_row`** — the row that an upsert leaves, among the rows before it and after it.
* **`replacedCell_replayed`** — the row is replaced by itself.
* **`Catalog.replace_replayed`** — the replay.
-/

namespace RecordStore

open RecordStore.Action

/-! ## Steps that leave everything as it is -/

theorem Action.yields_forM_of_stays {α : Type} {f : α → Action Unit} {items : List α}
    {tx : Transaction} (h : ∀ x ∈ items, Yields (f x) tx () tx) :
    Yields (items.forM f) tx () tx := by
  induction items with
  | nil => exact (yields_pure () ()).2 ⟨rfl, rfl⟩
  | cons x rest ih =>
    exact yields_forM_cons.2
      ⟨tx, h x List.mem_cons_self, ih fun y hy => h y (List.mem_cons_of_mem x hy)⟩

/-! ## The row that an upsert leaves -/

namespace StoredTable

/-- A row that has the cells of a record is left as it is by the record. -/
theorem assign_of_get? {row record : Record}
    (h : ∀ name v, record.get? name = some v → row.get? name = some v) :
    assign row record = .ok row := by
  have hfold (entries : List (String × Value))
      (h : ∀ entry ∈ entries, row.get? entry.1 = some entry.2) :
      entries.foldlM assignCell row = .ok row := by
    induction entries with
    | nil => rfl
    | cons entry rest ih =>
      have hget := h entry List.mem_cons_self
      have hcontains : row.contains entry.1 = true := by
        rw [NameMap.contains_iff, NameMap.mem_keys_iff, hget]
        rfl
      rw [List.foldlM_cons]
      refine bind_eq_ok_iff.2 ⟨row, ?_, ih fun e he => h e (List.mem_cons_of_mem _ he)⟩
      rw [assignCell, if_pos hcontains, NameMap.insert_of_get? hget]
  exact hfold record.entries fun entry hentry => h _ _ (NameMap.get?_of_mem hentry)

/-- The row that an upsert leaves stands among other rows, and has the cells of the record. If there
was a row in its place, that one was found by the key of the record. -/
theorem Upserts.exists_row {table : Table} {now : Value} {record : Record} {s : Store}
    {t t' : StoredTable} (ht : s.tables.get? table.name = some t)
    (h : t.Upserts table now record s t') :
    ∃ before row after, t'.rows = before ++ row :: after ∧ t'.columns = t.columns
      ∧ (∀ name v, record.get? name = some v → row.get? name = some v)
      ∧ s.Admissible table.uniqueGroups t.columns (before ++ after) row
      ∧ (t.rows = before ++ after
        ∨ ∃ old, t.rows = before ++ old :: after
          ∧ (Predicate.eq table.primaryKey (record.cell table.primaryKey)).holds
            t.columns old = true) := by
  cases h with
  | @change place rest old row hplaces hold hassign hrules =>
    obtain ⟨found, hfound, hholds⟩ :=
      Transaction.mem_places (by rw [hplaces]; exact List.mem_cons_self)
    obtain rfl : found = old := Option.some.inj (hfound.symm.trans hold)
    obtain ⟨hlt, hget⟩ := List.getElem?_eq_some_iff.1 hold
    rw [List.eraseIdx_eq_take_drop_succ] at hrules
    refine ⟨t.rows.take place, row, t.rows.drop (place + 1), ?_, rfl, fun name v hv => ?_,
      Store.admissible_of_checkRules hrules, .inr ⟨found, ?_, hholds⟩⟩
    · exact (List.set_eq_take_append_cons_drop ..).trans (if_pos hlt)
    · rw [get?_assign hassign, hv]
      rfl
    · rw [← hget, List.getElem_cons_drop, List.take_append_drop]
  | @append row next hplaces hcolumns hfill hrules =>
    refine ⟨t.rows, row, [], rfl, rfl, fun name v hv => ?_, ?_, .inl (List.append_nil _).symm⟩
    · have hname : name ∈ record.keys := (NameMap.mem_keys_iff ..).2 (by rw [hv]; rfl)
      have hgiven :=
        fill_given t now record hv ((checkColumns_eq_ok_iff t record).1 hcolumns name hname)
      rwa [hfill] at hgiven
    · rw [List.append_nil]
      refine (Store.admissible_of_checkRules hrules).of_rows_eq fun name => ?_
      rw [Store.rows_put]
      split
      · rename_i hname
        rw [hname, Store.rows_of_get? ht]
      · rfl

variable {t : StoredTable} {p : Predicate} {before after : List Record} {row : Record}

/-- The one row that satisfies a predicate is found in its place. -/
theorem places_eq_singleton (hrows : t.rows = before ++ row :: after)
    (hholds : p.holds t.columns row = true)
    (hothers : ∀ other ∈ before ++ after, p.holds t.columns other = false) :
    t.places p = [before.length] := by
  have hnone (rows : List Record) (n : Nat)
      (hrows : ∀ other ∈ rows, p.holds t.columns other = false) :
      ((rows.zipIdx n).filter fun entry => p.holds t.columns entry.1) = [] := by
    refine List.filter_eq_nil_iff.2 fun entry hentry => ?_
    rw [hrows entry.1 (List.fst_mem_of_mem_zipIdx hentry)]
    exact Bool.false_ne_true
  have hbefore := hnone before 0 fun other h => hothers other (List.mem_append_left _ h)
  have hafter := hnone after (0 + before.length + 1) fun other h =>
    hothers other (List.mem_append_right _ h)
  rw [places, hrows, List.zipIdx_append, List.zipIdx_cons, List.filter_append, List.filter_cons,
    hbefore, hafter]
  simp [hholds]

/-- If one row alone satisfies a predicate, it is all that matches. -/
theorem matching_eq_singleton (hrows : t.rows = before ++ row :: after)
    (hholds : p.holds t.columns row = true)
    (hothers : ∀ other ∈ before ++ after, p.holds t.columns other = false) :
    t.matching p = [row] := by
  have hnone (rows : List Record) (hrows : ∀ other ∈ rows, p.holds t.columns other = false) :
      rows.filter (p.holds t.columns) = [] :=
    List.filter_eq_nil_iff.2 fun other h => by rw [hrows other h]; exact Bool.false_ne_true
  rw [matching, hrows, List.filter_append, List.filter_cons, if_pos hholds,
    hnone before fun other h => hothers other (List.mem_append_left _ h),
    hnone after fun other h => hothers other (List.mem_append_right _ h)]
  rfl

/-- A plan for one row selects the one that matches. -/
theorem select_eq_singleton {plan : Plan} (hmatching : t.matching plan.predicate = [row])
    (hlimit : plan.limit = some 1) (hoffset : plan.offset = 0) :
    t.select plan = [cut plan.columns row] := by
  rw [select, hmatching, hlimit, hoffset]
  rfl

end StoredTable

/-- **An upsert of cells that its row has already leaves everything as it is.** -/
theorem Transaction.yields_upsert_of_held {tx : Transaction} {table : Table} {record row : Record}
    {t : StoredTable} {before after : List Record} {now : Time.Instant} (hfaults : tx.faults = [])
    (hopen : tx.isOpen = true) (ht : tx.work.tables.get? table.name = some t)
    (hrows : t.rows = before ++ row :: after)
    (hplaces : t.places (.eq table.primaryKey (record.cell table.primaryKey)) = [before.length])
    (hcells : ∀ name v, record.get? name = some v → row.get? name = some v)
    (hadmissible : tx.work.Admissible table.uniqueGroups t.columns (before ++ after) row) :
    Yields (upsert now table record) tx () tx := by
  refine yields_upsert.2 ⟨by simp [hfaults], hopen, t, ht, .inl ⟨before.length, [], hplaces, ?_⟩⟩
  have hassign := StoredTable.assign_of_get? hcells
  have hget : t.rows[before.length]? = some row := by
    rw [hrows]
    simp
  have hothers : t.rows.eraseIdx before.length = before ++ after := by
    rw [hrows, List.eraseIdx_append_of_length_le (Nat.le_refl _), Nat.sub_self,
      List.eraseIdx_cons_zero]
  have hset : t.rows.set before.length row = t.rows := by
    rw [hrows]
    simp
  refine yields_change.2 ⟨hopen, t, ht, .inr ⟨row, row, hget, hassign, ?_, ?_⟩⟩
  · rw [hothers]
    exact Store.checkRules_of_admissible hadmissible
  · rw [hset, Store.put_of_get? ht]
    rfl

/-! ## The record of a replacement -/

/-- The value of a name in a map that is made from columns is that of the last column of the
name. -/
theorem NameMap.get?_ofList_columns {α : Type} (columns : List Column) (f : Column → α)
    (name : String) :
    (ofList (columns.map fun c => (c.name, f c))).get? name
      = (columns.reverse.find? (·.name == name)).map f := by
  induction columns using List.reverseRecOn with
  | nil => rfl
  | append_singleton columns c ih =>
    rw [ofList, List.map_append, List.foldl_append, List.reverse_append, List.reverse_singleton,
      List.singleton_append, List.find?_cons]
    change NameMap.get? (NameMap.insert (ofList _) c.name (f c)) name = _
    rw [get?_insert]
    by_cases hname : name = c.name
    · rw [if_pos hname, beq_iff_eq.2 hname.symm]
      rfl
    · rw [if_neg hname, beq_eq_false_iff_ne.2 (Ne.symm hname)]
      exact ih

namespace Change

variable {schema : Schema} {table base : Table} {now later : Time.Instant} {key : Value}
  {stored : Option Record} {doc row : Record} {k c : Column}

/-- **A row that has the cells of a replacement is replaced by the same cells**, whatever the clock
shows: a stamp that was set is not null, and it stays. -/
theorem replacedCell_replayed {fields : Record} (hc : c ∈ table.columns)
    (h : row.get? c.name = some (replacedCell table now key stored fields c)) :
    replacedCell table later key (some (StoredTable.cut table.columnNames row)) fields c
      = replacedCell table now key stored fields c := by
  have hcut : (StoredTable.cut table.columnNames row).get? c.name
      = some (replacedCell table now key stored fields c) := by
    rw [StoredTable.get?_cut_of_mem row (Table.mem_columnNames hc), Record.cell_eq_of_get? h]
  unfold replacedCell at hcut ⊢
  split
  · rfl
  · rename_i hkey
    rw [if_neg hkey] at hcut
    cases hfield : fields.get? c.name with
    | some v => rfl
    | none =>
      rw [hfield] at hcut
      dsimp only at hcut ⊢
      split
      · rename_i hstamp
        rw [if_pos hstamp] at hcut
        cases hold : (stored.bind fun r => r.get? c.name).filter (!·.isNull) with
        | some v =>
          rw [hold] at hcut
          have hnull := (Option.filter_eq_some_iff.1 hold).2
          rw [Option.bind_some, hcut, Option.filter_some, if_pos hnull]
        | none =>
          rw [hold] at hcut
          rw [Option.bind_some, hcut]
          rfl
      · rfl

/-- The row that the same replacement would write again has no cell that differs from what is
stored. -/
theorem replacedRow_replayed
    (h : ∀ name v, (replacedRow table now key stored doc).get? name = some v →
      row.get? name = some v)
    (name : String) (v : Value)
    (hv : (replacedRow table later key (some (StoredTable.cut table.columnNames row)) doc).get? name
      = some v) : row.get? name = some v := by
  rw [replacedRow, NameMap.get?_ofList_columns] at hv
  obtain ⟨c, hfound, rfl⟩ := Option.map_eq_some_iff.1 hv
  have hc : c ∈ table.columns := List.mem_reverse.1 (List.mem_of_find?_eq_some hfound)
  obtain rfl : c.name = name := by simpa using List.find?_some hfound
  have hrow := h c.name _ (by rw [replacedRow, NameMap.get?_ofList_columns, hfound]; rfl)
  rw [hrow, replacedCell_replayed hc hrow]

/-- A column that points at another table is neither the key nor a stamp, and has no default. -/
theorem replacedCell_of_reference (hco : schema.Coherent) (hbase : base ∈ schema.bases)
    (hshares : table.SharesRows base) (hc : c ∈ base.columns) {target : ForeignKey}
    (hreferences : c.references = some target) (fields : Record) :
    replacedCell table now key stored fields c = (fields.get? c.name).getD .null := by
  have howns := hco.lone base hbase c hc (.inr (by rw [hreferences]; rfl))
  have hkey : c.name ≠ table.primaryKey := by
    intro hname
    obtain ⟨k, hk, -, hnone, -⟩ := hco.keyed base (Schema.mem_physical_of_base hbase)
    obtain ⟨hkmem, hkname⟩ := Table.mem_of_column? hk
    rw [howns k hkmem (by rw [hkname, hname, hshares.primaryKey]), hreferences] at hnone
    cases hnone
  have hstamp : c.name ∉ stampColumns := by
    intro hmem
    obtain ⟨d, hd, hname, hnone, -⟩ := hco.stamped base hbase c.name hmem
    rw [howns d hd hname, hreferences] at hnone
    cases hnone
  unfold replacedCell
  rw [if_neg hkey]
  cases fields.get? c.name with
  | some v => rfl
  | none =>
    dsimp only
    rw [if_neg (by simpa using hstamp), (hco.references base hbase c hc target hreferences).1]

/-- What a replacement puts into a column that points at another table, and into one of doubles a
double. -/
theorem accepts_replacedCell (hco : schema.Coherent) (hbase : base ∈ schema.bases)
    (hshares : table.SharesRows base) (hcheck : Document.checkPartial schema table doc = .ok ())
    (hc : c ∈ base.columns) {target : ForeignKey} (hreferences : c.references = some target)
    (hnull : (replacedCell table now key stored (withDoubles table (rowOf table doc)) c).isNull
      = false) :
    c.type.accepts (replacedCell table now key stored (withDoubles table (rowOf table doc)) c)
      = true
      ∧ (c.type = .float →
        ∃ x, replacedCell table now key stored (withDoubles table (rowOf table doc)) c
          = .float x) := by
  have howns := hco.lone base hbase c hc (.inr (by rw [hreferences]; rfl))
  have hfound := Table.column?_of_lone hc howns
  rw [replacedCell_of_reference hco hbase hshares hc hreferences, get?_withDoubles] at hnull ⊢
  cases hgiven : (rowOf table doc).get? c.name with
  | none =>
    rw [hgiven] at hnull
    split at hnull <;> cases hnull
  | some w =>
    rw [hgiven] at hnull
    have haccepts : c.type.accepts w = true :=
      Document.accepts_of_check hcheck (get?_of_rowOf hgiven) ((hshares.column? _).trans hfound)
    have hdouble : c.name ∈ doubleNames table ↔ c.type = .float :=
      mem_doubleNames_iff hshares hc fun d hd _ => howns d hd
    split
    · rename_i hmem
      rw [if_pos hmem] at hnull
      have htype := hdouble.1 hmem
      rw [htype] at haccepts ⊢
      change w.asDouble.isNull = false at hnull
      rw [Value.isNull_asDouble] at hnull
      exact ⟨ColumnType.accepts_asDouble haccepts, fun _ =>
        ColumnType.asDouble_eq_float haccepts hnull⟩
    · rename_i hmem
      exact ⟨haccepts, fun htype => absurd (hdouble.2 htype) hmem⟩

end Change

/-! ## Keys that are equal -/

namespace ColumnType

variable {type : ColumnType} {w key v : Value}

/-- What equals a key is of the type of the key, if numbers are. -/
theorem accepts_of_equal (htype : type ≠ .float) (h : type.equal w key = true)
    (hplain : w.double?.isSome = true → type.accepts w = true) (hkey : type.accepts key = true)
    (hnull : key.isNull = false) : type.accepts w = true ∧ w.isNull = false := by
  cases type with
  | text =>
    obtain ⟨s, rfl⟩ := accepts_text hkey hnull
    cases w <;> simp_all [equal, compare?, compareNumbers?, Value.integer?, Value.double?, accepts,
      Value.isNull]
  | boolean =>
    obtain ⟨b, rfl⟩ := accepts_boolean hkey hnull
    cases w <;> simp_all [equal, compare?, compareNumbers?, Value.integer?, Value.double?, accepts,
      Value.isNull]
  | integer =>
    obtain ⟨n, rfl, hn⟩ := accepts_integer hkey hnull
    cases w <;> simp_all [equal, compare?, compareNumbers?, Value.integer?, Value.double?, accepts,
      Value.isNull]
  | float => exact absurd rfl htype
  | datetime =>
    obtain ⟨s, i, rfl, hi⟩ := accepts_datetime hkey hnull
    cases w with
    | string t =>
      cases ht : (Value.string t).instant? with
      | none => simp [equal, compare?, ht] at h
      | some j =>
        refine ⟨?_, rfl⟩
        show (Value.string t).instant?.isSome = true
        rw [ht]
        rfl
    | _ => simp [equal, compare?, compareNumbers?, Value.integer?, Value.double?] at h
  | json =>
    refine ⟨by cases w <;> rfl, ?_⟩
    cases w with
    | null =>
      rw [equal_json_iff] at h
      cases key <;> simp_all [Value.canonical, Value.isNull]
    | _ => rfl

/-- What equals a key, and what the key's cell of before equals, equal each other. -/
theorem equal_of_equal_key (hw : type.equal w key = true) (hv : type.equal w v = true)
    (hplain : w.double?.isSome = true → type.accepts w = true) (hkey : type.accepts key = true)
    (hkeynull : key.isNull = false) (hvaccepts : type.accepts v = true) (hvnull : v.isNull = false)
    (hdouble : type = .float → ∃ x, v = .float x) : type.equal key v = true := by
  by_cases htype : type = .float
  · obtain ⟨x, rfl⟩ := hdouble htype
    subst htype
    exact equal_float_trans hkey hkeynull hw hv
  · obtain ⟨hwaccepts, hwnull⟩ := accepts_of_equal htype hw hplain hkey hkeynull
    rw [equal_comm] at hw
    exact equal_trans htype hkey hwaccepts hvaccepts hkeynull hwnull hvnull hw hv

end ColumnType

/-! ## The replay -/

namespace Change

variable {schema : Schema} {table base : Table} {now later : Time.Instant} {key : Value}
  {stored : Option Record} {doc row : Record} {k : Column} {s s' : Store} {t t' : StoredTable}
  {before after : List Record}

/-- The cell of a column that points at another table is the one that the replacement gave. -/
theorem cell_of_replacedRow (hco : schema.Coherent) (hbase : base ∈ schema.bases)
    (hshares : table.SharesRows base) {c : Column} (hc : c ∈ base.columns)
    (hreferences : c.references.isSome = true)
    (hcells : ∀ name v, (replacedRow table now key stored doc).get? name = some v →
      row.get? name = some v) :
    row.cell c.name = replacedCell table now key stored
      (withDoubles table (rowOf table doc)) c := by
  exact Record.cell_eq_of_get?
    (hcells _ _ (get?_replacedRow hshares hc (hco.lone base hbase c hc (.inr hreferences))))

/-- What points at the row of before, which had an equal key, points at the row. -/
theorem isHeldBy_replaced (hk : base.keyColumn? = some k) (haccepts : k.type.accepts key = true)
    (hkeynull : key.isNull = false) (hrow : row.get? base.primaryKey = some key) {old : Record}
    (hplain : k.Plain (old.cell base.primaryKey))
    (hholds : (Predicate.eq base.primaryKey key).holds base.columns old = true) {c : Column}
    (htype : c.type = k.type) {v : Value} (hv : k.type.accepts v = true) (hnull : v.isNull = false)
    (hdouble : k.type = .float → ∃ x, v = .float x)
    (hheld : c.isHeldBy k.name v old = true) : c.isHeldBy k.name v row = true := by
  obtain ⟨-, hequal⟩ := (Transaction.holds_eq hkeynull).1 hholds
  rw [Table.typeIn_keyColumn hk] at hequal
  have hkname := (Table.mem_of_column? hk).2
  rw [hkname, Column.isHeldBy, htype] at hheld ⊢
  rw [hrow]
  cases hold : old.get? base.primaryKey with
  | none =>
    rw [hold] at hheld
    cases hheld
  | some w =>
    rw [hold] at hheld
    have hcell : old.cell base.primaryKey = w := Record.cell_eq_of_get? hold
    rw [hcell] at hequal hplain
    exact ColumnType.equal_of_equal_key hequal hheld hplain haccepts hkeynull hv hnull hdouble

/-- A row that was admissible when it took its place is admissible in it: what it points at is still
there, and if that was the row of before, it is the row itself. -/
theorem admissible_replayed (hco : schema.Coherent) (hbase : base ∈ schema.bases)
    (hshares : table.SharesRows base) (hk : base.keyColumn? = some k) (hregular : s.Regular schema)
    (hcheck : Document.checkPartial schema table doc = .ok ())
    (haccepts : k.type.accepts key = true)
    (hkeynull : key.isNull = false) (ht : s.tables.get? base.name = some t)
    (ht' : s'.tables.get? base.name = some t')
    (hother : ∀ target ∈ schema.bases, target.name ≠ base.name →
      s'.rows target.name = s.rows target.name)
    (hrows : t'.rows = before ++ row :: after)
    (hcells : ∀ name v, (replacedRow table now key stored doc).get? name = some v →
      row.get? name = some v)
    (hadmissible : s.Admissible base.uniqueGroups t.columns (before ++ after) row)
    (hold : t.rows = before ++ after
      ∨ ∃ old, t.rows = before ++ old :: after
        ∧ (Predicate.eq base.primaryKey key).holds t.columns old = true) :
    s'.Admissible base.uniqueGroups t.columns (before ++ after) row where
  filled := hadmissible.filled
  apart := hadmissible.apart
  ungrouped := hadmissible.ungrouped
  pointed c hc target hreferences hnull := by
    have hphysical := Schema.mem_physical_of_base hbase
    have hcolumns := (hregular.columns_eq base hphysical t ht).1
    obtain ⟨r, hr, hheld⟩ := hadmissible.pointed c hc target hreferences hnull
    rw [hcolumns] at hc hold
    obtain ⟨-, pointed, hpointed, kt, rfl, hkt, htype⟩ :=
      hco.references base hbase c hc target hreferences
    dsimp only at hr hheld ⊢
    by_cases hname : pointed.name = base.name
    swap
    · exact ⟨r, by rw [hother pointed hpointed hname]; exact hr, hheld⟩
    obtain rfl := hco.eq_of_name (Schema.mem_physical_of_base hpointed) hphysical hname
    obtain rfl := Option.some.inj (hkt.symm.trans hk)
    rw [Store.rows_of_get? ht] at hr
    rw [Store.rows_of_get? ht', hrows]
    have hothers {other : Record} (hmem : other ∈ before ++ after) :
      other ∈ before ++ row :: after :=
      List.mem_append.2 ((List.mem_append.1 hmem).imp id (List.mem_cons_of_mem _))
    rcases hold with hsame | ⟨old, hsplit, hholds⟩
    · exact ⟨r, hothers (hsame ▸ hr), hheld⟩
    have hplain := hregular.plain pointed hbase kt hk r (by rw [Store.rows_of_get? ht]; exact hr)
    rw [hsplit, List.mem_append, List.mem_cons] at hr
    rcases hr with hr | rfl | hr
    · exact ⟨r, hothers (List.mem_append_left _ hr), hheld⟩
    · refine ⟨row, List.mem_append_right _ List.mem_cons_self, ?_⟩
      have hsome : c.references.isSome = true := by rw [hreferences]; rfl
      have hcell := cell_of_replacedRow hco hbase hshares hc hsome hcells
      obtain ⟨hv, hdouble⟩ :=
        accepts_replacedCell hco hbase hshares hcheck hc hreferences (hcell ▸ hnull)
      rw [← hcell, htype] at hv
      rw [← hcell, htype] at hdouble
      exact isHeldBy_replaced hk haccepts hkeynull
        (hcells _ _ (get?_key_replacedRow hshares hk key stored))
        hplain hholds htype hv hnull hdouble hheld
    · exact ⟨r, hothers (List.mem_append_right _ hr), hheld⟩

/-- An admissible row is the only one with its key. -/
theorem holds_key_iff (hk : base.keyColumn? = some k) (hprimary : k.primaryKey = true)
    (haccepts : k.type.accepts key = true) (hkeynull : key.isNull = false)
    (hrow : row.get? base.primaryKey = some key)
    (hadmissible : s.Admissible base.uniqueGroups base.columns (before ++ after) row) :
    (Predicate.eq base.primaryKey key).holds base.columns row = true
      ∧ ∀ other ∈ before ++ after,
        (Predicate.eq base.primaryKey key).holds base.columns other = false := by
  obtain ⟨hkmem, hkname⟩ := Table.mem_of_column? hk
  have hcell : row.cell base.primaryKey = key := Record.cell_eq_of_get? hrow
  refine ⟨(Transaction.holds_eq hkeynull).2 ?_, fun other hother =>
    Bool.eq_false_iff.2 fun hholds => ?_⟩
  · rw [hcell, Table.typeIn_keyColumn hk]
    exact ⟨hkeynull, ColumnType.equal_self haccepts hkeynull⟩
  · obtain ⟨hnull, hequal⟩ := (Transaction.holds_eq hkeynull).1 hholds
    rw [Table.typeIn_keyColumn hk] at hequal
    have happart := (hadmissible.key hkmem hprimary).2 other hother
    rw [hkname, hcell, Column.isHeldBy] at happart
    cases hget : other.get? base.primaryKey with
    | none =>
      rw [Record.cell_of_get?_none hget] at hnull
      cases hnull
    | some w =>
      rw [hget] at happart
      rw [Record.cell_eq_of_get? hget] at hequal
      change k.type.equal w key = false at happart
      rw [hequal] at happart
      cases happart

/-- Making the links of an owner those that a reader finds there leaves everything as it is. -/
theorem yields_setLinks_of_listed {tx : Transaction} {m : ListField} {owner : Value}
    {members : List Value} {link : Table} {t : StoredTable}
    (hlink : schema.linkTable m.linkTable = .ok link) (hopen : tx.isOpen = true)
    (ht : tx.work.tables.get? link.name = some t)
    (hlisted : Value.sameItems (t.listed link m owner) members = true) :
    Yields (setLinks schema now m owner members) tx () tx :=
  yields_setLinks.2 ⟨_, Fetch.yields_membersByOwner.2
    ⟨link, _, hlink, Transaction.yields_select.2 ⟨hopen, rfl, t, ht, rfl⟩, rfl⟩,
      .inl ⟨hlisted, rfl⟩⟩

/-- **A replacement that is made again succeeds and changes nothing.** -/
theorem yields_replace_replayed (hco : schema.Coherent) (hbase : base ∈ schema.bases)
    (hshares : table.SharesRows base) {tx tx' again : Transaction} {id : Value}
    (hregular : tx.work.Regular schema) (hbelow : tx'.work.LinkKeysBelow schema)
    (h : Yields (replace schema table now id doc) tx () tx') (hwork : again.work = tx'.work)
    (hopen : again.isOpen = true) (hfaults : again.faults = []) :
    Yields (replace schema table later id doc) again () again := by
  have hphysical := Schema.mem_physical_of_base hbase
  obtain ⟨key, t, t', hcheck, hkeyfor, ht, hupserts, hlists⟩ :=
    effect_of_replace hco hbase hshares h
  obtain ⟨k, hk, hprimary, -⟩ := hco.keyed base hphysical
  obtain ⟨haccepts, hkeynull⟩ := accepts_of_keyFor (hshares.keyColumn?.trans hk) hkeyfor
  have hcolumns := (hregular.columns_eq base hphysical t ht).1
  obtain ⟨before, row, after, hrows, hcolumns', hcells, hadmissible, hold⟩ :=
    hupserts.exists_row (hshares.name ▸ ht)
  have hgiven {time : Time.Instant} {stored : Option Record} :
      (replacedRow table time key stored doc).get? base.primaryKey = some key :=
    get?_key_replacedRow hshares hk key stored
  rw [hshares.primaryKey, Record.cell_eq_of_get? hgiven] at hold
  rw [hshares.uniqueGroups] at hadmissible
  -- the table of the resource is the one that the upsert left, and other resources are untouched
  have ht' : tx'.work.tables.get? base.name = some t' :=
    hlists.get?_written hco hbase hshares fun m hm => hm
  have hother : ∀ target ∈ schema.bases, target.name ≠ base.name →
      tx'.work.rows target.name = tx.work.rows target.name := by
    intro target htarget hne
    rw [Store.rows, Store.rows, hlists.get?_other hco hbase hshares (fun m hm => hm) htarget hne]
  have hreplayed := admissible_replayed hco hbase hshares hk hregular
    (Document.checkPartial_of_check hcheck) haccepts
      hkeynull ht ht' hother hrows hcells hadmissible hold
  rw [hcolumns] at hreplayed
  obtain ⟨hholds, hothers⟩ :=
    holds_key_iff hk hprimary haccepts hkeynull (hcells _ _ hgiven) hreplayed
  rw [← hcolumns, ← hcolumns'] at hholds hothers hreplayed
  rw [← hwork, ← hshares.name] at ht'
  -- the row is found by its key, and given the cells that it has
  have hselect : t'.select (storedPlan table key) = [StoredTable.cut table.columnNames row] := by
    have hmatching := StoredTable.matching_eq_singleton hrows hholds hothers
    rw [← hshares.primaryKey] at hmatching
    exact StoredTable.select_eq_singleton hmatching rfl rfl
  have hplaces := StoredTable.places_eq_singleton hrows hholds hothers
  have hupsert : Yields (Transaction.upsert later table (replacedRow table later key
      (t'.select (storedPlan table key)).head? doc)) again () again := by
    refine Transaction.yields_upsert_of_held hfaults hopen ht' hrows ?_ ?_ ?_
    · rw [hshares.primaryKey, Record.cell_eq_of_get? hgiven]
      exact hplaces
    · rw [hselect]
      exact replacedRow_replayed hcells
    · rw [hwork, hshares.uniqueGroups]
      exact hreplayed
  refine yields_replace.2 ⟨key, _, again, hcheck, hkeyfor,
    Transaction.yields_select.2 ⟨hopen, rfl, t', ht', rfl⟩, hupsert, ?_⟩
  refine yields_forM_of_stays fun m hm => ?_
  obtain ⟨link, u, u', -, hu', hlinkof, hsets⟩ :=
    hlists.turned hco hbase hregular ht hk hm (hshares.lists ▸ hm)
  have hlinkbelow := hbelow.stored (Schema.mem_of_linkTable hlinkof.link_eq).1 hu'
  have hlisted := hsets.listed hlinkof hco haccepts hkeynull hlinkbelow
  exact yields_setLinks_of_listed hlinkof.link_eq hopen (hwork ▸ hu') hlisted

end Change

namespace Catalog

variable {settings : Settings} {domain : Domain} {catalog : Catalog}

/-- **A replacement is idempotent on the whole store.** After one that succeeded, with no fault
waiting and whatever the clock shows, the same one succeeds again and leaves the database as it
is. -/
theorem replace_replayed (hcompiles : Catalog.ofDomain settings domain = .ok catalog)
    (steps : List Step) {resource : String} {now : Time.Instant} {id : Value} {doc : Record}
    (hsucceeds : (catalog.replace resource now id doc (catalog.run steps)).1 = .ok ())
    (hfaults : (catalog.replace resource now id doc (catalog.run steps)).2.faults = [])
    (hbelow : (catalog.replace resource now id doc (catalog.run steps)).2.store.LinkKeysBelow
      catalog.schema) (later : Time.Instant) :
    catalog.replace resource later id doc
      (catalog.replace resource now id doc (catalog.run steps)).2
      = (.ok (), (catalog.replace resource now id doc (catalog.run steps)).2) := by
  have hco := coherent_of_ofDomain hcompiles
  have hregular := regular_run hco steps
  cases htable : catalog.schema.table resource with
  | error e =>
    rw [replace, htable] at hsucceeds
    cases hsucceeds
  | ok table =>
    obtain ⟨base, hbase, hshares⟩ := hco.shared table (Schema.mem_of_table htable).1
    have hreplace (time : Time.Instant) (db : Database) : catalog.replace resource time id doc db
        = db.transact (Change.replace catalog.schema table time id doc) := by
      rw [replace, htable]
      rfl
    simp only [hreplace] at hsucceeds hfaults hbelow ⊢
    obtain ⟨tx', hrun, hdb⟩ := Database.transact_ok hsucceeds
    rw [hdb] at hfaults hbelow ⊢
    have hagain : Yields (Change.replace catalog.schema table later id doc)
        (.begin ⟨tx'.work, tx'.faults⟩) () (.begin ⟨tx'.work, tx'.faults⟩) :=
      Change.yields_replace_replayed hco hbase hshares hregular hbelow hrun rfl rfl hfaults
    rw [Database.transact_of_yields hagain rfl]
    rfl

/-- The sample with a second person, and a team of both without a leader. -/
def pairedSteps : List Step := sampleSteps ++ [(⟨3, 0⟩, .insert "person" [{}])]

def pairedTeam : Record := .ofList [("members", .array [.int 2, .int 1])]

/-- The team of the sample is replaced by the one of both people, and then again a year later. -/
theorem team_replaced_again :
    (sampleCatalog.replace "team" ⟨4, 0⟩ (.int 1) pairedTeam (sampleCatalog.run pairedSteps)).1
      = .ok ()
      ∧ sampleCatalog.replace "team" ⟨31536004, 0⟩ (.int 1) pairedTeam
          (sampleCatalog.replace "team" ⟨4, 0⟩ (.int 1)
            pairedTeam (sampleCatalog.run pairedSteps)).2
        = (.ok (),
          (sampleCatalog.replace "team" ⟨4, 0⟩ (.int 1)
            pairedTeam (sampleCatalog.run pairedSteps)).2) := by
  have hsucceeds : (sampleCatalog.replace "team" ⟨4, 0⟩ (.int 1) pairedTeam
      (sampleCatalog.run pairedSteps)).1 = .ok () := eq_ok_of_toOption (by decide +kernel)
  exact ⟨hsucceeds, replace_replayed ofDomain_sample pairedSteps hsucceeds (by decide +kernel)
    (by decide +kernel) ⟨31536004, 0⟩⟩

end Catalog

end RecordStore
