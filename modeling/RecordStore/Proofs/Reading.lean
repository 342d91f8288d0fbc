import RecordStore.Proofs.Replay

/-!
# Reading a stored record

A record is read by its key: the row is the only one that the key finds, and to its cells the
members of each list are added, as a reader finds them in the link tables.

* **`Catalog.Reads`** — what is read for a row.
* **`Catalog.findStored_of_row`** — the record of a row is read under each key that finds the row
  alone.
-/

namespace RecordStore

open RecordStore.Action

/-! ## The row of a key -/

/-- In a sound table a predicate finds one row if all rows that satisfy it have the key of this
one. -/
theorem StoredTable.Sound.matching_of_clashes {times : Time.Instant → Prop} {table : Table}
    {t : StoredTable} (h : t.Sound times table) (hwf : table.WellFormed) {k : Column}
    (hk : table.keyColumn? = some k) {p : Predicate} {row : Record} (hrow : row ∈ t.rows)
    (hholds : p.holds t.columns row = true)
    (hclash : ∀ other ∈ t.rows, p.holds t.columns other = true → k.Clashes other row) :
    t.matching p = [row] := by
  obtain ⟨k', hk', hprimary, -, -⟩ := hwf.key
  obtain rfl : k' = k := Option.some.inj (hk'.symm.trans hk)
  have hpairs := h.apart k' (Table.mem_of_column? hk).1 (Column.isExclusive_of_primaryKey hprimary)
  obtain ⟨before, after, hrows⟩ := List.append_of_mem hrow
  have hmem {other : Record} (hother : other ∈ before ++ after) : other ∈ t.rows := by
    rw [hrows]
    exact List.mem_append.2 ((List.mem_append.1 hother).imp id (List.mem_cons_of_mem row))
  rw [hrows, List.pairwise_append, List.pairwise_cons] at hpairs
  refine StoredTable.matching_eq_singleton hrows hholds fun other hother =>
    Bool.eq_false_iff.2 fun hother' => ?_
  have hclashes := hclash other (hmem hother) hother'
  rcases List.mem_append.1 hother with hbefore | hafter
  · exact hpairs.2.2 other hbefore row List.mem_cons_self hclashes
  · exact hpairs.2.1.1 other hafter (Column.clashes_comm hclashes)

/-- In a sound table a key finds the one row that has it. -/
theorem StoredTable.Sound.matching_key {times : Time.Instant → Prop} {table : Table}
    {t : StoredTable} (h : t.Sound times table) (hwf : table.WellFormed) {row : Record}
    (hrow : row ∈ t.rows) :
    t.matching (.eq table.primaryKey (row.cell table.primaryKey)) = [row] := by
  obtain ⟨k, hk, -⟩ := hwf.key
  obtain ⟨-, hkname⟩ := Table.mem_of_column? hk
  obtain ⟨haccepts, hnull⟩ := h.key_accepted hwf hk hrow
  have htype : typeIn t.columns table.primaryKey = k.type := by
    rw [h.columns_eq, Table.typeIn_keyColumn hk]
  refine h.matching_of_clashes hwf hk hrow ?_ fun other _ hholds => ?_
  · rw [Transaction.holds_eq hnull, htype]
    exact ⟨hnull, ColumnType.equal_self haccepts hnull⟩
  · obtain ⟨hother, hequal⟩ := (Transaction.holds_eq hnull).1 hholds
    rw [htype] at hequal
    rw [Column.Clashes, hkname]
    exact ⟨hother, hnull, hequal⟩

/-- Where equality of keys is transitive, a key that equals that of a row finds this row. -/
theorem StoredTable.Sound.matching_of_equal {times : Time.Instant → Prop} {table : Table}
    {t : StoredTable} (h : t.Sound times table) (hwf : table.WellFormed) {k : Column}
    (hk : table.keyColumn? = some k) (htype : k.type ≠ .float) {row : Record} (hrow : row ∈ t.rows)
    {key : Value} (haccepts : k.type.accepts key = true) (hnull : key.isNull = false)
    (hequal : k.type.equal key (row.cell table.primaryKey) = true) :
    t.matching (.eq table.primaryKey key) = [row] := by
  obtain ⟨-, hkname⟩ := Table.mem_of_column? hk
  have hin : typeIn t.columns table.primaryKey = k.type := by
    rw [h.columns_eq, Table.typeIn_keyColumn hk]
  obtain ⟨hrowaccepts, hrownull⟩ := h.key_accepted hwf hk hrow
  refine h.matching_of_clashes hwf hk hrow ?_ fun other hother hholds => ?_
  · rw [Transaction.holds_eq hnull, hin, ColumnType.equal_comm]
    exact ⟨hrownull, hequal⟩
  · obtain ⟨-, hequal'⟩ := (Transaction.holds_eq hnull).1 hholds
    rw [hin] at hequal'
    obtain ⟨hotheraccepts, hothernull⟩ := h.key_accepted hwf hk hother
    rw [Column.Clashes, hkname]
    exact ⟨hothernull, hrownull, ColumnType.equal_trans htype hotheraccepts haccepts hrowaccepts
      hothernull hnull hrownull hequal' hequal⟩

/-! ## The plan for a key -/

theorem ColumnType.isScalar_of_accepts {type : ColumnType} {v : Value} (h : type.accepts v = true)
    (htype : type ≠ .json) : (v.isArray || v.isObject) = false := by
  cases v with
  | array items => cases type <;> simp_all [accepts, Value.instant?, Value.text?]
  | object members => cases type <;> simp_all [accepts, Value.instant?, Value.text?]
  | _ => rfl

/-- A value that a column takes is not taken for another one. -/
theorem ColumnType.interpret_of_accepts {type : ColumnType} {v : Value}
    (h : type.accepts v = true) :
    type.interpret v = v := by
  cases type <;> cases v <;> first
    | rfl
    | cases h

/-- An identifier can be compared with the key if it is read as a value of its type. -/
theorem Predicate.ofEntry_key_eq_ok_iff {table : Table} {k : Column}
    (hk : table.keyColumn? = some k) {id : Value} {p : Predicate} :
    ofEntry table ⟨table.primaryKey, .eq, id⟩ = .ok p
      ↔ k.type.accepts (k.type.interpret id) = true
        ∧ p = .eq table.primaryKey (k.type.interpret id) := by
  have hcolumn : table.column? table.primaryKey = some k := hk
  have hscalar : scalar table.primaryKey k.type id
      = if k.type.accepts (k.type.interpret id) = true then .ok (k.type.interpret id)
        else if k.type ≠ .json
            ∧ ((k.type.interpret id).isArray || (k.type.interpret id).isObject) = true then
          reject (.notScalar table.primaryKey)
        else reject (.typeMismatch table.primaryKey) := by
    unfold scalar
    dsimp only
    by_cases haccepts : k.type.accepts (k.type.interpret id) = true
    · rw [if_pos haccepts, if_pos haccepts, if_neg]
      rintro ⟨htype, hnested⟩
      rw [ColumnType.isScalar_of_accepts haccepts htype] at hnested
      cases hnested
    · rw [if_neg haccepts, if_neg haccepts]
  have hoperand : operand table.primaryKey k.type .eq id = scalar table.primaryKey k.type id := by
    show scalarOperand table.primaryKey k.type .eq id = _
    unfold scalarOperand
    cases scalar table.primaryKey k.type id <;> rfl
  rw [ofEntry]
  dsimp only
  rw [hcolumn]
  dsimp only
  rw [if_neg (by simp [Operator.ordersValues]), hoperand, hscalar, (Table.mem_of_column? hk).2]
  by_cases haccepts : k.type.accepts (k.type.interpret id) = true
  · rw [if_pos haccepts, and_iff_right haccepts]
    exact ⟨fun h => (Except.ok.inj h).symm, fun h => congrArg Except.ok h.symm⟩
  · rw [if_neg haccepts]
    refine ⟨fun h => ?_, fun h => absurd h.1 haccepts⟩
    split at h <;> cases h

namespace Catalog

variable {catalog : Catalog} {resource : String} {table base : Table} {k : Column} {id key : Value}

/-- The plan for a stored record scans its table for one key, with all lists. -/
theorem rawPlan_of_key (htable : catalog.schema.table resource = .ok table)
    (hk : table.keyColumn? = some k) (hid : k.type.interpret id = key)
    (haccepts : k.type.accepts key = true) :
    catalog.rawPlan resource id
      = .ok { Plan.scan table (.eq table.primaryKey key) with relations := table.listNames } := by
  have hkey : ({ table with defaultFilter := {} } : Table).keyColumn? = some k := hk
  have hentry : Predicate.ofEntry { table with defaultFilter := {} } ⟨table.primaryKey, .eq, id⟩
      = .ok (.eq table.primaryKey key) :=
    (Predicate.ofEntry_key_eq_ok_iff hkey).2 ⟨hid ▸ haccepts, hid ▸ rfl⟩
  have hsource : Predicate.ofSourceEntry { table with defaultFilter := {} } .lookup
      ⟨table.primaryKey, .eq, id⟩ = .ok (.eq table.primaryKey key) := by
    rw [Predicate.ofSourceEntry, if_neg (by simp), hentry]
  have hvisible : Predicate.visibility { table with defaultFilter := {} }
      (Change.keyFilter table .eq id) (Filter.ofRecord {}) true = [] := by
    unfold Predicate.visibility
    split <;> simp
  have hfilter :
    Predicate.ofFilter { table with defaultFilter := {} } (Change.keyFilter table .eq id)
      .lookup true = .ok (.eq table.primaryKey key) := by
    unfold Predicate.ofFilter
    rw [Change.keyFilter, List.mapM_cons, hsource]
    show Except.ok (Predicate.all ([.eq table.primaryKey key] ++ [] ++ Predicate.visibility
      { table with defaultFilter := {} } (Change.keyFilter table .eq id) (Filter.ofRecord {}) true))
        = _
    rw [hvisible]
    rfl
  rw [rawPlan, htable]
  show Except.bind (Predicate.ofFilter _ _ _ _) _ = _
  rw [hfilter]
  rfl

end Catalog

/-- The format of dates in the settings, if there is one, can be read, and so written for every
date. -/
def Settings.WritesDates (settings : Settings) : Prop :=
  ∀ format ∈ settings.dateFormat, (Time.FormatPiece.read format.toList).isSome = true

instance (settings : Settings) : Decidable settings.WritesDates :=
  inferInstanceAs (Decidable (∀ format ∈ settings.dateFormat, _))

/-- Settings with a format that has no meaning. -/
def unwritableSettings : Settings := { dateFormat := some "%Q" }

/-! ## The lists of a record -/

/-- Beside some fields a record is what another one was. -/
def Record.SameBeside (fields : List String) (r r' : Record) : Prop :=
  ∀ name, name ∉ fields → r'.get? name = r.get? name

/-- Fields that are left alone twice are left alone. -/
theorem Record.SameBeside.cons {field : String} {fields : List String} {r r' r'' : Record}
    (h : SameBeside [field] r r') (h' : SameBeside fields r' r'') :
    SameBeside (field :: fields) r r'' := by
  intro name hname
  rw [List.mem_cons, not_or] at hname
  rw [h' name hname.2, h name (List.not_mem_cons_of_ne_of_not_mem hname.1 (List.not_mem_nil))]

namespace Fetch

variable {schema : Schema} {table base : Table} {tx : Transaction} {r : Record} {key : Value}
  {lists : List ListField}

/-- Whatever lists are handed out, all other fields of the records stay. -/
theorem sameBeside_handOut (table : Table) (m : ListField) (members : Members)
    (records : List Record) :
    List.Forall₂ (Record.SameBeside [m.field]) records (handOut table m members records) := by
  -- on the records, whatever is left for them
  induction records generalizing members with
  | nil => exact .nil
  | cons r rest ih =>
    refine .cons (fun name hname => ?_) (ih _)
    exact NameMap.get?_insert_of_ne _ _ (List.ne_of_not_mem_cons hname)

/-- One record is given the members that its links list. -/
theorem yields_withMembers {m : ListField} {link : Table} {t : StoredTable}
    (hkey : r.get? table.primaryKey = some key) (hlink : schema.linkTable m.linkTable = .ok link)
    (hopen : tx.isOpen = true) (ht : tx.work.tables.get? link.name = some t) :
    Yields (withMembers schema table [r] m) tx
      [r.insert m.field (.array (t.listed link m key))] tx := by
  have howners : [r].filterMap (fun r => r.get? table.primaryKey) = [key] := by
    rw [List.filterMap_cons, hkey]
    rfl
  unfold withMembers
  rw [howners]
  refine yields_bind.2 ⟨_, tx, yields_membersByOwner.2 ⟨link, _, hlink,
    Transaction.yields_select.2 ⟨hopen, rfl, t, ht, rfl⟩, rfl⟩, (yields_pure _ _).2 ⟨?_, rfl⟩⟩
  rw [handOut, handOut, keyText, hkey]
  rfl

/-- The lists of a record are added one after the other, each under its own name. -/
theorem yields_foldlM_withMembers (hopen : tx.isOpen = true)
    (hnodup : (lists.map ListField.field).Nodup)
    (hfields : table.primaryKey ∉ lists.map ListField.field)
    (hlinks : ∀ m ∈ lists, ∃ link t, schema.linkTable m.linkTable = .ok link
      ∧ tx.work.tables.get? link.name = some t)
    (hkey : r.get? table.primaryKey = some key) :
    ∃ full, Yields (lists.foldlM (withMembers schema table) [r]) tx [full] tx
      ∧ (∀ name, name ∉ lists.map ListField.field → full.get? name = r.get? name)
      ∧ ∀ m ∈ lists, ∀ link, schema.linkTable m.linkTable = .ok link →
        ∀ t, tx.work.tables.get? link.name = some t →
          full.get? m.field = some (.array (t.listed link m key)) := by
  -- on the lists; the key of the record stays as they are added
  induction lists generalizing r with
  | nil => exact ⟨r, (yields_pure _ _).2 ⟨rfl, rfl⟩, fun _ _ => rfl, by simp⟩
  | cons m rest ih =>
    rw [List.map_cons, List.nodup_cons] at hnodup
    rw [List.map_cons, List.mem_cons, not_or] at hfields
    obtain ⟨link, t, hlink, ht⟩ := hlinks m List.mem_cons_self
    obtain ⟨full, hrest, hother, hlists⟩ :=
      ih (r := r.insert m.field (.array (t.listed link m key)))
      hnodup.2 hfields.2 (fun n hn => hlinks n (List.mem_cons_of_mem m hn)) (by
        rw [NameMap.get?_insert_of_ne _ _ hfields.1]
        exact hkey)
    refine ⟨full, ?_, fun name hname => ?_, fun n hn link' hlink' u hu => ?_⟩
    · rw [List.foldlM_cons]
      exact yields_bind.2 ⟨_, tx, yields_withMembers hkey hlink hopen ht, hrest⟩
    · rw [List.map_cons, List.mem_cons, not_or] at hname
      rw [hother name hname.2, NameMap.get?_insert_of_ne _ _ hname.1]
    · rcases List.mem_cons.1 hn with rfl | hn
      · obtain rfl := Except.ok.inj (hlink.symm.trans hlink')
        obtain rfl := Option.some.inj (ht.symm.trans hu)
        rw [hother _ hnodup.1, NameMap.get?_insert_self]
      · exact hlists n hn link' hlink' u hu

/-- The lists of a table are those of its list fields. -/
theorem filterMap_listNames (hnodup : table.listNames.Nodup) :
    table.listNames.filterMap table.listField? = table.lists := by
  have hfound : ∀ m ∈ table.lists, table.listField? m.field = some m := fun m hm =>
    find?_eq_of_nodup hnodup hm
  rw [Table.listNames, List.filterMap_map]
  refine (List.filterMap_congr fun m hm => ?_).trans List.filterMap_some
  exact hfound m hm

/-- A date that is written anew leaves all lists of the record. -/
theorem get?_of_formatDates {format : String} {r' : Record}
    (h : formatDates table format r = .ok r') {name : String} (hname : name ∉ table.columnNames) :
    r'.get? name = r.get? name := by
  have hfold (columns : List Column) (hcolumns : ∀ c ∈ columns, c ∈ table.columns) (r : Record)
      (h : columns.foldlM (formatCell format) r = .ok r') : r'.get? name = r.get? name := by
    induction columns generalizing r with
    | nil => rw [Except.ok.inj h]
    | cons c rest ih =>
      rw [List.foldlM_cons] at h
      obtain ⟨mid, hcell, hrest⟩ := bind_eq_ok_iff.1 h
      rw [ih (fun d hd => hcolumns d (List.mem_cons_of_mem c hd)) mid hrest]
      have hne : name ≠ c.name := fun heq =>
        hname (heq ▸ Table.mem_columnNames (hcolumns c List.mem_cons_self))
      unfold formatCell at hcell
      split at hcell
      · rw [Except.ok.inj hcell]
      · split at hcell
        · rw [← Except.ok.inj hcell, NameMap.get?_insert_of_ne _ _ hne]
        · cases hcell
  exact hfold _ (fun c hc => List.mem_of_mem_filter hc) r h

/-- What becomes of a record that is read: its dates are written in the format of the settings. -/
def presented (settings : Settings) (table : Table) (r : Record) : Except Error Record :=
  match settings.dateFormat with
  | none => .ok r
  | some format => formatDates table format r

/-- The records of a plan before their dates are shown. -/
def unshown (schema : Schema) (plan : Plan) : Action (List Record) := do
  let rows ← Transaction.select plan
  (plan.relations.filterMap plan.table.listField?).foldlM (withMembers schema plan.table) rows

/-- The records of a plan are read with their lists, and then each is presented. -/
theorem records_eq (schema : Schema) (settings : Settings) (plan : Plan) :
    records schema settings plan
      = unshown schema plan >>= fun full =>
        Transaction.result (full.mapM (presented settings plan.table)) := by
  unfold records unshown
  rw [bind_assoc]
  refine bind_congr fun rows => bind_congr fun full => ?_
  unfold presented
  cases settings.dateFormat with
  | none =>
    show pure full = Transaction.result (full.mapM fun r => (pure r : Except Error Record))
    rw [List.mapM_pure, List.map_id']
    rfl
  | some format => rfl

/-- A format that can be read can be written for every date. -/
theorem formatDates_ok {format : String}
    (h : (Time.FormatPiece.read format.toList).isSome = true) (table : Table) (r : Record) :
    ∃ shown, formatDates table format r = .ok shown := by
  obtain ⟨pieces, hpieces⟩ := Option.isSome_iff_exists.1 h
  have hcell (r : Record) (c : Column) : ∃ shown, formatCell format r c = .ok shown := by
    unfold formatCell
    split
    · exact ⟨r, rfl⟩
    · rw [Time.formatted?, hpieces]
      exact ⟨_, rfl⟩
  have hfold (columns : List Column) (r : Record) :
      ∃ shown, columns.foldlM (formatCell format) r = .ok shown := by
    -- on the columns of dates, each of which is written into the record that the ones before it
    -- leave
    induction columns generalizing r with
    | nil => exact ⟨r, rfl⟩
    | cons c rest ih =>
      obtain ⟨mid, hmid⟩ := hcell r c
      obtain ⟨shown, hshown⟩ := ih mid
      refine ⟨shown, ?_⟩
      rw [List.foldlM_cons]
      exact bind_eq_ok_iff.2 ⟨mid, hmid, hshown⟩
  exact hfold _ r

theorem presented_ok {settings : Settings} (h : settings.WritesDates) (table : Table) (r : Record) :
    ∃ shown, presented settings table r = .ok shown := by
  unfold presented
  cases hformat : settings.dateFormat with
  | none => exact ⟨r, rfl⟩
  | some format => exact formatDates_ok (h format hformat) table r

/-- A page has the records of its plan, and the number of all rows. -/
theorem yields_page {settings : Settings} {plan : Plan} {p : Page} {tx' : Transaction} :
    Yields (page schema settings plan) tx p tx'
      ↔ ∃ mid, Yields (records schema settings plan) tx p.records mid
        ∧ Yields (Transaction.count plan.table plan.predicate) mid p.total tx' := by
  unfold page
  simp only [yields_bind, yields_pure]
  constructor
  · rintro ⟨shown, mid, hrecords, total, _, htotal, rfl, rfl⟩
    exact ⟨mid, hrecords, htotal⟩
  · rintro ⟨mid, hrecords, htotal⟩
    exact ⟨p.records, mid, hrecords, p.total, tx', htotal, rfl, rfl⟩

/-- If one row is selected, its record with its lists is the first. -/
theorem outcome_first? {settings : Settings} {plan : Plan} {row : Record}
    (hrow : Yields (Transaction.select { plan with limit := some 1, offset := 0 }) tx [row] tx)
    (hfull : Yields ((plan.relations.filterMap plan.table.listField?).foldlM
      (withMembers schema plan.table) [row]) tx [r] tx) :
    outcome (first? schema settings plan) tx
      = ((presented settings plan.table r).map some, tx) := by
  have hrecords : outcome (records schema settings { plan with limit := some 1, offset := 0 }) tx
      = ((presented settings plan.table r).map ([·]), tx) := by
    have hunshown : outcome (unshown schema { plan with limit := some 1, offset := 0 }) tx
        = (.ok [r], tx) :=
      yields_bind.2 ⟨[row], tx, hrow, hfull⟩
    rw [records_eq, outcome_bind, hunshown]
    dsimp only
    rw [outcome_result, List.mapM_cons, List.mapM_nil]
    cases presented settings plan.table r <;> rfl
  unfold first?
  rw [outcome_bind, hrecords]
  cases presented settings plan.table r <;> rfl

end Fetch

/-! ## The record of a row -/

namespace Catalog

variable {catalog : Catalog} {resource : String} {table base : Table} {k : Column} {id key : Value}
  {db : Database} {row : Record}

/-- What is read for a row of a resource: its cells, and for each list the members that a reader
finds in the link table. -/
structure Reads (catalog : Catalog) (base : Table) (s : Store) (row r : Record) : Prop where
  cells : ∀ name ∈ base.columnNames, r.get? name = some (row.cell name)
  lists : ∀ m ∈ base.lists, ∀ link, catalog.schema.linkTable m.linkTable = .ok link →
    ∀ t, s.tables.get? link.name = some t →
      r.get? m.field = some (.array (t.listed link m (row.cell base.primaryKey)))

/-- What is read for a row does not depend on the resource by which it is read. -/
theorem Reads.of_shares {s : Store} {r : Record} (hshares : table.SharesRows base)
    (h : catalog.Reads base s row r) : catalog.Reads table s row r where
  cells name hname := by
    rw [Table.columnNames, hshares.columns] at hname
    exact h.cells name hname
  lists m hm := by
    rw [hshares.lists] at hm
    rw [hshares.primaryKey]
    exact h.lists m hm

/-- With its lists the row of a resource becomes what is read for it. -/
theorem exists_reads (hco : catalog.schema.Coherent) (hregular : db.store.Regular catalog.schema)
    (hbase : base ∈ catalog.schema.bases) (hshares : table.SharesRows base)
    (hk : base.keyColumn? = some k) {t : StoredTable} (ht : db.store.tables.get? base.name = some t)
    (row : Record) : ∃ r, catalog.Reads base db.store row r
      ∧ Yields (table.lists.foldlM (Fetch.withMembers catalog.schema table)
          [StoredTable.cut table.columnNames row]) (.begin db) [r] (.begin db) := by
  have hkey : base.primaryKey ∈ base.columnNames := by
    obtain ⟨hkmem, hkname⟩ := Table.mem_of_column? hk
    exact hkname ▸ Table.mem_columnNames hkmem
  have hcut {name : String} (hname : name ∈ base.columnNames) :
      (StoredTable.cut table.columnNames row).get? name = some (row.cell name) := by
    refine StoredTable.get?_cut_of_mem row ?_
    rw [Table.columnNames, hshares.columns]
    exact hname
  have hfield {name : String} (hname : name ∈ base.columnNames) :
      name ∉ table.lists.map ListField.field := by
    rw [hshares.lists]
    intro hmem
    obtain ⟨m, hm, rfl⟩ := List.mem_map.1 hmem
    exact hco.field_not_column hbase hm hname
  have hlinks := hregular.exists_links hco hbase hshares ht
  have hopen : (Transaction.begin db).isOpen = true := rfl
  have hcutkey : (StoredTable.cut table.columnNames row).get? table.primaryKey
      = some (row.cell base.primaryKey) := by
    rw [hshares.primaryKey]
    exact hcut hkey
  obtain ⟨r, hfold, hother, hlists⟩ := Fetch.yields_foldlM_withMembers hopen
    (hco.listNames_nodup hbase hshares) (hshares.primaryKey ▸ hfield hkey) hlinks hcutkey
  refine ⟨r, ⟨fun name hname => ?_, fun m hm => hlists m (hshares.lists ▸ hm)⟩, hfold⟩
  rw [hother name (hfield hname), hcut hname]

/-- **The record of a row is read under each key that finds the row alone.** -/
theorem findStored_of_row (hco : catalog.schema.Coherent)
    (hregular : db.store.Regular catalog.schema)
    (htable : catalog.schema.table resource = .ok table) (hbase : base ∈ catalog.schema.bases)
    (hshares : table.SharesRows base) (hk : base.keyColumn? = some k) {t : StoredTable}
    (ht : db.store.tables.get? base.name = some t)
    (hmatching : t.matching (.eq base.primaryKey key) = [row]) (hid : k.type.interpret id = key)
    (haccepts : k.type.accepts key = true) :
    ∃ r, catalog.Reads base db.store row r
      ∧ catalog.findStored resource id db
        = ((Fetch.presented catalog.settings table r).map some, db) := by
  obtain ⟨r, hreads, hfold⟩ := exists_reads hco hregular hbase hshares hk ht row
  refine ⟨r, hreads, ?_⟩
  -- the plan for the key selects the row
  have hplan := rawPlan_of_key htable (hshares.keyColumn?.trans hk) hid haccepts
  have hselect : Yields (Transaction.select
      { Plan.scan table (.eq table.primaryKey key) with
        relations := table.listNames, limit := some 1, offset := 0 }) (.begin db)
      [StoredTable.cut table.columnNames row] (.begin db) := by
    refine Transaction.yields_select.2 ⟨rfl, rfl, t, (congrArg _ hshares.name).trans ht, ?_⟩
    rw [← hshares.primaryKey] at hmatching
    symm
    apply StoredTable.select_eq_singleton
    · exact hmatching
    · rfl
    · rfl
  rw [← Fetch.filterMap_listNames (hco.listNames_nodup hbase hshares)] at hfold
  have houtcome : outcome (Fetch.first? catalog.schema catalog.settings
      { Plan.scan table (.eq table.primaryKey key) with relations := table.listNames }) (.begin db)
      = ((Fetch.presented catalog.settings table r).map some, .begin db) :=
    Fetch.outcome_first? hselect hfold
  rw [findStored, hplan]
  show db.transact (Fetch.first? catalog.schema catalog.settings _) = _
  rw [Database.transact_eq, houtcome]
  cases Fetch.presented catalog.settings table r <;> rfl

end Catalog

end RecordStore
