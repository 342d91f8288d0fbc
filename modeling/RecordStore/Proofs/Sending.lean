import RecordStore.Proofs.Encoding
import RecordStore.Proofs.Fetching
import RecordStore.Proofs.Narrowing

/-!
# Requests that can be sent

A request that becomes a plan is meant to be sent to the database: its values were judged against
their columns. Two ways are left in which a plan cannot be written as a statement. A list may hold
null, which every column accepts and no list parameter takes. And the rule that hides deleted rows
compares the flag with a truth value; if the settings give the flag the name of another column, that
column may not take one.

* **`Operator.Takes`** — the values that an operator compares with, as a filter's value is judged.
* **`Predicate.canCompare_of_ofEntry`** — the entry of a filter can be sent unless it is a list with
  null.
* **`Catalog.plans_sent_iff`** — which plans can be sent.
* **`Catalog.list_with_null_is_not_sent`** — one that cannot.
-/

namespace RecordStore

/-! ## What operators compare with -/

/-- What an operator compares a column with, when a filter gives a value: the value was judged
before it came into the predicate. -/
inductive Operator.Takes (type : ColumnType) : Operator → Value → Value → Prop
  /-- a list, each of whose items the column takes; a document is compared with no list -/
  | list {items : List Value} (hjson : type ≠ .json)
    (hitems : ∀ v ∈ items, type.accepts (type.interpret v) = true) :
    Takes type .isIn (.array items) (.array (items.map type.interpret))
  /-- a pattern, for texts -/
  | pattern {op : Operator} {s : String}
      (hpattern : op.takesPattern = true) (htext : type = .text) :
    Takes type op (.string s) (.string s)
  /-- a value that the column takes; documents are not ordered, and nothing is before or after
  null -/
  | scalar {op : Operator} {v : Value} (hin : op ≠ .isIn) (hpattern : op.takesPattern = false)
    (horder : op.ordersValues = true → type ≠ .json ∧ (type.interpret v).isNull = false)
    (haccepts : type.accepts (type.interpret v) = true) : Takes type op v (type.interpret v)

namespace Predicate

variable {table : Table} {entry : FilterEntry} {p : Predicate}

theorem accepts_of_scalar {field : String} {type : ColumnType} {v w : Value}
    (h : scalar field type v = .ok w) : type.accepts (type.interpret v) = true := by
  unfold scalar at h
  dsimp only at h
  split at h
  · cases h
  · split at h
    · rename_i haccepts
      exact haccepts
    · cases h

/-- An operand is a value that its operator takes, if the operator may be used on documents. -/
theorem takes_of_operand {field : String} {type : ColumnType} {op : Operator} {given v : Value}
    (hdocument : ¬ (type = .json ∧ (op = .isIn ∨ op.ordersValues = true)))
    (h : operand field type op given = .ok v) : op.Takes type given v := by
  unfold operand at h
  split at h
  · rename_i hop
    subst hop
    cases given with
    | array items =>
      obtain ⟨values, hvalues, rfl⟩ := map_eq_ok_iff.1 h
      rw [interpreted_of_mapM hvalues]
      refine .list (fun hjson => hdocument ⟨hjson, .inl rfl⟩) fun item hitem => ?_
      obtain ⟨w, hw⟩ := exists_mapM_ok_iff.1 ⟨values, hvalues⟩ item hitem
      exact accepts_of_scalar hw
    | _ => cases h
  · rename_i hop
    split at h
    · rename_i hpattern
      unfold patternOperand at h
      split at h
      · split at h
        · rename_i htext
          obtain rfl := Except.ok.inj h
          exact .pattern hpattern htext
        · cases h
      · split at h <;> cases h
    · rename_i hpattern
      obtain ⟨w, hw, h⟩ := bind_eq_ok_iff.1 h
      obtain rfl := eq_interpret_of_scalar hw
      split at h
      · cases h
      rename_i hnull
      obtain rfl := Except.ok.inj h
      refine .scalar hop (by simpa using hpattern) (fun horder => ⟨fun hjson => ?_, ?_⟩)
        (accepts_of_scalar hw)
      · exact hdocument ⟨hjson, .inr horder⟩
      · simpa [horder] using hnull

/-- **An entry of a filter becomes a comparison with a value that the operator takes.** -/
theorem takes_of_ofEntry (h : ofEntry table entry = .ok p) :
    ∃ c v, table.column? entry.field = some c ∧ p = .compare entry.field entry.op v
      ∧ entry.op.Takes c.type entry.value v := by
  unfold ofEntry at h
  cases hcolumn : table.column? entry.field with
  | none =>
    rw [hcolumn] at h
    cases h
  | some c =>
    rw [hcolumn] at h
    dsimp only at h
    split at h
    · cases h
    rename_i hdocument
    obtain ⟨v, hv, rfl⟩ := map_eq_ok_iff.1 h
    exact ⟨c, v, rfl, by rw [(Table.mem_of_column? hcolumn).2], takes_of_operand hdocument hv⟩

/-! ## Comparisons of a predicate -/

theorem leaves_parts (p : Predicate) : p.parts.flatMap leaves = p.leaves := by
  cases p with
  | compare column op v => simp [parts, leaves]
  | and qs => rw [leaves_and]; rfl

/-- A conjunction makes the comparisons of its parts, however it is flattened. -/
theorem leaves_all (ps : List Predicate) : (all ps).leaves = ps.flatMap leaves := by
  have hflat : (ps.flatMap parts).flatMap leaves = ps.flatMap leaves := by
    rw [List.flatMap_assoc]
    exact congrArg (ps.flatMap ·) (funext leaves_parts)
  unfold all
  split
  · rename_i p hone
    rw [← hflat, hone, List.flatMap_singleton]
  · rw [leaves_and, hflat]

theorem forall_leaves_all_iff {ps : List Predicate} {P : Predicate → Prop} :
    (∀ leaf ∈ (all ps).leaves, P leaf) ↔ ∀ p ∈ ps, ∀ leaf ∈ p.leaves, P leaf := by
  rw [leaves_all]
  exact List.forall_mem_flatMap

end Predicate

/-! ## Entries that can be sent -/

theorem ColumnType.isNull_interpret (type : ColumnType) (v : Value) :
    (type.interpret v).isNull = v.isNull := by
  unfold interpret
  split
  · split
    · split <;> rfl
    · rfl
  · split <;> rfl
  · split <;> rfl
  · rfl

/-- Whether an entry compares with a list that holds null. -/
def FilterEntry.listsNull (entry : FilterEntry) : Bool :=
  entry.op == .isIn && (Change.memberValues entry.value).any Value.isNull

/-- Whether some entry does. -/
def Filter.listsNull (filter : Filter) : Bool := filter.any FilterEntry.listsNull

namespace Predicate

variable {table : Table} {filter : Filter} {p : Predicate}

/-- What an operator takes can be sent, unless it is a list with null. -/
theorem canCompare_of_takes {type : ColumnType} {op : Operator} {given v : Value}
    (h : op.Takes type given v) :
    Sql.canCompare type op v = !(op == .isIn && (Change.memberValues given).any Value.isNull) := by
  cases h with
  | @list items hjson hitems =>
    have hall : (items.map type.interpret).all (Sql.Bind.takesItem type)
      = !items.any Value.isNull := by
      rw [List.all_map, List.not_any_eq_all_not, Bool.eq_iff_iff, List.all_eq_true,
        List.all_eq_true]
      refine forall₂_congr fun v hv => ?_
      rw [Function.comp, Sql.Bind.takesItem, hitems v hv, ColumnType.isNull_interpret]
      simp
    rw [Sql.canCompare, hall, bne_iff_ne.2 hjson]
    cases items <;> simp [Change.memberValues]
  | pattern hpattern htext =>
    subst htext
    cases op <;> first | rfl | cases hpattern
  | scalar hin hpattern _ haccepts =>
    cases op <;> first
      | exact haccepts
      | exact absurd rfl hin
      | cases hpattern

theorem canCompare_of_ofEntry {entry : FilterEntry} (h : ofEntry table entry = .ok p) :
    (∀ leaf ∈ p.leaves, table.canCompare leaf = true) ↔ entry.listsNull = false := by
  obtain ⟨c, v, hcolumn, rfl, htakes⟩ := takes_of_ofEntry h
  rw [leaves, List.forall_mem_singleton, Table.canCompare, hcolumn, Option.any_some,
    canCompare_of_takes htakes, Bool.not_eq_true', FilterEntry.listsNull]

theorem canCompare_of_entries {ps : List Predicate} (h : filter.mapM (ofEntry table) = .ok ps) :
    (∀ p ∈ ps, ∀ leaf ∈ p.leaves, table.canCompare leaf = true) ↔ filter.listsNull = false := by
  rw [Filter.listsNull, List.any_eq_false]
  induction mapM_eq_ok_iff.1 h with
  | nil => simp
  | cons hfirst hrest ih =>
    rw [List.forall_mem_cons, List.forall_mem_cons, canCompare_of_ofEntry hfirst,
      ih (mapM_eq_ok_iff.2 hrest), Bool.not_eq_true]

end Predicate

/-- Whether the flag of deleted rows, if there is one, can be compared with a truth value. -/
def Table.flagTakesTruth (table : Table) : Bool :=
  table.deletedColumn.all fun deleted => table.canCompare (.eq deleted (.bool false))

/-- Whether what a request and a lookup ask for can be sent: no list that they or the datasource
compare with holds null, and if deleted rows are hidden, the flag can be compared with a truth
value. -/
def Table.canSend (table : Table) (request : Request) (lookup : Filter) : Prop :=
  request.filter.listsNull = false ∧ (Filter.ofRecord table.defaultFilter).listsNull = false
    ∧ lookup.listsNull = false
    ∧ (Predicate.visibility table request.filter (Filter.ofRecord table.defaultFilter)
        request.showDeleted = [] ∨ table.flagTakesTruth = true)

namespace Predicate

variable {table : Table} {filter defaults : Filter} {p : Predicate}

/-- What hides deleted rows can be compared exactly if there is nothing of it or the flag takes
truth values. -/
theorem canCompare_visibility_iff {showDeleted : Bool} :
    (∀ p ∈ visibility table filter defaults showDeleted, ∀ leaf ∈ p.leaves,
      table.canCompare leaf = true)
      ↔ visibility table filter defaults showDeleted = [] ∨ table.flagTakesTruth = true := by
  unfold visibility Table.flagTakesTruth
  cases table.deletedColumn with
  | none => simp
  | some deleted =>
    dsimp only
    split <;> simp [eq, leaves]

/-- A filter can be sent exactly if neither it nor the filter of the datasource lists a null and
what hides deleted rows can be compared. -/
theorem canCompare_of_ofFilter {source : FilterSource} {showDeleted : Bool}
    (h : ofFilter table filter source showDeleted = .ok p) :
    (∀ leaf ∈ p.leaves, table.canCompare leaf = true)
      ↔ filter.listsNull = false ∧ (Filter.ofRecord table.defaultFilter).listsNull = false
        ∧ (visibility table filter (Filter.ofRecord table.defaultFilter) showDeleted = []
          ∨ table.flagTakesTruth = true) := by
  obtain ⟨asked, given, hasked, hgiven, rfl⟩ := ofFilter_eq_ok_iff.1 h
  rw [forall_leaves_all_iff, List.forall_mem_append, List.forall_mem_append,
    canCompare_of_entries (mapM_ofEntry_of_ofSourceEntry hasked), canCompare_of_entries hgiven,
    canCompare_visibility_iff, and_assoc]

end Predicate

namespace Plan

variable {settings : Settings} {table : Table} {request : Request} {lookup : Filter} {plan : Plan}

/-- What a request and a lookup compare can be sent exactly if nothing lists a null and the flag can
be compared. -/
theorem canCompare_of_ofRequestAndLookup
    (hplan : ofRequestAndLookup settings table request lookup = .ok plan) :
    (∀ leaf ∈ plan.predicate.leaves, table.canCompare leaf = true)
      ↔ table.canSend request lookup := by
  obtain ⟨wide, hwide, hplan⟩ := ofRequestAndLookup_eq_ok_iff.1 hplan
  obtain ⟨asked, lists, keys, hasked, -, -, rfl⟩ := ofRequest_eq_ok_iff.1 hwide
  rcases hplan with ⟨hempty, rfl⟩ | ⟨-, narrowed, hnarrowed, rfl⟩
  · obtain rfl := List.isEmpty_iff.1 hempty
    dsimp only
    rw [Predicate.canCompare_of_ofFilter hasked, Table.canSend]
    simp [Filter.listsNull]
  · dsimp only
    rw [Predicate.forall_leaves_all_iff, List.forall_mem_cons,
      Predicate.canCompare_of_ofFilter hasked, Predicate.canCompare_of_entries hnarrowed,
      Table.canSend]
    tauto

/-- The columns of a plan are columns of its table. -/
theorem hasColumn_of_projects (h : plan.Projects table) :
    ∀ name ∈ plan.columns, plan.table.hasColumn name = true := by
  intro name hname
  rw [h.table_eq, Table.hasColumn_iff]
  exact h.columns.subset hname

end Plan

namespace Catalog

variable {settings : Settings} {domain : Domain} {catalog : Catalog}
  {resource : String} {table : Table}

/-- A flag of a name of its own is a column of truth values. -/
theorem flagTakesTruth_of_names (hcompiles : Catalog.ofDomain settings domain = .ok catalog)
    (hnames : settings.NamesApart) (htable : catalog.schema.table resource = .ok table) :
    table.flagTakesTruth = true := by
  have hwf := wellFormed_of_ofDomain hcompiles hnames
  obtain ⟨base, hbase, hshares⟩ := hwf.shared table (Schema.mem_of_table htable).1
  have hbasewf := hwf.tables base (Schema.mem_physical_of_base hbase)
  rw [Table.flagTakesTruth, Option.all_eq_true]
  intro deleted hdeleted
  obtain ⟨c, hc, rfl, htype, -⟩ := hbasewf.flag deleted (hshares.deletedColumn ▸ hdeleted)
  rw [Predicate.eq, Table.canCompare, hshares.column?, hbasewf.column?_name hc, Option.any_some,
    htype]
  rfl

/-- **Plans that can be sent.** The statements that read and count the rows of a plan can be written
unless the request, the lookup or the datasource compares with a list that holds null, or deleted
rows are hidden by a flag that is no column of truth values; the flag is one if the names that the
settings give are different. -/
theorem plans_sent_iff (hcompiles : Catalog.ofDomain settings domain = .ok catalog)
    (htable : catalog.schema.table resource = .ok table) {request : Request} {lookup : Filter}
    {plan : Plan} (hplan : catalog.plan resource request lookup = .ok plan) (db : String) :
    ((∃ s, Sql.select db plan = .ok s) ↔ table.canSend request lookup)
      ∧ ((∃ s, Sql.count db plan.table plan.predicate = .ok s) ↔ table.canSend request lookup)
      ∧ (settings.NamesApart → table.flagTakesTruth = true) := by
  have hplan := plan_eq_ok htable hplan
  have hprojects := Plan.projects_of_ofRequestAndLookup hplan
  have hleaves := Plan.canCompare_of_ofRequestAndLookup hplan
  rw [← hprojects.table_eq] at hleaves
  refine ⟨?_, Sql.count_ok_iff.trans (hprojects.table_eq ▸ hleaves), fun hnames =>
    flagTakesTruth_of_names hcompiles hnames htable⟩
  rw [Sql.select_ok_iff, and_iff_right (Plan.hasColumn_of_projects hprojects)]
  exact hprojects.table_eq ▸ hleaves

/-- People, who have an age. -/
def agedDomain : Domain := .ofList [
  ("person", { fields := .ofList [("age", { typeName := "integer" })] })]

def agedCatalog : Catalog := .compiled {} agedDomain

theorem ofDomain_aged : Catalog.ofDomain {} agedDomain = .ok agedCatalog :=
  Catalog.ofDomain_compiled rfl

/-- The people of one of the given ages. -/
def agedAmong (ages : List Value) : Request := { filter := [⟨"age", .isIn, .array ages⟩] }

/-- Of the people of seven or eight, those under eight are read and counted. -/
theorem young_people_sent :
    ∃ plan, agedCatalog.plan "person" (agedAmong [.int 7, .int 8]) [⟨"age", .lt, .int 8⟩] = .ok plan
      ∧ (∃ s, Sql.select "public" plan = .ok s)
      ∧ ∃ s, Sql.count "public" plan.table plan.predicate = .ok s := by
  have hparts : ((agedCatalog.schema.table "person").toOption.bind fun table =>
      (agedCatalog.plan "person" (agedAmong [.int 7, .int 8]) [⟨"age", .lt, .int 8⟩]).toOption.map
        fun _ =>
        decide ((Filter.ofRecord table.defaultFilter).listsNull = false
          ∧ table.flagTakesTruth = true)) = some true := by
    decide +kernel
  obtain ⟨table, htable, hparts⟩ := Option.bind_eq_some_iff.1 hparts
  obtain ⟨plan, hplan, hfacts⟩ := Option.map_eq_some_iff.1 hparts
  obtain ⟨hdefaults, hflag⟩ := of_decide_eq_true hfacts
  have hplan := eq_ok_of_toOption hplan
  obtain ⟨hselect, hcount, -⟩ :=
    plans_sent_iff ofDomain_aged (eq_ok_of_toOption htable) hplan "public"
  have hsend : table.canSend (agedAmong [.int 7, .int 8]) [⟨"age", .lt, .int 8⟩] :=
    ⟨rfl, hdefaults, rfl, .inr hflag⟩
  exact ⟨plan, hplan, hselect.2 hsend, hcount.2 hsend⟩

/-- A list of ages may hold null, for then there is a plan; but the plan is neither read nor
counted. -/
theorem list_with_null_is_not_sent :
    Catalog.ofDomain {} agedDomain = .ok agedCatalog
      ∧ ∃ plan ∈ (agedCatalog.plan "person" (agedAmong [.null]) []).toOption,
        (Sql.select "public" plan).toOption.isNone = true
          ∧ (Sql.count "public" plan.table plan.predicate).toOption.isNone = true :=
  ⟨ofDomain_aged, by decide +kernel⟩

end Catalog

end RecordStore
