import RecordStore.Proofs.Sending

/-!
# Filters are conjunctions

The predicate of a filter joins three parts: the entries of the filter, those of the filter of the
datasource, and the rule that deleted rows are hidden. A flat conjunction is made of them, with one
part left alone where only one remains, and the rule gives way in two cases. All of this can be told
without the predicate: which filters are translated, and which rows are matched then, depends on the
entries one by one, and so neither on their order nor on how often each is written.

* **`Table.TakesEntry`**, **`Table.Permits`** — what is asked of an entry, and what a client may
  name.
* **`Table.ConcealsDeleted`** — when deleted rows are hidden.
* **`Predicate.filters_translated`** — the filters that are translated, and the rows that they
  match.
-/

namespace RecordStore

/-! ## Entries -/

/-- An entry compares a column with a value that the operator takes there. -/
def Table.TakesEntry (t : Table) (entry : FilterEntry) : Prop :=
  ∃ c v, t.column? entry.field = some c ∧ entry.op.Takes c.type entry.value v

/-- A client names only the fields by which the resource may be filtered. -/
def Table.Permits (t : Table) (source : FilterSource) (entry : FilterEntry) : Prop :=
  source = .client → t.allowedFilters.allows entry.field = true

/-- Deleted rows are hidden unless they are asked for, or a filter is about the flag. -/
def Table.ConcealsDeleted (t : Table) (filter : Filter) (showDeleted : Bool) (deleted : String) :
    Prop :=
  t.deletedColumn = some deleted ∧ showDeleted = false
    ∧ ∀ entry ∈ filter ++ Filter.ofRecord t.defaultFilter, entry.field ≠ deleted

theorem Filter.references_eq_false_iff {f : Filter} {field : String} :
    f.references field = false ↔ ∀ entry ∈ f, entry.field ≠ field := by
  simp [references]

theorem Filter.holds_iff {f : Filter} {t : Table} {row : Record} :
    f.holds t row = true ↔ ∀ entry ∈ f, entry.holds t row = true :=
  List.all_eq_true

namespace Table

variable {t : Table} {filter : Filter} {showDeleted : Bool} {row : Record}

theorem hidesDeleted_iff {deleted : String} : t.hidesDeleted filter deleted = true
    ↔ ∀ entry ∈ filter ++ Filter.ofRecord t.defaultFilter, entry.field ≠ deleted := by
  rw [hidesDeleted, Bool.and_eq_true, Bool.not_eq_true', Bool.not_eq_true',
    Filter.references_eq_false_iff, Filter.references_eq_false_iff, List.forall_mem_append]

/-- The rule about deleted rows admits those that are not flagged, where it hides the others. -/
theorem admits_iff : t.admits filter showDeleted row = true
    ↔ ∀ deleted, t.ConcealsDeleted filter showDeleted deleted → row.cell deleted = .bool false := by
  have hrule (deleted : String) : (showDeleted || !t.hidesDeleted filter deleted
        || decide (row.cell deleted = .bool false)) = true
      ↔ (showDeleted = false → t.hidesDeleted filter deleted = true →
        row.cell deleted = .bool false) := by
    cases showDeleted <;> cases t.hidesDeleted filter deleted <;> simp
  rw [admits, Option.all_eq_true]
  simp only [hrule, hidesDeleted_iff]
  constructor
  · rintro h deleted ⟨hdeleted, hhidden, hapart⟩
    exact h deleted hdeleted hhidden hapart
  · exact fun h deleted hdeleted hhidden hapart => h deleted ⟨hdeleted, hhidden, hapart⟩

end Table

namespace Predicate

variable {table : Table} {filter : Filter} {source : FilterSource} {showDeleted : Bool}
  {entry : FilterEntry}

/-! ## Acceptance -/

theorem scalar_of_accepts {field : String} {type : ColumnType} {v : Value}
    (h : type.accepts (type.interpret v) = true) :
    scalar field type v = .ok (type.interpret v) := by
  unfold scalar
  dsimp only
  rw [if_neg, if_pos h]
  rintro ⟨htype, hnested⟩
  rw [ColumnType.isScalar_of_accepts h htype] at hnested
  cases hnested

/-- An operand that the operator takes is judged well. -/
theorem operand_of_takes {field : String} {type : ColumnType} {op : Operator} {given v : Value}
    (h : op.Takes type given v) : operand field type op given = .ok v := by
  cases h with
  | @list items _ hitems =>
    have hvalues : items.mapM (scalar field type) = .ok (items.map type.interpret) := by
      rw [mapM_eq_ok_iff, List.forall₂_map_right_iff, List.forall₂_same]
      exact fun v hv => scalar_of_accepts (hitems v hv)
    rw [operand, if_pos rfl, listOperand, hvalues]
    rfl
  | pattern hpattern htext =>
    rw [operand, if_neg (by rintro rfl; cases hpattern), if_pos hpattern,
      patternOperand, if_pos htext]
  | scalar hin hpattern horder haccepts =>
    rw [operand, if_neg hin, if_neg (by simp [hpattern]), scalarOperand, scalar_of_accepts haccepts]
    refine if_neg ?_
    rw [Bool.and_eq_true]
    rintro ⟨horders, hnull⟩
    rw [(horder horders).2] at hnull
    cases hnull

/-- **An entry becomes a comparison if its field is a column and the operator takes its value
there.** -/
theorem exists_ofEntry_iff : (∃ p, ofEntry table entry = .ok p) ↔ table.TakesEntry entry := by
  constructor
  · rintro ⟨p, h⟩
    obtain ⟨c, v, hc, -, htakes⟩ := takes_of_ofEntry h
    exact ⟨c, v, hc, htakes⟩
  · rintro ⟨c, v, hc, htakes⟩
    have hdocument : ¬ (c.type = .json ∧ (entry.op = .isIn ∨ entry.op.ordersValues = true)) := by
      rintro ⟨hjson, hop⟩
      generalize entry.op = op, entry.value = given at htakes hop
      cases htakes with
      | list hnot => exact hnot hjson
      | pattern _ htext => cases hjson.symm.trans htext
      | scalar hin _ horder => exact hop.elim hin fun horders => (horder horders).1 hjson
    refine ⟨.compare c.name entry.op v, ?_⟩
    rw [ofEntry, hc]
    dsimp only
    rw [if_neg hdocument, operand_of_takes htakes]
    rfl

/-- An entry is translated exactly if its source may name the field and the column takes the
value. -/
theorem exists_ofSourceEntry_iff : (∃ p, ofSourceEntry table source entry = .ok p)
    ↔ table.Permits source entry ∧ table.TakesEntry entry := by
  unfold ofSourceEntry
  split
  · rename_i hforbidden
    refine iff_of_false nofun ?_
    rintro ⟨hpermits, -⟩
    rw [hpermits hforbidden.1] at hforbidden
    cases hforbidden.2
  · rename_i hpermitted
    rw [exists_ofEntry_iff]
    refine ⟨fun htakes => ⟨fun hclient => ?_, htakes⟩, And.right⟩
    simpa [hclient] using hpermitted

/-- A filter is translated if each of its entries is, and each of the datasource. -/
theorem exists_ofFilter_iff : (∃ p, ofFilter table filter source showDeleted = .ok p)
    ↔ (∀ entry ∈ filter, table.Permits source entry ∧ table.TakesEntry entry)
      ∧ ∀ entry ∈ Filter.ofRecord table.defaultFilter, table.TakesEntry entry := by
  have hasked : (∃ asked, filter.mapM (ofSourceEntry table source) = .ok asked)
      ↔ ∀ entry ∈ filter, table.Permits source entry ∧ table.TakesEntry entry := by
    simp only [exists_mapM_ok_iff, exists_ofSourceEntry_iff]
  have hgiven : (∃ given, (Filter.ofRecord table.defaultFilter).mapM (ofEntry table) = .ok given)
      ↔ ∀ entry ∈ Filter.ofRecord table.defaultFilter, table.TakesEntry entry := by
    simp only [exists_mapM_ok_iff, exists_ofEntry_iff]
  rw [← hasked, ← hgiven]
  constructor
  · rintro ⟨p, hp⟩
    obtain ⟨asked, given, hasked, hgiven, -⟩ := ofFilter_eq_ok_iff.1 hp
    exact ⟨⟨asked, hasked⟩, given, hgiven⟩
  · rintro ⟨⟨asked, hasked⟩, given, hgiven⟩
    exact ⟨_, ofFilter_eq_ok_iff.2 ⟨asked, given, hasked, hgiven, rfl⟩⟩

/-! ## Matching -/

/-- The rows of a translated filter are those that satisfy every entry, and of which none is deleted
where deleted rows are hidden. -/
theorem holds_iff_of_ofFilter {p : Predicate} (h : ofFilter table filter source showDeleted = .ok p)
    (row : Record) : p.holds table.columns row = true
      ↔ (∀ entry ∈ filter, entry.holds table row = true)
        ∧ (∀ entry ∈ Filter.ofRecord table.defaultFilter, entry.holds table row = true)
        ∧ ∀ deleted, table.ConcealsDeleted filter showDeleted deleted →
          row.cell deleted = .bool false := by
  rw [holds_of_ofFilter_admits h, Bool.and_eq_true, Bool.and_eq_true, Filter.holds_iff,
    Filter.holds_iff, Table.admits_iff, and_assoc]

end Predicate

/-- Whether deleted rows are hidden is the same for two filters with the same entries. -/
theorem Table.concealsDeleted_congr {t : Table} {f g : Filter} {showDeleted : Bool}
    {deleted : String} (hsame : ∀ entry, entry ∈ g ↔ entry ∈ f) :
    t.ConcealsDeleted g showDeleted deleted ↔ t.ConcealsDeleted f showDeleted deleted := by
  simp only [Table.ConcealsDeleted, List.mem_append, hsame]

namespace Predicate

/-- **Filters are conjunctions.** A filter is translated exactly if each of its entries names a
column and has a value that its operator takes there, a client is permitted to name the fields, and
the entries of the datasource are likewise. The predicate then holds of the rows for which the
comparison of every entry holds, and of these only of rows that are not flagged, if deleted rows are
hidden. Another filter that has the same entries, in any order and any number, is translated as well
or as little, and matches the same rows. -/
theorem filters_translated (table : Table) (filter : Filter) (source : FilterSource)
    (showDeleted : Bool) :
    ((∃ p, ofFilter table filter source showDeleted = .ok p)
        ↔ (∀ entry ∈ filter, table.Permits source entry ∧ table.TakesEntry entry)
          ∧ ∀ entry ∈ Filter.ofRecord table.defaultFilter, table.TakesEntry entry)
      ∧ (∀ p, ofFilter table filter source showDeleted = .ok p → ∀ row,
        p.holds table.columns row = true
          ↔ (∀ entry ∈ filter, entry.holds table row = true)
            ∧ (∀ entry ∈ Filter.ofRecord table.defaultFilter, entry.holds table row = true)
            ∧ ∀ deleted, table.ConcealsDeleted filter showDeleted deleted →
              row.cell deleted = .bool false)
      ∧ ∀ other : Filter, (∀ entry, entry ∈ other ↔ entry ∈ filter) →
        ((∃ q, ofFilter table other source showDeleted = .ok q)
            ↔ ∃ p, ofFilter table filter source showDeleted = .ok p)
          ∧ ∀ p q, ofFilter table filter source showDeleted = .ok p →
            ofFilter table other source showDeleted = .ok q →
            ∀ row, q.holds table.columns row = p.holds table.columns row := by
  refine ⟨exists_ofFilter_iff, fun p hp => holds_iff_of_ofFilter hp, fun other hsame => ⟨?_, ?_⟩⟩
  · simp only [exists_ofFilter_iff, hsame]
  · intro p q hp hq row
    rw [Bool.eq_iff_iff, holds_iff_of_ofFilter hq, holds_iff_of_ofFilter hp]
    simp only [hsame, Table.concealsDeleted_congr hsame]

end Predicate

namespace Catalog

/-- Sailors are found by their names and ages, and no passengers are among them. -/
def sailorDomain : Domain := .ofList [
  ("sailor", {
    fields := .ofList [
      ("name", { typeName := "string" }), ("age", { typeName := "integer" }),
        ("rank", { typeName := "string" })]
    softDelete := true
    allowedFilters := ["name", "age"]
    datasource := some { filter := some (.ofList [("rank__ne", .string "passenger")]) } })]

def sailorCatalog : Catalog := .compiled {} sailorDomain

/-- The captain, on board or gone. -/
def captain (gone : Bool) : Record :=
  .ofList [("name", .string "Ada"), ("age", .int 36), ("rank", .string "captain"),
    ("_deleted", .bool gone)]

/-- Two entries of a client: an age that is spelled out, and a list of names in which one may be
missing. -/
def ofAge : FilterEntry := ⟨"age", .gte, .string "18"⟩

def ofName : FilterEntry := ⟨"name", .isIn, .array [.string "Ada", .null]⟩

/-- The two entries are translated, in either order and with one repeated, and match the same
rows. -/
theorem sailors_of_age_matched :
    ∃ table p q, sailorCatalog.schema.table "sailor" = .ok table
      ∧ Predicate.ofFilter table [ofAge, ofName] .client false = .ok p
      ∧ Predicate.ofFilter table [ofName, ofAge, ofName] .client false = .ok q
      ∧ table.TakesEntry ofAge ∧ table.TakesEntry ofName
      ∧ (∀ row, q.holds table.columns row = p.holds table.columns row)
      ∧ q.holds table.columns (captain false) = true
        ∧ q.holds table.columns (captain true) = false := by
  have hparts : (sailorCatalog.schema.table "sailor").toOption.any (fun table =>
      (Predicate.ofFilter table [ofAge, ofName] .client false).toOption.any fun p =>
        p.holds table.columns (captain false) && !p.holds table.columns (captain true)) = true := by
    decide +kernel
  obtain ⟨table, htable, hparts⟩ := (Option.any_eq_true _ _).1 hparts
  obtain ⟨p, hp, hrows⟩ := (Option.any_eq_true _ _).1 hparts
  have hp := eq_ok_of_toOption hp
  obtain ⟨haccepted, -, hothers⟩ := Predicate.filters_translated table [ofAge, ofName] .client false
  have htakes := (haccepted.1 ⟨p, hp⟩).1
  obtain ⟨hother, hsame⟩ := hothers [ofName, ofAge, ofName] (by simp)
  obtain ⟨q, hq⟩ := hother.2 ⟨p, hp⟩
  refine ⟨table, p, q, eq_ok_of_toOption htable, hp, hq, (htakes ofAge (by simp)).2,
    (htakes ofName (by simp)).2,
    hsame p q hp hq, ?_⟩
  rw [hsame p q hp hq, hsame p q hp hq]
  simpa using hrows

end Catalog

end RecordStore
