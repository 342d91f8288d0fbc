import RecordStore.Proofs.Finding
import RecordStore.Proofs.Pages
import RecordStore.Proofs.Retention

/-!
# Requests narrowed by a lookup

A lookup narrows a request: its entries are added to the predicate of the request. The predicate of
one filter that asks for both differs in one point. Whether deleted rows are hidden is decided for
the request before its lookup is known, so the rule stays when only the lookup is about the flag,
and a lookup for deleted rows finds none.

* **`Table.admits`** — the rule about deleted rows, as a filter would have it.
* **`Plan.narrowed_rows`** — the rows of a narrowed request, beside those of one filter for both.
* **`Catalog.lookup_of_deleted_finds_none`** — a lookup for deleted rows, which a removal finds.
-/

namespace RecordStore

/-- Whether the rule about deleted rows lets a row be found: it applies unless deleted rows are
asked for, or a filter is about the flag. -/
def Table.admits (table : Table) (filter : Filter) (showDeleted : Bool) (row : Record) : Bool :=
  table.deletedColumn.all fun deleted =>
    showDeleted || !table.hidesDeleted filter deleted || decide (row.cell deleted = .bool false)

namespace Filter

variable {table : Table}

theorem holds_and (f g : Filter) (row : Record) :
    (f.and g).holds table row = (f.holds table row && g.holds table row) :=
  List.all_append

theorem references_and (f g : Filter) (field : String) :
    (f.and g).references field = (f.references field || g.references field) :=
  List.any_append

end Filter

namespace Table

variable {table : Table} {filter lookup : Filter} {showDeleted : Bool} {row : Record}

/-- What the rule lets through for a filter, it lets through for one that asks for more. -/
theorem admits_and (h : table.admits filter showDeleted row = true) :
    table.admits (filter.and lookup) showDeleted row = true := by
  unfold admits hidesDeleted at h ⊢
  cases hdeleted : table.deletedColumn with
  | none => rfl
  | some deleted =>
    rw [hdeleted, Option.all_some] at h
    rw [Option.all_some, Filter.references_and]
    revert h
    cases filter.references deleted <;> cases lookup.references deleted <;> simp +contextual

/-- The rule takes no notice of a lookup that is not about the flag, nor of any if it does not apply
anyway. -/
theorem admits_and_eq (h : ∀ deleted ∈ table.deletedColumn, lookup.references deleted = true →
      showDeleted = true ∨ table.hidesDeleted filter deleted = false) :
    table.admits (filter.and lookup) showDeleted row = table.admits filter showDeleted row := by
  unfold admits
  cases hdeleted : table.deletedColumn with
  | none => rfl
  | some deleted =>
    have hrule := h deleted hdeleted
    unfold hidesDeleted at hrule ⊢
    rw [Option.all_some, Option.all_some, Filter.references_and]
    revert hrule
    cases lookup.references deleted <;> cases showDeleted <;> cases filter.references deleted <;>
      simp +contextual

end Table

namespace Predicate

variable {table : Table} {filter : Filter} {source : FilterSource}

/-- An entry of a client becomes the comparison that it would be in a lookup. -/
theorem ofEntry_of_ofSourceEntry {entry : FilterEntry} {p : Predicate}
    (h : ofSourceEntry table source entry = .ok p) : ofEntry table entry = .ok p := by
  unfold ofSourceEntry at h
  split at h
  · cases h
  · exact h

theorem mapM_ofEntry_of_ofSourceEntry {ps : List Predicate}
    (h : filter.mapM (ofSourceEntry table source) = .ok ps) :
    filter.mapM (ofEntry table) = .ok ps :=
  mapM_eq_ok_iff.2 ((mapM_eq_ok_iff.1 h).imp fun _ _ => ofEntry_of_ofSourceEntry)

/-- The predicate of a filter holds of the rows that satisfy the filter and that of the datasource,
as far as the rule about deleted rows admits them. -/
theorem holds_of_ofFilter_admits {showDeleted : Bool} {p : Predicate}
    (h : ofFilter table filter source showDeleted = .ok p) (row : Record) :
    p.holds table.columns row = (filter.holds table row
      && (Filter.ofRecord table.defaultFilter).holds table row
        && table.admits filter showDeleted row) := by
  obtain ⟨asked, given, hasked, hgiven, rfl⟩ := ofFilter_eq_ok_iff.1 h
  have hrule : (visibility table filter (Filter.ofRecord table.defaultFilter) showDeleted).all
      (holds table.columns row) = table.admits filter showDeleted row := by
    cases showDeleted with
    | false => simp [all_holds_visibility, Table.admits]
    | true => cases hdeleted : table.deletedColumn <;> simp [visibility, Table.admits, hdeleted]
  rw [holds_all, List.all_append, List.all_append,
    all_holds_of_entries (mapM_ofEntry_of_ofSourceEntry hasked), all_holds_of_entries hgiven, hrule]

end Predicate

namespace Plan

variable {settings : Settings} {table : Table} {request : Request} {lookup : Filter} {plan : Plan}

/-- A narrowed plan is for the rows of the request that satisfy the lookup. -/
theorem holds_of_ofRequestAndLookup
    (hplan : ofRequestAndLookup settings table request lookup = .ok plan) :
    ∃ asked narrowed, Predicate.ofFilter table
      request.filter .client request.showDeleted = .ok asked
      ∧ lookup.mapM (Predicate.ofEntry table) = .ok narrowed
      ∧ ∀ row, plan.predicate.holds table.columns row
        = (asked.holds table.columns row && lookup.holds table row) := by
  obtain ⟨wide, hwide, hplan⟩ := ofRequestAndLookup_eq_ok_iff.1 hplan
  obtain ⟨asked, lists, keys, hasked, -, -, rfl⟩ := ofRequest_eq_ok_iff.1 hwide
  rcases hplan with ⟨hempty, rfl⟩ | ⟨-, narrowed, hnarrowed, rfl⟩
  · obtain rfl := List.isEmpty_iff.1 hempty
    exact ⟨asked, [], hasked, rfl, fun row => (Bool.and_true _).symm⟩
  · refine ⟨asked, narrowed, hasked, hnarrowed, fun row => ?_⟩
    rw [Predicate.holds_all, List.all_cons, Predicate.all_holds_of_entries hnarrowed]

/-- The lookup of a narrowed plan can be asked for with the filter of the request. -/
theorem ofFilter_and_ok {asked : Predicate} {narrowed : List Predicate}
    (hasked : Predicate.ofFilter table request.filter .client request.showDeleted = .ok asked)
    (hnarrowed : lookup.mapM (Predicate.ofEntry table) = .ok narrowed) :
    ∃ p, Predicate.ofFilter table (request.filter.and lookup)
      .lookup request.showDeleted = .ok p := by
  obtain ⟨own, given, hown, hgiven, -⟩ := Predicate.ofFilter_eq_ok_iff.1 hasked
  have hboth : (request.filter.and lookup).mapM (Predicate.ofEntry table) = .ok (own ++ narrowed) :=
    mapM_eq_ok_iff.2 (List.rel_append
      (mapM_eq_ok_iff.1 (Predicate.mapM_ofEntry_of_ofSourceEntry hown))
        (mapM_eq_ok_iff.1 hnarrowed))
  have hsource : Predicate.ofSourceEntry table .lookup = Predicate.ofEntry table :=
    funext fun entry => if_neg (by simp)
  exact ⟨_, Predicate.ofFilter_eq_ok_iff.2 ⟨own ++ narrowed, given, hsource ▸ hboth, hgiven, rfl⟩⟩

/-- **The rows of a narrowed request** are those of the predicate of both filters, of which the rule
about deleted rows admits those that it admits for the request alone. These are all of them, unless
the lookup is about the flag and the request is not. -/
theorem narrowed_rows (hplan : ofRequestAndLookup settings table request lookup = .ok plan) :
    ∃ p, Predicate.ofFilter table (request.filter.and lookup) .lookup request.showDeleted = .ok p
      ∧ (∀ row, p.holds table.columns row
        = (request.filter.holds table row && lookup.holds table row
          && (Filter.ofRecord table.defaultFilter).holds table row
          && table.admits (request.filter.and lookup) request.showDeleted row))
      ∧ (∀ row, plan.predicate.holds table.columns row
        = (p.holds table.columns row && table.admits request.filter request.showDeleted row))
      ∧ ((∀ deleted ∈ table.deletedColumn, lookup.references deleted = true →
          request.showDeleted = true ∨ table.hidesDeleted request.filter deleted = false) →
        ∀ row, plan.predicate.holds table.columns row = p.holds table.columns row) := by
  obtain ⟨asked, narrowed, hasked, hnarrowed, hrows⟩ := holds_of_ofRequestAndLookup hplan
  obtain ⟨p, hp⟩ := ofFilter_and_ok hasked hnarrowed
  have hholds (row : Record) : p.holds table.columns row
      = (request.filter.holds table row && lookup.holds table row
        && (Filter.ofRecord table.defaultFilter).holds table row
        && table.admits (request.filter.and lookup) request.showDeleted row) := by
    rw [Predicate.holds_of_ofFilter_admits hp, Filter.holds_and]
  have hnarrow (row : Record) : plan.predicate.holds table.columns row
      = (p.holds table.columns row && table.admits request.filter request.showDeleted row) := by
    rw [hrows, Predicate.holds_of_ofFilter_admits hasked, hholds]
    cases hadmits : table.admits request.filter request.showDeleted row with
    | false => simp
    | true =>
      rw [Table.admits_and hadmits]
      cases request.filter.holds table row <;> cases lookup.holds table row <;> simp
  refine ⟨p, hp, hholds, hnarrow, fun hrule row => ?_⟩
  -- the rule that holds for both holds for the request alone
  rw [hnarrow, hholds, Table.admits_and_eq hrule, Bool.and_assoc, Bool.and_self]

end Plan

/-! ### A sample -/

namespace Catalog

/-- Events with a title that were deleted. -/
def deletedFireworks : Request :=
  { filter := [⟨"title", .eq, .string "fireworks"⟩, ⟨"_deleted", .eq, .bool true⟩] }

/-- The event of the diary is written down and deleted. -/
def deletedDiarySteps : List Step := diarySteps ++ [(⟨2, 0⟩, .remove "event" [])]

/-- A lookup for the time of an event narrows a request for deleted ones. -/
theorem deletedFireworks_narrowed :
    ∃ plan table p, diaryCatalog.plan "event" deletedFireworks [⟨"at", .eq, newYear⟩] = .ok plan
      ∧ diaryCatalog.schema.table "event" = .ok table
      ∧ Predicate.ofFilter table
        (deletedFireworks.filter.and [⟨"at", .eq, newYear⟩]) .lookup false = .ok p
      ∧ ∃ row ∈ (diaryCatalog.run deletedDiarySteps).store.rows "event",
        plan.predicate.holds table.columns row = true ∧ p.holds table.columns row = true := by
  have hparts : ((diaryCatalog.schema.table "event").toOption.bind fun table =>
      (diaryCatalog.plan "event" deletedFireworks [⟨"at", .eq, newYear⟩]).toOption.map fun plan =>
        decide ((∃ row ∈ (diaryCatalog.run deletedDiarySteps).store.rows "event",
            plan.predicate.holds table.columns row = true)
          ∧ ∀ deleted ∈ table.deletedColumn,
            table.hidesDeleted deletedFireworks.filter deleted = false)) = some true := by
    decide +kernel
  obtain ⟨table, htable, hparts⟩ := Option.bind_eq_some_iff.1 hparts
  obtain ⟨plan, hplan, hfacts⟩ := Option.map_eq_some_iff.1 hparts
  obtain ⟨⟨row, hrow, hholds⟩, hhides⟩ := of_decide_eq_true hfacts
  have htable := eq_ok_of_toOption htable
  have hplan := eq_ok_of_toOption hplan
  obtain ⟨p, hp, -, -, hsame⟩ := Plan.narrowed_rows (plan_eq_ok htable hplan)
  refine ⟨plan, table, p, hplan, htable, hp, row, hrow, hholds, ?_⟩
  rw [← hsame fun deleted hdeleted _ => .inr (hhides deleted hdeleted)]
  exact hholds

/-- A lookup for deleted events: the predicate of the request and the lookup holds of the event that
was deleted, and a removal with the lookup finds it, but the narrowed request does not. -/
theorem lookup_of_deleted_finds_none :
    ∃ table ∈ (diaryCatalog.schema.table "event").toOption,
      ∃ plan ∈ (diaryCatalog.plan "event" {} [⟨"_deleted", .eq, .bool true⟩]).toOption,
      ∃ p ∈ (Predicate.ofFilter table (Filter.and [] [⟨"_deleted", .eq,
        .bool true⟩]) .lookup false).toOption,
      (∃ row ∈ (diaryCatalog.run deletedDiarySteps).store.rows "event",
        p.holds table.columns row = true ∧ plan.predicate.holds table.columns row = false)
      ∧ (diaryCatalog.find "event" {} [⟨"_deleted", .eq, .bool true⟩]
        (diaryCatalog.run deletedDiarySteps)).1.toOption.map Page.total = some 0
      ∧ (diaryCatalog.findFirst "event" {} [⟨"_deleted", .eq, .bool true⟩]
        (diaryCatalog.run deletedDiarySteps)).1.toOption.map Option.isSome = some false
      ∧ (diaryCatalog.remove "event" ⟨3, 0⟩ [⟨"_deleted", .eq, .bool true⟩]
        (diaryCatalog.run deletedDiarySteps)).1.toOption = some 1 := by
  decide +kernel

end Catalog

end RecordStore
