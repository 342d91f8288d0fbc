import Mathlib.Data.Finset.SDiff
import Mathlib.Data.Finset.Dedup
import RecordStore.Proofs.Fetching
import RecordStore.Proofs.Readable

/-!
# Projections that exclude fields

A projection says which fields of a record are wanted or, with the other flag, which are not. The
key and the automatic fields stay in any case, and the flag of all entries is that of the first. So
a field that is excluded is one that is not included, for columns and for lists: to exclude some
fields is to include all others.

* **`Projection.Names`** — a projection that names a set of fields.
* **`Table.Leaves`** — what is left of the fields of a table.
* **`Catalog.excluded_as_included`** — excluding a set of fields, and including all others.
-/

namespace RecordStore

/-- The fields of a table: its columns and its lists. -/
def Table.fieldNames (t : Table) : List String := t.columnNames ++ t.listNames

theorem Table.hasField_iff {t : Table} {name : String} :
    t.hasField name = true ↔ name ∈ t.fieldNames := by
  have hlist : (t.listField? name).isSome = true ↔ name ∈ t.listNames := by
    simp [Table.listField?, Table.listNames]
  rw [Table.hasField, Bool.or_eq_true, Table.hasColumn_iff, hlist, Table.fieldNames,
    List.mem_append]

/-- A projection names the fields of a set, in any order and each as often as it likes, all with one
flag. -/
structure Projection.Names (p : Projection) (fields : Finset String) (included : Bool) : Prop where
  fields_eq : (p.map Prod.fst).toFinset = fields
  flags : ∀ entry ∈ p, entry.2 = included

/-- Some names of a table are left when fields are excluded: none stands twice, their order is that
of the table, and those of excluded fields are gone unless they are the key or automatic. -/
structure Table.Leaves (t : Table) (excluded : Finset String) (names kept : List String) :
    Prop where
  sublist : kept.Sublist names
  nodup : kept.Nodup
  mem_iff : ∀ f ∈ names, f ∈ kept ↔ f ∉ excluded ∨ f = t.primaryKey ∨ f ∈ t.autoFields

namespace Plan

variable {table : Table} {p : Projection} {fields excluded : Finset String} {included : Bool}

theorem isEmpty_of_names (h : p.Names fields included) (hfields : fields.Nonempty) :
    p.isEmpty = false := by
  obtain ⟨f, hf⟩ := hfields
  rw [← h.fields_eq, List.mem_toFinset, List.mem_map] at hf
  obtain ⟨entry, hentry, -⟩ := hf
  exact List.isEmpty_eq_false_iff_exists_mem.2 ⟨entry, hentry⟩

/-- Whether a projection keeps a field, told from the set that it names. -/
theorem keeps_iff (h : p.Names fields included) (f : String) : keeps table p included f = true
    ↔ (f ∈ fields ↔ included = true) ∨ f = table.primaryKey ∨ f ∈ table.autoFields := by
  have hnamed : p.any (·.1 == f) = true ↔ f ∈ fields := by
    rw [← h.fields_eq, List.mem_toFinset, List.mem_map, List.any_eq_true]
    simp
  rw [keeps, Bool.or_eq_true, Bool.or_eq_true, beq_iff_eq, beq_iff_eq, List.contains_iff_mem,
    Bool.eq_iff_iff, hnamed]
  exact or_comm

/-- What is left of some names. -/
def left (table : Table) (excluded : Finset String) (names : List String) : List String :=
  names.filter fun f => decide (f ∉ excluded ∨ f = table.primaryKey ∨ f ∈ table.autoFields)

theorem leaves_left {names : List String} (hnodup : names.Nodup) :
    table.Leaves excluded names (left table excluded names) where
  sublist := List.filter_sublist
  nodup := hnodup.filter _
  mem_iff f hf := by rw [left, List.mem_filter, decide_eq_true_iff, and_iff_right hf]

theorem filter_keeps_eq_left {names : List String} (h : p.Names fields included)
    (hkept : ∀ f ∈ names, (f ∈ fields ↔ included = true) ↔ f ∉ excluded) :
    names.filter (keeps table p included) = left table excluded names :=
  List.filter_congr fun f hf => by rw [Bool.eq_iff_iff, keeps_iff h, hkept f hf, decide_eq_true_iff]

/-- **A projection that keeps all fields outside a set leaves what the set does not exclude**,
whether it includes or excludes the fields that it names. -/
theorem columnsAndLists_of_names (h : p.Names fields included) (hsome : fields.Nonempty)
    (hfields : fields ⊆ table.fieldNames.toFinset)
    (hkept : ∀ f ∈ table.fieldNames, (f ∈ fields ↔ included = true) ↔ f ∉ excluded) :
    columnsAndLists table (some p)
      = .ok (left table excluded table.columnNames, left table excluded table.listNames) := by
  have hall : ∀ entry ∈ p, table.hasField entry.1 = true ∧ entry.2 = included := by
    intro entry hentry
    have hmem : entry.1 ∈ (p.map Prod.fst).toFinset :=
      List.mem_toFinset.2 (List.mem_map_of_mem hentry)
    rw [h.fields_eq] at hmem
    exact ⟨Table.hasField_iff.2 (List.mem_toFinset.1 (hfields hmem)), h.flags entry hentry⟩
  rw [columnsAndLists_of_uniform (isEmpty_of_names h hsome) hall,
    filter_keeps_eq_left h fun f hf => hkept f (List.mem_append_left _ hf),
    filter_keeps_eq_left h fun f hf => hkept f (List.mem_append_right _ hf)]

end Plan

namespace Catalog

open Plan

variable {settings : Settings} {domain : Domain} {catalog : Catalog} {table : Table}

theorem key_mem_of_ofDomain (hcompiles : Catalog.ofDomain settings domain = .ok catalog)
    (htable : table ∈ catalog.schema.resources ++ catalog.schema.links) :
    table.primaryKey ∈ table.columnNames := by
  have hco := coherent_of_ofDomain hcompiles
  rcases List.mem_append.1 htable with hresource | hlink
  · obtain ⟨base, hbase, hshares⟩ := hco.shared table hresource
    exact hco.key_mem_columnNames hbase hshares
  · obtain ⟨k, hk, -⟩ := hco.keyed table (Schema.mem_physical_of_link hlink)
    obtain ⟨hmem, hname⟩ := Table.mem_of_column? hk
    exact hname ▸ Table.mem_columnNames hmem

/-- **To exclude some fields is to include all others.** Let the fields of a compiled table have
different names, and take a set of them that is neither empty nor all of them. Every projection that
excludes the set and every one that includes the other fields gives the same columns and the same
lists, in the order of the table, each once: those outside the set, the automatic ones, and the key,
which is always among the columns. A projection that names something else is rejected, and so is one
with different flags, however it is ordered and whatever it repeats. -/
theorem excluded_as_included (hcompiles : Catalog.ofDomain settings domain = .ok catalog)
    (htable : table ∈ catalog.schema.resources ++ catalog.schema.links)
    (hdistinct : table.fieldNames.Nodup) {S : Finset String} (hS : S ⊆ table.fieldNames.toFinset)
    (hsome : S.Nonempty) (hothers : (table.fieldNames.toFinset \ S).Nonempty) :
    (∃ columns lists,
        (∀ p : Projection, p.Names S false → columnsAndLists table (some p) = .ok (columns, lists))
        ∧ (∀ p : Projection, p.Names (table.fieldNames.toFinset \ S) true →
          columnsAndLists table (some p) = .ok (columns, lists))
        ∧ table.Leaves S table.columnNames columns ∧ table.Leaves S table.listNames lists
        ∧ table.primaryKey ∈ columns)
      ∧ ∀ p : Projection,
        ((∃ entry ∈ p, entry.1 ∉ table.fieldNames) → ∃ entry ∈ p, entry.1 ∉ table.fieldNames
          ∧ columnsAndLists table (some p) = reject (.unknownProjectionField entry.1))
        ∧ ((∀ entry ∈ p, entry.1 ∈ table.fieldNames) → (∃ x ∈ p, ∃ y ∈ p, x.2 ≠ y.2) →
          columnsAndLists table (some p) = reject .mixedProjection) := by
  obtain ⟨hcolumns, hlists, -⟩ := List.nodup_append.1 hdistinct
  have hunknown {name : String} : table.hasField name = false ↔ name ∉ table.fieldNames := by
    rw [← Table.hasField_iff, Bool.not_eq_true]
  refine ⟨⟨left table S table.columnNames, left table S table.listNames, fun p hp =>
    ?_, fun p hp => ?_,
    leaves_left hcolumns, leaves_left hlists, ?_⟩, fun p => ⟨fun h => ?_, fun hfields hmixed => ?_⟩⟩
  -- both projections keep the fields outside the set, so they leave the same
  · exact columnsAndLists_of_names hp hsome hS fun f _ => by simp
  · exact columnsAndLists_of_names hp hothers Finset.sdiff_subset fun f hf => by simp [hf]
  · have hkey := key_mem_of_ofDomain hcompiles htable
    exact ((leaves_left hcolumns).mem_iff _ hkey).2 (.inr (.inl rfl))
  · simp only [← hunknown] at h ⊢
    exact columnsAndLists_of_unknown h
  · exact columnsAndLists_of_mixed
      (fun entry hentry => Table.hasField_iff.2 (hfields entry hentry)) hmixed

/-- An orchestra always shows when it was changed, and who plays in it. -/
def orchestraDomain : Domain := .ofList [
  ("person", {}),
  ("orchestra", {
    fields := .ofList [
      ("name", { typeName := "string" }),
      ("players", { typeName := "list", target := some "person" })]
    autoFields := ["_updated", "players"] })]

def orchestraCatalog : Catalog := .compiled {} orchestraDomain

/-- The name, the players and the date of creation are excluded, one of them twice. -/
theorem orchestra_without_name : ∃ table, orchestraCatalog.schema.table "orchestra" = .ok table
    ∧ table.fieldNames = ["id", "name", "_created", "_updated", "players"]
    ∧ columnsAndLists table
      (some [("players", false), ("name", false), ("_created", false), ("name", false)])
      = .ok (["id", "_updated"], ["players"])
    ∧ columnsAndLists table (some [("_updated", true), ("id", true)])
      = .ok (["id", "_updated"], ["players"]) := by
  have hcompiles : Catalog.ofDomain {} orchestraDomain = .ok orchestraCatalog :=
    Catalog.ofDomain_compiled rfl
  have hfacts : ((orchestraCatalog.schema.table "orchestra").toOption.map fun t =>
      decide (t.fieldNames = ["id", "name", "_created", "_updated", "players"]
        ∧ (columnsAndLists t (some [("_updated", true), ("id", true)])).toOption
          = some (["id", "_updated"], ["players"]))) = some true := by
    decide +kernel
  obtain ⟨table, htable, hfacts⟩ := Option.map_eq_some_iff.1 hfacts
  obtain ⟨hnames, hincluded⟩ := of_decide_eq_true hfacts
  have htable := eq_ok_of_toOption htable
  have hincluded := eq_ok_of_toOption hincluded
  have hmem := List.mem_append_left orchestraCatalog.schema.links (Schema.mem_of_table htable).1
  obtain ⟨⟨columns, lists, hexcluding, hincluding, -⟩, -⟩ := excluded_as_included hcompiles hmem
    (show table.fieldNames.Nodup by rw [hnames]; decide) (S := {"players", "name", "_created"})
    (by rw [hnames]; decide) (by decide) (by rw [hnames]; decide)
  rw [hincluding _ ⟨by rw [hnames]; decide, by decide⟩] at hincluded
  cases hincluded
  exact ⟨table, htable, hnames, hexcluding _ ⟨by decide, by decide⟩,
    hincluding _ ⟨by rw [hnames]; decide, by decide⟩⟩

end Catalog

end RecordStore
