import RecordStore.Proofs.Fields
import RecordStore.Proofs.KeyField
import RecordStore.Proofs.Realizing

/-!
# Required fields

A field that is declared as required becomes a column that is, whether it holds a value of its own,
a key, or the key of a row of another resource. A whole document without a value for the column is
refused, unless the value is filled in: by a default, or by the next number if the column is a key
of whole numbers.

A field that lists the keys of a resource becomes no column, and what it becomes keeps nothing of
the declaration. A document may leave the list out or give null for it, and is then judged as if it
gave the empty list.

* **`Compile.Assembly.exists_list_of_field`** — a field that lists keys is a list of the table, and
  no column.
* **`Document.check_insert_of_list`** — a list that passes its check makes no difference to the
  document.
* **`Catalog.required_demanded_iff`** — which of the required fields documents have to give.
-/

namespace RecordStore

open Compile

namespace Compile

variable {settings : Settings} {domain : Domain} {schema : Schema} {parts : List Part}
  {links : List BuiltLink}
  {tables : List Table} {field : String} {spec : Field} {c : Column} {doc : Record}

/-- The column of a required field needs a value, unless it has a default or is a key of whole
numbers. -/
theorem FieldColumn.lacks_of_required (h : FieldColumn tables field spec c)
    (hrequired : spec.required = true) (hdefault : spec.default? = none)
    (hkey : ¬ (spec.primaryKey = true ∧ ColumnType.ofName? spec.typeName = some .integer))
    (hnull : (doc.cell field).isNull = true) : Document.lacks doc c = true := by
  have hnone : c.default? = none := by rw [h.default?_eq, hdefault, ite_self]
  rw [Document.lacks, Column.hasDefault, hnone, h.defaultNow_eq, h.name_eq, hnull]
  cases h with
  | ordinary => simp [ordinaryColumn, hrequired]
  | reference => simp [referenceColumn, hrequired]
  | @key type htype hprimary =>
    have hnumber : type ≠ .integer := fun heq => hkey ⟨hprimary, heq ▸ htype⟩
    simp [keyColumn, hnumber]

/-- A field that lists the keys of a resource is a list of the table of its own, and no column. -/
theorem Assembly.exists_list_of_field (h : Assembly settings domain schema parts links)
    {part : Part} (hpart : part ∈ parts) (hentry : (field, spec) ∈ part.entry.2.fields.entries)
    (hlist : spec.hasColumn = false) :
    ∃ m ∈ (part.base links).lists, (part.base links).listField? field = some m
      ∧ field ∉ (part.base links).columnNames := by
  have hname : field ∈ (part.base links).listNames := by
    rw [h.listNames_eq hpart]
    obtain ⟨target, htarget⟩ : ∃ target, spec.target = some target := by
      rw [← Option.ne_none_iff_exists']
      exact fun hnone => by simp [Field.hasColumn, hnone] at hlist
    have hmany : spec.cardinality ≠ .one := by simpa [Field.hasColumn, htarget] using hlist
    have hrelation : ⟨field, spec, target⟩ ∈ part.entry.2.relations :=
      List.mem_filterMap.2 ⟨(field, spec), hentry, by simp [htarget]⟩
    have hrefs := refers_of_relate (h.compiled part hpart).references_eq
    obtain ⟨ref, hmem, href⟩ := exists_of_mem_left hrefs hrelation
    cases href with
    | column _ _ hone => exact absurd hone hmany
    | link => exact List.mem_map.2 ⟨_, List.mem_filterMap.2 ⟨_, hmem, rfl⟩, rfl⟩
  have honce := h.field_once hpart (Part.mem_keys_of_entry hentry)
  rw [List.count_append] at honce
  have hcolumn : field ∉ (part.base links).columnNames := by
    rw [← List.count_eq_zero]
    have := List.count_pos_iff.2 hname
    omega
  have hsome : ((part.base links).listField? field).isSome = true := by
    rw [Table.listField?, List.find?_isSome]
    obtain ⟨m, hm, heq⟩ := List.mem_map.1 hname
    exact ⟨m, hm, by simp [heq]⟩
  obtain ⟨m, hm⟩ := Option.isSome_iff_exists.1 hsome
  exact ⟨m, (Table.mem_of_listField? hm).1, hm, hcolumn⟩

end Compile

namespace Document

variable {schema : Schema} {table : Table} {doc : Record} {field : String}

/-- A field that is no column and passes its check can be left out. -/
theorem check_erase_of_ok (hcolumn : field ∉ table.columnNames)
    (h : ∀ v, doc.get? field = some v → checkField schema table (field, v) = .ok ()) :
    check schema table (doc.erase field) = check schema table doc := by
  have hlacks : ∀ c ∈ table.columns, lacks (doc.erase field) c = lacks doc c := by
    intro c hc
    have hname : c.name ≠ field := fun heq => hcolumn (heq ▸ List.mem_map_of_mem hc)
    rw [lacks, lacks, Record.cell, Record.cell, NameMap.get?_erase_of_ne _ hname]
  have hfind : table.columns.find? (lacks (doc.erase field)) = table.columns.find? (lacks doc) := by
    rw [← List.head?_filter, ← List.head?_filter, List.filter_congr hlacks]
  rw [check, check, hfind, checkPartial_erase_of_ok h]

/-- A list of keys. -/
theorem checkField_of_list {m : ListField} (hlist : table.listField? field = some m)
    (hcolumn : field ∉ table.columnNames) (v : Value) :
    checkField schema table (field, v) = checkMembers schema m v := by
  have hnone : table.column? field = none := by
    rwa [← Table.hasColumn_iff, Table.hasColumn, Bool.not_eq_true, Option.isSome_eq_false_iff,
      Option.isNone_iff_eq_none] at hcolumn
  simp only [checkField, hnone, hlist]

/-- A document without a list of keys, or with null for it, is judged as if it gave the empty
list. -/
theorem check_insert_empty {m : ListField} {type : ColumnType}
    (hlist : table.listField? field = some m) (hcolumn : field ∉ table.columnNames)
    (htype : memberType schema m = .ok type) (hnull : (doc.cell field).isNull = true) :
    check schema table (doc.insert field (.array [])) = check schema table doc := by
  rw [← check_erase_of_ok hcolumn fun v hv =>
    ?_, NameMap.erase_insert, check_erase_of_ok hcolumn fun v hv => ?_]
  · rw [Record.cell_eq_of_get? hv] at hnull
    rw [checkField_of_list hlist hcolumn]
    cases v with
    | null => rfl
    | _ => cases hnull
  · rw [NameMap.get?_insert_self] at hv
    obtain rfl := Option.some.inj hv
    rw [checkField_of_list hlist hcolumn, checkMembers, htype]
    rfl

end Document

namespace Catalog

variable {settings : Settings} {domain : Domain} {catalog : Catalog}
  {name field : String} {r : Resource}
  {spec : Field}

/-- **Which required fields documents have to give.** A field of a resource is required, has no
default, and is no key of whole numbers. If it has a column, every document without a value for it
is refused for a missing field. If it lists the keys of a resource, a document without it is judged
as if it gave the empty list. So the documents without the field are all refused just when it has a
column, or when all documents are refused whatever they give. -/
theorem required_demanded_iff (hcompiles : Catalog.ofDomain settings domain = .ok catalog)
    (hr : domain.get? name = some r) (hown : r.isAlias = false)
    (hfield : (field, spec) ∈ r.fields.entries) (hrequired : spec.required = true)
    (hdefault : spec.default? = none)
    (hkey : ¬ (spec.primaryKey = true ∧ ColumnType.ofName? spec.typeName = some .integer)) :
    ∃ table, catalog.schema.table name = .ok table
      ∧ (spec.hasColumn = true → ∀ doc : Record, (doc.cell field).isNull = true →
          ∃ c ∈ table.columns, Document.check catalog.schema table doc
            = reject (.missingField c.name))
      ∧ (spec.hasColumn = false → ∀ doc : Record, (doc.cell field).isNull = true →
          Document.check catalog.schema table (doc.insert field (.array []))
            = Document.check catalog.schema table doc)
      ∧ ((∀ doc : Record, (doc.cell field).isNull = true →
            ∃ e, Document.check catalog.schema table doc = .error e)
          ↔ spec.hasColumn = true
            ∨ ∀ doc, ∃ e, Document.check catalog.schema table doc = .error e) := by
  obtain ⟨schema, hschema, rfl⟩ := map_eq_ok_iff.1 hcompiles
  obtain ⟨parts, links, h⟩ := exists_assembly hschema
  obtain ⟨part, hpart, hpartentry, htable⟩ := h.exists_part_of_own hr hown
  have hentry : (field, spec) ∈ part.entry.2.fields.entries := by rwa [hpartentry]
  have hdemanded (hcolumn : spec.hasColumn = true) (doc : Record)
      (hnull : (doc.cell field).isNull = true) :
      ∃ c ∈ (part.base links).columns,
        Document.check schema (part.base links) doc = reject (.missingField c.name) := by
    obtain ⟨c, hc, hfieldColumn⟩ := Part.exists_fieldColumn (h.compiled part hpart) hentry hcolumn
    exact Document.check_of_lacks hc (hfieldColumn.lacks_of_required hrequired hdefault hkey hnull)
  refine ⟨_, htable, hdemanded, fun hlist doc hnull => ?_, fun hall => ?_, ?_⟩
  · obtain ⟨m, hm, hfound, hcolumn⟩ := h.exists_list_of_field hpart hentry hlist
    obtain ⟨_, _, _, _, hserves⟩ := h.lists (h.mem_bases.2 ⟨part, hpart, rfl⟩) hm
    exact Document.check_insert_empty hfound hcolumn
      (Document.memberType_eq hserves.target_eq hserves.targetKey_eq) hnull
  · cases hcolumn : spec.hasColumn with
    | true => exact .inl rfl
    | false =>
      -- a document that is accepted would be accepted without the list as well
      refine .inr fun doc => ?_
      obtain ⟨m, -, -, hnone⟩ := h.exists_list_of_field hpart hentry hcolumn
      cases hcheck : Document.check schema (part.base links) doc with
      | error e => exact ⟨e, rfl⟩
      | ok _ =>
        have hpartial := forM_eq_ok_iff.1 (Document.checkPartial_of_check hcheck)
        have herase := Document.check_erase_of_ok hnone fun v hv =>
          hpartial (field, v) ((NameMap.get?_eq_some_iff ..).1 hv)
        obtain ⟨e, he⟩ := hall (doc.erase field) (by simp [Record.cell, Value.isNull])
        rw [herase, hcheck] at he
        cases he
  · rintro (hcolumn | hnone) doc hnull
    · obtain ⟨c, -, hrefused⟩ := hdemanded hcolumn doc hnull
      exact ⟨_, hrefused⟩
    · exact hnone doc

def conductorField : Field := { typeName := "integer", required := true, target := some "person" }

def singersField : Field := { typeName := "list", required := true, target := some "person" }

/-- A choir has a person as its conductor, and persons as its singers. Both are required. -/
def choir : Resource :=
  { fields := .ofList [("conductor", conductorField), ("singers", singersField)] }

def choirDomain : Domain := .ofList [("person", {}), ("choir", choir)]

def choirCatalog : Catalog := .compiled {} choirDomain

/-- Choirs have to give their conductor, and may leave their singers out. -/
theorem conductor_demanded : ∃ table, choirCatalog.schema.table "choir" = .ok table
    ∧ (∀ doc : Record, (doc.cell "conductor").isNull = true →
        ∃ c ∈ table.columns, Document.check choirCatalog.schema table doc
          = reject (.missingField c.name))
    ∧ ∀ doc : Record, (doc.cell "singers").isNull = true →
        Document.check choirCatalog.schema table (doc.insert "singers" (.array []))
          = Document.check choirCatalog.schema table doc := by
  have hcompiles : Catalog.ofDomain {} choirDomain = .ok choirCatalog :=
    Catalog.ofDomain_compiled rfl
  have hchoir : choirDomain.get? "choir" = some choir := rfl
  have hfields : ("conductor", conductorField) ∈ choir.fields.entries
      ∧ ("singers", singersField) ∈ choir.fields.entries :=
    ⟨List.mem_cons_self, List.mem_cons_of_mem _ List.mem_cons_self⟩
  obtain ⟨table, htable, hconductor, -⟩ :=
    required_demanded_iff hcompiles hchoir rfl hfields.1 rfl rfl nofun
  obtain ⟨table', htable', -, hsingers, -⟩ :=
    required_demanded_iff hcompiles hchoir rfl hfields.2 rfl rfl nofun
  obtain rfl := Except.ok.inj (htable.symm.trans htable')
  exact ⟨table, htable, hconductor rfl, hsingers rfl⟩

/-- **A required list that documents need not give**: a choir without singers passes, and so does
one with null. -/
theorem singers_not_demanded : Catalog.ofDomain {} choirDomain = .ok choirCatalog
    ∧ choirDomain.get? "choir" = some choir ∧ ("singers", singersField) ∈ choir.fields.entries
    ∧ singersField.required = true ∧ singersField.default? = none
    ∧ ∃ table, choirCatalog.schema.table "choir" = .ok table
      ∧ Document.check choirCatalog.schema table (.ofList [("conductor", .int 1)]) = .ok ()
      ∧ Document.check choirCatalog.schema table
        (.ofList [("conductor", .int 1), ("singers", .null)]) = .ok () :=
  ⟨ofDomain_compiled rfl, rfl, List.mem_cons_of_mem _ List.mem_cons_self, rfl, rfl,
    _, rfl, rfl, rfl⟩

end Catalog

end RecordStore
