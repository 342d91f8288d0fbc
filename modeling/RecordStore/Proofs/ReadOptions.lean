import RecordStore.Proofs.ColumnNames
import RecordStore.Proofs.Realizing

/-!
# Read options

The options of a resource say how its table is read. Nothing else depends on them: which tables a
domain is compiled to, up to their options, is told by the fields of its resources and by their
sources. Options are refused only if the filter or the sort of a datasource names a field that is
not known, and which fields are known depends on when the table is asked: an alias is compiled
against the finished table of its source, a resource against its own table before the columns are
there that point at other resources.

* **`Datasource.fields`** — the fields that the filter and the sort of a datasource name.
* **`Table.optioned`**, **`Table.bare`** — a table with the options of a resource, and without any.
* **`Compile.exists_reoptioned`** — resources may take any other options whose fields are known.
* **`Schema.options_compile_iff`** — the options that a resource may declare, and those that an
  alias may.
-/

namespace RecordStore

open Compile

/-! ## The fields of a datasource -/

namespace Datasource

/-- The fields by which a datasource filters, as they are checked: the keys of the filter, each up
to its first double underscore. -/
def filterFields (d : Datasource) : List String :=
  ((d.filter.map NameMap.keys).getD []).map fun key =>
    String.ofList (FilterKey.beforeFirst key.toList)

/-- The fields by which a datasource sorts. -/
def sortFields (d : Datasource) : List String := (d.defaultSort.getD []).map Prod.fst

def fields (d : Datasource) : List String := d.filterFields ++ d.sortFields

end Datasource

/-- The fields that the datasource of a resource names, if it has one. -/
def Resource.optionFields (r : Resource) : List String :=
  (r.datasource.map Datasource.fields).getD []

namespace Compile

variable {table t : Table} {name : String} {r : Resource} {d : Datasource}

/-- A datasource passes the check exactly if each field that it names is a column. -/
theorem checkDatasource_eq_ok_iff :
    checkDatasource table name d = .ok () ↔ ∀ field ∈ d.fields, table.hasColumn field = true := by
  have hfilter : (∀ field ∈ d.filterFields, table.hasColumn field = true)
      ↔ d.filterFields.find? (fun field => !table.hasColumn field) = none := by
    simp
  have hsort : (∀ field ∈ d.sortFields, table.hasColumn field = true)
      ↔ (d.defaultSort.getD []).find? (fun entry => !table.hasColumn entry.1) = none := by
    simp [Datasource.sortFields]
  rw [Datasource.fields, List.forall_mem_append, hfilter, hsort]
  unfold checkDatasource
  dsimp only
  rw [← Datasource.filterFields]
  split
  · rename_i hunknown
    rw [hunknown]
    exact iff_of_false nofun nofun
  · rename_i hknown
    rw [hknown, eq_self, true_and]
    split
    · rename_i hunknown
      rw [hunknown]
      exact iff_of_false nofun nofun
    · rename_i hknown
      exact iff_of_true rfl hknown

end Compile

/-- Whether a table has the columns that the options of a resource name. -/
def Table.HasOptionFields (t : Table) (r : Resource) : Prop :=
  ∀ field ∈ r.optionFields, t.hasColumn field = true

/-- The table with the read options of a resource; a datasource that has no filter or no sort leaves
that of the table. -/
def Table.optioned (table : Table) (r : Resource) : Table := { table with
  allowedFilters := .ofList r.allowedFilters
  autoFields := r.autoFields
  paginated := r.paginated
  defaultFilter := (r.datasource.bind Datasource.filter).getD table.defaultFilter
  defaultProjection := match r.datasource with
    | some d => d.projection
    | none => table.defaultProjection
  defaultSort := (r.datasource.bind Datasource.defaultSort).getD table.defaultSort }

/-- The table without read options. -/
def Table.bare (t : Table) : Table := { t with
  allowedFilters := .all
  autoFields := []
  defaultFilter := {}
  defaultProjection := none
  defaultSort := []
  paginated := true }

namespace Compile

variable {table t : Table} {name : String} {r : Resource} {d : Datasource}

/-- Options are refused only for the fields that they name. -/
theorem withOptions_eq_ok_iff :
    withOptions table name r = .ok t ↔ table.HasOptionFields r ∧ t = table.optioned r := by
  obtain ⟨fields, softDelete, allowedFilters, autoFields, datasource, paginated⟩ := r
  cases datasource with
  | none =>
    constructor
    · intro h
      exact ⟨nofun, (Except.ok.inj h).symm⟩
    · rintro ⟨-, rfl⟩
      rfl
  | some d =>
    refine bind_eq_ok_iff.trans ?_
    constructor
    · rintro ⟨_, hcheck, h⟩
      exact ⟨checkDatasource_eq_ok_iff.1 hcheck, (Except.ok.inj h).symm⟩
    · rintro ⟨hknown, rfl⟩
      exact ⟨(), checkDatasource_eq_ok_iff.2 hknown, rfl⟩

/-! ## Tables but for their options -/

end Compile

/-- Resources with the same rows: only their read options may differ. -/
structure Resource.SameRows (r r' : Resource) : Prop where
  fields : r.fields = r'.fields
  softDelete : r.softDelete = r'.softDelete
  source : r.source = r'.source

theorem Resource.SameRows.symm {r r' : Resource} (h : r.SameRows r') : r'.SameRows r :=
  ⟨h.fields.symm, h.softDelete.symm, h.source.symm⟩

theorem Resource.SameRows.trans {r₁ r₂ r₃ : Resource} (h : r₁.SameRows r₂) (h' : r₂.SameRows r₃) :
    r₁.SameRows r₃ :=
  ⟨h.fields.trans h'.fields, h.softDelete.trans h'.softDelete, h.source.trans h'.source⟩

theorem Resource.SameRows.isAlias {r r' : Resource} (h : r.SameRows r') :
    r.isAlias = r'.isAlias := by
  rw [Resource.isAlias, Resource.isAlias, h.source]

namespace Compile

variable {settings : Settings} {domain : Domain} {tables : List Table} {t : Table}
  {name : String} {r : Resource}

/-- The table of a resource has the columns that its options name, and may take any other options
that do. -/
theorem options_of_ownTable (h : ownTable settings (name, r) = .ok t) :
    t.HasOptionFields r ∧ ∀ r', r'.SameRows r → t.HasOptionFields r' →
      ownTable settings (name, r') = .ok (t.bare.optioned r') := by
  unfold ownTable at h
  dsimp only at h
  split at h
  · obtain ⟨_, hfail, -⟩ := bind_eq_ok_iff.1 h
    cases hfail
  · rename_i hkeys
    obtain ⟨identity, hidentity, h⟩ := bind_eq_ok_iff.1 h
    obtain ⟨own, hown, h⟩ := bind_eq_ok_iff.1 h
    obtain ⟨flags, hflags, h⟩ := bind_eq_ok_iff.1 h
    obtain ⟨hknown, rfl⟩ := withOptions_eq_ok_iff.1 h
    refine ⟨hknown, fun r' hsame hknown' => ?_⟩
    obtain ⟨fields, softDelete, allowedFilters, autoFields, datasource, paginated⟩ := r
    obtain ⟨fields', softDelete', allowedFilters', autoFields', datasource', paginated'⟩ := r'
    obtain ⟨rfl : fields' = fields, rfl : softDelete' = softDelete, -⟩ := hsame
    exact (if_neg hkeys).trans (bind_eq_ok_iff.2 ⟨identity, hidentity, bind_eq_ok_iff.2 ⟨own, hown,
      bind_eq_ok_iff.2 ⟨flags, hflags, withOptions_eq_ok_iff.2 ⟨hknown', rfl⟩⟩⟩⟩)

theorem aliasTable_eq_ok_iff {source : String} : aliasTable tables (name, r) source = .ok t
    ↔ ∃ base, tables.find? (·.resource == source) = some base
      ∧ base.HasOptionFields r ∧ t = ({ base with resource := name } : Table).optioned r := by
  unfold aliasTable
  cases hbase : tables.find? (·.resource == source) with
  | none => exact iff_of_false nofun nofun
  | some base =>
    refine withOptions_eq_ok_iff.trans ⟨fun h => ⟨base, rfl, h⟩, ?_⟩
    rintro ⟨_, ⟨⟩, h⟩
    exact h

/-- Whatever is looked up in tables without options is found with its options taken off. -/
theorem find?_bare (tables : List Table) (resource : String) :
    (tables.map Table.bare).find? (·.resource == resource)
      = (tables.find? (·.resource == resource)).map Table.bare :=
  List.find?_map

/-- Of two lists of tables that differ in their options only, both have a table or neither. -/
theorem exists_find?_of_bare {tables' : List Table}
    (h : tables'.map Table.bare = tables.map Table.bare) {resource : String}
    (ht : tables.find? (·.resource == resource) = some t) :
    ∃ t', tables'.find? (·.resource == resource) = some t' ∧ t'.bare = t.bare := by
  have hfound := find?_bare tables' resource
  rw [h, find?_bare, ht] at hfound
  exact Option.map_eq_some_iff.1 hfound.symm

theorem columns_eq_of_bare {t' : Table} (h : t'.bare = t.bare) : t'.columns = t.columns := by
  show t'.bare.columns = t.bare.columns
  rw [h]

theorem reference_bare : reference domain (tables.map Table.bare) = reference domain tables := by
  funext owner relation
  have htarget : targetTable domain (tables.map Table.bare) owner relation
      = (targetTable domain tables owner relation).map Table.bare := by
    unfold targetTable
    simp only [find?_bare]
    cases domain.get? relation.target with
    | none => rfl
    | some r =>
      rw [Option.bind_some, Option.bind_some]
      cases tables.find? (·.resource == r.source.getD relation.target) <;> rfl
  unfold reference
  rw [htarget]
  cases targetTable domain tables owner relation <;> rfl

theorem relate_bare : relate domain (tables.map Table.bare) = relate domain tables := by
  unfold relate
  rw [reference_bare]

theorem tableFor_bare : tableFor settings (tables.map Table.bare) = tableFor settings tables := by
  funext need
  unfold tableFor
  simp only [find?_bare]
  cases tables.find? (·.resource == need.owner)
    <;> cases tables.find? (·.resource == need.target) <;> rfl

theorem linkTables_bare :
    linkTables settings (tables.map Table.bare) = linkTables settings tables := by
  have hnames : (tables.map Table.bare).map Table.name = tables.map Table.name := by
    rw [List.map_map]
    rfl
  unfold linkTables addLink
  rw [tableFor_bare, hnames]

end Compile

/-! ## Domains but for their options -/

/-- The other domain has the same resources in the same order, each with the read options of the
function. -/
structure Domain.Reoptions (opt : String → Resource → Resource) (domain other : Domain) : Prop where
  entries_eq : other.entries = domain.entries.map fun entry => (entry.1, opt entry.1 entry.2)
  rows : ∀ entry ∈ domain.entries, (opt entry.1 entry.2).SameRows entry.2

/-- Whether a finished table has the fields of a resource's datasource, as far as they are known
when they are checked. -/
def Table.KnowsOptions (t : Table) (r : Resource) : Prop :=
  ∀ field ∈ r.optionFields, ∃ c ∈ t.columns, c.name = field
    ∧ (r.isAlias = false → c.references = none)

namespace Compile

variable {settings : Settings} {domain other : Domain} {opt : String → Resource → Resource}
  {schema : Schema}
  {parts : List Part} {links : List BuiltLink} {tables : List Table}

section Reoptions

variable (h : domain.Reoptions opt other)
include h

theorem get?_reoptioned (name : String) : other.get? name = (domain.get? name).map (opt name) := by
  refine Option.ext fun r => ?_
  rw [NameMap.get?_eq_some_iff, h.entries_eq, Option.map_eq_some_iff]
  constructor
  · intro hmem
    obtain ⟨entry, hentry, heq⟩ := List.mem_map.1 hmem
    obtain ⟨rfl, rfl⟩ := Prod.mk.inj heq
    exact ⟨entry.2, NameMap.get?_of_mem hentry, rfl⟩
  · rintro ⟨r, hr, rfl⟩
    exact List.mem_map.2 ⟨(name, r), (NameMap.get?_eq_some_iff ..).1 hr, rfl⟩

/-- A name stands for a resource with the same rows, or for none in both. -/
theorem get?_reoptioned_cases (name : String) : domain.get? name = none ∧ other.get? name = none
    ∨ ∃ r r', domain.get? name = some r ∧ other.get? name = some r' ∧ r'.SameRows r := by
  rw [get?_reoptioned h]
  cases hr : domain.get? name with
  | none => exact .inl ⟨rfl, rfl⟩
  | some r => exact .inr ⟨r, _, rfl, rfl, h.rows (name, r) ((NameMap.get?_eq_some_iff ..).1 hr)⟩

/-- Options do not change how the names of a domain are checked. -/
theorem check_reoptioned (hcheck : domain.check = .ok ()) : other.check = .ok () := by
  refine forM_eq_ok_iff.2 fun entry hother => ?_
  rw [h.entries_eq] at hother
  obtain ⟨⟨name, r⟩, hentry, rfl⟩ := List.mem_map.1 hother
  have hsame : (opt name r).SameRows r := h.rows (name, r) hentry
  have hfault : other.sourceFault? (opt name r) = domain.sourceFault? r := by
    funext source
    unfold Domain.sourceFault?
    rcases get?_reoptioned_cases h source with ⟨hnone, hnone'⟩
      | ⟨target, target', hsome, hsome', htarget⟩
    · rw [hnone, hnone']
    · rw [hsome, hsome', hsame.fields]
      dsimp only
      rw [htarget.isAlias]
  have hchecked := forM_eq_ok_iff.1 hcheck _ hentry
  unfold Domain.checkResource Domain.checkSource at hchecked ⊢
  rw [hfault, hsame.fields, hsame.source]
  exact hchecked

/-- Options do not change how the relations of a resource are added. -/
theorem relate_reoptioned {entry : String × Resource} (hentry : entry ∈ domain.entries) :
    relate other tables (entry.1, opt entry.1 entry.2) = relate domain tables entry := by
  have htarget : targetTable other tables = targetTable domain tables := by
    funext owner relation
    unfold targetTable
    rcases get?_reoptioned_cases h relation.target with ⟨hnone, hnone'⟩
      | ⟨r, r', hsome, hsome', hsame⟩
    · rw [hnone, hnone']
    · rw [hsome, hsome']
      simp only [Option.bind_some, hsame.source]
  unfold relate reference Resource.relations
  rw [htarget, (h.rows entry hentry).fields]

end Reoptions

/-- The part of a domain with other options. -/
def Part.reoptioned (opt : String → Resource → Resource) (part : Part) : Part where
  entry := (part.entry.1, opt part.entry.1 part.entry.2)
  plain := part.plain.bare.optioned (opt part.entry.1 part.entry.2)
  references := part.references

/-- A finished table knows the options of a resource of its own if the table without references has
the columns. -/
theorem knows_base_iff {part : Part} {r : Resource} (h : part.Compiled settings domain tables)
    (hown : r.isAlias = false) :
    (part.base links).KnowsOptions r ↔ part.plain.HasOptionFields r := by
  have hfield (field : String) : part.plain.hasColumn field = true
      ↔ ∃ c ∈ (part.base links).columns, c.name = field
        ∧ (r.isAlias = false → c.references = none) := by
    rw [Table.hasColumn_iff]
    constructor
    · intro hmem
      obtain ⟨c, hc, hname⟩ := List.mem_map.1 hmem
      exact ⟨c, List.mem_append_left _ hc, hname, fun _ => references_of_ownTable h.plain_eq c hc⟩
    · rintro ⟨c, hc, rfl, hnone⟩
      rcases List.mem_append.1 hc with hc | hc
      · exact Table.mem_columnNames hc
      · have hrefs := refers_of_relate h.references_eq
        obtain ⟨relation, -, ref, href, hcolumn⟩ := exists_of_mem_filterMap hrefs hc
        obtain ⟨_, -, _, -, -, rfl⟩ := Part.column_of_reference href hcolumn
        cases hnone hown
  simp only [Table.KnowsOptions, Table.HasOptionFields, hfield]

theorem exists_forall₂ {α β γ : Type} {R : α → β → Prop} {P : α → γ → Prop} {Q : β → γ → Prop}
    {items : List α} {results : List β} (h : List.Forall₂ R items results)
    (hstep : ∀ x ∈ items, ∀ y ∈ results, R x y → ∃ z, P x z ∧ Q y z) :
    ∃ others, List.Forall₂ P items others ∧ List.Forall₂ Q results others := by
  induction h with
  | nil => exact ⟨[], .nil, .nil⟩
  | @cons x y items results hxy _ ih =>
    obtain ⟨z, hx, hy⟩ := hstep x List.mem_cons_self y List.mem_cons_self hxy
    obtain ⟨others, hitems, hresults⟩ := ih fun x hx y hy =>
      hstep x (List.mem_cons_of_mem _ hx) y (List.mem_cons_of_mem _ hy)
    exact ⟨z :: others, .cons hx hitems, .cons hy hresults⟩

/-- An alias knows the fields of its options if they are columns of its source. -/
theorem knows_alias_iff {t : Table} {r : Resource} (halias : r.isAlias = true) :
    t.KnowsOptions r ↔ t.HasOptionFields r := by
  have hfield (field : String) : t.hasColumn field = true
      ↔ ∃ c ∈ t.columns, c.name = field ∧ (r.isAlias = false → c.references = none) := by
    rw [Table.hasColumn_iff, Table.columnNames, List.mem_map]
    simp [halias]
  simp only [Table.KnowsOptions, Table.HasOptionFields, hfield]

/-- An alias reads the table of its source with the options that it declares. -/
theorem exists_alias (hcompiles : Schema.ofDomain settings domain = .ok schema)
    {name source : String} {r : Resource} (hr : domain.get? name = some r)
    (hsource : r.source = some source) :
    ∃ t base, schema.table name = .ok t ∧ schema.table source = .ok base ∧ base ∈ schema.bases
      ∧ base.HasOptionFields r ∧ t = ({ base with resource := name } : Table).optioned r := by
  obtain ⟨t, htable, halias⟩ := exists_aliasTable hcompiles hr hsource
  obtain ⟨base, hbase, hknown, rfl⟩ := aliasTable_eq_ok_iff.1 halias
  have hbases := List.mem_of_find?_eq_some hbase
  have hresource : base.resource = source := by simpa using List.find?_some hbase
  refine ⟨_, base, htable, ?_, hbases, hknown, rfl⟩
  rw [← hresource]
  exact table_of_mem hcompiles (List.mem_append_left _ hbases)

/-- The table of a resource knows the fields that its options name. -/
theorem knows_of_compiles (hcompiles : Schema.ofDomain settings domain = .ok schema) {name : String}
    {r : Resource} (hr : domain.get? name = some r) :
    ∃ t, schema.table name = .ok t ∧ t.KnowsOptions r := by
  cases hown : r.isAlias with
  | false =>
    obtain ⟨parts, links, hassembly⟩ := exists_assembly hcompiles
    obtain ⟨part, hpart, hentry, htable⟩ := hassembly.exists_part_of_own hr hown
    have hcompiled := hassembly.compiled part hpart
    refine ⟨_, htable, (knows_base_iff hcompiled hown).2 ?_⟩
    have hplain := hcompiled.plain_eq
    rw [hentry] at hplain
    exact (options_of_ownTable hplain).1
  | true =>
    obtain ⟨source, hsource⟩ := Option.isSome_iff_exists.1 hown
    obtain ⟨_, base, htable, -, -, hknown, rfl⟩ := exists_alias hcompiles hr hsource
    exact ⟨_, htable, (knows_alias_iff hown).2 hknown⟩

theorem aliasEntries_reoptioned (h : domain.Reoptions opt other) :
    aliasEntries other = (aliasEntries domain).map fun x => ((x.1.1, opt x.1.1 x.1.2), x.2) := by
  rw [aliasEntries, aliasEntries, h.entries_eq, List.filterMap_map, List.map_filterMap]
  refine List.filterMap_congr fun entry hentry => ?_
  rw [Function.comp_apply, (h.rows entry hentry).source, Option.map_map]
  rfl

/-- The parts with the other options make up the other domain, if their tables know the fields of
the options. -/
theorem Assembly.reoption (hassembly : Assembly settings domain schema parts links)
    (h : domain.Reoptions opt other)
    (hknown : ∀ part ∈ parts, part.plain.HasOptionFields (opt part.entry.1 part.entry.2)) :
    Assembly settings other
      ⟨(parts.map (Part.reoptioned opt)).map (Part.base links), links.map BuiltLink.table, []⟩
      (parts.map (Part.reoptioned opt)) links := by
  -- the tables are bare of options before they take the others, so the later steps see the same
  -- tables
  have hplain : ((parts.map (Part.reoptioned opt)).map Part.plain).map Table.bare
      = (parts.map Part.plain).map Table.bare := by
    simp only [List.map_map]
    rfl
  have hrelated : ((parts.map (Part.reoptioned opt)).map Part.related).map Table.bare
      = (parts.map Part.related).map Table.bare := by
    simp only [List.map_map]
    rfl
  have hreferences : (parts.map (Part.reoptioned opt)).map Part.references
    = parts.map Part.references := by
    rw [List.map_map]
    rfl
  constructor
  · exact check_reoptioned h hassembly.checked
  · rw [h.entries_eq, List.filter_map, List.map_map]
    have hfilter : domain.entries.filter
          ((fun entry => !entry.2.isAlias) ∘ fun entry => (entry.1, opt entry.1 entry.2))
        = domain.entries.filter fun entry => !entry.2.isAlias :=
      List.filter_congr fun entry hentry => by
        rw [Function.comp_apply, (h.rows entry hentry).isAlias]
    rw [hfilter, ← hassembly.entries_eq, List.map_map]
    rfl
  · intro part' hpart'
    obtain ⟨part, hpart, rfl⟩ := List.mem_map.1 hpart'
    have hentry := hassembly.entry_mem hpart
    obtain ⟨hown, hrelate⟩ := hassembly.compiled part hpart
    refine ⟨(options_of_ownTable hown).2 _ (h.rows _ hentry) (hknown part hpart), ?_⟩
    rw [← relate_bare, hplain, relate_bare]
    exact (relate_reoptioned h hentry).trans hrelate
  · rw [← linkTables_bare, hrelated, linkTables_bare, hreferences]
    exact hassembly.links_eq
  · rfl
  · rfl
  · intro t ht
    cases ht

/-- An alias may take other options if its table knows their fields, whatever options its source
has. -/
theorem aliasTable_reoptioned {bases bases' : List Table}
    (hbases : bases'.map Table.bare = bases.map Table.bare) {name source : String} {r r' : Resource}
    {t : Table} (h : aliasTable bases (name, r) source = .ok t) (hknown : t.HasOptionFields r') :
    ∃ t', aliasTable bases' (name, r') source = .ok t' ∧ t'.bare = t.bare := by
  obtain ⟨base, hbase, -, rfl⟩ := aliasTable_eq_ok_iff.1 h
  obtain ⟨base', hbase', hbare⟩ := exists_find?_of_bare hbases hbase
  refine ⟨_, aliasTable_eq_ok_iff.2 ⟨base', hbase', fun field hfield => ?_, rfl⟩, ?_⟩
  · have hcolumn := hknown field hfield
    rw [Table.hasColumn_iff, Table.columnNames, columns_eq_of_bare hbare]
    exact Table.hasColumn_iff.1 hcolumn
  · show ({ base'.bare with resource := name } : Table) = { base.bare with resource := name }
    rw [hbare]

/-- The aliases are compiled too, each against the finished table of its source: that has the same
columns, with other options. -/
theorem exists_aliases_reoptioned (h : domain.Reoptions opt other)
    (hcompiles : Schema.ofDomain settings domain = .ok schema)
    (hknows : ∀ entry ∈ domain.entries, ∃ t, schema.table entry.1 = .ok t
      ∧ t.KnowsOptions (opt entry.1 entry.2))
    {bases : List Table} (hbases : bases.map Table.bare = schema.bases.map Table.bare) :
    ∃ aliases, List.Forall₂ (fun x t => aliasTable bases x.1 x.2 = .ok t)
      (aliasEntries other) aliases
      ∧ schema.aliases.map Table.bare = aliases.map Table.bare := by
  obtain ⟨_, _, -, haliases⟩ := ofDomain_eq_ok_iff.1 hcompiles
  obtain ⟨aliases, haliases', hbare⟩ : ∃ aliases,
      List.Forall₂ (fun x t => aliasTable bases (x.1.1, opt x.1.1 x.1.2) x.2 = .ok t)
        (aliasEntries domain) aliases
      ∧ List.Forall₂ (fun t t' => t.bare = t'.bare) schema.aliases aliases := by
    refine exists_forall₂ haliases fun x hx t ht halias => ?_
    obtain ⟨⟨name, r⟩, hentry, hsome⟩ := List.mem_filterMap.1 hx
    obtain ⟨source, hsource, rfl⟩ := Option.map_eq_some_iff.1 hsome
    have htable := table_of_mem hcompiles (List.mem_append_right _ ht)
    rw [(resource_of_aliasTable halias).1] at htable
    obtain ⟨t', ht', hknows⟩ := hknows _ hentry
    obtain rfl := Except.ok.inj (htable.symm.trans ht')
    have hisAlias : (opt name r).isAlias = true := by
      rw [(h.rows _ hentry).isAlias, Resource.isAlias, hsource]
      rfl
    obtain ⟨t', halias', hbare⟩ :=
      aliasTable_reoptioned hbases halias ((knows_alias_iff hisAlias).1 hknows)
    exact ⟨t', halias', hbare.symm⟩
  refine ⟨aliases, ?_, ?_⟩
  · rw [aliasEntries_reoptioned h, List.forall₂_map_left_iff]
    exact haliases'
  · rwa [← List.forall₂_eq_eq_eq, List.forall₂_map_left_iff, List.forall₂_map_right_iff]

/-- **Resources may take any other options whose fields are known.** The domain compiles with them,
and its tables differ in their options only. -/
theorem exists_reoptioned (h : domain.Reoptions opt other)
    (hcompiles : Schema.ofDomain settings domain = .ok schema)
    (hknows : ∀ entry ∈ domain.entries, ∃ t, schema.table entry.1 = .ok t
      ∧ t.KnowsOptions (opt entry.1 entry.2)) :
    ∃ schema', Schema.ofDomain settings other = .ok schema'
      ∧ schema'.resources.map Table.bare = schema.resources.map Table.bare := by
  obtain ⟨parts, links, hassembly⟩ := exists_assembly hcompiles
  have hother := hassembly.reoption h fun part hpart => by
    obtain ⟨hentry, hown⟩ := hassembly.get?_entry hpart
    obtain ⟨t, ht, hknows⟩ := hknows _ (hassembly.entry_mem hpart)
    have htable := hassembly.table_eq hpart
    rw [(hassembly.name_eq hpart).2, ht] at htable
    obtain rfl := Except.ok.inj htable
    rw [← (h.rows _ (hassembly.entry_mem hpart)).isAlias] at hown
    exact (knows_base_iff (hassembly.compiled part hpart) hown).1 hknows
  have hbases : ((parts.map (Part.reoptioned opt)).map (Part.base links)).map Table.bare
      = schema.bases.map Table.bare := by
    rw [hassembly.bases_eq]
    simp only [List.map_map]
    rfl
  obtain ⟨aliases, haliases, hbare⟩ := exists_aliases_reoptioned h hcompiles hknows hbases
  refine ⟨⟨(parts.map (Part.reoptioned opt)).map (Part.base links),
    links.map BuiltLink.table, aliases⟩,
    ofDomain_eq_ok_iff.2 ⟨parts.map (Part.reoptioned opt), links, ?_, haliases⟩, ?_⟩
  · obtain ⟨hchecked, hentries, hcompiled, hlinks, -, -, -⟩ := hother
    refine ⟨hchecked, hentries, hcompiled, hlinks, rfl, rfl, fun t ht => ?_⟩
    obtain ⟨x, -, halias⟩ := exists_of_mem_right haliases ht
    exact shares_of_aliasTable halias
  · rw [Schema.resources, Schema.resources, List.map_append, List.map_append, hbases, hbare]

/-- A resource that takes other options. -/
theorem reoptions_insert {name : String} {r r' : Resource} (hr : domain.get? name = some r)
    (hsame : r'.SameRows r) :
    domain.Reoptions (fun other r => if other = name then r' else r) (domain.insert name r') where
  entries_eq := by
    have hcontains : domain.contains name = true := by
      rw [NameMap.contains_iff, NameMap.mem_keys_iff, hr]
      rfl
    rw [NameMap.entries_insert_of_contains r' hcontains]
    rfl
  rows := by
    rintro ⟨other, r₀⟩ hentry
    dsimp only
    split
    · rename_i hname
      subst hname
      obtain rfl := Option.some.inj (hr.symm.trans (NameMap.get?_of_mem hentry))
      exact hsame
    · exact ⟨rfl, rfl, rfl⟩

theorem columns_of_bare {schema' : Schema}
    (h : schema'.resources.map Table.bare = schema.resources.map Table.bare) {name : String}
    {t : Table} (ht : schema.table name = .ok t) :
    ∃ t', schema'.table name = .ok t' ∧ t'.columns = t.columns := by
  obtain ⟨t', ht', hbare⟩ := exists_find?_of_bare h ((Schema.table_eq_ok_iff ..).1 ht)
  exact ⟨t', (Schema.table_eq_ok_iff ..).2 ht', columns_eq_of_bare hbare⟩

/-- A resource may give up its options, and nothing else changes. -/
theorem exists_unoptioned {name : String} {r r' : Resource} (hr : domain.get? name = some r)
    (hsame : r'.SameRows r) (hnone : r'.optionFields = [])
    (hcompiles : Schema.ofDomain settings domain = .ok schema) :
    ∃ schema', Schema.ofDomain settings (domain.insert name r') = .ok schema'
      ∧ schema'.resources.map Table.bare = schema.resources.map Table.bare := by
  refine exists_reoptioned (reoptions_insert hr hsame) hcompiles fun ⟨other, r₀⟩ hentry => ?_
  obtain ⟨t, ht, hknows⟩ := knows_of_compiles hcompiles (NameMap.get?_of_mem hentry)
  refine ⟨t, ht, ?_⟩
  dsimp only
  split
  · intro field hfield
    rw [hnone] at hfield
    cases hfield
  · exact hknows

/-- **The options of one resource are refused exactly if its table does not know the fields that
they name.** -/
theorem insert_compiles_iff {name : String} {r r' : Resource} (hr : domain.get? name = some r)
    (hnone : r.optionFields = []) (hsame : r'.SameRows r) :
    (∃ schema', Schema.ofDomain settings (domain.insert name r') = .ok schema')
      ↔ ∃ schema t, Schema.ofDomain settings domain = .ok schema ∧ schema.table name = .ok t
        ∧ t.KnowsOptions r' := by
  have hback : (domain.insert name r').insert name r = domain := by
    rw [NameMap.insert_insert, NameMap.insert_of_get? hr]
  constructor
  · rintro ⟨schema', hcompiles'⟩
    have hr' : (domain.insert name r').get? name = some r' := NameMap.get?_insert_self ..
    obtain ⟨schema, hcompiles, hbare⟩ := exists_unoptioned hr' hsame.symm hnone hcompiles'
    rw [hback] at hcompiles
    obtain ⟨t', ht', hknows⟩ := knows_of_compiles hcompiles' hr'
    obtain ⟨t, ht, hcolumns⟩ := columns_of_bare hbare ht'
    refine ⟨schema, t, hcompiles, ht, ?_⟩
    rw [Table.KnowsOptions, hcolumns]
    exact hknows
  · rintro ⟨schema, t, hcompiles, ht, hknows⟩
    obtain ⟨schema', hcompiles', -⟩ := exists_reoptioned (reoptions_insert hr hsame) hcompiles
      fun ⟨other, r₀⟩ hentry => by
        dsimp only
        split
        · rename_i hname
          subst hname
          exact ⟨t, ht, hknows⟩
        · exact knows_of_compiles hcompiles (NameMap.get?_of_mem hentry)
    exact ⟨schema', hcompiles'⟩

end Compile

/-! ## Resources and aliases -/

/-- The resource with a datasource of its own. -/
def Resource.readBy (r : Resource) (d : Datasource) : Resource := { r with datasource := some d }

def Domain.Compiles (settings : Settings) (domain : Domain) : Prop :=
  ∃ schema, Schema.ofDomain settings domain = .ok schema

namespace Schema

variable {settings : Settings} {domain : Domain} {name other : String} {r a : Resource}
  {d : Datasource}

/-- A resource may filter and sort by the columns that do not point at other resources. -/
theorem own_options_compile_iff (hr : domain.get? name = some r) (hown : r.source = none)
    (hplain : r.optionFields = []) (hd : d.source = none) :
    Domain.Compiles settings (domain.insert name (r.readBy d))
      ↔ ∃ schema t, ofDomain settings domain = .ok schema ∧ schema.table name = .ok t
        ∧ ∀ field ∈ d.fields, ∃ c ∈ t.columns, c.name = field ∧ c.references = none := by
  have hsame : (r.readBy d).SameRows r := ⟨rfl, rfl, hd.trans hown.symm⟩
  have hisAlias : (r.readBy d).isAlias = false := by
    rw [hsame.isAlias, Resource.isAlias, hown]
    rfl
  have hknows (t : Table) : t.KnowsOptions (r.readBy d)
      ↔ ∀ field ∈ d.fields, ∃ c ∈ t.columns, c.name = field ∧ c.references = none := by
    simp only [Table.KnowsOptions, hisAlias, true_imp_iff]
    rfl
  refine (insert_compiles_iff hr hplain hsame).trans ?_
  simp only [hknows]

/-- An alias may filter and sort by all columns of its source. -/
theorem alias_options_compile_iff (ha : domain.get? other = some a) (halias : a.source = some name)
    (hplain : a.optionFields = []) :
    Domain.Compiles settings (domain.insert other (a.readBy { d with source := some name }))
      ↔ ∃ schema t, ofDomain settings domain = .ok schema ∧ schema.table name = .ok t
        ∧ ∀ field ∈ d.fields, field ∈ t.columnNames := by
  have hsame : (a.readBy { d with source := some name }).SameRows a := ⟨rfl, rfl, halias.symm⟩
  have hknows (t : Table) : t.KnowsOptions (a.readBy { d with source := some name })
      ↔ ∀ field ∈ d.fields, field ∈ t.columnNames := by
    rw [knows_alias_iff rfl]
    simp only [Table.HasOptionFields, Table.hasColumn_iff]
    rfl
  refine (insert_compiles_iff ha hplain hsame).trans (exists_congr fun schema => ?_)
  -- the alias has the columns of its source
  constructor
  · rintro ⟨t, hcompiles, ht, hfields⟩
    obtain ⟨t', base, ht', -, hbase, hshares⟩ := alias_shares hcompiles ha halias
    obtain rfl := Except.ok.inj (ht.symm.trans ht')
    refine ⟨base, hcompiles, hbase, ?_⟩
    rw [Table.columnNames, ← hshares.columns]
    exact (hknows t).1 hfields
  · rintro ⟨base, hcompiles, hbase, hfields⟩
    obtain ⟨t, base', ht, -, hbase', hshares⟩ := alias_shares hcompiles ha halias
    obtain rfl := Except.ok.inj (hbase.symm.trans hbase')
    refine ⟨t, hcompiles, ht, (hknows t).2 ?_⟩
    rw [Table.columnNames, hshares.columns]
    exact hfields

/-- **Options are judged by the columns that are there when they are checked.** A filter and a sort
are declared on a resource, or else on an alias of it. The alias may name all columns of the
finished table. The resource may name those that do not point at other resources. So whatever the
resource may declare, the alias may too, and both are judged the same if no column that points at a
resource is named. -/
theorem options_compile_iff (hr : domain.get? name = some r) (hown : r.source = none)
    (hplain : r.optionFields = []) (ha : domain.get? other = some a) (halias : a.source = some name)
    (hbare : a.optionFields = []) (hd : d.source = none) :
    (Domain.Compiles settings (domain.insert name (r.readBy d))
        ↔ ∃ schema t, ofDomain settings domain = .ok schema ∧ schema.table name = .ok t
          ∧ ∀ field ∈ d.fields, ∃ c ∈ t.columns, c.name = field ∧ c.references = none)
      ∧ (Domain.Compiles settings (domain.insert other (a.readBy { d with source := some name }))
        ↔ ∃ schema t, ofDomain settings domain = .ok schema ∧ schema.table name = .ok t
          ∧ ∀ field ∈ d.fields, field ∈ t.columnNames)
      ∧ (Domain.Compiles settings (domain.insert name (r.readBy d)) →
        Domain.Compiles settings (domain.insert other (a.readBy { d with source := some name })))
      ∧ ((∀ schema t, ofDomain settings domain = .ok schema → schema.table name = .ok t →
          ∀ c ∈ t.columns, c.name ∈ d.fields → c.references = none) →
        (Domain.Compiles settings (domain.insert name (r.readBy d))
          ↔ Domain.Compiles settings
            (domain.insert other (a.readBy { d with source := some name })))) := by
  rw [own_options_compile_iff hr hown hplain hd, alias_options_compile_iff ha halias hbare]
  refine ⟨Iff.rfl, Iff.rfl, ?_, fun hnone => ?_⟩
  · rintro ⟨schema, t, hcompiles, ht, hfields⟩
    refine ⟨schema, t, hcompiles, ht, fun field hfield => ?_⟩
    obtain ⟨c, hc, rfl, -⟩ := hfields field hfield
    exact Table.mem_columnNames hc
  · refine exists_congr fun schema => exists_congr fun t => and_congr_right fun hcompiles =>
      and_congr_right fun ht => forall₂_congr fun field hfield => ?_
    rw [Table.columnNames, List.mem_map]
    refine exists_congr fun c => and_congr_right fun hc => and_iff_left_of_imp ?_
    rintro rfl
    exact hnone schema t hcompiles ht c hc hfield

/-- A team has a name and a leader, who is a person. -/
def team : Resource := { fields := .ofList [
  ("name", { typeName := "string" }),
    ("lead", { typeName := "integer", target := some "person" })] }

/-- A squad is a team. -/
def squad : Resource := { datasource := some { source := some "team" } }

def teamDomain : Domain := .ofList [("person", {}), ("team", team), ("squad", squad)]

def teamSchema : Schema := .compiled {} teamDomain

/-- Teams sorted by one of their fields, and squads. -/
def teamsBy (field : String) : Domain :=
  teamDomain.insert "team" (team.readBy { defaultSort := some [(field, 1)] })

def squadsBy (field : String) : Domain :=
  teamDomain.insert "squad"
    (squad.readBy { source := some "team", defaultSort := some [(field, 1)] })

/-- Teams may be sorted by their names, and so may squads. -/
theorem named_teams_compile :
    Domain.Compiles {} (teamsBy "name") ∧ Domain.Compiles {} (squadsBy "name") := by
  obtain ⟨hteam, -, hsquad, -⟩ := @options_compile_iff {} teamDomain "team" "squad" team squad
    { defaultSort := some [("name", 1)] } rfl rfl rfl rfl rfl rfl rfl
  have hknown : ((teamSchema.table "team").toOption.map fun t => decide (∀ field ∈ ["name"],
      ∃ c ∈ t.columns, c.name = field ∧ c.references = none)) = some true := by
    decide +kernel
  obtain ⟨t, ht, hknown⟩ := Option.map_eq_some_iff.1 hknown
  have hcompiles := hteam.2 ⟨teamSchema, t, rfl, eq_ok_of_toOption ht, of_decide_eq_true hknown⟩
  exact ⟨hcompiles, hsquad hcompiles⟩

/-- Squads may be sorted by their leaders, but teams may not: their table does not have the column
yet. -/
theorem led_teams_refused :
    ofDomain {} (teamsBy "lead") = .error (.invalidDatasource "team" (.sortOnUnknownField "lead"))
      ∧ Domain.Compiles {} (squadsBy "lead") :=
  ⟨rfl, _, rfl⟩

end Schema

end RecordStore
