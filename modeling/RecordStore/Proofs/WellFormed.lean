import Mathlib.Data.List.Nodup
import RecordStore.Catalog

/-!
# Tables that belong together

What the tables of a compiled domain have in common, whatever the domain says. The proofs about
stores and changes use these facts only, and never how a domain is compiled.

* **`Table.WellFormed`** — the columns of a table have different names and fillings of their own
  types; its key is one of them and is neither stamped nor flagged.
* **`Schema.Serves`** — a list has a link table, which points at its owner and at its target.
* **`Schema.WellFormed`** — physical tables have different names, every resource reads the rows of
  one of them, and every reference is to the key of another.
* **`Schema.compiled`**, **`Catalog.compiled`** — what a domain is compiled to, if it is known to
  compile.
-/

namespace RecordStore

/-- The four names that the settings and the stamps give are different. -/
def Settings.NamesApart (settings : Settings) : Prop :=
  [settings.idField, settings.deletedField, createdColumn, updatedColumn].Nodup

instance (settings : Settings) : Decidable settings.NamesApart :=
  inferInstanceAs (Decidable (List.Nodup _))

/-- A generated key has not the name of a stamp then. -/
theorem Settings.NamesApart.key_not_stamp {settings : Settings} (h : settings.NamesApart) :
    settings.idField ∉ Change.stampColumns :=
  fun hstamp => (List.nodup_cons.1 h).1 (List.mem_cons_of_mem _ hstamp)

namespace Table

structure WellFormed (t : Table) : Prop where
  names_nodup : t.columnNames.Nodup
  /-- the key is a column of the table, and its values come from documents or are numbers -/
  key : ∃ c, t.keyColumn? = some c ∧ c.primaryKey = true ∧ c.defaultNow = false
    ∧ c.references = none
  default_accepted : ∀ c ∈ t.columns, ∀ v, c.default? = some v → c.type.accepts v = true
  stamp_datetime : ∀ c ∈ t.columns, c.defaultNow = true → c.type = .datetime
  number_integer : ∀ c ∈ t.columns, c.autoIncrement = true → c.type = .integer
  stamps : ∀ name ∈ Change.stampColumns, ∃ c ∈ t.columns, c.name = name ∧ c.defaultNow = true
  flag : ∀ name, t.deletedColumn = some name →
    ∃ c ∈ t.columns, c.name = name ∧ c.type = .boolean ∧ c.primaryKey = false
      ∧ c.references = none

/-- Two tables read and write the same rows; they may differ in how they are read. -/
structure SharesRows (t base : Table) : Prop where
  name : t.name = base.name
  columns : t.columns = base.columns
  primaryKey : t.primaryKey = base.primaryKey
  deletedColumn : t.deletedColumn = base.deletedColumn
  lists : t.lists = base.lists
  uniqueGroups : t.uniqueGroups = base.uniqueGroups

theorem SharesRows.refl (t : Table) : t.SharesRows t := ⟨rfl, rfl, rfl, rfl, rfl, rfl⟩

theorem SharesRows.trans {a b c : Table} (hab : a.SharesRows b) (hbc : b.SharesRows c) :
    a.SharesRows c :=
  ⟨hab.name.trans hbc.name, hab.columns.trans hbc.columns, hab.primaryKey.trans hbc.primaryKey,
    hab.deletedColumn.trans hbc.deletedColumn, hab.lists.trans hbc.lists,
    hab.uniqueGroups.trans hbc.uniqueGroups⟩

theorem SharesRows.keyColumn? {t base : Table} (h : t.SharesRows base) :
    t.keyColumn? = base.keyColumn? := by
  unfold Table.keyColumn? Table.column?
  rw [h.columns, h.primaryKey]

theorem SharesRows.column? {t base : Table} (h : t.SharesRows base) (name : String) :
    t.column? name = base.column? name := by
  unfold Table.column?
  rw [h.columns]

theorem SharesRows.hasColumn {t base : Table} (h : t.SharesRows base) (name : String) :
    t.hasColumn name = base.hasColumn name := by
  unfold Table.hasColumn
  rw [h.column?]

theorem SharesRows.listField? {t base : Table} (h : t.SharesRows base) (field : String) :
    t.listField? field = base.listField? field := by
  unfold Table.listField?
  rw [h.lists]

/-! ## Columns of a table -/

theorem mem_of_column? {t : Table} {name : String} {c : Column} (h : t.column? name = some c) :
    c ∈ t.columns ∧ c.name = name :=
  ⟨List.mem_of_find?_eq_some h, by simpa using List.find?_some h⟩

theorem mem_of_listField? {t : Table} {field : String} {m : ListField}
    (h : t.listField? field = some m) : m ∈ t.lists ∧ m.field = field :=
  ⟨List.mem_of_find?_eq_some h, by simpa using List.find?_some h⟩

theorem hasColumn_iff {t : Table} {name : String} :
    t.hasColumn name = true ↔ name ∈ t.columnNames := by
  simp [hasColumn, column?, columnNames]

/-- The key of a table whose first column is generated is that column. -/
theorem keyColumn?_of_columns {t : Table} {rest : List Column}
    (h : t.columns = .identity t.primaryKey :: rest) :
    t.keyColumn? = some (.identity t.primaryKey) := by
  rw [keyColumn?, column?, h]
  simp [Column.identity]

/-- The type in which keys are compared. -/
theorem typeIn_keyColumn {t : Table} {k : Column} (hk : t.keyColumn? = some k) :
    typeIn t.columns t.primaryKey = k.type := by
  change t.columns.find? (·.name == t.primaryKey) = some k at hk
  rw [typeIn, hk]
  rfl

/-- A column that no other shares its name with is the one found by the name. -/
theorem column?_of_lone {t : Table} {c : Column} (hc : c ∈ t.columns)
    (hlone : ∀ d ∈ t.columns, d.name = c.name → d = c) : t.column? c.name = some c := by
  have hfound : (t.column? c.name).isSome := by
    rw [Table.column?, List.find?_isSome]
    exact ⟨c, hc, by simp⟩
  obtain ⟨d, hd⟩ := Option.isSome_iff_exists.1 hfound
  obtain ⟨hmem, hname⟩ := mem_of_column? hd
  rw [hd, hlone d hmem hname]

theorem mem_columnNames {t : Table} {c : Column} (h : c ∈ t.columns) : c.name ∈ t.columnNames :=
  List.mem_map_of_mem h

namespace WellFormed

variable {t : Table}

/-- A column is known by its name. -/
theorem eq_of_name (h : t.WellFormed) {c d : Column} (hc : c ∈ t.columns) (hd : d ∈ t.columns)
    (hname : c.name = d.name) : c = d :=
  List.inj_on_of_nodup_map h.names_nodup hc hd hname

theorem column?_name (h : t.WellFormed) {c : Column} (hc : c ∈ t.columns) :
    t.column? c.name = some c :=
  column?_of_lone hc fun _ hd hname => h.eq_of_name hd hc hname

theorem typeIn_name (h : t.WellFormed) {c : Column} (hc : c ∈ t.columns) :
    typeIn t.columns c.name = c.type := by
  have hfound := h.column?_name hc
  unfold Table.column? at hfound
  rw [typeIn, hfound]
  rfl

theorem key_mem (h : t.WellFormed) : t.primaryKey ∈ t.columnNames := by
  obtain ⟨k, hk, -⟩ := h.key
  obtain ⟨hmem, hname⟩ := mem_of_column? hk
  exact hname ▸ mem_columnNames hmem

theorem stamp_mem (h : t.WellFormed) {name : String} (hname : name ∈ Change.stampColumns) :
    name ∈ t.columnNames := by
  obtain ⟨c, hc, rfl, -⟩ := h.stamps _ hname
  exact mem_columnNames hc

end WellFormed

end Table

namespace Schema

/-- What is known of the link table of a list. -/
structure Serves (schema : Schema) (owner : Table) (m : ListField) (link target : Table)
    (ownerKey targetKey : Column) : Prop where
  link_eq : schema.linkTable m.linkTable = .ok link
  target_eq : schema.table m.target = .ok target
  target_mem : target ∈ schema.bases
  ownerKey_eq : owner.keyColumn? = some ownerKey
  targetKey_eq : target.keyColumn? = some targetKey
  columns_eq : link.columns = [.identity link.primaryKey,
    Compile.linkColumn m.ownerColumn owner ownerKey,
      Compile.linkColumn m.memberColumn target targetKey,
    .timestamp createdColumn, .timestamp updatedColumn]
  groups_eq : link.uniqueGroups = [[m.ownerColumn, m.memberColumn]]
  lists_eq : link.lists = []
  flag_eq : link.deletedColumn = none
  /-- a list is no column of its owner -/
  field_apart : owner.hasColumn m.field = false

/-- A list is no column of a table that reads the rows of its owner. -/
theorem Serves.list_apart {schema : Schema} {table owner link target : Table} {m : ListField}
    {ownerKey targetKey : Column} (h : schema.Serves owner m link target ownerKey targetKey)
    (hshares : table.SharesRows owner) : table.hasColumn m.field = false :=
  (hshares.hasColumn m.field).trans h.field_apart

structure WellFormed (schema : Schema) : Prop where
  names_nodup : (schema.physical.map Table.name).Nodup
  tables : ∀ t ∈ schema.physical, t.WellFormed
  shared : ∀ t ∈ schema.resources, ∃ base ∈ schema.bases, t.SharesRows base
  /-- references are to keys, and hold values of the same type -/
  references : ∀ t ∈ schema.physical, ∀ c ∈ t.columns, ∀ key, c.references = some key →
    c.default? = none ∧ c.defaultNow = false ∧ ∃ target ∈ schema.bases, ∃ k,
      key = ⟨target.name, k.name⟩ ∧ target.keyColumn? = some k ∧ c.type = k.type
  lists : ∀ owner ∈ schema.bases, ∀ m ∈ owner.lists, ∃ link target ownerKey targetKey,
    schema.Serves owner m link target ownerKey targetKey
  fields_nodup : ∀ owner ∈ schema.bases, owner.listNames.Nodup
  /-- every link table is that of a list -/
  served : ∀ link ∈ schema.links, ∃ owner ∈ schema.bases, ∃ m ∈ owner.lists,
    schema.linkTable m.linkTable = .ok link

theorem table_eq_ok_iff (schema : Schema) (resource : String) (t : Table) :
    schema.table resource = .ok t ↔ schema.table? resource = some t := by
  unfold table
  cases schema.table? resource <;> simp

theorem linkTable_eq_ok_iff (schema : Schema) (name : String) (t : Table) :
    schema.linkTable name = .ok t ↔ schema.link? name = some t := by
  unfold linkTable
  cases schema.link? name <;> simp

theorem mem_of_table {schema : Schema} {resource : String} {t : Table}
    (h : schema.table resource = .ok t) : t ∈ schema.resources ∧ t.resource = resource := by
  have hfound := (table_eq_ok_iff ..).1 h
  exact ⟨List.mem_of_find?_eq_some hfound, by simpa using List.find?_some hfound⟩

theorem mem_of_linkTable {schema : Schema} {name : String} {t : Table}
    (h : schema.linkTable name = .ok t) : t ∈ schema.links ∧ t.name = name := by
  have hfound := (linkTable_eq_ok_iff ..).1 h
  exact ⟨List.mem_of_find?_eq_some hfound, by simpa using List.find?_some hfound⟩

theorem mem_physical_of_base {schema : Schema} {t : Table} (h : t ∈ schema.bases) :
    t ∈ schema.physical := List.mem_append_left _ h

theorem mem_physical_of_link {schema : Schema} {t : Table} (h : t ∈ schema.links) :
    t ∈ schema.physical := List.mem_append_right _ h

namespace WellFormed

variable {schema : Schema}

theorem eq_of_name (h : schema.WellFormed) {t u : Table} (ht : t ∈ schema.physical)
    (hu : u ∈ schema.physical) (hname : t.name = u.name) : t = u :=
  List.inj_on_of_nodup_map h.names_nodup ht hu hname

theorem lists_apart (h : schema.WellFormed) {table base : Table} (hbase : base ∈ schema.bases)
    (hshares : table.SharesRows base) : ∀ m ∈ table.lists, table.hasColumn m.field = false := by
  intro m hm
  obtain ⟨_, _, _, _, hserves⟩ := h.lists base hbase m (hshares.lists ▸ hm)
  exact hserves.list_apart hshares

/-- No link table has the name of a table of a resource. -/
theorem bases_links_disjoint (h : schema.WellFormed) :
    ∀ base ∈ schema.bases, ∀ link ∈ schema.links, base.name ≠ link.name := by
  have hnames := h.names_nodup
  rw [Schema.physical, List.map_append, List.nodup_append] at hnames
  intro base hbase link hlink
  exact hnames.2.2 _ (List.mem_map_of_mem hbase) _ (List.mem_map_of_mem hlink)

end WellFormed

end Schema

/-! ## Domains that compile -/

variable {settings : Settings} {domain : Domain}

/-- The schema that a domain is compiled to, without any tables if it does not compile. -/
def Schema.compiled (settings : Settings) (domain : Domain) : Schema :=
  (Schema.ofDomain settings domain).toOption.getD ⟨[], [], []⟩

theorem Schema.ofDomain_compiled (h : (Schema.ofDomain settings domain).toOption.isSome = true) :
    Schema.ofDomain settings domain = .ok (.compiled settings domain) := by
  rw [compiled]
  cases hschema : Schema.ofDomain settings domain with
  | error e =>
    rw [hschema] at h
    cases h
  | ok schema => rfl

/-- The catalog of a domain, without any tables if it does not compile. -/
def Catalog.compiled (settings : Settings) (domain : Domain) : Catalog :=
  ⟨.compiled settings domain, settings⟩

/-- A domain that compiles has the catalog of its schema. -/
theorem Catalog.ofDomain_compiled
    (h : (Schema.ofDomain settings domain).toOption.isSome = true) :
    Catalog.ofDomain settings domain = .ok (.compiled settings domain) := by
  rw [ofDomain, Schema.ofDomain_compiled h]
  rfl

end RecordStore
