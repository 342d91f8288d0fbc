import RecordStore.Proofs.CompiledSchema

/-!
# The names of columns

A declared field gives its name to one column or to one list, and the columns of a link that hold
keys are named so that they clash with nothing. The other names are set: those of generated keys and
of flags by the settings, those of stamps once for all. A field may not have any of them, but
nothing compares them with each other. So the columns of a table have different names just when the
names that are set for it are different.

* **`Catalog.columns_told_apart_iff`** — which tables have columns of different names.
* **`Catalog.key_shares_name_with_stamp`** — a domain that compiles to a table with two columns of
  one name.
-/

namespace RecordStore

open Compile

namespace Compile.Assembly

variable {settings : Settings} {domain : Domain} {schema : Schema} {parts : List Part}
  {links : List BuiltLink}

/-- A part is a resource with a table of its own. -/
theorem get?_entry (h : Assembly settings domain schema parts links) {part : Part}
    (hpart : part ∈ parts) :
    domain.get? part.entry.1 = some part.entry.2 ∧ part.entry.2.isAlias = false := by
  have hmem : part.entry ∈ parts.map Part.entry := List.mem_map_of_mem hpart
  rw [h.entries_eq, List.mem_filter] at hmem
  exact ⟨NameMap.get?_of_mem hmem.1, by simpa using hmem.2⟩

/-- A resource with a table of its own is a part, and reads the table of the part. -/
theorem exists_part_of_own (h : Assembly settings domain schema parts links) {name : String}
    {r : Resource} (hr : domain.get? name = some r) (hown : r.isAlias = false) :
    ∃ part ∈ parts, part.entry = (name, r) ∧ schema.table name = .ok (part.base links) := by
  obtain ⟨part, hpart, hentry⟩ : ∃ part ∈ parts, part.entry = (name, r) := by
    rw [← List.mem_map, h.entries_eq, List.mem_filter]
    exact ⟨(NameMap.get?_eq_some_iff ..).1 hr, by simpa using hown⟩
  have htable := h.table_eq hpart
  rw [(h.name_eq hpart).2, hentry] at htable
  exact ⟨part, hpart, hentry, htable⟩

/-- The rows that a resource reads are those of a part. -/
theorem exists_part (h : Assembly settings domain schema parts links) {t : Table}
    (ht : t ∈ schema.resources) : ∃ part ∈ parts, t.SharesRows (part.base links) := by
  have hbase : ∃ base ∈ schema.bases, t.SharesRows base := by
    rcases List.mem_append.1 ht with hbase | halias
    · exact ⟨t, hbase, .refl t⟩
    · exact h.aliases t halias
  obtain ⟨base, hbase, hshares⟩ := hbase
  obtain ⟨part, hpart, rfl⟩ := h.mem_bases.1 hbase
  exact ⟨part, hpart, hshares⟩

theorem resource_names_iff (h : Assembly settings domain schema parts links) {t : Table}
    (ht : t ∈ schema.resources) : ∃ resource, domain.get? t.name = some resource
      ∧ resource.isAlias = false
        ∧ (t.columnNames.Nodup ↔ (Part.setNames settings resource).Nodup) := by
  obtain ⟨part, hpart, hshares⟩ := h.exists_part ht
  obtain ⟨hentry, hown⟩ := h.get?_entry hpart
  refine ⟨part.entry.2, ?_, hown, ?_⟩
  · rw [hshares.name]
    exact (h.name_eq hpart).1 ▸ hentry
  · rw [Table.columnNames, hshares.columns]
    exact Part.columnNames_nodup_iff (h.compiled part hpart)

theorem link_names_iff (h : Assembly settings domain schema parts links) {link : Table}
    (hlink : link ∈ schema.links) :
    link.columnNames.Nodup ↔ settings.idField ∉ Change.stampColumns := by
  rw [h.linkTables_eq] at hlink
  obtain ⟨built, hbuilt, rfl⟩ := List.mem_map.1 hlink
  obtain ⟨_, _, _, _, hlinks⟩ := tableFor_eq_ok (h.allLinks.1.links built hbuilt)
  obtain ⟨howner, htarget, hfield⟩ := h.need_names hbuilt
  exact hlinks.columnNames_nodup_iff howner htarget hfield

/-- No list of a resource is one of its columns, and a link table has no lists. -/
theorem list_not_column (h : Assembly settings domain schema parts links) {t : Table}
    (ht : t ∈ schema.resources ++ schema.links) {m : ListField} (hm : m ∈ t.lists) :
    m.field ∉ t.columnNames := by
  rcases List.mem_append.1 ht with hresource | hlink
  · obtain ⟨part, hpart, hshares⟩ := h.exists_part hresource
    obtain ⟨link, _, _, _, hserves⟩ :=
      h.lists (h.mem_bases.2 ⟨part, hpart, rfl⟩) (hshares.lists ▸ hm)
    rw [← Table.hasColumn_iff, hserves.list_apart hshares]
    exact Bool.false_ne_true
  · rw [h.linkTables_eq] at hlink
    obtain ⟨built, hbuilt, rfl⟩ := List.mem_map.1 hlink
    obtain ⟨_, _, _, _, hlinks⟩ := tableFor_eq_ok (h.allLinks.1.links built hbuilt)
    rw [hlinks.lists_eq] at hm
    cases hm

end Compile.Assembly

namespace Catalog

variable {settings : Settings} {domain : Domain} {catalog : Catalog}

/-- **Columns have different names just when the names that are set for their table are different.**
No list shares a name with a column in any case. A table of a resource, or of an alias of it, has
its key generated under the name from the settings if no key is declared, the two stamps, and the
flag under the name from the settings if the resource is soft-deleted: these are told apart or not,
and everything else follows. Link tables have a generated key and the two stamps. -/
theorem columns_told_apart_iff (hcompiles : Catalog.ofDomain settings domain = .ok catalog) :
    (∀ t ∈ catalog.schema.resources ++ catalog.schema.links, ∀ m ∈ t.lists, m.field ∉ t.columnNames)
    ∧ (∀ t ∈ catalog.schema.resources, ∃ resource, domain.get? t.name = some resource
        ∧ resource.isAlias = false
        ∧ (t.columnNames.Nodup ↔ (Part.setNames settings resource).Nodup))
    ∧ ∀ link ∈ catalog.schema.links,
        link.columnNames.Nodup ↔ settings.idField ∉ Change.stampColumns := by
  obtain ⟨schema, hschema, rfl⟩ := map_eq_ok_iff.1 hcompiles
  obtain ⟨parts, links, hassembly⟩ := exists_assembly hschema
  exact ⟨fun _ ht _ hm => hassembly.list_not_column ht hm,
    fun _ ht => hassembly.resource_names_iff ht, fun _ hlink => hassembly.link_names_iff hlink⟩

/-- Guilds are soft-deleted and list their members. -/
def guildDomain : Domain := .ofList [
  ("person", {}),
  ("guild", {
    fields := .ofList [("members", { typeName := "list", target := some "person" })]
    softDelete := true })]

def guildCatalog (settings : Settings) : Catalog := .compiled settings guildDomain

/-- Under the usual settings all names are different. -/
theorem columns_of_guild_told_apart :
    Catalog.ofDomain {} guildDomain = .ok (guildCatalog {})
      ∧ ∀ t ∈ (guildCatalog {}).schema.resources ++ (guildCatalog {}).schema.links,
        t.columnNames.Nodup := by
  refine ⟨ofDomain_compiled rfl, fun t ht => ?_⟩
  have hnames : Settings.NamesApart {} := by decide
  obtain ⟨-, hresources, hlinks⟩ :=
    columns_told_apart_iff
      (ofDomain_compiled rfl : Catalog.ofDomain {} guildDomain = .ok (guildCatalog {}))
  rcases List.mem_append.1 ht with hresource | hlink
  · obtain ⟨resource, -, -, hiff⟩ := hresources t hresource
    exact hiff.2 (Part.setNames_nodup hnames resource)
  · exact (hlinks t hlink).2 hnames.key_not_stamp

/-- A generated key may be given the name of a stamp. The domain compiles, and every table has two
columns of that name. -/
theorem key_shares_name_with_stamp :
    Catalog.ofDomain { idField := "_created" } guildDomain
        = .ok (guildCatalog { idField := "_created" })
      ∧ (guildCatalog { idField := "_created" }).schema.resources.map Table.resource
        = ["person", "guild"]
      ∧ ∀ t ∈ (guildCatalog { idField := "_created" }).schema.resources
          ++ (guildCatalog { idField := "_created" }).schema.links, ¬ t.columnNames.Nodup :=
  ⟨ofDomain_compiled rfl, by decide +kernel, by decide +kernel⟩

end Catalog

end RecordStore
