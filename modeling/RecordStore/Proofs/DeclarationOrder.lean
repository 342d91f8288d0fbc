import Mathlib.Data.List.Perm.Basic
import RecordStore.Proofs.Realizing

/-!
# The order of declaration

A domain may declare its resources in any order. Targets, sources and owners are looked up by name,
and names are different, so every resource is compiled to the same table. Only the places of the
tables change.

* **`Compile.base_lists`** — the lists of a table are told by its own needs.
* **`Schema.Reorders`** — two schemas have the same tables in different orders.
* **`Schema.ofDomain_reordered`** — domains that differ in their order compile to schemas that
  differ in theirs.
-/

namespace RecordStore

open Compile

/-- Items with different names are found by their names, in whatever order they are. -/
theorem find?_eq_of_perm {α : Type} {items others : List α} {name : α → String}
    (hperm : items.Perm others) (hnodup : (items.map name).Nodup) (key : String) :
    items.find? (name · == key) = others.find? (name · == key) := by
  have hnodup' : (others.map name).Nodup := (hperm.map name).nodup_iff.1 hnodup
  apply Option.ext
  intro x
  constructor
  · intro hx
    obtain rfl : name x = key := by simpa using List.find?_some hx
    exact find?_eq_of_nodup hnodup' (hperm.subset (List.mem_of_find?_eq_some hx))
  · intro hx
    obtain rfl : name x = key := by simpa using List.find?_some hx
    exact find?_eq_of_nodup hnodup (hperm.symm.subset (List.mem_of_find?_eq_some hx))

theorem NameMap.get?_eq_of_perm {α : Type} {m n : NameMap α} (hperm : m.entries.Perm n.entries)
    (name : String) : m.get? name = n.get? name := by
  apply Option.ext
  intro value
  rw [NameMap.get?_eq_some_iff, NameMap.get?_eq_some_iff, hperm.mem_iff]

/-- What is given for some items can be given for them in another order. -/
theorem exists_perm_map {α β : Type} {f : α → β} {items : List α} {values : List β}
    (hperm : values.Perm (items.map f)) :
    ∃ others : List α, others.map f = values ∧ others.Perm items := by
  have hsame : List.Forall₂ (fun value x => value = f x) (items.map f) items := by
    rw [List.forall₂_map_left_iff, List.forall₂_same]
    exact fun _ _ => rfl
  obtain ⟨others, hvalues, hothers⟩ := List.perm_comp_forall₂ hperm hsame
  refine ⟨others, ?_, hothers⟩
  rw [← List.forall₂_eq_eq_eq, List.forall₂_map_left_iff]
  exact hvalues.flip.imp fun _ _ hvalue => hvalue.symm

namespace Compile

variable {settings : Settings} {domain other : Domain} {tables others : List Table}

/-! ## Looking tables up -/

/-- For every resource the same table is found. -/
def SameTables (tables others : List Table) : Prop :=
  ∀ resource, tables.find? (·.resource == resource) = others.find? (·.resource == resource)

/-- For every name the same resource is found. -/
def SameResources (domain other : Domain) : Prop := ∀ name, domain.get? name = other.get? name

/-- The checks of a domain look at each resource beside those that it names, wherever they stand. -/
theorem check_of_same (hsame : SameResources domain other)
    (hperm : domain.entries.Perm other.entries) (h : domain.check = .ok ()) :
    other.check = .ok () := by
  refine forM_eq_ok_iff.2 fun entry hentry => ?_
  have hchecked := forM_eq_ok_iff.1 h entry (hperm.symm.subset hentry)
  have hsource : domain.checkSource = other.checkSource := by
    unfold Domain.checkSource Domain.sourceFault?
    simp only [hsame _]
  unfold Domain.checkResource at hchecked ⊢
  rw [← hsource]
  exact hchecked

theorem relate_of_same (hsame : SameResources domain other) (htables : SameTables tables others) :
    relate domain tables = relate other others := by
  have htarget : targetTable domain tables = targetTable other others := by
    unfold targetTable
    simp only [hsame _, htables _]
  funext entry
  unfold relate reference
  rw [htarget]

theorem tableFor_of_same (htables : SameTables tables others) :
    tableFor settings tables = tableFor settings others := by
  unfold tableFor
  simp only [htables _]

theorem aliasTable_of_same (htables : SameTables tables others) :
    aliasTable tables = aliasTable others := by
  unfold aliasTable
  simp only [htables _]

/-! ## Lists -/

namespace Assembly

variable {schema : Schema} {parts : List Part} {links : List BuiltLink} {part : Part}

/-- The lists of a table are told by the needs of its part. -/
theorem base_lists (h : Assembly settings domain schema parts links) (hpart : part ∈ parts) :
    (part.base links).lists = (part.references.filterMap Reference.need?).filterMap fun need =>
      (tableFor settings (parts.map Part.related) need).toOption.map Prod.snd := by
  rw [← h.needs_of_part hpart, List.filterMap_map]
  show List.map _ _ = _
  rw [← List.filterMap_eq_map]
  refine List.filterMap_congr fun link hlink => ?_
  show some link.list = (tableFor settings _ link.need).toOption.map Prod.snd
  rw [h.allLinks.1.links link (List.mem_of_mem_filter hlink)]
  rfl

end Assembly

end Compile

/-! ## Schemas -/

/-- The tables of a schema are those of another, in their own order. -/
structure Schema.Reorders (schema other : Schema) : Prop where
  bases : schema.bases.Perm other.bases
  links : schema.links.Perm other.links
  aliases : schema.aliases.Perm other.aliases

namespace Compile

variable {settings : Settings} {domain other : Domain} {schema : Schema} {parts parts' : List Part}
  {links links' : List BuiltLink}

/-- Tables that are told apart by their resources are found alike in both orders. -/
theorem Assembly.sameTables (h : Assembly settings domain schema parts links)
    (hparts : parts'.Perm parts) {table : Part → Table}
    (htable : ∀ part ∈ parts, (table part).resource = part.entry.1) :
    SameTables (parts'.map table) (parts.map table) := by
  have hnames : (parts.map table).map Table.resource = parts.map fun part => part.entry.1 := by
    rw [List.map_map]
    exact List.map_congr_left htable
  intro resource
  refine (find?_eq_of_perm (hparts.symm.map table) ?_ resource).symm
  rw [hnames]
  exact h.entries_nodup

/-- The parts of a domain and its link tables belong to the domain in another order too. -/
theorem Assembly.reorder (h : Assembly settings domain schema parts links)
    (hperm : domain.entries.Perm other.entries) :
    ∃ parts' links', parts'.Perm parts ∧ links'.Perm links
      ∧ Assembly settings other
        ⟨parts'.map (Part.base links'), links'.map BuiltLink.table, []⟩ parts' links' := by
  have hsame : SameResources domain other := NameMap.get?_eq_of_perm hperm
  have hown : (other.entries.filter fun entry => !entry.2.isAlias).Perm (parts.map Part.entry) := by
    rw [h.entries_eq]
    exact hperm.symm.filter _
  obtain ⟨parts', hentries, hparts⟩ := exists_perm_map hown
  have hneeds : ((parts'.map Part.references).flatMap (·.filterMap Reference.need?)).Perm
      (links.map BuiltLink.need) := by
    rw [h.allLinks.2]
    exact (hparts.map _).flatMap_right _
  obtain ⟨links', hneeds, hlinks⟩ := exists_perm_map hneeds
  have hplain : SameTables (parts'.map Part.plain) (parts.map Part.plain) :=
    h.sameTables hparts fun part hpart => (h.name_eq hpart).2
  have hrelated : SameTables (parts'.map Part.related) (parts.map Part.related) :=
    h.sameTables hparts fun part hpart => (h.name_eq hpart).2
  have hall : AllLinks settings (parts'.map Part.related) links' := by
    constructor
    · intro link hlink
      rw [tableFor_of_same hrelated]
      exact h.allLinks.1.links link (hlinks.subset hlink)
    · refine (List.Perm.nodup_iff ?_).2 h.allLinks.1.names_nodup
      exact ((hparts.map _).map _).append (hlinks.map _)
  refine ⟨parts', links', hparts, hlinks, ?_⟩
  constructor
  · exact check_of_same hsame hperm h.checked
  · exact hentries
  · intro part hpart
    obtain ⟨hown, hrelate⟩ := h.compiled part (hparts.subset hpart)
    refine ⟨hown, ?_⟩
    rw [← relate_of_same hsame fun resource => (hplain resource).symm]
    exact hrelate
  · rw [← hneeds]
    exact linkTables_of_allLinks hall
  · rfl
  · rfl
  · intro t ht
    cases ht

/-- Each resource is compiled to the same table in any order; only the places of the tables
change. -/
theorem exists_reordered (h : Schema.ofDomain settings domain = .ok schema)
    (hperm : domain.entries.Perm other.entries) :
    ∃ schema', Schema.ofDomain settings other = .ok schema' ∧ schema'.Reorders schema := by
  obtain ⟨parts, links, hassembly, haliases⟩ := ofDomain_eq_ok_iff.1 h
  obtain ⟨parts', links', hparts, hlinks, hreordered⟩ := hassembly.reorder hperm
  have hrelated : SameTables (parts'.map Part.related) (parts.map Part.related) :=
    hassembly.sameTables hparts fun part hpart => (hassembly.name_eq hpart).2
  -- the lists of a part are told by its own needs, which are the same in both orders
  have hbase (part : Part) (hpart : part ∈ parts') : part.base links' = part.base links := by
    have hlists : (part.base links').lists = (part.base links).lists := by
      rw [hreordered.base_lists hpart, hassembly.base_lists (hparts.subset hpart),
        tableFor_of_same hrelated]
    show { part.related with lists := (part.base links').lists } = _
    rw [hlists]
    rfl
  have hbases : parts'.map (Part.base links') = parts'.map (Part.base links) :=
    List.map_congr_left hbase
  have htables : SameTables (parts'.map (Part.base links')) schema.bases := by
    rw [hbases, hassembly.bases_eq]
    exact hassembly.sameTables hparts fun part hpart => hassembly.base_resource hpart
  have hentries : (aliasEntries other).Perm (aliasEntries domain) := hperm.symm.filterMap _
  obtain ⟨aliases, hcompiled, haliasperm⟩ := List.perm_comp_forall₂ hentries haliases
  refine ⟨⟨parts'.map (Part.base links'), links'.map BuiltLink.table, aliases⟩,
    ofDomain_eq_ok_iff.2 ⟨parts', links', ?_, ?_⟩, ?_, ?_, ?_⟩
  · obtain ⟨hchecked, hentries, hparts, hlinks, -, -, -⟩ := hreordered
    refine ⟨hchecked, hentries, hparts, hlinks, rfl, rfl, fun t ht => ?_⟩
    obtain ⟨x, -, halias⟩ := exists_of_mem_right hcompiled ht
    rw [← aliasTable_of_same htables] at halias
    exact shares_of_aliasTable halias
  · rw [aliasTable_of_same htables]
    exact hcompiled
  · rw [hassembly.bases_eq]
    show (parts'.map _).Perm _
    rw [hbases]
    exact hparts.map _
  · rw [hassembly.linkTables_eq]
    exact hlinks.map _
  · exact haliasperm

end Compile

namespace Schema

variable {settings : Settings} {domain other : Domain} {schema schema' : Schema}

theorem Reorders.physical (h : schema'.Reorders schema) : schema'.physical.Perm schema.physical :=
  h.bases.append h.links

theorem Reorders.table? (h : schema'.Reorders schema)
    (hnodup : (schema.resources.map Table.resource).Nodup) (name : String) :
    schema'.table? name = schema.table? name :=
  (find?_eq_of_perm (h.bases.append h.aliases).symm hnodup name).symm

theorem Reorders.link? (h : schema'.Reorders schema)
    (hnodup : (schema.physical.map Table.name).Nodup) (name : String) :
    schema'.link? name = schema.link? name := by
  rw [Schema.physical, List.map_append] at hnodup
  exact (find?_eq_of_perm h.links.symm hnodup.of_append_right name).symm

/-- **The order in which resources are declared does not matter.** Of two domains with the same
resources both compile or none does. If they do, every resource is compiled to one table, read
options included, and every name of a link table stands for one link table, so that the tables in
the store are the same. -/
theorem ofDomain_reordered (settings : Settings) {domain other : Domain}
    (hsame : domain.entries.Perm other.entries) :
    ((∃ schema, Schema.ofDomain settings domain = .ok schema)
        ↔ ∃ schema, Schema.ofDomain settings other = .ok schema)
      ∧ ∀ schema schema', Schema.ofDomain settings domain = .ok schema →
        Schema.ofDomain settings other = .ok schema' →
        (∀ resource, schema'.table? resource = schema.table? resource)
        ∧ (∀ name, schema'.link? name = schema.link? name)
        ∧ schema'.links.Perm schema.links ∧ schema'.physical.Perm schema.physical := by
  refine ⟨⟨?_, ?_⟩, ?_⟩
  · rintro ⟨schema, h⟩
    obtain ⟨schema', h', -⟩ := exists_reordered h hsame
    exact ⟨schema', h'⟩
  · rintro ⟨schema, h⟩
    obtain ⟨schema', h', -⟩ := exists_reordered h hsame.symm
    exact ⟨schema', h'⟩
  · intro schema schema' h h'
    obtain ⟨_, hother, hreorders⟩ := exists_reordered h hsame
    obtain rfl := Except.ok.inj (h'.symm.trans hother)
    obtain ⟨parts, links, hassembly⟩ := exists_assembly h
    exact ⟨hreorders.table? ((resources_perm h).nodup_iff.2 domain.nodup),
      hreorders.link? hassembly.physical_nodup, hreorders.links, hreorders.physical⟩

/-- The fleet, declared from its last resource to its first: the alias now comes after its
source. -/
def reversedFleet : Domain :=
  ⟨fleetDomain.entries.reverse,
    by rw [List.map_reverse]; exact List.nodup_reverse.2 fleetDomain.nodup⟩

theorem fleet_reversed :
    fleetDomain.entries.Perm reversedFleet.entries
      ∧ ∃ schema, Schema.ofDomain {} reversedFleet = .ok schema
        ∧ (∀ resource, schema.table? resource = fleetSchema.table? resource)
        ∧ schema.physical.Perm fleetSchema.physical := by
  have hsame : fleetDomain.entries.Perm reversedFleet.entries := (List.reverse_perm _).symm
  have hcompiles : Schema.ofDomain {} fleetDomain = .ok fleetSchema := Schema.ofDomain_compiled rfl
  obtain ⟨hboth, hequal⟩ := ofDomain_reordered {} hsame
  obtain ⟨schema, hreversed⟩ := hboth.1 ⟨fleetSchema, hcompiles⟩
  obtain ⟨htables, -, -, hphysical⟩ := hequal fleetSchema schema hcompiles hreversed
  exact ⟨hsame, schema, hreversed, htables, hphysical⟩

end Schema

end RecordStore
