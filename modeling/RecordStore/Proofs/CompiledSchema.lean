import RecordStore.Catalog
import RecordStore.Proofs.CompiledLink

/-!
# Compiled schemas

The tables of a domain are put together: every part of the domain is compiled beside the others, the
link tables serve the lists of the parts, and an alias reads the rows of its source.

* **`Assembly`** — what the parts of a compiled schema are.
* **`ofDomain_eq_ok_iff`** — a domain compiles to what is made of its parts, and to nothing else.
* **`Schema.wellFormed_of_ofDomain`** — the tables of every domain that compiles belong together.
-/

namespace RecordStore

open Compile

namespace Compile

variable {settings : Settings} {domain : Domain} {schema : Schema}

/-! ## Names of a valid domain -/

theorem demandIdentifier_eq_ok_iff {name : String} :
    demandIdentifier name = .ok () ↔ Text.isIdentifier name = true := by
  unfold demandIdentifier
  split <;> simp_all

theorem ne_empty_of_isIdentifier {name : String} (h : Text.isIdentifier name = true) :
    name ≠ "" := by
  rintro rfl
  cases h

/-- The names of the resources and of their fields are checked first of all. -/
theorem identifiers_of_check (h : domain.check = .ok ()) {entry : String × Resource}
    (hentry : entry ∈ domain.entries) :
    Text.isIdentifier entry.1 = true
      ∧ ∀ field ∈ entry.2.fields.keys, Text.isIdentifier field = true := by
  have hresource := forM_eq_ok_iff.1 h entry hentry
  obtain ⟨_, hname, hresource⟩ := bind_eq_ok_iff.1 hresource
  obtain ⟨_, hfields, -⟩ := bind_eq_ok_iff.1 hresource
  exact ⟨demandIdentifier_eq_ok_iff.1 hname,
    fun field hfield => demandIdentifier_eq_ok_iff.1 (forM_eq_ok_iff.1 hfields field hfield)⟩

theorem names_of_check (h : domain.check = .ok ()) {entry : String × Resource}
    (hentry : entry ∈ domain.entries) :
    entry.1 ≠ "" ∧ ∀ field ∈ entry.2.fields.keys, field ≠ "" := by
  obtain ⟨hname, hfields⟩ := identifiers_of_check h hentry
  exact ⟨ne_empty_of_isIdentifier hname, fun field hfield =>
    ne_empty_of_isIdentifier (hfields field hfield)⟩

/-! ## Parts of a schema -/

/-- The table of a part, with its references and its lists. -/
def Part.base (links : List BuiltLink) (part : Part) : Table := withLists links part.related

/-- The parts of which a compiled schema is made. -/
structure Assembly (settings : Settings) (domain : Domain) (schema : Schema) (parts : List Part)
    (links : List BuiltLink) : Prop where
  checked : domain.check = .ok ()
  entries_eq : parts.map Part.entry = domain.entries.filter fun entry => !entry.2.isAlias
  compiled : ∀ part ∈ parts, part.Compiled settings domain (parts.map Part.plain)
  links_eq : linkTables settings (parts.map Part.related)
    ((parts.map Part.references).flatMap (·.filterMap Reference.need?)) = .ok links
  bases_eq : schema.bases = parts.map (Part.base links)
  linkTables_eq : schema.links = links.map BuiltLink.table
  aliases : ∀ t ∈ schema.aliases, ∃ base ∈ schema.bases, t.SharesRows base

/-- Three lists that were made of one and belong together, entry by entry, are parts. -/
theorem exists_parts {P : String × Resource → Table → Prop}
    {Q : String × Resource → List Reference → Prop} {own : List (String × Resource)}
    {plain : List Table} {references : List (List Reference)} (hplain : List.Forall₂ P own plain)
    (hrefs : List.Forall₂ Q own references) :
    ∃ parts : List Part, parts.map Part.entry = own ∧ parts.map Part.plain = plain
      ∧ parts.map Part.references = references
      ∧ ∀ part ∈ parts, P part.entry part.plain ∧ Q part.entry part.references := by
  -- on the resources; their tables and their references keep step
  induction hplain generalizing references with
  | nil =>
    cases hrefs
    exact ⟨[], rfl, rfl, rfl, by simp⟩
  | @cons entry table own plain hfirst _ ih =>
    cases hrefs with
    | @cons _ refs _ references href hrest =>
      obtain ⟨parts, rfl, rfl, rfl, hparts⟩ := ih hrest
      refine ⟨⟨entry, table, refs⟩ :: parts, rfl, rfl, rfl, ?_⟩
      intro part hpart
      rcases List.mem_cons.1 hpart with rfl | hpart
      · exact ⟨hfirst, href⟩
      · exact hparts part hpart

theorem zipWith_map_map {α β γ δ : Type} (f : β → γ → δ) (g : α → β) (k : α → γ) (items : List α) :
    (items.map g).zipWith f (items.map k) = items.map fun x => f (g x) (k x) := by
  induction items with
  | nil => rfl
  | cons x rest ih => rw [List.map_cons, List.map_cons, List.zipWith_cons_cons, ih, List.map_cons]

theorem shares_of_aliasTable {bases : List Table} {entry : String × Resource} {source : String}
    {t : Table} (h : aliasTable bases entry source = .ok t) :
    ∃ base ∈ bases, t.SharesRows base := by
  unfold aliasTable at h
  split at h
  · rename_i base hbase
    refine ⟨base, List.mem_of_find?_eq_some hbase, (shares_of_withOptions h).1.trans ?_⟩
    exact ⟨rfl, rfl, rfl, rfl, rfl, rfl⟩
  · cases h

/-- The aliases of a domain, each with its source. -/
def aliasEntries (domain : Domain) : List ((String × Resource) × String) :=
  domain.entries.filterMap fun entry => entry.2.source.map fun source => (entry, source)

/-- A domain compiles to the tables that are made of its parts, and to those of its aliases. -/
theorem ofDomain_eq_ok_iff :
    Schema.ofDomain settings domain = .ok schema ↔
      ∃ parts links, Assembly settings domain schema parts links
        ∧ List.Forall₂ (fun x t => aliasTable schema.bases x.1 x.2 = .ok t) (aliasEntries domain)
          schema.aliases := by
  constructor
  · intro h
    obtain ⟨_, hcheck, h⟩ := bind_eq_ok_iff.1 h
    obtain ⟨plain, hplain, h⟩ := bind_eq_ok_iff.1 h
    obtain ⟨references, hrefs, h⟩ := bind_eq_ok_iff.1 h
    obtain ⟨links, hlinks, h⟩ := bind_eq_ok_iff.1 h
    obtain ⟨aliases, haliases, h⟩ := bind_eq_ok_iff.1 h
    obtain rfl := Except.ok.inj h
    obtain ⟨parts, hentries, rfl, rfl, hparts⟩ :=
      exists_parts (mapM_eq_ok_iff.1 hplain) (mapM_eq_ok_iff.1 hrefs)
    -- tables and references are zipped together, and come from the same parts
    rw [zipWith_map_map] at hlinks haliases
    rw [zipWith_map_map]
    have haliases := mapM_eq_ok_iff.1 haliases
    refine ⟨parts, links, ⟨hcheck, hentries, fun part hpart => ?_, hlinks, ?_, rfl, ?_⟩, haliases⟩
    · exact ⟨(hparts part hpart).1, (hparts part hpart).2⟩
    · rw [List.map_map]
      rfl
    · intro t ht
      obtain ⟨x, -, halias⟩ := exists_of_mem_right haliases ht
      exact shares_of_aliasTable halias
  · rintro ⟨parts, links, h, haliases⟩
    have hplain : (parts.map Part.entry).mapM (ownTable settings) = .ok (parts.map Part.plain) := by
      rw [mapM_eq_ok_iff, List.forall₂_map_left_iff, List.forall₂_map_right_iff, List.forall₂_same]
      exact fun part hpart => (h.compiled part hpart).plain_eq
    have hrefs : (parts.map Part.entry).mapM (relate domain (parts.map Part.plain))
        = .ok (parts.map Part.references) := by
      rw [mapM_eq_ok_iff, List.forall₂_map_left_iff, List.forall₂_map_right_iff, List.forall₂_same]
      exact fun part hpart => (h.compiled part hpart).references_eq
    have hbases : (parts.map Part.related).map (withLists links) = schema.bases := by
      rw [h.bases_eq, List.map_map]
      rfl
    rw [h.entries_eq] at hplain hrefs
    refine bind_eq_ok_iff.2
      ⟨(), h.checked, bind_eq_ok_iff.2 ⟨_, hplain, bind_eq_ok_iff.2 ⟨_, hrefs, ?_⟩⟩⟩
    rw [zipWith_map_map]
    refine bind_eq_ok_iff.2 ⟨links, h.links_eq, bind_eq_ok_iff.2 ⟨schema.aliases, ?_, ?_⟩⟩
    · exact mapM_eq_ok_iff.2 (hbases ▸ haliases)
    · show Except.ok (Schema.mk ((parts.map Part.related).map (withLists links)) _ _) = _
      rw [hbases, ← h.linkTables_eq]

theorem exists_assembly (h : Schema.ofDomain settings domain = .ok schema) :
    ∃ parts links, Assembly settings domain schema parts links := by
  obtain ⟨parts, links, hassembly, -⟩ := ofDomain_eq_ok_iff.1 h
  exact ⟨parts, links, hassembly⟩

namespace Assembly

variable {parts : List Part} {links : List BuiltLink}

theorem entry_mem (h : Assembly settings domain schema parts links) {part : Part}
    (hpart : part ∈ parts) : part.entry ∈ domain.entries := by
  have hmem : part.entry ∈ parts.map Part.entry := List.mem_map_of_mem hpart
  rw [h.entries_eq] at hmem
  exact List.mem_of_mem_filter hmem

theorem entries_nodup (h : Assembly settings domain schema parts links) :
    (parts.map fun part => part.entry.1).Nodup := by
  have hmap : (parts.map fun part => part.entry.1) = (parts.map Part.entry).map Prod.fst := by
    rw [List.map_map]
    rfl
  rw [hmap, h.entries_eq]
  exact domain.nodup.sublist (List.filter_sublist.map _)

theorem name_eq (h : Assembly settings domain schema parts links) {part : Part}
    (hpart : part ∈ parts) :
    part.plain.name = part.entry.1 ∧ part.plain.resource = part.entry.1 := by
  obtain ⟨own, hplain⟩ := ownTable_eq_ok (h.compiled part hpart).plain_eq
  exact ⟨hplain.name_eq, hplain.resource_eq⟩

theorem related_names_nodup (h : Assembly settings domain schema parts links) :
    ((parts.map Part.related).map Table.name).Nodup := by
  have hmap : (parts.map Part.related).map Table.name = parts.map fun part => part.entry.1 := by
    rw [List.map_map]
    exact List.map_congr_left fun part hpart => (h.name_eq hpart).1
  rw [hmap]
  exact h.entries_nodup

theorem related_resources_nodup (h : Assembly settings domain schema parts links) :
    ((parts.map Part.related).map Table.resource).Nodup := by
  have hmap : (parts.map Part.related).map Table.resource = parts.map fun part => part.entry.1 := by
    rw [List.map_map]
    exact List.map_congr_left fun part hpart => (h.name_eq hpart).2
  rw [hmap]
  exact h.entries_nodup

theorem allLinks (h : Assembly settings domain schema parts links) :
    AllLinks settings (parts.map Part.related) links
      ∧ links.map BuiltLink.need
        = (parts.map Part.references).flatMap (·.filterMap Reference.need?) :=
  linkTables_eq_ok h.related_names_nodup h.links_eq

/-- A list that needs a link table is a field of a part. -/
theorem need_origin (h : Assembly settings domain schema parts links) {link : BuiltLink}
    (hlink : link ∈ links) :
    ∃ part ∈ parts, ∃ relation ∈ part.entry.2.relations, relation.spec.cardinality = .many
      ∧ link.need.owner = part.entry.1 ∧ link.need.field = relation.field := by
  have hneed : link.need ∈ links.map BuiltLink.need := List.mem_map_of_mem hlink
  rw [h.allLinks.2, List.mem_flatMap] at hneed
  obtain ⟨refs, hrefs, hneed⟩ := hneed
  obtain ⟨part, hpart, rfl⟩ := List.mem_map.1 hrefs
  obtain ⟨relation, hrelation, ref, href, hsome⟩ :=
    exists_of_mem_filterMap (refers_of_relate (h.compiled part hpart).references_eq) hneed
  cases href with
  | column => cases hsome
  | link htarget hmany =>
    obtain hneed := Option.some.inj hsome
    exact ⟨part, hpart, relation, hrelation, hmany, by rw [← hneed], by rw [← hneed]⟩

/-- Resources and fields are identifiers, so none of the three names of a link is empty. -/
theorem need_names (h : Assembly settings domain schema parts links) {link : BuiltLink}
    (hlink : link ∈ links) :
    link.need.owner ≠ "" ∧ link.need.target ≠ "" ∧ link.need.field ≠ "" := by
  obtain ⟨part, hpart, relation, hrelation, -, howner, hfield⟩ := h.need_origin hlink
  obtain ⟨hname, hfields⟩ := names_of_check h.checked (h.entry_mem hpart)
  refine ⟨howner ▸ hname, ?_, hfield ▸ hfields _ ?_⟩
  -- the target is a table of the domain, so its name was checked as well
  · obtain ⟨_, target, _, _, hlinks⟩ := tableFor_eq_ok (h.allLinks.1.links link hlink)
    obtain ⟨part', hpart', rfl⟩ := List.mem_map.1 hlinks.target_mem
    rw [← hlinks.target_eq]
    show part'.plain.resource ≠ ""
    rw [(h.name_eq hpart').2]
    exact (names_of_check h.checked (h.entry_mem hpart')).1
  · exact List.mem_map_of_mem (mem_relations hrelation).1

/-! ## From parts to tables of the schema -/

theorem mem_bases (h : Assembly settings domain schema parts links) {base : Table} :
    base ∈ schema.bases ↔ ∃ part ∈ parts, part.base links = base := by
  rw [h.bases_eq, List.mem_map]

theorem physical_nodup (h : Assembly settings domain schema parts links) :
    (schema.physical.map Table.name).Nodup := by
  have hmap : schema.physical.map Table.name
      = (parts.map Part.related).map Table.name ++ links.map (·.table.name) := by
    rw [Schema.physical, h.bases_eq, h.linkTables_eq, List.map_append, List.map_map, List.map_map,
      List.map_map]
    rfl
  rw [hmap]
  exact h.allLinks.1.names_nodup

/-- The key of a part is the key of its table with all columns. -/
theorem base_key {part : Part} {k : Column} (hk : part.plain.keyColumn? = some k) :
    (part.base links).keyColumn? = some k := by
  show (part.plain.columns ++ _).find? (·.name == part.plain.primaryKey) = some k
  -- the columns of references stand after the others, so the key is found before them
  rw [List.find?_append]
  show (part.plain.keyColumn?.or _) = some k
  rw [hk]
  rfl

/-- A column points at the key of a resource's table, and holds values of its type. -/
theorem references (h : Assembly settings domain schema parts links) {t : Table}
    (ht : t ∈ schema.physical) {c : Column} (hc : c ∈ t.columns) {key : ForeignKey}
    (hkey : c.references = some key) :
    c.default? = none ∧ c.defaultNow = false ∧ ∃ target ∈ schema.bases, ∃ k,
      key = ⟨target.name, k.name⟩ ∧ target.keyColumn? = some k ∧ c.type = k.type := by
  rcases List.mem_append.1 ht with hbase | hlink
  · obtain ⟨part, hpart, rfl⟩ := h.mem_bases.1 hbase
    obtain ⟨hdefault, hstamp, target, htarget, k, hkey, hk, htype⟩ :=
      Part.references_related (h.compiled part hpart) hc hkey
    obtain ⟨tpart, htpart, rfl⟩ := List.mem_map.1 htarget
    exact ⟨hdefault, hstamp, tpart.base links, h.mem_bases.2 ⟨tpart, htpart, rfl⟩, k, hkey,
      base_key hk, htype⟩
  · rw [h.linkTables_eq] at hlink
    obtain ⟨link, hbuilt, rfl⟩ := List.mem_map.1 hlink
    obtain ⟨_, _, _, _, hlinks⟩ := tableFor_eq_ok (h.allLinks.1.links link hbuilt)
    obtain ⟨hdefault, hstamp, target, htarget, k, hkey, hk, htype⟩ := hlinks.references hc hkey
    obtain ⟨tpart, htpart, rfl⟩ := List.mem_map.1 htarget
    exact ⟨hdefault, hstamp, tpart.base links, h.mem_bases.2 ⟨tpart, htpart, rfl⟩, k,
      hkey, hk, htype⟩

/-- A resource is found under its name. -/
theorem table_eq (h : Assembly settings domain schema parts links) {part : Part}
    (hpart : part ∈ parts) : schema.table part.plain.resource = .ok (part.base links) := by
  rw [Schema.table_eq_ok_iff, Schema.table?, Schema.resources, List.find?_append]
  -- resources come before aliases, and differ from each other
  have hnodup : (schema.bases.map Table.resource).Nodup := by
    have hmap : schema.bases.map Table.resource = (parts.map Part.related).map Table.resource := by
      rw [h.bases_eq, List.map_map, List.map_map]
      rfl
    rw [hmap]
    exact h.related_resources_nodup
  have hfound := find?_eq_of_nodup hnodup (h.mem_bases.2 ⟨part, hpart, rfl⟩)
  change schema.bases.find? (·.resource == part.plain.resource) = _ at hfound
  rw [hfound]
  rfl

theorem linkTable_eq (h : Assembly settings domain schema parts links) {link : BuiltLink}
    (hlink : link ∈ links) : schema.linkTable link.table.name = .ok link.table := by
  have hnodup : (schema.links.map Table.name).Nodup := by
    have hphysical := h.physical_nodup
    rw [Schema.physical, List.map_append] at hphysical
    exact hphysical.of_append_right
  have hmem : link.table ∈ schema.links := by
    rw [h.linkTables_eq]
    exact List.mem_map_of_mem hlink
  rw [Schema.linkTable_eq_ok_iff]
  exact find?_eq_of_nodup hnodup hmem

/-- The owner of a list has the list, and the list its link table. -/
theorem serves (h : Assembly settings domain schema parts links) {link : BuiltLink}
    (hlink : link ∈ links) :
    ∃ owner ∈ schema.bases, link.list ∈ owner.lists ∧ owner.resource = link.need.owner
      ∧ ∃ target ownerKey targetKey,
        schema.Serves owner link.list link.table target ownerKey targetKey := by
  obtain ⟨owner, target, ownerKey, targetKey, hlinks⟩ :=
    tableFor_eq_ok (h.allLinks.1.links link hlink)
  obtain ⟨part, hpart, rfl⟩ := List.mem_map.1 hlinks.owner_mem
  obtain ⟨tpart, htpart, rfl⟩ := List.mem_map.1 hlinks.target_mem
  obtain ⟨part', hpart', relation, hrelation, hmany, howner, hfield⟩ := h.need_origin hlink
  -- the part that has the list is the part of the owner
  have hsame : part'.entry = part.entry := by
    have hresource : part.plain.resource = link.need.owner := hlinks.owner_eq
    rw [(h.name_eq hpart).2, howner] at hresource
    rw [List.inj_on_of_nodup_map h.entries_nodup hpart hpart' hresource]
  refine ⟨part.base links, h.mem_bases.2 ⟨part, hpart, rfl⟩, ?_, hlinks.owner_eq,
    tpart.base links, ownerKey, targetKey, ?_⟩
  · refine List.mem_map.2 ⟨link, List.mem_filter.2 ⟨hlink, ?_⟩, rfl⟩
    rw [beq_iff_eq]
    exact hlinks.owner_eq.symm
  · constructor
    · rw [hlinks.link_eq]
      exact h.linkTable_eq hlink
    · rw [hlinks.listTarget_eq, ← hlinks.target_eq]
      exact h.table_eq htpart
    · exact h.mem_bases.2 ⟨tpart, htpart, rfl⟩
    · exact hlinks.ownerKey_eq
    · exact hlinks.targetKey_eq
    · exact hlinks.columns_eq
    · exact hlinks.groups_eq
    · exact hlinks.lists_eq
    · exact hlinks.flag_eq
    · rw [hlinks.field_eq, hfield]
      exact Part.not_column_of_many (h.compiled part hpart) (hsame ▸ hrelation) hmany

/-- The lists of a part are fields of the part, under different names. -/
theorem part_needs (h : Assembly settings domain schema parts links) {part : Part}
    (hpart : part ∈ parts) :
    ((part.references.filterMap Reference.need?).map LinkNeed.field).Nodup
      ∧ ∀ need ∈ part.references.filterMap Reference.need?, need.owner = part.entry.1 := by
  have hrefs := refers_of_relate (h.compiled part hpart).references_eq
  constructor
  · have hsub : ((part.references.filterMap Reference.need?).map LinkNeed.field).Sublist
        part.entry.2.fields.keys := by
      refine (sublist_names Relation.field ?_ hrefs).trans (sublist_relations _)
      intro relation ref need href hsome
      cases href with
      | column => cases hsome
      | link =>
        obtain rfl := Option.some.inj hsome
        rfl
    exact hsub.nodup part.entry.2.fields.nodup
  · intro need hneed
    obtain ⟨relation, -, ref, href, hsome⟩ := exists_of_mem_filterMap hrefs hneed
    cases href with
    | column => cases hsome
    | link =>
      obtain rfl := Option.some.inj hsome
      rfl

/-- No resource has two lists under one name. -/
theorem needs_nodup (h : Assembly settings domain schema parts links) :
    (links.map fun link => (link.need.owner, link.need.field)).Nodup := by
  have hpairs (some : List Part) (hsub : ∀ part ∈ some, part ∈ parts)
      (hnodup : (some.map fun part => part.entry.1).Nodup) :
      (((some.map Part.references).flatMap (·.filterMap Reference.need?)).map
        fun need => (need.owner, need.field)).Nodup := by
    -- on any of the parts, since the needs of all are put one after the other
    induction some with
    | nil => simp
    | cons part rest ih =>
      rw [List.map_cons, List.nodup_cons] at hnodup
      obtain ⟨hfields, howner⟩ := h.part_needs (hsub part List.mem_cons_self)
      have hrest (part' : Part) (hpart' : part' ∈ rest) : part' ∈ parts :=
        hsub part' (List.mem_cons_of_mem _ hpart')
      rw [List.map_cons, List.flatMap_cons, List.map_append, List.nodup_append]
      refine ⟨?_, ih hrest hnodup.2, ?_⟩
      · refine List.Nodup.of_map Prod.snd ?_
        rw [List.map_map]
        exact hfields
      · -- two parts are two resources
        rintro pair hpair _ hother rfl
        obtain ⟨need, hneed, hpair⟩ := List.mem_map.1 hpair
        obtain ⟨other, hother, hsame⟩ := List.mem_map.1 hother
        obtain ⟨refs, hrefs, hother⟩ := List.mem_flatMap.1 hother
        obtain ⟨part', hpart', rfl⟩ := List.mem_map.1 hrefs
        have hne := (Prod.mk.inj (hsame.trans hpair.symm)).1
        rw [howner need hneed, (h.part_needs (hrest part' hpart')).2 other hother] at hne
        exact hnodup.1 (List.mem_map.2 ⟨part', hpart', hne⟩)
  have hall := hpairs parts (fun _ hpart => hpart) h.entries_nodup
  rw [← h.allLinks.2, List.map_map] at hall
  exact hall

/-- The lists of a resource have the names of the fields whose links it owns. -/
theorem listNames_eq_map (h : Assembly settings domain schema parts links) (part : Part) :
    (part.base links).listNames
      = (links.filter (·.need.owner == part.related.resource)).map (·.need.field) := by
  show List.map _ (List.map _ _) = _
  rw [List.map_map]
  refine List.map_congr_left fun link hlink => ?_
  obtain ⟨_, _, _, _, hlinks⟩ :=
    tableFor_eq_ok (h.allLinks.1.links link (List.mem_of_mem_filter hlink))
  exact hlinks.field_eq

/-- The lists of a resource have different names. -/
theorem fields_nodup (h : Assembly settings domain schema parts links) (part : Part) :
    (part.base links).listNames.Nodup := by
  have hnames : (part.base links).listNames
      = ((links.filter (·.need.owner == part.related.resource)).map
          fun link => (link.need.owner, link.need.field)).map Prod.snd := by
    rw [h.listNames_eq_map, List.map_map]
    rfl
  rw [hnames]
  -- links of one owner that share a field would share the pair
  refine List.Nodup.map_on ?_ (h.needs_nodup.sublist (List.filter_sublist.map _))
  intro pair hpair other hother hfield
  obtain ⟨link, hlink, rfl⟩ := List.mem_map.1 hpair
  obtain ⟨link', hlink', rfl⟩ := List.mem_map.1 hother
  have howner := (List.mem_filter.1 hlink).2
  have howner' := (List.mem_filter.1 hlink').2
  rw [beq_iff_eq] at howner howner'
  exact Prod.ext (howner.trans howner'.symm) hfield

/-- Every list of a resource has its link table. -/
theorem lists (h : Assembly settings domain schema parts links) {owner : Table}
    (howner : owner ∈ schema.bases) {m : ListField} (hm : m ∈ owner.lists) :
    ∃ link target ownerKey targetKey, schema.Serves owner m link target ownerKey targetKey := by
  obtain ⟨part, hpart, rfl⟩ := h.mem_bases.1 howner
  obtain ⟨link, hlink, rfl⟩ := List.mem_map.1 hm
  obtain ⟨hlink, hown⟩ := List.mem_filter.1 hlink
  obtain ⟨owner, howner', -, hresource, target, ownerKey, targetKey, hserves⟩ := h.serves hlink
  obtain ⟨part', hpart', rfl⟩ := h.mem_bases.1 howner'
  -- the list was built for this owner: its resource is the part's
  have hsame : part' = part := by
    refine List.inj_on_of_nodup_map h.entries_nodup hpart' hpart ?_
    rw [← (h.name_eq hpart').2, ← (h.name_eq hpart).2]
    exact hresource.trans (beq_iff_eq.1 hown)
  exact ⟨link.table, target, ownerKey, targetKey, hsame ▸ hserves⟩

end Assembly

/-- What the parts of a schema are put together from makes the schema well-formed. -/
theorem wellFormed_of_assembly {parts : List Part} {links : List BuiltLink}
    (h : Assembly settings domain schema parts links) (hnames : settings.NamesApart) :
    schema.WellFormed where
  names_nodup := h.physical_nodup
  tables t ht := by
    rcases List.mem_append.1 ht with hbase | hlink
    · obtain ⟨part, hpart, rfl⟩ := h.mem_bases.1 hbase
      -- the lists of a table play no part in its being well-formed
      have hrelated := Part.wellFormed_related (h.compiled part hpart) hnames
      exact ⟨hrelated.names_nodup, hrelated.key, hrelated.default_accepted, hrelated.stamp_datetime,
        hrelated.number_integer, hrelated.stamps, hrelated.flag⟩
    · rw [h.linkTables_eq] at hlink
      obtain ⟨link, hbuilt, rfl⟩ := List.mem_map.1 hlink
      obtain ⟨_, _, _, _, hlinks⟩ := tableFor_eq_ok (h.allLinks.1.links link hbuilt)
      obtain ⟨howner, htarget, hfield⟩ := h.need_names hbuilt
      exact hlinks.wellFormed hnames howner htarget hfield
  shared t ht := by
    rcases List.mem_append.1 ht with hbase | halias
    · exact ⟨t, hbase, .refl t⟩
    · exact h.aliases t halias
  references _ ht _ hc _ hkey := h.references ht hc hkey
  lists owner howner m hm := h.lists howner hm
  fields_nodup owner howner := by
    obtain ⟨part, -, rfl⟩ := h.mem_bases.1 howner
    exact h.fields_nodup part
  served t ht := by
    rw [h.linkTables_eq] at ht
    obtain ⟨link, hlink, rfl⟩ := List.mem_map.1 ht
    obtain ⟨owner, howner, hlist, -, _, _, _, hserves⟩ := h.serves hlink
    exact ⟨owner, howner, link.list, hlist, hserves.link_eq⟩

end Compile

/-- **Every domain that compiles has tables that belong together**, if the names that the settings
give are different. -/
theorem Schema.wellFormed_of_ofDomain {settings : Settings} {domain : Domain} {schema : Schema}
    (h : Schema.ofDomain settings domain = .ok schema) (hnames : settings.NamesApart) :
    schema.WellFormed := by
  obtain ⟨parts, links, hassembly⟩ := exists_assembly h
  exact wellFormed_of_assembly hassembly hnames

theorem Catalog.wellFormed_of_ofDomain {settings : Settings} {domain : Domain} {catalog : Catalog}
    (h : Catalog.ofDomain settings domain = .ok catalog) (hnames : settings.NamesApart) :
    catalog.schema.WellFormed := by
  obtain ⟨schema, hschema, rfl⟩ := map_eq_ok_iff.1 h
  exact Schema.wellFormed_of_ofDomain hschema hnames

end RecordStore
