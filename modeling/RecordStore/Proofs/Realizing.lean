import RecordStore.Proofs.ColumnNames
import RecordStore.Proofs.Coherent

/-!
# What a compiled schema is made of

Every resource of a domain is compiled to one table, every field to one column or one list. A table
has one key, the columns of relations point at keys, and lists have link tables that point at both
of their ends. All this holds whatever the names are that the settings give.

* **`Assembly.fields_perm`** — the names of columns and lists are those that are set and those of
  the fields.
* **`Schema.Realizes`** — the tables of a schema are what the domain declares.
* **`Schema.realizes_of_ofDomain`** — compiled schemas realize their domains.
-/

namespace RecordStore

open Compile

/-- Steps that each give what their item tells give what the items tell. -/
theorem filterMap_eq_of_forall₂ {α β γ : Type} {R : α → β → Prop} {items : List α}
    {results : List β} {value? : β → Option γ} (told? : α → Option γ)
    (h : List.Forall₂ R items results) (htold : ∀ x y, R x y → value? y = told? x) :
    results.filterMap value? = items.filterMap told? := by
  induction h with
  | nil => rfl
  | @cons x y items results hxy _ ih =>
    rw [List.filterMap_cons, List.filterMap_cons, htold x y hxy, ih]

/-- What is told of each item once, by one of two, is told by both together. -/
theorem filterMap_perm_of_or {α γ : Type} {first? second? : α → Option γ} (both? : α → Option γ)
    (items : List α)
    (h : ∀ x ∈ items, first? x = both? x ∧ second? x = none
      ∨ first? x = none ∧ second? x = both? x) :
    (items.filterMap first? ++ items.filterMap second?).Perm (items.filterMap both?) := by
  induction items with
  | nil => rfl
  | cons x rest ih =>
    have hrest := ih fun y hy => h y (List.mem_cons_of_mem x hy)
    rw [List.filterMap_cons, List.filterMap_cons, List.filterMap_cons]
    rcases h x List.mem_cons_self with ⟨hfirst, hsecond⟩ | ⟨hfirst, hsecond⟩
    · rw [hfirst, hsecond]
      cases both? x with
      | none => exact hrest
      | some v => exact hrest.cons v
    · rw [hfirst, hsecond]
      cases both? x with
      | none => exact hrest
      | some v => exact List.perm_middle.trans (hrest.cons v)

namespace Compile

variable {settings : Settings} {domain : Domain} {tables : List Table}

/-! ## Keys -/

namespace Part

variable {part : Part}

/-- Of the columns of own fields, those are keys whose fields are declared to be. -/
theorem own_keys {own : List (Option Column)} {name : String} {resource : Resource} {t : Table}
    (h : OwnTable settings name resource own t) :
    ((own.filterMap id).filter Column.primaryKey).map Column.name = resource.keyFields := by
  let key? (column? : Option Column) : Option String :=
    (column?.filter Column.primaryKey).map Column.name
  have hown : ((own.filterMap id).filter Column.primaryKey).map Column.name
    = own.filterMap key? := by
    rw [← List.filterMap_eq_filter, List.filterMap_filterMap, List.map_filterMap]
    refine List.filterMap_congr fun column? _ => ?_
    cases column? with
    | none => rfl
    | some c => cases hkey : c.primaryKey <;> simp [key?, Option.guard, Option.filter, hkey]
  rw [hown, filterMap_eq_of_forall₂ (fun entry => if entry.2.primaryKey then some entry.1 else none)
    h.own_eq]
  · unfold Resource.keyFields
    rw [← List.filterMap_eq_filter, List.map_filterMap]
    refine List.filterMap_congr fun entry _ => ?_
    cases hkey : entry.2.primaryKey <;> simp [Option.guard, hkey]
  -- a field that points at a resource is no key
  · rintro ⟨field, spec⟩ column? hcolumn
    obtain ⟨-, ⟨rfl, -, hnot⟩ | ⟨c, rfl, -, hdeclares⟩⟩ := ownColumn_eq_ok hcolumn
    · rw [hnot]
      rfl
    · rw [← hdeclares.primaryKey_eq, ← hdeclares.name_eq]
      cases hkey : c.primaryKey <;> simp [key?, Option.filter, hkey]

/-- One column is the key: the generated one, or that of the field that is declared to be. -/
theorem one_key_related (h : part.Compiled settings domain tables) :
    ∃ k, part.related.columns.filter Column.primaryKey = [k] := by
  obtain ⟨own, hplain⟩ := ownTable_eq_ok h.plain_eq
  have hrefs := refers_of_relate h.references_eq
  have hno_reference :
    (part.references.filterMap Reference.column?).filter Column.primaryKey = [] := by
    rw [List.filter_eq_nil_iff]
    intro c hc
    obtain ⟨_, _, _, href, hcolumn⟩ := exists_of_mem_filterMap hrefs hc
    obtain ⟨_, _, _, _, _, rfl⟩ := column_of_reference href hcolumn
    exact Bool.false_ne_true
  have hown : ((own.filterMap id).filter Column.primaryKey).length
    = part.entry.2.keyFields.length := by
    rw [← own_keys hplain, List.length_map]
  have hcolumns := hplain.columns_eq
  generalize own.filterMap id = fields at hown hcolumns
  have hlength : (part.related.columns.filter Column.primaryKey).length
      = (if part.entry.2.keyFields.isEmpty then 1 else 0) + part.entry.2.keyFields.length := by
    show ((part.plain.columns ++ _).filter _).length = _
    rw [List.filter_append, hno_reference, hcolumns]
    cases part.entry.2.keyFields.isEmpty <;> cases part.entry.2.softDelete <;>
      simp [Column.identity, Column.timestamp, Column.deletedFlag, hown, Nat.add_comm]
  rw [← List.length_eq_one_iff, hlength]
  have hone := hplain.one_key
  cases hkeys : part.entry.2.keyFields with
  | nil => rfl
  | cons field rest =>
    rw [hkeys] at hone
    rw [List.isEmpty_cons, if_neg Bool.false_ne_true, Nat.zero_add]
    exact Nat.le_antisymm hone (Nat.le_add_left 1 _)

theorem key_not_null (h : part.Compiled settings domain tables) {c : Column}
    (hc : c ∈ part.related.columns) (hkey : c.primaryKey = true) : c.nullable = false := by
  cases origin_of_mem h hc with
  | field _ _ hdeclares => exact hdeclares.key_not_null hkey
  | identity => rfl
  | stamp => rfl
  | flag => rfl
  | reference => cases hkey

end Part

namespace Assembly

variable {schema : Schema} {parts : List Part} {links : List BuiltLink}

/-- Every table has exactly one key, and it is never null. -/
theorem one_key (h : Assembly settings domain schema parts links) {t : Table}
    (ht : t ∈ schema.physical) :
    ∃ k, t.columns.filter Column.primaryKey = [k] ∧ t.keyColumn? = some k ∧ k.nullable = false := by
  obtain ⟨k, hk, hprimary, -⟩ := h.keyed ht
  have hmem := (Table.mem_of_column? hk).1
  rcases List.mem_append.1 ht with hbase | hlink
  · obtain ⟨part, hpart, rfl⟩ := h.mem_bases.1 hbase
    obtain ⟨c, hone⟩ := Part.one_key_related (h.compiled part hpart)
    have hkey : k ∈ part.related.columns.filter Column.primaryKey :=
      List.mem_filter.2 ⟨hmem, hprimary⟩
    rw [hone, List.mem_singleton] at hkey
    exact ⟨k, hkey ▸ hone, hk, Part.key_not_null (h.compiled part hpart) hmem hprimary⟩
  · obtain ⟨_, _, _, _, _, _, hlinks⟩ := h.exists_links hlink
    obtain rfl := Option.some.inj (hk.symm.trans (Table.keyColumn?_of_columns hlinks.columns_eq))
    refine ⟨_, ?_, hk, rfl⟩
    rw [hlinks.columns_eq]
    rfl

end Assembly

/-! ## Fields -/

namespace Part

variable {part : Part}

/-- What becomes of a field that points at a resource: of its relation, a column or a list. -/
theorem relations_perm {owner : String} {resource : Resource} {references : List Reference}
    (h : List.Forall₂ (Refers tables owner) resource.relations references) :
    ((references.filterMap Reference.column?).map Column.name
      ++ (references.filterMap Reference.need?).map LinkNeed.field).Perm
      (resource.relations.map Relation.field) := by
  rw [List.map_filterMap, List.map_filterMap, ← List.filterMap_eq_map]
  let name? (ref : Reference) : Option String :=
    (ref.column?.map Column.name).or (ref.need?.map LinkNeed.field)
  refine (filterMap_perm_of_or name? references ?_).trans (.of_eq ?_)
  · rintro (c | need) -
    · exact .inl ⟨rfl, rfl⟩
    · exact .inr ⟨rfl, rfl⟩
  · refine filterMap_eq_of_forall₂ _ h fun relation ref href => ?_
    cases href with
    | column => rfl
    | link => rfl

/-- Every field gives its name to one column or to one list. -/
theorem fields_perm (h : part.Compiled settings domain tables) {own : List (Option Column)}
    (hplain : OwnTable settings part.entry.1 part.entry.2 own part.plain) :
    (fieldNames own part.references
      ++ (part.references.filterMap Reference.need?).map LinkNeed.field).Perm
        part.entry.2.fields.keys := by
  have hown : (own.filterMap id).map Column.name
      = part.entry.2.fields.entries.filterMap fun entry =>
        if entry.2.target.isSome then none else some entry.1 := by
    rw [List.map_filterMap]
    refine filterMap_eq_of_forall₂ _ hplain.own_eq ?_
    rintro ⟨field, spec⟩ column? hcolumn
    obtain ⟨-, ⟨rfl, htarget, -⟩ | ⟨c, rfl, htarget, hdeclares⟩⟩ := ownColumn_eq_ok hcolumn
    · simp [htarget]
    · simp [htarget, hdeclares.name_eq]
  have hrelations : part.entry.2.relations.map Relation.field
      = part.entry.2.fields.entries.filterMap fun entry =>
        if entry.2.target.isSome then some entry.1 else none := by
    unfold Resource.relations
    rw [List.map_filterMap]
    refine List.filterMap_congr ?_
    rintro ⟨field, spec⟩ -
    dsimp only
    cases spec.target with
    | none => rfl
    | some target => rfl
  have hkeys : part.entry.2.fields.keys
      = part.entry.2.fields.entries.filterMap fun entry => some entry.1 := by
    rw [List.filterMap_eq_map']
    rfl
  rw [fieldNames, List.append_assoc, hkeys]
  refine ((relations_perm (refers_of_relate h.references_eq)).append_left _).trans ?_
  rw [hown, hrelations]
  refine filterMap_perm_of_or _ _ fun entry _ => ?_
  cases entry.2.target with
  | none => exact .inl ⟨rfl, rfl⟩
  | some target => exact .inr ⟨rfl, rfl⟩

end Part

namespace Assembly

variable {schema : Schema} {parts : List Part} {links : List BuiltLink} {part : Part}

/-- The link tables of a part are those that its own lists need, in their order. -/
theorem needs_of_part (h : Assembly settings domain schema parts links) (hpart : part ∈ parts) :
    (links.filter (·.need.owner == part.plain.resource)).map BuiltLink.need
      = part.references.filterMap Reference.need? := by
  have hfilter (other : Part) (hother : other ∈ parts) (hsame : other.entry.1 = part.entry.1) :
      (other.references.filterMap Reference.need?).filter (·.owner == part.plain.resource)
        = other.references.filterMap Reference.need? := by
    rw [List.filter_eq_self]
    intro need hneed
    rw [(h.part_needs hother).2 need hneed, (h.name_eq hpart).2, hsame, beq_self_eq_true]
  have hapart (others : List Part)
      (hothers : ∀ other ∈ others, other ∈ parts ∧ other.entry.1 ≠ part.entry.1) :
      ((others.map Part.references).flatMap (·.filterMap Reference.need?)).filter
        (·.owner == part.plain.resource) = [] := by
    rw [List.filter_eq_nil_iff]
    intro need hneed
    obtain ⟨refs, hrefs, hneed⟩ := List.mem_flatMap.1 hneed
    obtain ⟨other, hother, rfl⟩ := List.mem_map.1 hrefs
    rw [(h.part_needs (hothers other hother).1).2 need hneed, (h.name_eq hpart).2, beq_iff_eq]
    exact (hothers other hother).2
  have hmap : (links.filter (·.need.owner == part.plain.resource)).map BuiltLink.need
      = (links.map BuiltLink.need).filter (·.owner == part.plain.resource) := by
    rw [List.filter_map]
    rfl
  obtain ⟨front, back, hsplit⟩ := List.append_of_mem hpart
  have hnodup := h.entries_nodup
  rw [hsplit, List.map_append, List.map_cons, List.nodup_append, List.nodup_cons] at hnodup
  have hmem {other : Part} (hother : other ∈ front ++ part :: back) :
    other ∈ parts := hsplit ▸ hother
  -- the parts before and after are other resources, whose lists have other owners
  rw [hmap, h.allLinks.2, hsplit, List.map_append, List.map_cons, List.flatMap_append,
    List.flatMap_cons, List.filter_append, List.filter_append, hapart front, hapart back,
    hfilter part hpart rfl, List.nil_append, List.append_nil]
  · intro other hother
    refine ⟨hmem (List.mem_append_right _ (List.mem_cons_of_mem _ hother)), fun hsame => ?_⟩
    exact hnodup.2.1.1 (List.mem_map.2 ⟨other, hother, hsame⟩)
  · intro other hother
    refine ⟨hmem (List.mem_append_left _ hother), fun hsame => ?_⟩
    exact hnodup.2.2 _ (List.mem_map_of_mem hother) _ List.mem_cons_self hsame

theorem listNames_eq (h : Assembly settings domain schema parts links) (hpart : part ∈ parts) :
    (part.base links).listNames
      = (part.references.filterMap Reference.need?).map LinkNeed.field := by
  rw [← h.needs_of_part hpart, List.map_map]
  exact h.listNames_eq_map part

/-- The names of columns and lists are those that are set beside the fields, and those of the
fields. -/
theorem fields_perm (h : Assembly settings domain schema parts links) (hpart : part ∈ parts) :
    ((part.base links).columnNames ++ (part.base links).listNames).Perm
      (Part.setNames settings part.entry.2 ++ part.entry.2.fields.keys) := by
  obtain ⟨own, hplain⟩ := ownTable_eq_ok (h.compiled part hpart).plain_eq
  rw [h.listNames_eq hpart]
  refine ((Part.columnNames_perm hplain).append_right _).trans ?_
  rw [List.append_assoc]
  exact (Part.fields_perm (h.compiled part hpart) hplain).append_left _

/-- A field is one column or one list, and nothing that is set beside the fields has its name. -/
theorem field_once (h : Assembly settings domain schema parts links) (hpart : part ∈ parts)
    {field : String} (hfield : field ∈ part.entry.2.fields.keys) :
    ((part.base links).columnNames ++ (part.base links).listNames).count field = 1 := by
  obtain ⟨own, hplain⟩ := ownTable_eq_ok (h.compiled part hpart).plain_eq
  have hset : field ∉ Part.setNames settings part.entry.2 := by
    obtain ⟨entry, hentry, rfl⟩ := List.mem_map.1 hfield
    exact fun hset => Part.not_reserved hplain hentry (Part.mem_reserved_of_setNames hset)
  rw [(h.fields_perm hpart).count_eq, List.count_append, List.count_eq_zero_of_not_mem hset,
    Nat.zero_add]
  exact List.count_eq_one_of_mem part.entry.2.fields.nodup hfield

/-! ## Resources -/

theorem base_resource (h : Assembly settings domain schema parts links) (hpart : part ∈ parts) :
    (part.base links).resource = part.entry.1 :=
  (h.name_eq hpart).2

end Assembly

theorem resource_of_aliasTable {bases : List Table} {entry : String × Resource} {source : String}
    {t : Table} (h : aliasTable bases entry source = .ok t) :
    t.resource = entry.1 ∧ ∃ base, bases.find? (·.resource == source) = some base
      ∧ t.SharesRows base := by
  unfold aliasTable at h
  split at h
  · rename_i base hbase
    obtain ⟨hshares, hresource⟩ := shares_of_withOptions h
    exact ⟨hresource, base, hbase, hshares.trans ⟨rfl, rfl, rfl, rfl, rfl, rfl⟩⟩
  · cases h

theorem aliasEntries_eq (domain : Domain) :
    (aliasEntries domain).map Prod.fst = domain.entries.filter fun entry => entry.2.isAlias := by
  rw [aliasEntries, List.map_filterMap, ← List.filterMap_eq_filter]
  refine List.filterMap_congr fun entry _ => ?_
  unfold Resource.isAlias
  cases hsource : entry.2.source <;> simp [Option.guard, hsource]

/-- The resources of a domain are compiled, those with a table of their own before the aliases. -/
theorem resources_perm (h : Schema.ofDomain settings domain = .ok schema) :
    (schema.resources.map Table.resource).Perm domain.keys := by
  obtain ⟨parts, links, hassembly, haliases⟩ := ofDomain_eq_ok_iff.1 h
  have hbases : schema.bases.map Table.resource
      = (domain.entries.filter fun entry => !entry.2.isAlias).map Prod.fst := by
    rw [hassembly.bases_eq, ← hassembly.entries_eq, List.map_map, List.map_map]
    exact List.map_congr_left fun part hpart => hassembly.base_resource hpart
  have haliases : schema.aliases.map Table.resource
      = (domain.entries.filter fun entry => entry.2.isAlias).map Prod.fst := by
    rw [← aliasEntries_eq, List.map_map, ← List.forall₂_eq_eq_eq, List.forall₂_map_left_iff,
      List.forall₂_map_right_iff]
    exact haliases.flip.imp fun t x halias => (resource_of_aliasTable halias).1
  rw [Schema.resources, List.map_append, hbases, haliases, ← List.map_append, NameMap.keys]
  exact (List.perm_append_comm.trans (List.filter_append_perm _ _)).map _

theorem table_of_mem (h : Schema.ofDomain settings domain = .ok schema) {t : Table}
    (ht : t ∈ schema.resources) : schema.table t.resource = .ok t := by
  rw [Schema.table_eq_ok_iff, Schema.table?]
  exact find?_eq_of_nodup ((resources_perm h).nodup_iff.2 domain.nodup) ht

/-- An alias is compiled against the tables of the resources that are none. -/
theorem exists_aliasTable (h : Schema.ofDomain settings domain = .ok schema) {name source : String}
    {resource : Resource} (hentry : domain.get? name = some resource)
    (hsource : resource.source = some source) :
    ∃ t, schema.table name = .ok t ∧ aliasTable schema.bases (name, resource) source = .ok t := by
  obtain ⟨_, _, -, haliases⟩ := ofDomain_eq_ok_iff.1 h
  have hmem : ((name, resource), source) ∈ aliasEntries domain := by
    refine List.mem_filterMap.2 ⟨(name, resource), (NameMap.get?_eq_some_iff ..).1 hentry, ?_⟩
    show resource.source.map _ = _
    rw [hsource]
    rfl
  obtain ⟨t, ht, halias⟩ := exists_of_mem_left haliases hmem
  have htable := table_of_mem h (List.mem_append_right _ ht)
  rw [(resource_of_aliasTable halias).1] at htable
  exact ⟨t, htable, halias⟩

/-- An alias is a table of its own, with the rows of its source. -/
theorem alias_shares (h : Schema.ofDomain settings domain = .ok schema) {name source : String}
    {resource : Resource} (hentry : domain.get? name = some resource)
    (hsource : resource.source = some source) :
    ∃ t base, schema.table name = .ok t ∧ base ∈ schema.bases ∧ schema.table source = .ok base
      ∧ t.SharesRows base := by
  obtain ⟨t, htable, halias⟩ := exists_aliasTable h hentry hsource
  obtain ⟨-, base, hfound, hshares⟩ := resource_of_aliasTable halias
  have hbase := List.mem_of_find?_eq_some hfound
  have hname : base.resource = source := by simpa using List.find?_some hfound
  refine ⟨t, base, htable, hbase, ?_, hshares⟩
  rw [← hname]
  exact table_of_mem h (List.mem_append_left _ hbase)

end Compile

/-! ## Schemas -/

/-- The column of a link table that holds keys of the rows of a table. -/
def Table.PointsAt (link : Table) (column : String) (target : Table) : Prop :=
  ∃ c, link.column? column = some c ∧ c.references = some ⟨target.name, target.primaryKey⟩

/-- The tables of a schema are what the domain declares. -/
structure Schema.Realizes (schema : Schema) (domain : Domain) : Prop where
  /-- every resource is compiled once -/
  resources_perm : (schema.resources.map Table.resource).Perm domain.keys
  names_nodup : (schema.physical.map Table.name).Nodup
  /-- one column is the key, under the name that the table gives, and takes no null -/
  keyed : ∀ t ∈ schema.physical, ∃ k, t.columns.filter Column.primaryKey = [k]
    ∧ k.name = t.primaryKey
    ∧ t.keyColumn? = some k ∧ k.nullable = false
  /-- a field is one column or one list -/
  fields : ∀ name resource, domain.get? name = some resource → resource.isAlias = false →
    ∃ t, schema.table name = .ok t ∧ t ∈ schema.bases ∧ t.name = name
      ∧ ∀ field ∈ resource.fields.keys, (t.columnNames ++ t.listNames).count field = 1
  /-- a column that points at rows points at the key of their table, and has its type -/
  references : ∀ t ∈ schema.physical, ∀ c ∈ t.columns, ∀ key, c.references = some key →
    ∃ target ∈ schema.physical, key = ⟨target.name, target.primaryKey⟩
      ∧ ∃ k, target.keyColumn? = some k ∧ c.type = k.type
  /-- the link table of a list points at the owner in one column and at the target in another -/
  lists : ∀ t ∈ schema.resources, ∀ m ∈ t.lists, m.ownerColumn ≠ m.memberColumn
    ∧ ∃ link target, schema.linkTable m.linkTable = .ok link ∧ schema.table m.target = .ok target
      ∧ link.PointsAt m.ownerColumn t ∧ link.PointsAt m.memberColumn target
  aliases : ∀ name resource source, domain.get? name = some resource →
    resource.source = some source →
    ∃ t base, schema.table name = .ok t ∧ base ∈ schema.bases ∧ schema.table source = .ok base
      ∧ t.SharesRows base

namespace Schema

variable {settings : Settings} {domain : Domain} {schema : Schema}

/-- **Every domain that compiles is realized by its tables**, whatever its relations are and
whatever names the settings give. -/
theorem realizes_of_ofDomain (h : Schema.ofDomain settings domain = .ok schema) :
    schema.Realizes domain := by
  obtain ⟨parts, links, hassembly⟩ := exists_assembly h
  have hco : schema.Coherent := coherent_of_assembly hassembly
  constructor
  · exact resources_perm h
  · exact hco.names_nodup
  · intro t ht
    obtain ⟨k, hone, hk, hnull⟩ := hassembly.one_key ht
    exact ⟨k, hone, (Table.mem_of_column? hk).2, hk, hnull⟩
  · intro name resource hentry hown
    obtain ⟨part, hpart, hpartentry⟩ : ∃ part ∈ parts, part.entry = (name, resource) := by
      rw [← List.mem_map, hassembly.entries_eq, List.mem_filter]
      exact ⟨(NameMap.get?_eq_some_iff ..).1 hentry, by simpa using hown⟩
    have hbase := hassembly.mem_bases.2 ⟨part, hpart, rfl⟩
    obtain ⟨hname, hresource⟩ := hassembly.name_eq hpart
    rw [hpartentry] at hname hresource
    have htable := hassembly.table_eq hpart
    rw [hresource] at htable
    refine ⟨part.base links, htable, hbase, hname, fun field hfield => ?_⟩
    exact hassembly.field_once hpart (by rw [hpartentry]; exact hfield)
  · intro t ht c hc key hkey
    obtain ⟨-, -, target, htarget, k, rfl, hk, htype⟩ := hassembly.references ht hc hkey
    refine ⟨target, mem_physical_of_base htarget, ?_, k, hk, htype⟩
    rw [(Table.mem_of_column? hk).2]
  · intro t ht m hm
    obtain ⟨base, hbase, hshares⟩ := hco.shared t ht
    have hmbase : m ∈ base.lists := hshares.lists ▸ hm
    obtain ⟨link, target, ownerKey, targetKey, hserves⟩ := hco.lists base hbase m hmbase
    have hlink := (mem_of_linkTable hserves.link_eq).1
    obtain ⟨hnodup, -⟩ := hco.list_names base hbase m hmbase link hserves.link_eq
    have hne : m.ownerColumn ≠ m.memberColumn := by
      simp only [List.nodup_cons, List.mem_singleton] at hnodup
      exact hnodup.2.1
    -- a column of keys is found by its name, since no other column has the name
    have hpoints {column : String} {u : Table} {k : Column} (hk : u.keyColumn? = some k)
        (hc : linkColumn column u k ∈ link.columns) : link.PointsAt column u := by
      refine ⟨_, Table.column?_of_lone hc (hco.lone_link link hlink _ hc rfl), ?_⟩
      rw [← (Table.mem_of_column? hk).2]
      rfl
    refine ⟨hne, link, target, hserves.link_eq, hserves.target_eq, ?_, ?_⟩
    · have howner : link.PointsAt m.ownerColumn base :=
        hpoints hserves.ownerKey_eq (by rw [hserves.columns_eq]; simp)
      rw [Table.PointsAt, hshares.name, hshares.primaryKey]
      exact howner
    · exact hpoints hserves.targetKey_eq (by rw [hserves.columns_eq]; simp)
  · intro name resource source hentry hsource
    exact alias_shares h hentry hsource

/-- Veterans are persons, and are declared before them. Persons and ships point at each other,
persons at persons too, and the crew of a ship is listed by the alias. -/
def fleetDomain : Domain := .ofList [
  ("veteran", { datasource := some { source := some "person" } }),
  ("ship", {
    fields := .ofList [
      ("crew", { typeName := "list", target := some "veteran" }),
      ("captain", { typeName := "string", required := true, target := some "person" })]
    softDelete := true }),
  ("person", {
    fields := .ofList [
      ("code", { typeName := "string", primaryKey := true }),
      ("mentor", { typeName := "string", target := some "person" }),
      ("ship", { typeName := "integer", target := some "ship" }),
      ("friends", { typeName := "list", target := some "person" })] })]

def fleetSchema : Schema := .compiled {} fleetDomain

theorem fleet_realized :
    Schema.ofDomain {} fleetDomain = .ok fleetSchema ∧ fleetSchema.Realizes fleetDomain
      ∧ fleetSchema.resources.map Table.resource = ["ship", "person", "veteran"]
      ∧ fleetSchema.physical.map Table.name = ["ship", "person", "ship_person", "person_person"] :=
  have hcompiles : Schema.ofDomain {} fleetDomain = .ok fleetSchema := Schema.ofDomain_compiled rfl
  ⟨hcompiles, realizes_of_ofDomain hcompiles, by decide +kernel, by decide +kernel⟩

end Schema

end RecordStore
