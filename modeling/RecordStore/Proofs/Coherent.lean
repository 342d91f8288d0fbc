import RecordStore.Proofs.CompiledSchema

/-!
# Tables of any domain

What the tables of a compiled domain have in common even if two of the names that the settings give
are the same. Then a table may have several columns of one name: the stamps, the flag of deleted
rows and a generated key. A column is found by its name as the first of them, and the generated key
stands first.

* **`Schema.Coherent`** — what is true of the tables in any case.
* **`Catalog.coherent_of_ofDomain`** — the tables of every domain that compiles are coherent.
-/

namespace RecordStore

open Compile

/-- No other column of the table has the name of this one. -/
def Table.Owns (t : Table) (c : Column) : Prop := ∀ d ∈ t.columns, d.name = c.name → d = c

/-- A value that is a number only if the column takes it. -/
def Column.Plain (k : Column) (v : Value) : Prop :=
  v.double?.isSome = true → k.type.accepts v = true

structure Schema.Coherent (schema : Schema) : Prop where
  names_nodup : (schema.physical.map Table.name).Nodup
  shared : ∀ t ∈ schema.resources, ∃ base ∈ schema.bases, t.SharesRows base
  keyed : ∀ t ∈ schema.physical, ∃ k, t.keyColumn? = some k ∧ k.primaryKey = true
    ∧ k.references = none ∧ k.default? = none
  /-- numbers are generated for keys only -/
  numbered : ∀ t ∈ schema.physical, ∀ c ∈ t.columns, c.autoIncrement = true →
    t.keyColumn? = some c ∧ c.type = .integer
  stamped : ∀ base ∈ schema.bases, ∀ name ∈ Change.stampColumns, ∃ c ∈ base.columns,
    c.name = name ∧ c.references = none ∧ c.type = .datetime
  stamps_only : ∀ base ∈ schema.bases, ∀ c ∈ base.columns, c.defaultNow = true →
    c.name ∈ Change.stampColumns
  flagged : ∀ base ∈ schema.bases, ∀ name, base.deletedColumn = some name →
    ∃ c ∈ base.columns, c.name = name ∧ c.default? = some (.bool false)
  lone : ∀ base ∈ schema.bases, ∀ c ∈ base.columns, c.type = .float ∨ c.references.isSome = true →
    base.Owns c
  lone_link : ∀ link ∈ schema.links, ∀ c ∈ link.columns, c.references.isSome = true → link.Owns c
  /-- what is filled into the key, if it shares its name with another column, is a truth value -/
  key_default : ∀ base ∈ schema.bases, ∀ c ∈ base.columns, c.name = base.primaryKey →
    ∀ v, c.default? = some v → ∃ b, v = .bool b
  default_accepted : ∀ base ∈ schema.bases, ∀ c ∈ base.columns, ∀ v, c.default? = some v →
    c.type.accepts v = true
  /-- a key that has the name of a stamp is no date -/
  key_stamp : ∀ base ∈ schema.bases, ∀ k, base.keyColumn? = some k →
    base.primaryKey ∈ Change.stampColumns → k.type ≠ .datetime
  references : ∀ base ∈ schema.bases, ∀ c ∈ base.columns, ∀ key, c.references = some key →
    c.default? = none ∧ ∃ target ∈ schema.bases, ∃ k,
      key = ⟨target.name, k.name⟩ ∧ target.keyColumn? = some k ∧ c.type = k.type
  lists : ∀ owner ∈ schema.bases, ∀ m ∈ owner.lists, ∃ link target ownerKey targetKey,
    schema.Serves owner m link target ownerKey targetKey
  list_names : ∀ owner ∈ schema.bases, ∀ m ∈ owner.lists, ∀ link,
    schema.linkTable m.linkTable = .ok link →
      [link.primaryKey, m.ownerColumn, m.memberColumn].Nodup
        ∧ m.ownerColumn ∉ Change.stampColumns ∧ m.memberColumn ∉ Change.stampColumns
  fields_nodup : ∀ owner ∈ schema.bases, owner.listNames.Nodup
  /-- every list has a link table of its own -/
  links_nodup : ∀ owner ∈ schema.bases, (owner.lists.map ListField.linkTable).Nodup

namespace Compile

variable {settings : Settings} {domain : Domain} {tables : List Table}

/-- Of two items with one name the name stands twice in the list of names. -/
theorem eq_of_count_le_one {α : Type} {items : List α} {name : α → String} {x y : α}
    (hx : x ∈ items) (hy : y ∈ items) (hname : name y = name x)
    (h : (items.map name).count (name x) ≤ 1) : y = x := by
  induction items with
  | nil => cases hx
  | cons z rest ih =>
    rw [List.map_cons, List.count_cons] at h
    have hlater {w : α} (hw : w ∈ rest) (hwname : name w = name x) :
        0 < (rest.map name).count (name x) :=
      List.count_pos_iff.2 (List.mem_map.2 ⟨w, hw, hwname⟩)
    rcases List.mem_cons.1 hx with rfl | hxrest <;> rcases List.mem_cons.1 hy with rfl | hyrest
    · rfl
    · have hsome := hlater hyrest hname
      simp only [beq_self_eq_true, if_true] at h
      omega
    · have hsome := hlater hxrest rfl
      simp only [hname, beq_self_eq_true, if_true] at h
      omega
    · exact ih hxrest hyrest (by omega)

namespace Part

variable {part : Part}

/-- The column of a field shares its name with no other column. -/
theorem owns_of_field (h : part.Compiled settings domain tables) {c : Column}
    (hc : c ∈ part.related.columns) (hfield : c.name ∈ part.entry.2.fields.keys) :
    part.related.Owns c := by
  obtain ⟨own, hplain⟩ := ownTable_eq_ok h.plain_eq
  have hrefs := refers_of_relate h.references_eq
  have hnot : ∀ name ∈ setNames settings part.entry.2, name ∉ part.entry.2.fields.keys := by
    intro name hset hmem
    obtain ⟨entry, hentry, rfl⟩ := List.mem_map.1 hmem
    exact not_reserved hplain hentry (mem_reserved_of_setNames hset)
  -- the columns of that name are among those of fields, whose names differ
  have hcount : part.related.columnNames.count c.name ≤ 1 := by
    have hperm := columnNames_perm hplain
    rw [hperm.count_eq, List.count_append,
      List.count_eq_zero_of_not_mem fun hset => hnot _ hset hfield, Nat.zero_add]
    exact List.nodup_iff_count_le_one.1 (fieldNames_nodup hplain hrefs) c.name
  exact fun d hd hname => eq_of_count_le_one hc hd hname hcount

theorem mem_keys_of_entry {field : String} {spec : Field} {resource : Resource}
    (h : (field, spec) ∈ resource.fields.entries) : field ∈ resource.fields.keys :=
  List.mem_map.2 ⟨_, h, rfl⟩

/-- A generated key stands before all other columns, and a declared one shares its name with
none. -/
theorem key_first (h : part.Compiled settings domain tables) :
    ∃ k, part.plain.keyColumn? = some k ∧ k.primaryKey = true ∧ k.references = none
      ∧ k.default? = none ∧ (part.entry.2.keyFields = [] ∧ k = .identity settings.idField
        ∨ k.name ∈ part.entry.2.fields.keys) := by
  obtain ⟨own, hplain⟩ := ownTable_eq_ok h.plain_eq
  rw [Table.keyColumn?, Table.column?, hplain.primaryKey_eq]
  cases hkeys : part.entry.2.keyFields with
  | nil =>
    refine ⟨.identity settings.idField, ?_, rfl, rfl, rfl, .inl ⟨rfl, rfl⟩⟩
    rw [hplain.columns_eq, hkeys]
    simp [Column.identity]
  | cons field rest =>
    have hmem : field ∈ part.entry.2.keyFields := by rw [hkeys]; exact List.mem_cons_self
    obtain ⟨⟨field, spec⟩, hentry, rfl⟩ := List.mem_map.1 hmem
    obtain ⟨hentry, hprimary⟩ := List.mem_filter.1 hentry
    obtain ⟨column?, hown, hcolumn⟩ := exists_of_mem_left hplain.own_eq hentry
    obtain ⟨-, ⟨-, -, hnot⟩ | ⟨c, rfl, -, hdeclares⟩⟩ := ownColumn_eq_ok hcolumn
    · rw [hprimary] at hnot
      cases hnot
    · have hc : c ∈ part.plain.columns := by
        rw [hplain.columns_eq]
        simp [hown]
      have hkey : c.name ∈ part.entry.2.fields.keys := by
        rw [hdeclares.name_eq]
        exact mem_keys_of_entry hentry
      have hc_primary := hdeclares.primaryKey_eq.trans hprimary
      refine ⟨c, ?_, hc_primary, hdeclares.references_eq,
        hdeclares.key_default hc_primary, .inr hkey⟩
      have howns := owns_of_field h (List.mem_append_left _ hc) hkey
      have hfound := Table.column?_of_lone (t := part.plain) hc fun d hd =>
        howns d (List.mem_append_left _ hd)
      rw [hdeclares.name_eq] at hfound
      exact hfound

/-- The key of a compiled table is one of its columns, points at nothing and has no default: it is
the generated one or a declared field. -/
theorem key_related_first (h : part.Compiled settings domain tables) :
    ∃ k, part.related.keyColumn? = some k ∧ k.primaryKey = true ∧ k.references = none
      ∧ k.default? = none ∧ (part.entry.2.keyFields = [] ∧ k = .identity settings.idField
        ∨ k.name ∈ part.entry.2.fields.keys) := by
  obtain ⟨k, hk, hrest⟩ := key_first h
  refine ⟨k, ?_, hrest⟩
  show (part.plain.columns ++ _).find? (·.name == part.plain.primaryKey) = some k
  rw [List.find?_append]
  change part.plain.columns.find? (·.name == part.plain.primaryKey) = some k at hk
  rw [hk]
  rfl

/-- Every table has a column for each stamp. -/
theorem timestamp_mem (h : part.Compiled settings domain tables) {name : String}
    (hname : name ∈ Change.stampColumns) : Column.timestamp name ∈ part.related.columns := by
  obtain ⟨own, hplain⟩ := ownTable_eq_ok h.plain_eq
  refine List.mem_append_left _ ?_
  rw [hplain.columns_eq]
  simp only [Change.stampColumns, List.mem_cons, List.not_mem_nil, or_false] at hname
  rcases hname with rfl | rfl <;> simp

theorem name_of_identity (h : part.Compiled settings domain tables)
    (hkeys : part.entry.2.keyFields.isEmpty = true) :
    part.related.primaryKey = settings.idField := by
  obtain ⟨own, hplain⟩ := ownTable_eq_ok h.plain_eq
  show part.plain.primaryKey = _
  rw [hplain.primaryKey_eq, List.isEmpty_iff.1 hkeys]
  rfl

/-- A column that is numbered is the key. -/
theorem numbered_related (h : part.Compiled settings domain tables) {c : Column}
    (hc : c ∈ part.related.columns) (hnumber : c.autoIncrement = true) :
    part.related.keyColumn? = some c ∧ c.type = .integer := by
  obtain ⟨own, hplain⟩ := ownTable_eq_ok h.plain_eq
  cases origin_of_mem h hc with
  | identity hkeys =>
    obtain ⟨k, hk, -, -, -, ⟨-, rfl⟩ | hfield⟩ := key_related_first h
    · exact ⟨hk, rfl⟩
    · -- no field is a key, so no key is the column of a field
      obtain ⟨entry, hentry, hname⟩ := List.mem_map.1 hfield
      have hkname : k.name = settings.idField :=
        (Table.mem_of_column? hk).2.trans (name_of_identity h hkeys)
      refine absurd ?_ (not_reserved hplain hentry)
      rw [hname, hkname]
      exact mem_reserved_of_setNames (by simp [setNames, hkeys])
  | @field field spec _ hentry htarget hdeclares =>
    have hfield : c.name ∈ part.entry.2.fields.keys := by
      rw [hdeclares.name_eq]
      exact mem_keys_of_entry hentry
    refine ⟨?_, hdeclares.number_integer hnumber⟩
    have hprimary : spec.primaryKey = true :=
      hdeclares.primaryKey_eq.symm.trans (hdeclares.number_key hnumber)
    have hmem : field ∈ part.entry.2.keyFields :=
      List.mem_map.2 ⟨(field, spec), List.mem_filter.2 ⟨hentry, hprimary⟩, rfl⟩
    -- there is at most one key, so this field is it
    obtain ⟨other, hkeys⟩ : ∃ other, part.entry.2.keyFields = [other] :=
      List.length_eq_one_iff.1 (Nat.le_antisymm hplain.one_key (List.length_pos_of_mem hmem))
    have hkey : part.plain.primaryKey = c.name := by
      rw [hkeys] at hmem
      rw [hplain.primaryKey_eq, hdeclares.name_eq, hkeys, List.mem_singleton.1 hmem]
      rfl
    have hfound := Table.column?_of_lone hc (owns_of_field h hc hfield)
    rw [← hkey] at hfound
    exact hfound
  | stamp => cases hnumber
  | flag => cases hnumber
  | reference => cases hnumber

/-- Columns of doubles and columns that point at a resource are the only ones of their names. -/
theorem lone_related (h : part.Compiled settings domain tables) {c : Column}
    (hc : c ∈ part.related.columns) (hkind : c.type = .float ∨ c.references.isSome = true) :
    part.related.Owns c := by
  refine owns_of_field h hc ?_
  cases origin_of_mem h hc with
  | field hentry _ hdeclares =>
    rw [hdeclares.name_eq]
    exact mem_keys_of_entry hentry
  | reference hrelation => exact mem_keys_of_entry (mem_relations hrelation).1
  -- the columns that are set are no doubles and point nowhere
  | identity => rcases hkind with hkind | hkind <;> cases hkind
  | stamp => rcases hkind with hkind | hkind <;> cases hkind
  | flag => rcases hkind with hkind | hkind <;> cases hkind

/-- Only a truth value is the default of a column with the name of the key: that of the flag. -/
theorem key_default_related (h : part.Compiled settings domain tables) {c : Column}
    (hc : c ∈ part.related.columns) (hname : c.name = part.related.primaryKey) {v : Value}
    (hv : c.default? = some v) :
    ∃ b, v = .bool b := by
  cases origin_of_mem h hc with
  | field hentry _ hdeclares =>
    have hfield : c.name ∈ part.entry.2.fields.keys := by
      rw [hdeclares.name_eq]
      exact mem_keys_of_entry hentry
    -- the column of a field is the key itself, which has no default
    have hfound := Table.column?_of_lone hc (owns_of_field h hc hfield)
    rw [hname] at hfound
    obtain ⟨key, hkey, -, -, hdefault, -⟩ := key_related_first h
    obtain rfl := Option.some.inj (hfound.symm.trans hkey)
    rw [hdefault] at hv
    cases hv
  | flag => exact ⟨false, (Option.some.inj hv).symm⟩
  | identity => cases hv
  | stamp => cases hv
  | reference => cases hv

/-- A key with the name of a stamp is a generated one. -/
theorem key_stamp_related (h : part.Compiled settings domain tables) {k : Column}
    (hk : part.related.keyColumn? = some k)
    (hstamp : part.related.primaryKey ∈ Change.stampColumns) :
    k.type ≠ .datetime := by
  obtain ⟨own, hplain⟩ := ownTable_eq_ok h.plain_eq
  obtain ⟨key, hkey, -, -, -, ⟨-, rfl⟩ | hfield⟩ := key_related_first h
  · obtain rfl := Option.some.inj (hk.symm.trans hkey)
    simp [Column.identity]
  -- no field has the name of a stamp
  · obtain ⟨entry, hentry, hname⟩ := List.mem_map.1 hfield
    refine absurd ?_ (not_reserved hplain hentry)
    rw [hname, (Table.mem_of_column? hkey).2]
    refine mem_reserved_of_setNames ?_
    simp only [Change.stampColumns, List.mem_cons, List.not_mem_nil, or_false] at hstamp
    rcases hstamp with hstamp | hstamp <;> simp [setNames, hstamp]

theorem stamped_related (h : part.Compiled settings domain tables) {name : String}
    (hname : name ∈ Change.stampColumns) :
    ∃ c ∈ part.related.columns, c.name = name ∧ c.references = none ∧ c.type = .datetime :=
  ⟨.timestamp name, timestamp_mem h hname, rfl, rfl, rfl⟩

/-- Only stamps are filled with the time. -/
theorem stamp_related (h : part.Compiled settings domain tables) {c : Column}
    (hc : c ∈ part.related.columns) (hnow : c.defaultNow = true) :
    c.name ∈ Change.stampColumns := by
  cases origin_of_mem h hc with
  | stamp hname => exact hname
  | field _ _ hdeclares =>
    rw [hdeclares.defaultNow_eq] at hnow
    cases hnow
  | identity => cases hnow
  | flag => cases hnow
  | reference => cases hnow

/-- The flag that a table is told to have is one of its columns, and is not raised by default. -/
theorem flagged_related (h : part.Compiled settings domain tables) {name : String}
    (hname : part.related.deletedColumn = some name) :
    ∃ c ∈ part.related.columns, c.name = name ∧ c.default? = some (.bool false) := by
  obtain ⟨own, hplain⟩ := ownTable_eq_ok h.plain_eq
  have hdeleted : part.plain.deletedColumn = some name := hname
  rw [hplain.deletedColumn_eq] at hdeleted
  split at hdeleted
  · rename_i hsoft
    obtain rfl := Option.some.inj hdeleted
    refine ⟨.deletedFlag settings.deletedField, List.mem_append_left _ ?_, rfl, rfl⟩
    rw [hplain.columns_eq]
    simp [hsoft]
  · cases hdeleted

end Part

namespace Links

variable {need : LinkNeed} {link owner target : Table} {m : ListField} {ownerKey targetKey : Column}

/-- The only numbered column of a link table is its key. -/
theorem eq_identity (h : Links settings tables need link m owner target ownerKey targetKey)
    {c : Column} (hc : c ∈ link.columns) (hnumber : c.autoIncrement = true) :
    c = .identity link.primaryKey := by
  rw [h.columns_eq] at hc
  simp only [List.mem_cons, List.not_mem_nil, or_false] at hc
  rcases hc with rfl | rfl | rfl | rfl | rfl
  · rfl
  all_goals cases hnumber

end Links

namespace Assembly

variable {schema : Schema} {parts : List Part} {links : List BuiltLink}

/-- A link table is one that was made for a need. -/
theorem exists_links (h : Assembly settings domain schema parts links) {link : Table}
    (hlink : link ∈ schema.links) : ∃ need m owner target ownerKey targetKey,
      Links settings (parts.map Part.related) need link m owner target ownerKey targetKey := by
  rw [h.linkTables_eq] at hlink
  obtain ⟨built, hbuilt, rfl⟩ := List.mem_map.1 hlink
  exact ⟨built.need, built.list, tableFor_eq_ok (h.allLinks.1.links built hbuilt)⟩

theorem keyed (h : Assembly settings domain schema parts links) {t : Table}
    (ht : t ∈ schema.physical) :
    ∃ k, t.keyColumn? = some k ∧ k.primaryKey = true ∧ k.references = none ∧ k.default? = none := by
  rcases List.mem_append.1 ht with hbase | hlink
  · obtain ⟨part, hpart, rfl⟩ := h.mem_bases.1 hbase
    obtain ⟨k, hk, hprimary, href, hdefault, -⟩ := Part.key_related_first (h.compiled part hpart)
    exact ⟨k, hk, hprimary, href, hdefault⟩
  · obtain ⟨_, _, _, _, _, _, hlinks⟩ := h.exists_links hlink
    exact ⟨_, Table.keyColumn?_of_columns hlinks.columns_eq, rfl, rfl, rfl⟩

theorem numbered (h : Assembly settings domain schema parts links) {t : Table}
    (ht : t ∈ schema.physical) {c : Column} (hc : c ∈ t.columns)
    (hnumber : c.autoIncrement = true) :
    t.keyColumn? = some c ∧ c.type = .integer := by
  rcases List.mem_append.1 ht with hbase | hlink
  · obtain ⟨part, hpart, rfl⟩ := h.mem_bases.1 hbase
    exact Part.numbered_related (h.compiled part hpart) hc hnumber
  · obtain ⟨_, _, _, _, _, _, hlinks⟩ := h.exists_links hlink
    rw [hlinks.eq_identity hc hnumber]
    exact ⟨Table.keyColumn?_of_columns hlinks.columns_eq, rfl⟩

/-- The columns that a link names rows by are none of the others. -/
theorem built_names (h : Assembly settings domain schema parts links) {built : BuiltLink}
    (hbuilt : built ∈ links) :
    [built.table.primaryKey, built.list.ownerColumn, built.list.memberColumn].Nodup
      ∧ built.list.ownerColumn ∉ Change.stampColumns
      ∧ built.list.memberColumn ∉ Change.stampColumns := by
  obtain ⟨_, _, _, _, hlinks⟩ := tableFor_eq_ok (h.allLinks.1.links built hbuilt)
  obtain ⟨hownername, htarget, hfield⟩ := h.need_names hbuilt
  obtain ⟨hown, name, hname, hmember, hne⟩ :=
    @linkColumnNames_eq settings built.need htarget hfield
  have hownercolumn : built.list.ownerColumn = _ := (congrArg Prod.fst hlinks.names_eq).trans hown
  have hmembercolumn : built.list.memberColumn = _ :=
    (congrArg Prod.snd hlinks.names_eq).trans hmember
  rw [hlinks.primaryKey_eq, hownercolumn, hmembercolumn]
  refine ⟨?_, keyName_not_stamp hownername, keyName_not_stamp hname⟩
  have hapart : keyName settings built.need.owner ≠ keyName settings name :=
    fun heq => hne (keyName_inj heq).symm
  simp [hapart, (keyName_ne_idField _).symm]

/-- In a link table the key, the owner and the member are three columns, and neither of the last two
is a stamp. -/
theorem list_names (h : Assembly settings domain schema parts links) {owner : Table}
    (howner : owner ∈ schema.bases) {m : ListField} (hm : m ∈ owner.lists) {link : Table}
    (hlink : schema.linkTable m.linkTable = .ok link) :
    [link.primaryKey, m.ownerColumn, m.memberColumn].Nodup
      ∧ m.ownerColumn ∉ Change.stampColumns ∧ m.memberColumn ∉ Change.stampColumns := by
  obtain ⟨part, hpart, rfl⟩ := h.mem_bases.1 howner
  obtain ⟨built, hbuilt, rfl⟩ := List.mem_map.1 hm
  have hbuilt := List.mem_of_mem_filter hbuilt
  obtain ⟨_, _, _, _, hlinks⟩ := tableFor_eq_ok (h.allLinks.1.links built hbuilt)
  rw [hlinks.link_eq] at hlink
  obtain rfl := Except.ok.inj ((h.linkTable_eq hbuilt).symm.trans hlink)
  exact h.built_names hbuilt

/-- A column that points at rows shares its name with no other column of its link table. -/
theorem lone_link (h : Assembly settings domain schema parts links) {link : Table}
    (hlink : link ∈ schema.links) {c : Column} (hc : c ∈ link.columns)
    (hpoints : c.references.isSome = true) : link.Owns c := by
  rw [h.linkTables_eq] at hlink
  obtain ⟨built, hbuilt, rfl⟩ := List.mem_map.1 hlink
  obtain ⟨_, _, _, _, hlinks⟩ := tableFor_eq_ok (h.allLinks.1.links built hbuilt)
  obtain ⟨hnodup, hownerstamp, hmemberstamp⟩ := h.built_names hbuilt
  simp only [List.nodup_cons, List.mem_cons, List.not_mem_nil, or_false, not_or,
    Change.stampColumns]
    at hnodup hownerstamp hmemberstamp
  have hnames : built.table.columns.map Column.name
    = [built.table.primaryKey, built.list.ownerColumn,
      built.list.memberColumn, createdColumn, updatedColumn] := by
    rw [hlinks.columns_eq]
    rfl
  have hcount : (built.table.columns.map Column.name).count c.name ≤ 1 := by
    rw [hlinks.columns_eq] at hc
    simp only [List.mem_cons, List.not_mem_nil, or_false] at hc
    rw [hnames]
    rcases hc with rfl | rfl | rfl | rfl | rfl
    · cases hpoints
    · simp [linkColumn, hnodup, Ne.symm hownerstamp.1, Ne.symm hownerstamp.2,
        Ne.symm hnodup.2.1]
    · simp [linkColumn, hnodup, Ne.symm hmemberstamp.1, Ne.symm hmemberstamp.2]
    · cases hpoints
    · cases hpoints
  exact fun d hd hname => eq_of_count_le_one hc hd hname hcount

/-- Each list of a resource has a link table of its own. -/
theorem links_nodup (h : Assembly settings domain schema parts links) (part : Part) :
    ((part.base links).lists.map ListField.linkTable).Nodup := by
  have hnames : ((part.base links).lists.map ListField.linkTable)
      = (links.filter (·.need.owner == part.related.resource)).map (·.table.name) := by
    show List.map _ (List.map _ _) = _
    rw [List.map_map]
    refine List.map_congr_left fun built hbuilt => ?_
    obtain ⟨_, _, _, _, hlinks⟩ :=
      tableFor_eq_ok (h.allLinks.1.links built (List.mem_of_mem_filter hbuilt))
    exact hlinks.link_eq
  rw [hnames]
  exact h.allLinks.1.names_nodup.of_append_right.sublist (List.filter_sublist.map _)

end Assembly

/-- What the parts of a schema are put together from makes the schema coherent. -/
theorem coherent_of_assembly {schema : Schema} {parts : List Part} {links : List BuiltLink}
    (h : Assembly settings domain schema parts links) : schema.Coherent where
  names_nodup := h.physical_nodup
  shared t ht := by
    rcases List.mem_append.1 ht with hbase | halias
    · exact ⟨t, hbase, .refl t⟩
    · exact h.aliases t halias
  keyed _ ht := h.keyed ht
  numbered _ ht _ hc hnumber := h.numbered ht hc hnumber
  stamped base hbase name hname := by
    obtain ⟨part, hpart, rfl⟩ := h.mem_bases.1 hbase
    exact Part.stamped_related (h.compiled part hpart) hname
  stamps_only base hbase c hc hnow := by
    obtain ⟨part, hpart, rfl⟩ := h.mem_bases.1 hbase
    exact Part.stamp_related (h.compiled part hpart) hc hnow
  flagged base hbase name hname := by
    obtain ⟨part, hpart, rfl⟩ := h.mem_bases.1 hbase
    exact Part.flagged_related (h.compiled part hpart) hname
  lone base hbase c hc hkind := by
    obtain ⟨part, hpart, rfl⟩ := h.mem_bases.1 hbase
    exact Part.lone_related (h.compiled part hpart) hc hkind
  lone_link _ hlink _ hc hpoints := h.lone_link hlink hc hpoints
  key_default base hbase c hc hname v hv := by
    obtain ⟨part, hpart, rfl⟩ := h.mem_bases.1 hbase
    exact Part.key_default_related (h.compiled part hpart) hc hname hv
  default_accepted base hbase c hc v hv := by
    obtain ⟨part, hpart, rfl⟩ := h.mem_bases.1 hbase
    exact Part.default_accepted_related (h.compiled part hpart) hc hv
  key_stamp base hbase k hk hstamp := by
    obtain ⟨part, hpart, rfl⟩ := h.mem_bases.1 hbase
    exact Part.key_stamp_related (h.compiled part hpart) hk hstamp
  references base hbase c hc key hkey := by
    obtain ⟨hdefault, -, hpoints⟩ := h.references (Schema.mem_physical_of_base hbase) hc hkey
    exact ⟨hdefault, hpoints⟩
  lists _ howner _ hm := h.lists howner hm
  list_names _ howner _ hm _ hlink := h.list_names howner hm hlink
  fields_nodup owner howner := by
    obtain ⟨part, -, rfl⟩ := h.mem_bases.1 howner
    exact h.fields_nodup part
  links_nodup owner howner := by
    obtain ⟨part, -, rfl⟩ := h.mem_bases.1 howner
    exact h.links_nodup part

end Compile

theorem Catalog.settings_of_ofDomain {settings : Settings} {domain : Domain} {catalog : Catalog}
    (h : Catalog.ofDomain settings domain = .ok catalog) : catalog.settings = settings := by
  obtain ⟨schema, -, rfl⟩ := map_eq_ok_iff.1 h
  rfl

/-- **Every domain that compiles has coherent tables**, whatever the names that the settings
give. -/
theorem Catalog.coherent_of_ofDomain {settings : Settings} {domain : Domain} {catalog : Catalog}
    (h : Catalog.ofDomain settings domain = .ok catalog) : catalog.schema.Coherent := by
  obtain ⟨schema, hschema, rfl⟩ := map_eq_ok_iff.1 h
  obtain ⟨parts, links, hassembly⟩ := exists_assembly hschema
  exact coherent_of_assembly hassembly

/-- Lists are no columns. -/
theorem Schema.Coherent.lists_apart {schema : Schema} (hco : schema.Coherent) {table base : Table}
    (hbase : base ∈ schema.bases) (hshares : table.SharesRows base) :
    ∀ m ∈ table.lists, table.hasColumn m.field = false := by
  intro m hm
  obtain ⟨_, _, _, _, hserves⟩ := hco.lists base hbase m (hshares.lists ▸ hm)
  exact hserves.list_apart hshares

theorem Schema.Coherent.listNames_nodup {schema : Schema} (hco : schema.Coherent)
    {table base : Table} (hbase : base ∈ schema.bases) (hshares : table.SharesRows base) :
    table.listNames.Nodup := by
  rw [Table.listNames, hshares.lists]
  exact hco.fields_nodup base hbase

/-- No list has the name of a column. -/
theorem Schema.Coherent.field_not_column {schema : Schema} (hco : schema.Coherent) {base : Table}
    (hbase : base ∈ schema.bases) {m : ListField} (hm : m ∈ base.lists) :
    m.field ∉ base.columnNames := by
  rw [← Table.hasColumn_iff, hco.lists_apart hbase (.refl base) m hm]
  simp

theorem Schema.Coherent.listField?_of_column {schema : Schema} (hco : schema.Coherent)
    {table base : Table} (hbase : base ∈ schema.bases) (hshares : table.SharesRows base)
    {name : String} (h : name ∈ base.columnNames) : table.listField? name = none := by
  cases hm : table.listField? name with
  | none => rfl
  | some m =>
    obtain ⟨hmem, rfl⟩ := Table.mem_of_listField? hm
    exact absurd h (hco.field_not_column hbase (hshares.lists ▸ hmem))

/-- The type in which a column that points at rows is compared is its own. -/
theorem Schema.Coherent.typeIn_link {schema : Schema} (hco : schema.Coherent) {link : Table}
    (hlink : link ∈ schema.links)
    {c : Column} (hc : c ∈ link.columns) (hpoints : c.references.isSome = true) :
    typeIn link.columns c.name = c.type := by
  have hfound := Table.column?_of_lone hc (hco.lone_link link hlink c hc hpoints)
  rw [typeIn, ← Table.column?, hfound]
  rfl

end RecordStore
