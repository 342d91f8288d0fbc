import RecordStore.Proofs.CompiledResource

/-!
# Compiled link tables

A list that needs a link table gets one of its own, whose columns have different names: those with
the keys are named after resources and end in the name of a key column, so they are neither the key
nor a stamp.

* **`linkNames_nodup_iff`** — the columns of a link table have different names, unless its key has
  the name of a stamp.
* **`tableFor_eq_ok`** — what a link table and the list that it serves are.
* **`linkTables_eq_ok`**, **`linkTables_of_allLinks`** — every list gets its table, and no table has
  the name of another.
-/

namespace RecordStore

namespace Compile

/-! ## Names of link columns -/

/-- The name of a column that holds keys of what is named. -/
def keyName (settings : Settings) (name : String) : String := name ++ "_" ++ settings.idField

variable {settings : Settings}

theorem toList_keyName (name : String) :
    (keyName settings name).toList = name.toList ++ '_' :: settings.idField.toList := by
  simp [keyName, String.toList_append]

theorem keyName_inj {name other : String} (h : keyName settings name = keyName settings other) :
    name = other := by
  have hlist := congrArg String.toList h
  rw [toList_keyName, toList_keyName] at hlist
  exact String.toList_inj.1 (List.append_cancel_right hlist)

theorem keyName_ne_idField (name : String) : keyName settings name ≠ settings.idField := by
  intro h
  -- a key name is longer by the underscore, at least
  have hlength := congrArg (List.length ∘ String.toList) h
  simp only [Function.comp_apply, toList_keyName, List.length_append, List.length_cons] at hlength
  omega

/-- A stamp has an underscore at its beginning only. -/
theorem keyName_not_stamp {name : String} (hname : name ≠ "") :
    keyName settings name ∉ Change.stampColumns := by
  -- the name before the underscore is not empty, so it takes the underscore of the stamp
  have hapart (stamp : List Char) (hstamp : '_' ∉ stamp) :
      name.toList ++ '_' :: settings.idField.toList ≠ '_' :: stamp := by
    intro heq
    cases hlist : name.toList with
    | nil => exact hname (String.toList_inj.1 hlist)
    | cons c rest =>
      rw [hlist, List.cons_append, List.cons.injEq] at heq
      exact hstamp (heq.2 ▸ List.mem_append_right rest List.mem_cons_self)
  intro h
  simp only [Change.stampColumns, List.mem_cons, List.not_mem_nil, or_false] at h
  rcases h with h | h
  · have hlist := congrArg String.toList h
    rw [toList_keyName] at hlist
    exact hapart "created".toList (by decide) hlist
  · have hlist := congrArg String.toList h
    rw [toList_keyName] at hlist
    exact hapart "updated".toList (by decide) hlist

/-- The column of the member is named after something, and not as the column of the owner. -/
theorem linkColumnNames_eq (need : LinkNeed) (htarget : need.target ≠ "")
    (hfield : need.field ≠ "") :
    (linkColumnNames settings need).1 = keyName settings need.owner
      ∧ ∃ name ≠ "", (linkColumnNames settings need).2 = keyName settings name
        ∧ name ≠ need.owner := by
  refine ⟨rfl, ?_⟩
  show ∃ name ≠ "", (if (if keyName settings need.target = keyName settings need.owner
      then keyName settings need.field else keyName settings need.target)
        = keyName settings need.owner
      then keyName settings (need.field ++ "_target")
      else if keyName settings need.target = keyName settings need.owner
      then keyName settings need.field else keyName settings need.target) = _ ∧ _
  -- the target is tried first, then the field, then the field with a suffix
  by_cases hsame : keyName settings need.target = keyName settings need.owner
  · rw [if_pos hsame]
    by_cases hagain : keyName settings need.field = keyName settings need.owner
    · rw [if_pos hagain]
      refine ⟨need.field ++ "_target", by simp [hfield], rfl, fun heq => ?_⟩
      -- the field is the owner here, and its name with the suffix is longer
      have hlength := congrArg String.length (keyName_inj hagain ▸ heq)
      simp [String.length_append] at hlength
    · rw [if_neg hagain]
      exact ⟨need.field, hfield, rfl, fun heq => hagain (heq ▸ rfl)⟩
  · rw [if_neg hsame, if_neg hsame]
    exact ⟨need.target, htarget, rfl, fun heq => hsame (heq ▸ rfl)⟩

/-- Names of link columns clash only if the key has the name of a stamp. -/
theorem linkNames_nodup_iff (need : LinkNeed) (howner : need.owner ≠ "")
    (htarget : need.target ≠ "") (hfield : need.field ≠ "") :
    [settings.idField, (linkColumnNames settings need).1, (linkColumnNames settings need).2,
      createdColumn, updatedColumn].Nodup ↔ settings.idField ∉ Change.stampColumns := by
  obtain ⟨hown, name, hname, hmember, hne⟩ := @linkColumnNames_eq settings need htarget hfield
  rw [hown, hmember]
  have hstamps : createdColumn ≠ updatedColumn := by decide
  have hapart : keyName settings need.owner ≠ keyName settings name :=
    fun heq => hne (keyName_inj heq).symm
  have hownstamp : keyName settings need.owner ∉ Change.stampColumns := keyName_not_stamp howner
  have hnamestamp : keyName settings name ∉ Change.stampColumns := keyName_not_stamp hname
  simp only [Change.stampColumns, List.mem_cons, List.not_mem_nil, or_false, not_or]
    at hownstamp hnamestamp
  simp [Change.stampColumns, hstamps, hapart, hownstamp, hnamestamp, (keyName_ne_idField _).symm]

/-! ## Link tables -/

/-- What is known of the link table for a need, and of the list that it serves. -/
structure Links (settings : Settings) (tables : List Table) (need : LinkNeed) (link : Table)
    (m : ListField) (owner target : Table) (ownerKey targetKey : Column) : Prop where
  owner_mem : owner ∈ tables
  target_mem : target ∈ tables
  owner_eq : owner.resource = need.owner
  target_eq : target.resource = need.target
  ownerKey_eq : owner.keyColumn? = some ownerKey
  targetKey_eq : target.keyColumn? = some targetKey
  field_eq : m.field = need.field
  listTarget_eq : m.target = need.target
  link_eq : m.linkTable = link.name
  names_eq : (m.ownerColumn, m.memberColumn) = linkColumnNames settings need
  primaryKey_eq : link.primaryKey = settings.idField
  columns_eq : link.columns = [.identity link.primaryKey, linkColumn m.ownerColumn owner ownerKey,
    linkColumn m.memberColumn target targetKey, .timestamp createdColumn, .timestamp updatedColumn]
  groups_eq : link.uniqueGroups = [[m.ownerColumn, m.memberColumn]]
  lists_eq : link.lists = []
  flag_eq : link.deletedColumn = none

/-- A link table that is made for a list links the keys of its owner and of its target. -/
theorem tableFor_eq_ok {tables : List Table} {need : LinkNeed} {link : Table} {m : ListField}
    (h : tableFor settings tables need = .ok (link, m)) :
    ∃ owner target ownerKey targetKey,
      Links settings tables need link m owner target ownerKey targetKey := by
  unfold tableFor at h
  dsimp only at h
  obtain ⟨_, -, h⟩ := bind_eq_ok_iff.1 h
  split at h
  · rename_i owner target howner htarget
    obtain ⟨ownerKey, hownerKey, h⟩ := bind_eq_ok_iff.1 h
    obtain ⟨targetKey, htargetKey, h⟩ := bind_eq_ok_iff.1 h
    obtain ⟨rfl, rfl⟩ := Prod.mk.inj (Except.ok.inj h)
    exact ⟨owner, target, ownerKey, targetKey, {
      owner_mem := List.mem_of_find?_eq_some howner
      target_mem := List.mem_of_find?_eq_some htarget
      owner_eq := by simpa using List.find?_some howner
      target_eq := by simpa using List.find?_some htarget
      ownerKey_eq := keyOf_eq_ok_iff.1 hownerKey
      targetKey_eq := keyOf_eq_ok_iff.1 htargetKey
      field_eq := rfl
      listTarget_eq := rfl
      link_eq := rfl
      names_eq := rfl
      primaryKey_eq := rfl
      columns_eq := rfl
      groups_eq := rfl
      lists_eq := rfl
      flag_eq := rfl }⟩
  · cases h

namespace Links

variable {tables : List Table} {need : LinkNeed} {link owner target : Table} {m : ListField}
  {ownerKey targetKey : Column}

theorem columnNames_nodup_iff
    (h : Links settings tables need link m owner target ownerKey targetKey)
    (howner : need.owner ≠ "") (htarget : need.target ≠ "") (hfield : need.field ≠ "") :
    link.columnNames.Nodup ↔ settings.idField ∉ Change.stampColumns := by
  rw [← @linkNames_nodup_iff settings need howner htarget hfield, ← h.names_eq, ← h.primaryKey_eq,
    Table.columnNames, h.columns_eq]
  rfl

/-- The columns of a link table; those that name rows are of one make. -/
theorem column_cases (h : Links settings tables need link m owner target ownerKey targetKey)
    {c : Column} (hc : c ∈ link.columns) :
    c = .identity link.primaryKey ∨ (∃ name table key, c = linkColumn name table key)
      ∨ c = .timestamp createdColumn ∨ c = .timestamp updatedColumn := by
  rw [h.columns_eq] at hc
  simp only [List.mem_cons, List.not_mem_nil, or_false] at hc
  rcases hc with rfl | rfl | rfl | hc
  · exact .inl rfl
  · exact .inr (.inl ⟨_, _, _, rfl⟩)
  · exact .inr (.inl ⟨_, _, _, rfl⟩)
  · exact .inr (.inr hc)

/-- No column of a link table has a default value. -/
theorem default_eq_none (h : Links settings tables need link m owner target ownerKey targetKey)
    {c : Column} (hc : c ∈ link.columns) : c.default? = none := by
  rcases h.column_cases hc with rfl | ⟨_, _, _, rfl⟩ | rfl | rfl <;> rfl

/-- The names of a link table are made of those of two resources and their keys, so they are
different. -/
theorem wellFormed (h : Links settings tables need link m owner target ownerKey targetKey)
    (hnames : settings.NamesApart) (howner : need.owner ≠ "") (htarget : need.target ≠ "")
    (hfield : need.field ≠ "") : link.WellFormed := by
  have hnodup : link.columnNames.Nodup :=
    (h.columnNames_nodup_iff howner htarget hfield).2 hnames.key_not_stamp
  constructor
  · exact hnodup
  · refine ⟨.identity link.primaryKey, ?_, rfl, rfl, rfl⟩
    exact find?_eq_of_nodup hnodup (by rw [h.columns_eq]; exact List.mem_cons_self)
  · intro c hc v hv
    exact absurd ((h.default_eq_none hc).symm.trans hv) nofun
  · intro c hc hstamp
    rcases h.column_cases hc with rfl | ⟨_, _, _, rfl⟩ | rfl | rfl
    · cases hstamp
    · cases hstamp
    · rfl
    · rfl
  · intro c hc hnumber
    rcases h.column_cases hc with rfl | ⟨_, _, _, rfl⟩ | rfl | rfl
    · rfl
    · cases hnumber
    · cases hnumber
    · cases hnumber
  · intro name hname
    refine ⟨.timestamp name, ?_, rfl, rfl⟩
    rw [h.columns_eq]
    simp only [Change.stampColumns, List.mem_cons, List.not_mem_nil, or_false] at hname
    rcases hname with rfl | rfl <;> simp
  · intro name hname
    rw [h.flag_eq] at hname
    cases hname

/-- The references of a link table are to the keys of the owner and of the target. -/
theorem references (h : Links settings tables need link m owner target ownerKey targetKey)
    {c : Column} (hc : c ∈ link.columns) {key : ForeignKey} (hkey : c.references = some key) :
    c.default? = none ∧ c.defaultNow = false ∧ ∃ t ∈ tables, ∃ k,
      key = ⟨t.name, k.name⟩ ∧ t.keyColumn? = some k ∧ c.type = k.type := by
  rw [h.columns_eq] at hc
  simp only [List.mem_cons, List.not_mem_nil, or_false] at hc
  rcases hc with rfl | rfl | rfl | rfl | rfl
  · cases hkey
  · exact ⟨rfl, rfl, owner, h.owner_mem, ownerKey, (Option.some.inj hkey).symm, h.ownerKey_eq, rfl⟩
  · exact ⟨rfl, rfl, target, h.target_mem, targetKey, (Option.some.inj hkey).symm,
      h.targetKey_eq, rfl⟩
  · cases hkey
  · cases hkey

end Links

/-! ## All link tables -/

/-- The link tables that were built serve their needs, under names that no other table has. -/
structure AllLinks (settings : Settings) (tables : List Table) (built : List BuiltLink) : Prop where
  links : ∀ link ∈ built, tableFor settings tables link.need = .ok (link.table, link.list)
  names_nodup : (tables.map Table.name ++ built.map (·.table.name)).Nodup

/-- One more list that needs a link table gets one, behind those that are there. -/
theorem AllLinks.add {tables : List Table} {built after : List BuiltLink} {need : LinkNeed}
    (hbuilt : AllLinks settings tables built) (h : addLink settings tables built need = .ok after) :
    AllLinks settings tables after
      ∧ after.map BuiltLink.need = built.map BuiltLink.need ++ [need] := by
  obtain ⟨⟨table, list⟩, htable, h⟩ := bind_eq_ok_iff.1 h
  dsimp only at h
  split at h
  · cases h
  · rename_i hfree
    obtain rfl := Except.ok.inj h
    simp only [Bool.or_eq_true, not_or, List.contains_iff_mem] at hfree
    refine ⟨⟨?_, ?_⟩, by simp⟩
    · intro link hlink
      rcases List.mem_append.1 hlink with hlink | hlink
      · exact hbuilt.links link hlink
      · rw [List.mem_singleton.1 hlink]
        exact htable
    · rw [List.map_append, ← List.append_assoc, List.nodup_append]
      refine ⟨hbuilt.names_nodup, List.nodup_singleton _, ?_⟩
      -- the new name was looked for among the tables and the links before
      intro name hname other hother heq
      have hother : other = table.name := by simpa using hother
      rw [heq, hother, List.mem_append] at hname
      exact hname.elim hfree.1 hfree.2

/-- Every list that needs a link table gets one, in the order of the lists. -/
theorem linkTables_eq_ok {tables : List Table} {needs : List LinkNeed} {built : List BuiltLink}
    (hnames : (tables.map Table.name).Nodup) (h : linkTables settings tables needs = .ok built) :
    AllLinks settings tables built ∧ built.map BuiltLink.need = needs := by
  have hfold (needs : List LinkNeed) (start : List BuiltLink)
      (hstart : AllLinks settings tables start)
      (h : needs.foldlM (addLink settings tables) start = .ok built) :
      AllLinks settings tables built
        ∧ built.map BuiltLink.need = start.map BuiltLink.need ++ needs := by
    -- on the needs, with the links built so far as the start
    induction needs generalizing start with
    | nil =>
      obtain rfl := Except.ok.inj h
      exact ⟨hstart, (List.append_nil _).symm⟩
    | cons need rest ih =>
      rw [List.foldlM_cons] at h
      obtain ⟨mid, hmid, h⟩ := bind_eq_ok_iff.1 h
      obtain ⟨hall, hneeds⟩ := hstart.add hmid
      obtain ⟨hall, hrest⟩ := ih mid hall h
      exact ⟨hall, by rw [hrest, hneeds, List.append_assoc, List.singleton_append]⟩
  exact hfold needs [] ⟨by simp, by simpa using hnames⟩ h

/-- Link tables that serve their needs under names of their own are those that are built for the
needs. -/
theorem linkTables_of_allLinks {tables : List Table} {built : List BuiltLink}
    (h : AllLinks settings tables built) :
    linkTables settings tables (built.map BuiltLink.need) = .ok built := by
  have hfold (rest start : List BuiltLink) (h : AllLinks settings tables (start ++ rest)) :
      (rest.map BuiltLink.need).foldlM (addLink settings tables) start = .ok (start ++ rest) := by
    -- on the links that are still to be built
    induction rest generalizing start with
    | nil => exact congrArg Except.ok (List.append_nil start).symm
    | cons link rest ih =>
      have hnames := h.names_nodup
      rw [List.map_append, List.map_cons, ← List.append_assoc, List.nodup_append] at hnames
      have hfree : link.table.name ∉ tables.map Table.name ++ start.map (·.table.name) :=
        fun hmem => hnames.2.2 _ hmem _ List.mem_cons_self rfl
      have hadd : addLink settings tables start link.need = .ok (start ++ [link]) := by
        refine bind_eq_ok_iff.2 ⟨_, h.links link (List.mem_append_right _ List.mem_cons_self), ?_⟩
        rw [List.mem_append, not_or] at hfree
        dsimp only
        rw [if_neg (by simpa using hfree)]
        rfl
      rw [List.append_cons] at h ⊢
      rw [List.map_cons, List.foldlM_cons]
      exact bind_eq_ok_iff.2 ⟨_, hadd, ih _ h⟩
  exact hfold built [] h

end Compile

end RecordStore
