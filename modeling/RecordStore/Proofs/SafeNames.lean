import RecordStore.Proofs.ColumnNames

/-!
# Names that are identifiers

The names of tables and columns go into the text of statements, so they have to be identifiers.
Resources and fields are checked with the domain, the names that the settings give where a table
takes a column of that name, and the names of links where they are put together. One check is
missing: the key of a link table has the name that the settings give for generated keys, and a link
table does not check it. The names of the columns beside it end in it, so it is made of the
characters of identifiers; but it may begin with a digit or be empty.

* **`Assembly.base_identifiers`**, **`Assembly.link_identifiers`** — the names of tables and
  columns.
* **`Catalog.identifiers_iff`** — when all of them are identifiers.
* **`Catalog.key_of_link_begins_with_digit`** — a domain that compiles to a link table whose key is
  none.
-/

namespace RecordStore

open Compile

namespace Text

variable {name : String}

theorem isIdentifier_iff : isIdentifier name = true ↔ name.utf8ByteSize ≤ maxIdentifierBytes
    ∧ ∃ first rest, name.toList = first :: rest ∧ startsIdentifier first = true
      ∧ ∀ c ∈ rest, continuesIdentifier c = true := by
  unfold isIdentifier hasIdentifierShape
  cases name.toList <;> simp

/-- Whether a name can be the end of an identifier: it may begin with a digit, and may be empty. -/
def endsIdentifier (name : String) : Bool :=
  decide (name.utf8ByteSize < maxIdentifierBytes) && name.toList.all continuesIdentifier

/-- What follows the first underscore that is put after a name ends the identifier. -/
theorem endsIdentifier_of_append {before : String}
    (h : isIdentifier (before ++ "_" ++ name) = true) :
    endsIdentifier name = true := by
  obtain ⟨hsize, first, rest, hlist, -, hrest⟩ := isIdentifier_iff.1 h
  rw [String.utf8ByteSize_append, String.utf8ByteSize_append] at hsize
  have hunderscore : "_".utf8ByteSize = 1 := by decide
  -- the first character is one before the name, at least the underscore
  have hsuffix : ∀ c ∈ name.toList, c ∈ rest := by
    rw [String.toList_append, String.toList_append] at hlist
    intro c hc
    cases hbefore : before.toList with
    | nil =>
      rw [hbefore] at hlist
      obtain ⟨-, rfl⟩ := List.cons.inj hlist
      exact hc
    | cons d before =>
      rw [hbefore] at hlist
      obtain ⟨-, rfl⟩ := List.cons.inj hlist
      exact List.mem_append_right _ hc
  rw [endsIdentifier, Bool.and_eq_true, decide_eq_true_iff, List.all_eq_true]
  exact ⟨by omega, fun c hc => hrest c (hsuffix c hc)⟩

end Text

namespace Compile

variable {settings : Settings} {domain : Domain} {schema : Schema} {parts : List Part}
  {links : List BuiltLink}

/-! ## Names that the settings give -/

theorem identifier_of_identityColumns {resource : Resource} {columns : List Column}
    (h : identityColumns settings resource = .ok columns)
    (hkeys : resource.keyFields.isEmpty = true) :
    Text.isIdentifier settings.idField = true := by
  rw [identityColumns, if_pos hkeys] at h
  obtain ⟨_, hchecked, -⟩ := bind_eq_ok_iff.1 h
  exact demandIdentifier_eq_ok_iff.1 hchecked

theorem identifier_of_flagColumns {resource : Resource} {columns : List Column}
    (h : flagColumns settings resource = .ok columns) (hsoft : resource.softDelete = true) :
    Text.isIdentifier settings.deletedField = true := by
  rw [flagColumns, if_pos hsoft] at h
  obtain ⟨_, hchecked, -⟩ := bind_eq_ok_iff.1 h
  exact demandIdentifier_eq_ok_iff.1 hchecked

/-- The table of a resource checks the names that it takes from the settings. -/
theorem identifiers_of_ownTable {entry : String × Resource} {t : Table}
    (h : ownTable settings entry = .ok t) :
    (entry.2.keyFields.isEmpty = true → Text.isIdentifier settings.idField = true)
      ∧ (entry.2.softDelete = true → Text.isIdentifier settings.deletedField = true) := by
  unfold ownTable at h
  dsimp only at h
  split at h
  · obtain ⟨_, hfail, -⟩ := bind_eq_ok_iff.1 h
    cases hfail
  · obtain ⟨identity, hidentity, h⟩ := bind_eq_ok_iff.1 h
    obtain ⟨own, -, h⟩ := bind_eq_ok_iff.1 h
    obtain ⟨flags, hflags, -⟩ := bind_eq_ok_iff.1 h
    exact ⟨identifier_of_identityColumns hidentity, identifier_of_flagColumns hflags⟩

theorem isIdentifier_stamp {name : String} (h : name ∈ Change.stampColumns) :
    Text.isIdentifier name = true := by
  simp only [Change.stampColumns, List.mem_cons, List.not_mem_nil, or_false] at h
  rcases h with rfl | rfl <;> decide

/-! ## Names of links -/

/-- A link table checks its own name and those of its columns that point at rows. -/
theorem identifiers_of_tableFor {tables : List Table} {need : LinkNeed} {link : Table}
    {m : ListField} (h : tableFor settings tables need = .ok (link, m)) :
    Text.isIdentifier link.name = true ∧ Text.isIdentifier m.ownerColumn = true
      ∧ Text.isIdentifier m.memberColumn = true := by
  unfold tableFor at h
  dsimp only at h
  obtain ⟨_, hchecked, h⟩ := bind_eq_ok_iff.1 h
  have hnames (name : String) (hname : name ∈ [need.owner ++ "_" ++ need.target,
      (linkColumnNames settings need).1, (linkColumnNames settings need).2]) :
      Text.isIdentifier name = true :=
    demandIdentifier_eq_ok_iff.1 (forM_eq_ok_iff.1 hchecked name hname)
  split at h
  · obtain ⟨ownerKey, -, h⟩ := bind_eq_ok_iff.1 h
    obtain ⟨targetKey, -, h⟩ := bind_eq_ok_iff.1 h
    obtain ⟨rfl, rfl⟩ := Prod.mk.inj (Except.ok.inj h)
    exact ⟨hnames _ (by simp), hnames _ (by simp), hnames _ (by simp)⟩
  · cases h

namespace Assembly

/-! ## Names of tables and columns -/

/-- A field keeps its name when it becomes a column, and it was checked with the domain. -/
theorem origin_identifier (h : Assembly settings domain schema parts links) {part : Part}
    (hpart : part ∈ parts) {tables : List Table} {c : Column}
    (hc : Part.Origin settings tables part.entry.2 c) : Text.isIdentifier c.name = true := by
  have hfields := (identifiers_of_check h.checked (h.entry_mem hpart)).2
  obtain ⟨hidentity, hflag⟩ := identifiers_of_ownTable (h.compiled part hpart).plain_eq
  cases hc with
  | identity hkeys => exact hidentity hkeys
  | field hentry _ hdeclares =>
    rw [hdeclares.name_eq]
    exact hfields _ (List.mem_map_of_mem hentry)
  | stamp hname => exact isIdentifier_stamp hname
  | flag hsoft => exact hflag hsoft
  | @reference relation _ _ hrelation _ _ _ =>
    exact hfields relation.field (List.mem_map_of_mem (mem_relations hrelation).1)

/-- The names of a table and of its columns are identifiers: all of them were checked. -/
theorem base_identifiers (h : Assembly settings domain schema parts links) {base : Table}
    (hbase : base ∈ schema.bases) : Text.isIdentifier base.name = true
      ∧ ∀ name ∈ base.columnNames, Text.isIdentifier name = true := by
  obtain ⟨part, hpart, rfl⟩ := h.mem_bases.1 hbase
  constructor
  · show Text.isIdentifier part.plain.name = true
    rw [(h.name_eq hpart).1]
    exact (identifiers_of_check h.checked (h.entry_mem hpart)).1
  · intro name hname
    obtain ⟨c, hc, rfl⟩ := List.mem_map.1 hname
    exact h.origin_identifier hpart (Part.origin_of_mem (h.compiled part hpart) hc)

/-- The key of a link table is the one column whose name is not checked. -/
theorem link_identifiers (h : Assembly settings domain schema parts links) {link : Table}
    (hlink : link ∈ schema.links) : Text.isIdentifier link.name = true
      ∧ settings.idField ∈ link.columnNames ∧ Text.endsIdentifier settings.idField = true
      ∧ ∀ name ∈ link.columnNames, name = settings.idField ∨ Text.isIdentifier name = true := by
  rw [h.linkTables_eq] at hlink
  obtain ⟨built, hbuilt, rfl⟩ := List.mem_map.1 hlink
  have htable := h.allLinks.1.links built hbuilt
  obtain ⟨hname, howner, hmember⟩ := identifiers_of_tableFor htable
  obtain ⟨_, _, _, _, hlinks⟩ := tableFor_eq_ok htable
  have hends : Text.endsIdentifier settings.idField = true := by
    have hkeyName : built.list.ownerColumn = built.need.owner ++ "_" ++ settings.idField :=
      congrArg Prod.fst hlinks.names_eq
    rw [hkeyName] at howner
    exact Text.endsIdentifier_of_append howner
  have hnames : built.table.columnNames = [settings.idField, built.list.ownerColumn,
      built.list.memberColumn, createdColumn, updatedColumn] := by
    rw [Table.columnNames, hlinks.columns_eq, ← hlinks.primaryKey_eq]
    rfl
  rw [hnames]
  refine ⟨hname, List.mem_cons_self, hends, fun name hmem => ?_⟩
  rcases List.mem_cons.1 hmem with rfl | hmem
  · exact .inl rfl
  · simp only [List.mem_cons, List.not_mem_nil, or_false] at hmem
    rcases hmem with rfl | rfl | hstamp
    · exact .inr howner
    · exact .inr hmember
    · exact .inr (isIdentifier_stamp (by simpa [Change.stampColumns] using hstamp))

end Assembly

end Compile

namespace Catalog

variable {settings : Settings} {domain : Domain} {catalog : Catalog}

/-- **When the names of tables and columns are identifiers.** All tables are named by identifiers,
and so are the columns of every resource. Of the columns of a link table all but the key are; and
the key has the name that the settings give for generated keys, which is made of the characters of
identifiers but may begin with a digit or be empty. So all names are identifiers just when there is
no link table, or that name is one; and it is one if some resource has a generated key. -/
theorem identifiers_iff (hcompiles : Catalog.ofDomain settings domain = .ok catalog) :
    (∀ t ∈ catalog.schema.physical, Text.isIdentifier t.name = true)
    ∧ (∀ base ∈ catalog.schema.bases, ∀ name ∈ base.columnNames, Text.isIdentifier name = true)
    ∧ (∀ link ∈ catalog.schema.links, Text.endsIdentifier settings.idField = true
        ∧ ∀ name ∈ link.columnNames, name = settings.idField ∨ Text.isIdentifier name = true)
    ∧ ((∀ t ∈ catalog.schema.physical, ∀ name ∈ t.columnNames, Text.isIdentifier name = true)
        ↔ catalog.schema.links = [] ∨ Text.isIdentifier settings.idField = true)
    ∧ ∀ entry ∈ domain.entries, entry.2.isAlias = false → entry.2.keyFields.isEmpty = true →
        Text.isIdentifier settings.idField = true := by
  obtain ⟨schema, hschema, rfl⟩ := map_eq_ok_iff.1 hcompiles
  obtain ⟨parts, links, h⟩ := exists_assembly hschema
  refine ⟨fun t ht => ?_, fun base hbase => (h.base_identifiers hbase).2, fun link hlink => ?_,
    ⟨fun hall => ?_, fun hsafe t ht name hname => ?_⟩, fun entry hentry hown hkeys => ?_⟩
  · rcases List.mem_append.1 ht with hbase | hlink
    · exact (h.base_identifiers hbase).1
    · exact (h.link_identifiers hlink).1
  · obtain ⟨-, -, hends, hnames⟩ := h.link_identifiers hlink
    exact ⟨hends, hnames⟩
  · cases hlinks : schema.links with
    | nil => exact .inl rfl
    | cons link rest =>
      have hlink : link ∈ schema.links := hlinks ▸ List.mem_cons_self
      exact .inr (hall link (Schema.mem_physical_of_link hlink) _ (h.link_identifiers hlink).2.1)
  · rcases List.mem_append.1 ht with hbase | hlink
    · exact (h.base_identifiers hbase).2 name hname
    · rcases hsafe with hnone | hid
      · rw [hnone] at hlink
        cases hlink
      · rcases (h.link_identifiers hlink).2.2.2 name hname with rfl | hname
        · exact hid
        · exact hname
  -- a resource without a key has compiled, so its table has checked the name
  · obtain ⟨part, hpart, hpartentry, -⟩ := h.exists_part_of_own (NameMap.get?_of_mem hentry) hown
    obtain rfl : part.entry = entry := hpartentry
    exact (identifiers_of_ownTable (h.compiled part hpart).plain_eq).1 hkeys

/-- Crews list sailors; both are known by codes that are declared. -/
def crewDomain : Domain := .ofList [
  ("sailor", { fields := .ofList [("code", { typeName := "string", primaryKey := true })] }),
  ("crew", { fields := .ofList [
    ("code", { typeName := "string", primaryKey := true }),
    ("sailors", { typeName := "list", target := some "sailor" })] })]

def crewCatalog (settings : Settings) : Catalog := .compiled settings crewDomain

/-- Under the usual settings all names are identifiers. -/
theorem names_of_crew_identifiers :
    Catalog.ofDomain {} crewDomain = .ok (crewCatalog {})
      ∧ (crewCatalog {}).schema.physical.map Table.name = ["sailor", "crew", "crew_sailor"]
      ∧ ∀ t ∈ (crewCatalog {}).schema.physical, ∀ name ∈ t.columnNames,
        Text.isIdentifier name = true := by
  have hcompiles : Catalog.ofDomain {} crewDomain = .ok (crewCatalog {}) :=
    Catalog.ofDomain_compiled rfl
  obtain ⟨-, -, -, hiff, -⟩ := identifiers_iff hcompiles
  exact ⟨hcompiles, by decide +kernel, hiff.2 (.inr (by decide))⟩

/-- No key is generated for a resource, and the name for generated keys begins with a digit. The
domain compiles, and the key of its link table has this name. -/
theorem key_of_link_begins_with_digit :
    Catalog.ofDomain { idField := "2nd" } crewDomain = .ok (crewCatalog { idField := "2nd" })
      ∧ (crewCatalog { idField := "2nd" }).schema.links.map Table.columnNames
        = [["2nd", "crew_2nd", "sailor_2nd", "_created", "_updated"]]
      ∧ Text.isIdentifier "2nd" = false :=
  ⟨ofDomain_compiled rfl, by decide +kernel, by decide⟩

end Catalog

end RecordStore
