import RecordStore.Proofs.Fields
import RecordStore.Proofs.Run

/-!
# The key in a document

An update and a replacement are made under an identifier, and the key of the row is the one that the
identifier gives. Whatever key the document gives is written over, or not written at all. So two
documents that differ in the key alone change the store in the same way, as long as neither gives a
key that the column would not take.

An update never asks for the key. A replacement takes a whole document, with a value for every field
that needs one, and a declared key is such a field unless it is a whole number, which could be
generated: a document without it is refused.

* **`Document.checkPartial_congr`**, **`Document.check_congr`** — documents that pass the same
  checks.
* **`Change.update_congr`**, **`Change.replace_congr`** — the key of a document that passes is not
  looked at.
* **`Catalog.key_of_document_ignored`** — documents that differ in their key alone.
-/

namespace RecordStore

open RecordStore.Action

/-! ## Keys of tables -/

/-- A key takes no null and has no default and no bounds of length, and it is generated if it is a
whole number. If it is, every column that shares its name is filled in, too. -/
structure Table.KeyIs (base : Table) (k : Column) : Prop where
  nullable : k.nullable = false
  default_eq : k.default? = none
  not_stamped : k.defaultNow = false
  least : k.minLength = none
  greatest : k.maxLength = none
  numbered : k.autoIncrement = true ↔ k.type = .integer
  namesakes : k.autoIncrement = true →
    ∀ c ∈ base.columns, c.name = base.primaryKey → c.hasDefault = true

namespace Compile.Part

variable {settings : Settings} {domain : Domain} {tables : List Table} {part : Part}

/-- A key is the generated one or that of a field. -/
theorem key_column (h : part.Compiled settings domain tables) :
    ∃ k, part.related.keyColumn? = some k
    ∧ (k = .identity settings.idField ∨ ∃ field type, k = keyColumn field type) := by
  obtain ⟨k, hk, hprimary, hreferences, -, ⟨-, rfl⟩ | hfield⟩ := key_related_first h
  · exact ⟨_, hk, .inl rfl⟩
  refine ⟨k, hk, .inr ?_⟩
  have hkmem := (Table.mem_of_column? hk).1
  obtain ⟨⟨field, spec⟩, hentry, hname⟩ := List.mem_map.1 hfield
  -- the column of the field is the key, whose name it has alone
  cases origin_of_mem h hkmem with
  | @field field' spec' _ hentry' hplain hdeclares =>
    obtain ⟨c, hc, hcolumn⟩ := exists_fieldColumn h hentry' (by simp [Field.hasColumn, hplain])
    obtain rfl := owns_of_field h hkmem hfield c hc (hcolumn.name_eq.trans hdeclares.name_eq.symm)
    cases hcolumn with
    | key => exact ⟨_, _, rfl⟩
    | ordinary => cases hprimary
    | reference => cases hreferences
  | identity hkeys =>
    obtain ⟨own, hplain⟩ := ownTable_eq_ok h.plain_eq
    refine absurd (mem_reserved_of_setNames ?_) (not_reserved hplain hentry)
    rw [hname]
    simp [setNames, hkeys, Column.identity]
  | stamp | flag => cases hprimary
  | reference => cases hreferences

/-- The key of a compiled table is the generated one or a declared field. -/
theorem keyIs_related (h : part.Compiled settings domain tables) {k : Column}
    (hk : part.related.keyColumn? = some k) : part.related.KeyIs k := by
  have hnamesakes (hnumber : k.autoIncrement = true) (c : Column) (hc : c ∈ part.related.columns)
      (hname : c.name = part.related.primaryKey) : c.hasDefault = true := by
    -- the column of a field with the name is the key itself
    have hfield (hfield : c.name ∈ part.entry.2.fields.keys) : c.hasDefault = true := by
      have hfound := Table.column?_of_lone hc (owns_of_field h hc hfield)
      rw [hname] at hfound
      obtain rfl := Option.some.inj (hfound.symm.trans hk)
      simp [Column.hasDefault, hnumber]
    cases origin_of_mem h hc with
    | field hentry _ hdeclares => exact hfield (hdeclares.name_eq ▸ mem_keys_of_entry hentry)
    | reference hrelation => exact hfield (mem_keys_of_entry (mem_relations hrelation).1)
    | identity | stamp | flag => rfl
  obtain ⟨k', hk', hcases⟩ := key_column h
  obtain rfl := Option.some.inj (hk'.symm.trans hk)
  rcases hcases with rfl | ⟨field, type, rfl⟩
  · exact ⟨rfl, rfl, rfl, rfl, rfl, by simp [Column.identity], hnamesakes⟩
  · exact ⟨rfl, rfl, rfl, rfl, rfl, by simp [keyColumn], hnamesakes⟩

end Compile.Part

theorem Catalog.keyIs_of_ofDomain {settings : Settings} {domain : Domain} {catalog : Catalog}
    (h : Catalog.ofDomain settings domain = .ok catalog) {base : Table}
    (hbase : base ∈ catalog.schema.bases) {k : Column} (hk : base.keyColumn? = some k) :
    base.KeyIs k := by
  obtain ⟨schema, hschema, rfl⟩ := map_eq_ok_iff.1 h
  obtain ⟨parts, links, hassembly⟩ := Compile.exists_assembly hschema
  obtain ⟨part, hpart, rfl⟩ := hassembly.mem_bases.1 hbase
  have hkey := Compile.Part.keyIs_related (hassembly.compiled part hpart) (k := k) hk
  exact ⟨hkey.nullable, hkey.default_eq, hkey.not_stamped, hkey.least, hkey.greatest,
    hkey.numbered, hkey.namesakes⟩

/-! ## Documents without their key -/

/-- The key that a document gives, if it gives one, is a value of the column. -/
def Table.TakesKey (table : Table) (k : Column) (doc : Record) : Prop :=
  ∀ v, doc.get? table.primaryKey = some v → v.isNull = false ∧ k.type.accepts v = true

instance (table : Table) (k : Column) (doc : Record) : Decidable (table.TakesKey k doc) :=
  inferInstanceAs (Decidable (∀ v ∈ doc.get? table.primaryKey, _))

section Documents

variable {schema : Schema} {table : Table} {k : Column} {doc doc' : Record} {name : String}

namespace Change

theorem rowOf_erase (table : Table) (doc : Record) (name : String) :
    (rowOf table doc).erase name = rowOf table (doc.erase name) := by
  have hnodup (doc : Record) :
      ((doc.entries.filter fun entry => (table.listField? entry.1).isNone).map Prod.fst).Nodup :=
    doc.nodup.sublist (List.filter_sublist.map _)
  refine NameMap.ext ?_
  show (rowOf table doc).entries.filter _ = _
  rw [rowOf, rowOf, NameMap.entries_ofList (hnodup doc), NameMap.entries_ofList (hnodup _)]
  exact List.filter_comm ..

theorem withDoubles_erase (table : Table) (r : Record) (name : String) :
    (withDoubles table r).erase name = withDoubles table (r.erase name) := by
  refine NameMap.ext_get? ?_ fun other _ => ?_
  · rw [keys_withDoubles, NameMap.keys_erase, NameMap.keys_erase, keys_withDoubles]
  · rw [get?_withDoubles]
    by_cases hname : other = name
    · rw [hname, NameMap.get?_erase_self, NameMap.get?_erase_self]
      simp
    · rw [NameMap.get?_erase_of_ne _ hname, NameMap.get?_erase_of_ne _ hname, get?_withDoubles]

theorem listsOf_erase (hnone : table.listField? name = none) (doc : Record) :
    listsOf table (doc.erase name) = listsOf table doc := by
  rw [listsOf, listsOf, NameMap.erase, List.filterMap_filter]
  refine List.filterMap_congr fun entry _ => ?_
  by_cases hname : entry.1 = name
  · simp [hname, hnone]
  · simp [hname]

end Change

namespace Document

/-- The key that a document gives passes its check. -/
theorem checkField_key (hk : table.keyColumn? = some k) (hkey : table.KeyIs k) {v : Value}
    (hnull : v.isNull = false) (haccepts : k.type.accepts v = true) :
    checkField schema table (table.primaryKey, v) = .ok () := by
  have hfound : table.column? table.primaryKey = some k := hk
  have hlength : checkLength k v = .ok () := by
    rw [checkLength, hkey.least, hkey.greatest]
    cases length? v <;> rfl
  rw [checkField]
  simp only [hfound, checkValue, hnull, haccepts]
  exact hlength

theorem checkPartial_erase (hk : table.keyColumn? = some k) (hkey : table.KeyIs k)
    (hdoc : table.TakesKey k doc) :
    checkPartial schema table (doc.erase table.primaryKey) = checkPartial schema table doc := by
  refine checkPartial_erase_of_ok fun v hv => ?_
  obtain ⟨hnull, haccepts⟩ := hdoc v hv
  exact checkField_key hk hkey hnull haccepts

/-- The fields of two documents that differ in their key alone pass the same checks. -/
theorem checkPartial_congr (hk : table.keyColumn? = some k) (hkey : table.KeyIs k)
    (hsame : doc.erase table.primaryKey = doc'.erase table.primaryKey) (hdoc : table.TakesKey k doc)
    (hdoc' : table.TakesKey k doc') :
    checkPartial schema table doc = checkPartial schema table doc' := by
  rw [← checkPartial_erase hk hkey hdoc, hsame, checkPartial_erase hk hkey hdoc']

theorem cell_of_erase_eq (hsame : doc.erase name = doc'.erase name) {other : String}
    (hother : other ≠ name) :
    doc.cell other = doc'.cell other := by
  rw [Record.cell, Record.cell, ← NameMap.get?_erase_of_ne doc hother, hsame,
    NameMap.get?_erase_of_ne _ hother]

/-- **Two documents that differ in their key alone are both whole or both not**, if neither lacks
it. -/
theorem check_congr (hk : table.keyColumn? = some k) (hkey : table.KeyIs k)
    (hsame : doc.erase table.primaryKey = doc'.erase table.primaryKey) (hdoc : table.TakesKey k doc)
    (hdoc' : table.TakesKey k doc') (hlacks : ∀ c ∈ table.columns, c.name = table.primaryKey →
      lacks doc c = false ∧ lacks doc' c = false) : check schema table doc
        = check schema table doc' := by
  have hlacks : ∀ c ∈ table.columns, lacks doc c = lacks doc' c := by
    intro c hc
    by_cases hname : c.name = table.primaryKey
    · rw [(hlacks c hc hname).1, (hlacks c hc hname).2]
    · rw [lacks, lacks, cell_of_erase_eq hsame hname]
  have hpartial : checkPartial schema table doc = checkPartial schema table doc' :=
    checkPartial_congr hk hkey hsame hdoc hdoc'
  have hfind : table.columns.find? (lacks doc) = table.columns.find? (lacks doc') := by
    rw [← List.head?_filter, ← List.head?_filter, List.filter_congr hlacks]
  rw [check, check, hfind, hpartial]

theorem not_lacks_of_hasDefault {c : Column} (h : c.hasDefault = true) : lacks doc c = false := by
  rw [lacks, h]
  rfl

/-- A document that gives its key does not lack it. -/
theorem not_lacks_of_contains (hdoc : table.TakesKey k doc)
    (hgiven : doc.contains table.primaryKey = true) {c : Column}
    (hname : c.name = table.primaryKey) : lacks doc c = false := by
  rw [NameMap.contains_iff] at hgiven
  have hnull := (hdoc _ (Record.get?_of_mem_keys hgiven)).1
  rw [lacks, hname, hnull]
  simp

/-- A key that is no whole number is asked for. -/
theorem check_of_keyless (hk : table.keyColumn? = some k) (hkey : table.KeyIs k)
    (htype : k.type ≠ .integer) (hnone : doc.contains table.primaryKey = false) :
    ∃ c ∈ table.columns, check schema table doc = reject (.missingField c.name) := by
  obtain ⟨hkmem, hkname⟩ := Table.mem_of_column? hk
  have habsent : doc.get? k.name = none := by
    rw [← Option.isNone_iff_eq_none, ← Option.not_isSome, Bool.not_eq_true', ← Bool.not_eq_true,
      hkname, ← NameMap.mem_keys_iff, ← NameMap.contains_iff, hnone]
    exact Bool.false_ne_true
  have hnumber : k.autoIncrement = false := by
    rw [← Bool.not_eq_true, hkey.numbered]
    exact htype
  have hlacks : lacks doc k = true := by
    simp [lacks, Column.hasDefault, hkey.default_eq, hkey.not_stamped, hnumber, hkey.nullable,
      Record.cell_of_get?_none habsent, Value.isNull]
  exact check_of_lacks hkmem hlacks

end Document

/-! ## Changes -/

namespace Change

variable {now : Time.Instant} {id : Value}

/-- Documents that differ in one field give the same cells for all other columns. -/
theorem fields_congr (hsame : doc.erase name = doc'.erase name) :
    (withDoubles table (rowOf table doc)).erase name
      = (withDoubles table (rowOf table doc')).erase name := by
  rw [withDoubles_erase, withDoubles_erase, rowOf_erase, rowOf_erase, hsame]

/-- If the field is no list, they give the same lists. -/
theorem listsOf_congr (hnone : table.listField? name = none)
    (hsame : doc.erase name = doc'.erase name) :
    listsOf table doc = listsOf table doc' := by
  rw [← listsOf_erase hnone doc, hsame, listsOf_erase hnone]

/-- **An update does not look at the key of a document that passes its check.** -/
theorem update_congr (hnone : table.listField? table.primaryKey = none)
    (hsame : doc.erase table.primaryKey = doc'.erase table.primaryKey)
    (hcheck : Document.checkPartial schema table doc = Document.checkPartial schema table doc') :
    update schema table now id doc = update schema table now id doc' := by
  rw [update, update, hcheck, fields_congr hsame, listsOf_congr hnone hsame]

/-- The cell of a replacement does not depend on what is given for the key. -/
theorem replacedCell_congr {fields fields' : Record}
    (hsame : fields.erase table.primaryKey = fields'.erase table.primaryKey) (key : Value)
    (stored : Option Record) (c : Column) :
    replacedCell table now key stored fields c = replacedCell table now key stored fields' c := by
  by_cases hname : c.name = table.primaryKey
  · rw [replacedCell, replacedCell, if_pos hname, if_pos hname]
  · rw [replacedCell, replacedCell, ← NameMap.get?_erase_of_ne fields hname, hsame,
      NameMap.get?_erase_of_ne _ hname]

/-- **Nor does a replacement.** -/
theorem replace_congr (hnone : table.listField? table.primaryKey = none)
    (hsame : doc.erase table.primaryKey = doc'.erase table.primaryKey)
    (hcheck : Document.check schema table doc = Document.check schema table doc') :
    replace schema table now id doc = replace schema table now id doc' := by
  have hcells (key : Value) (stored : Option Record) :
      replacedCell table now key stored (withDoubles table (rowOf table doc))
        = replacedCell table now key stored (withDoubles table (rowOf table doc')) :=
    funext fun c => replacedCell_congr (fields_congr hsame) key stored c
  simp only [replace, hcheck, listsOf_congr hnone hsame, hcells]

/-- A document that fails its check is refused before anything is done. -/
theorem transact_replace_of_refused {e : Error} (h : Document.check schema table doc = .error e)
    (db : Database) : db.transact (replace schema table now id doc) = (.error e, db) := by
  have houtcome : outcome (replace schema table now id doc) (.begin db)
    = (.error e, .begin db) := by
    rw [replace, h]
    rfl
  rw [Database.transact_eq, houtcome]
  rfl

end Change

end Documents

/-! ## Operations -/

theorem Table.SharesRows.keyIs {table base : Table} {k : Column} (hshares : table.SharesRows base)
    (h : base.KeyIs k) : table.KeyIs k where
  nullable := h.nullable
  default_eq := h.default_eq
  not_stamped := h.not_stamped
  least := h.least
  greatest := h.greatest
  numbered := h.numbered
  namesakes := by
    rw [hshares.columns, hshares.primaryKey]
    exact h.namesakes

namespace Catalog

variable {settings : Settings} {domain : Domain} {catalog : Catalog}
  {resource : String} {table : Table}

/-- **The key in a document makes no difference.** Two documents differ in their key alone, which
each of them leaves out or gives a value of its column. Updates with them do the same, and so do
replacements if both documents give a key or the key is a whole number. Any other key has to be
given: a replacement by a document without it is refused, and nothing changes. -/
theorem key_of_document_ignored (hcompiles : Catalog.ofDomain settings domain = .ok catalog)
    (htable : catalog.schema.table resource = .ok table) {k : Column}
    (hk : table.keyColumn? = some k) {doc doc' : Record}
    (hsame : doc.erase table.primaryKey = doc'.erase table.primaryKey) (hdoc : table.TakesKey k doc)
    (hdoc' : table.TakesKey k doc') (now : Time.Instant) (id : Value) (db : Database) :
    catalog.update resource now id doc db = catalog.update resource now id doc' db
    ∧ (k.type = .integer
      ∨ doc.contains table.primaryKey = true ∧ doc'.contains table.primaryKey = true →
      catalog.replace resource now id doc db = catalog.replace resource now id doc' db)
    ∧ (k.type ≠ .integer → doc.contains table.primaryKey = false → ∃ c ∈ table.columns,
      catalog.replace resource now id doc db = (reject (.missingField c.name), db)) := by
  have hco := coherent_of_ofDomain hcompiles
  obtain ⟨base, hbase, hshares⟩ := hco.shared table (Schema.mem_of_table htable).1
  have hkey := hshares.keyIs (keyIs_of_ofDomain hcompiles hbase (hshares.keyColumn?.symm.trans hk))
  have hnone : table.listField? table.primaryKey = none := by
    obtain ⟨hkmem, hkname⟩ := Table.mem_of_column? hk
    exact hco.listField?_of_column hbase hshares
      (hkname ▸ Table.mem_columnNames (hshares.columns ▸ hkmem))
  rw [update_of_table htable, update_of_table htable, replace_of_table htable,
    replace_of_table htable]
  refine ⟨?_, fun hcase => ?_, fun htype hmissing => ?_⟩
  · rw [Change.update_congr hnone hsame (Document.checkPartial_congr hk hkey hsame hdoc hdoc')]
  · refine congrArg _
      (Change.replace_congr hnone hsame (Document.check_congr hk hkey hsame hdoc hdoc' ?_))
    intro c hc hname
    rcases hcase with htype | ⟨hgiven, hgiven'⟩
    · exact ⟨Document.not_lacks_of_hasDefault (hkey.namesakes (hkey.numbered.2 htype) c hc hname),
        Document.not_lacks_of_hasDefault (hkey.namesakes (hkey.numbered.2 htype) c hc hname)⟩
    · exact ⟨Document.not_lacks_of_contains hdoc hgiven hname,
        Document.not_lacks_of_contains hdoc' hgiven' hname⟩
  · obtain ⟨c, hc, hrefused⟩ := Document.check_of_keyless hk hkey htype hmissing
    exact ⟨c, hc, Change.transact_replace_of_refused hrefused db⟩

/-! ### A sample -/

/-- Lockers are known by their labels, and latches by their numbers. -/
def lockerDomain : Domain := .ofList [
  ("locker", { fields := .ofList [
    ("label", { typeName := "string", primaryKey := true }), ("note", { typeName := "string" })] }),
  ("latch", { fields := .ofList [("number", { typeName := "integer", primaryKey := true })] })]

def lockerCatalog : Catalog := .compiled {} lockerDomain

theorem ofDomain_locker : Catalog.ofDomain {} lockerDomain = .ok lockerCatalog :=
  Catalog.ofDomain_compiled rfl

/-- A locker and a latch. -/
def lockerSteps : List Step := [
  (⟨0, 0⟩, .createTables),
  (⟨1, 0⟩, .insert "locker" [.ofList [("label", .string "A1")]]),
  (⟨1, 0⟩, .insert "latch" [.ofList [("number", .int 7)]])]

/-- A note, without the label of a locker. -/
def unlabelled : Record := .ofList [("note", .string "jammed")]

/-- The note, and the label of a locker. -/
def labelled (label : String) : Record :=
  .ofList [("label", .string label), ("note", .string "jammed")]

/-- Two lockers' labels make no difference to the first one, and without any it is not replaced. A
latch is replaced with its number and without. -/
theorem labels_ignored : ∃ locker latch k,
    lockerCatalog.schema.table "locker" = .ok locker
      ∧ lockerCatalog.schema.table "latch" = .ok latch
      ∧ latch.keyColumn? = some k ∧ k.type = .integer
      ∧ lockerCatalog.update "locker" ⟨2, 0⟩ (.string "A1")
        unlabelled (lockerCatalog.run lockerSteps)
        = lockerCatalog.update "locker" ⟨2, 0⟩ (.string "A1")
          (labelled "B2") (lockerCatalog.run lockerSteps)
      ∧ lockerCatalog.replace "locker" ⟨2, 0⟩ (.string "A1")
        (labelled "A1") (lockerCatalog.run lockerSteps)
        = lockerCatalog.replace "locker" ⟨2, 0⟩ (.string "A1")
          (labelled "B2") (lockerCatalog.run lockerSteps)
      ∧ lockerCatalog.replace "latch" ⟨2, 0⟩ (.int 7) {} (lockerCatalog.run lockerSteps)
        = lockerCatalog.replace "latch" ⟨2, 0⟩ (.int 7) (.ofList [("number", .int 8)])
          (lockerCatalog.run lockerSteps)
      ∧ ∃ c ∈ locker.columns, lockerCatalog.replace "locker" ⟨2, 0⟩ (.string "A1") unlabelled
          (lockerCatalog.run lockerSteps)
            = (reject (.missingField c.name), lockerCatalog.run lockerSteps) := by
  have hlocker : ((lockerCatalog.schema.table "locker").toOption.bind fun table =>
      table.keyColumn?.map fun k => decide (k.type ≠ .integer
        ∧ unlabelled.erase table.primaryKey = (labelled "B2").erase table.primaryKey
        ∧ (labelled "A1").erase table.primaryKey = (labelled "B2").erase table.primaryKey
        ∧ table.TakesKey k unlabelled ∧ table.TakesKey k (labelled "A1")
          ∧ table.TakesKey k (labelled "B2")
        ∧ unlabelled.contains table.primaryKey = false
          ∧ (labelled "A1").contains table.primaryKey = true
        ∧ (labelled "B2").contains table.primaryKey = true)) = some true := by
    decide +kernel
  have hlatch : ((lockerCatalog.schema.table "latch").toOption.bind fun table =>
      table.keyColumn?.map fun k => decide (k.type = .integer
        ∧ (∅ : Record).erase table.primaryKey
          = (NameMap.ofList [("number", Value.int 8)]).erase table.primaryKey
        ∧ table.TakesKey k {} ∧ table.TakesKey k (.ofList [("number", .int 8)]))) = some true := by
    decide +kernel
  obtain ⟨locker, hlocker, hfacts⟩ := Option.bind_eq_some_iff.1 hlocker
  obtain ⟨k, hk, hfacts⟩ := Option.map_eq_some_iff.1 hfacts
  obtain ⟨htype, hsame, hsame', htakes, htakes', htakes'', hmissing, hgiven, hgiven'⟩ :=
    of_decide_eq_true hfacts
  obtain ⟨latch, hlatch, hfacts⟩ := Option.bind_eq_some_iff.1 hlatch
  obtain ⟨number, hnumber, hfacts⟩ := Option.map_eq_some_iff.1 hfacts
  obtain ⟨hinteger, hbare, hempty, hother⟩ := of_decide_eq_true hfacts
  have hunlabelled :=
    key_of_document_ignored ofDomain_locker (eq_ok_of_toOption hlocker) hk hsame htakes htakes''
    ⟨2, 0⟩ (.string "A1") (lockerCatalog.run lockerSteps)
  have hlabelled :=
    key_of_document_ignored ofDomain_locker (eq_ok_of_toOption hlocker) hk hsame' htakes' htakes''
    ⟨2, 0⟩ (.string "A1") (lockerCatalog.run lockerSteps)
  have hlatches :=
    key_of_document_ignored ofDomain_locker (eq_ok_of_toOption hlatch) hnumber hbare hempty hother
    ⟨2, 0⟩ (.int 7) (lockerCatalog.run lockerSteps)
  exact ⟨locker, latch, number, eq_ok_of_toOption hlocker, eq_ok_of_toOption hlatch,
    hnumber, hinteger,
    hunlabelled.1, hlabelled.2.1 (.inr ⟨hgiven, hgiven'⟩), hlatches.2.1 (.inl hinteger),
    hunlabelled.2.2 htype hmissing⟩

/-- **Two documents that differ in their key alone**, one of which replaces the locker and one does
not. -/
theorem label_asked_for : Catalog.ofDomain {} lockerDomain = .ok lockerCatalog
    ∧ ((lockerCatalog.schema.table "locker").toOption.bind fun table =>
      table.keyColumn?.map fun k =>
        decide (unlabelled.erase table.primaryKey = (labelled "A1").erase table.primaryKey
          ∧ table.TakesKey k unlabelled ∧ table.TakesKey k (labelled "A1"))) = some true
    ∧ (lockerCatalog.replace "locker" ⟨2, 0⟩ (.string "A1") unlabelled
        (lockerCatalog.run lockerSteps)).1.toOption = none
    ∧ (lockerCatalog.replace "locker" ⟨2, 0⟩ (.string "A1") (labelled "A1")
        (lockerCatalog.run lockerSteps)).1.toOption = some () := by
  refine ⟨ofDomain_locker, ?_⟩
  decide +kernel

end Catalog

end RecordStore
