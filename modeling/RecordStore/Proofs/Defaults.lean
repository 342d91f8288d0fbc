import RecordStore.Proofs.Doubles
import RecordStore.Proofs.Freshness
import RecordStore.Proofs.Lengths

/-!
# Defaults

A field may declare what is stored for it where a document gives nothing. The default of a field
that points at no resource is checked against its type when the domain is compiled, and an insertion
and a replacement store it as it was declared: a whole number stays one, though a column of doubles
would have made it a double.

The default of a field that points at a resource is not looked at. The domain compiles as it does
without it, whatever its type is, and null is stored for the field.

* **`Schema.ofDomain_forgetDefaults`** — a domain compiles without those defaults as it does with
  them.
* **`Table.Holds.filled_of_insert`**, **`Table.Holds.filled_of_replace`** — what one change stores
  for a field.
* **`Catalog.defaults_stored_iff`** — what is stored for a field with a default, and when it is the
  default.
-/

namespace RecordStore

open Compile RecordStore.Action

/-! ## Defaults that are not looked at -/

/-- A field that points at a resource, without its default. -/
def Field.forgetDefault (spec : Field) : Field :=
  if spec.target.isSome then { spec with default? := none } else spec

def Resource.forgetDefaults (r : Resource) : Resource :=
  { r with fields := r.fields.mapValues fun _ => Field.forgetDefault }

/-- The domain without the defaults of fields that point at a resource. -/
def Domain.forgetDefaults (domain : Domain) : Domain :=
  domain.mapValues fun _ => Resource.forgetDefaults

namespace Field

theorem forgetDefault_of_target {spec : Field} (h : spec.target.isSome = true) :
    spec.forgetDefault = { spec with default? := none } := if_pos h

theorem forgetDefault_of_none {spec : Field} (h : spec.target = none) :
    spec.forgetDefault = spec := by
  rw [forgetDefault, h]
  rfl

@[simp] theorem target_forgetDefault (spec : Field) : spec.forgetDefault.target = spec.target := by
  unfold forgetDefault
  split <;> rfl

@[simp] theorem primaryKey_forgetDefault (spec : Field) :
    spec.forgetDefault.primaryKey = spec.primaryKey := by
  unfold forgetDefault
  split <;> rfl

end Field

namespace Resource

@[simp] theorem keys_forgetDefaults (r : Resource) : r.forgetDefaults.fields.keys = r.fields.keys :=
  NameMap.keys_mapValues ..

@[simp] theorem keyFields_forgetDefaults (r : Resource) :
    r.forgetDefaults.keyFields = r.keyFields := by
  simp only [keyFields, forgetDefaults, NameMap.mapValues, List.filter_map, List.map_map,
    Function.comp_def, Field.primaryKey_forgetDefault]

theorem relations_forgetDefaults (r : Resource) : r.forgetDefaults.relations
    = r.relations.map fun relation => { relation with spec := relation.spec.forgetDefault } := by
  simp only [relations, forgetDefaults, NameMap.mapValues, List.filterMap_map, List.map_filterMap]
  refine List.filterMap_congr fun entry _ => ?_
  simp [Option.map_map, Function.comp_def]

end Resource

namespace Compile

variable {settings : Settings} {domain : Domain} {tables : List Table}

theorem get?_forgetDefaults (domain : Domain) (name : String) :
    domain.forgetDefaults.get? name = (domain.get? name).map Resource.forgetDefaults :=
  NameMap.get?_mapValues ..

/-- The check of a resource does not look at the defaults that the compiler forgets. -/
theorem checkResource_forgetDefaults (entry : String × Resource) :
    domain.forgetDefaults.checkResource (entry.1, entry.2.forgetDefaults)
      = domain.checkResource entry := by
  have hfault : domain.forgetDefaults.sourceFault? entry.2.forgetDefaults
    = domain.sourceFault? entry.2 := by
    funext source
    have hempty : entry.2.forgetDefaults.fields.isEmpty = entry.2.fields.isEmpty := by
      simp [Resource.forgetDefaults, NameMap.mapValues, NameMap.isEmpty]
    unfold Domain.sourceFault?
    rw [get?_forgetDefaults, hempty]
    cases domain.get? source <;> rfl
  unfold Domain.checkResource Domain.checkSource
  rw [hfault, Resource.keys_forgetDefaults]
  rfl

theorem ownColumn_forgetDefault (resource : String) (reserved : List String)
    (entry : String × Field) :
    ownColumn resource reserved (entry.1, entry.2.forgetDefault)
      = ownColumn resource reserved entry := by
  obtain ⟨field, spec⟩ := entry
  cases htarget : spec.target with
  | none => rw [Field.forgetDefault_of_none htarget]
  | some target =>
    have hsome : spec.target.isSome = true := by rw [htarget]; rfl
    rw [Field.forgetDefault_of_target hsome]
    unfold ownColumn
    simp only [hsome, if_true]

theorem ownTable_forgetDefaults (entry : String × Resource) :
    ownTable settings (entry.1, entry.2.forgetDefaults) = ownTable settings entry := by
  obtain ⟨name, r⟩ := entry
  have hown (reserved : List String) :
    r.forgetDefaults.fields.entries.mapM (ownColumn name reserved)
      = r.fields.entries.mapM (ownColumn name reserved) := by
    simp only [Resource.forgetDefaults, NameMap.mapValues, List.mapM_map]
    exact congrArg (List.mapM · r.fields.entries) (funext (ownColumn_forgetDefault name reserved))
  unfold ownTable identityColumns flagColumns reservedNames
  simp only [Resource.keyFields_forgetDefaults, hown]
  rfl

/-- A relation becomes the same reference without the default of its field. -/
theorem reference_forgetDefaults (owner : String) (relation : Relation) :
    reference domain.forgetDefaults tables owner
      { relation with spec := relation.spec.forgetDefault }
      = reference domain tables owner relation := by
  have htarget : targetTable domain.forgetDefaults tables owner
      { relation with spec := relation.spec.forgetDefault }
        = targetTable domain tables owner relation := by
    unfold targetTable
    rw [get?_forgetDefaults]
    cases domain.get? relation.target <;> rfl
  -- of a field that points at a resource everything but the default is taken
  have hspec : relation.spec.forgetDefault.cardinality = relation.spec.cardinality
      ∧ ∀ target key, referenceColumn
        { relation with spec := relation.spec.forgetDefault } target key
        = referenceColumn relation target key := by
    unfold Field.forgetDefault
    split <;> exact ⟨rfl, fun _ _ => rfl⟩
  unfold reference
  simp only [htarget, hspec.1, hspec.2]

theorem relate_forgetDefaults (entry : String × Resource) :
    relate domain.forgetDefaults tables (entry.1, entry.2.forgetDefaults)
      = relate domain tables entry := by
  unfold relate
  rw [Resource.relations_forgetDefaults, List.mapM_map]
  exact congrArg (List.mapM · entry.2.relations) (funext (reference_forgetDefaults entry.1))

end Compile

/-- **The default of a field that points at a resource is not looked at.** -/
theorem Schema.ofDomain_forgetDefaults (settings : Settings) (domain : Domain) :
    Schema.ofDomain settings domain.forgetDefaults = Schema.ofDomain settings domain := by
  have hentries : domain.forgetDefaults.entries
      = domain.entries.map fun entry => (entry.1, entry.2.forgetDefaults) := rfl
  have hcheck : domain.forgetDefaults.check = domain.check := by
    unfold Domain.check
    rw [hentries]
    exact List.forM_map.trans
      (congrArg (List.forM domain.entries) (funext checkResource_forgetDefaults))
  have hown : (domain.forgetDefaults.entries.filter fun entry => !entry.2.isAlias)
      = (domain.entries.filter fun entry => !entry.2.isAlias).map fun entry =>
        (entry.1, entry.2.forgetDefaults) := by
    rw [hentries, List.filter_map]
    rfl
  have haliases : aliasEntries domain.forgetDefaults
      = (aliasEntries domain).map fun x => ((x.1.1, x.1.2.forgetDefaults), x.2) := by
    rw [aliasEntries, aliasEntries, hentries, List.filterMap_map, List.map_filterMap]
    refine List.filterMap_congr fun entry _ => ?_
    rw [Function.comp_apply, Option.map_map]
    rfl
  unfold Schema.ofDomain
  unfold aliasEntries at haliases
  simp only [hcheck, hown, haliases, List.mapM_map, Function.comp_def, ownTable_forgetDefaults,
    relate_forgetDefaults]
  rfl

theorem Catalog.ofDomain_forgetDefaults (settings : Settings) (domain : Domain) :
    Catalog.ofDomain settings domain.forgetDefaults = Catalog.ofDomain settings domain := by
  rw [Catalog.ofDomain, Schema.ofDomain_forgetDefaults, Catalog.ofDomain]

/-! ## What is stored -/

/-- Where a document leaves a field out, the row with its key has a certain value for the field. -/
def Store.HasFilled (s : Store) (base : Table) (field : String) (v : Value) (doc : Record)
    (key : Value) : Prop :=
  doc.get? field = none →
    ∃ row ∈ s.rows base.name, row.cell base.primaryKey = key ∧ row.cell field = v

section Changes

variable {schema : Schema} {table base : Table} {field : String} {spec : Field} {c : Column}
  {now : Time.Instant} {tx tx' : Transaction} {doc : Record}

theorem Store.HasFilled.of_grows {s s' : Store} {v key : Value}
    (h : s.HasFilled base field v doc key) (hgrows : s.Grows s') :
    s'.HasFilled base field v doc key := by
  intro hnone
  obtain ⟨row, hrow, hcells⟩ := h hnone
  exact ⟨row, (hgrows base.name).subset hrow, hcells⟩

/-- An insertion fills in for the fields that its document leaves out. -/
theorem Table.Holds.filled_of_insert (h : base.Holds field spec c)
    (hnumber : c.autoIncrement = false) (hco : schema.Coherent) (hregular : tx.work.Regular schema)
    (hbase : base ∈ schema.bases) (hshares : table.SharesRows base) {id : Value} {new : Record}
    (hrun : Yields (Change.insert schema table now doc) tx (id, new) tx') :
    tx'.work.HasFilled base field spec.filled doc id := by
  intro hnone
  obtain ⟨t, row, next, ht, hfill, -, rfl, hlists⟩ := Change.effect_of_insert hco hbase hshares hrun
  obtain ⟨hcolumns, hcounter⟩ := hregular.columns_eq base (Schema.mem_physical_of_base hbase) t ht
  obtain ⟨n, hcell⟩ :=
    hco.cell_inserted hbase hshares h.mem h.owns (h.name_eq ▸ h.not_stamp) hcolumns hcounter
    hfill
  refine ⟨row, ?_, rfl, ?_⟩
  · rw [hlists.rows_eq hco hbase
      (fun entry hentry => hshares.lists ▸ Change.list_of_mem_listsOf hentry) hbase,
      if_pos rfl]
    exact List.mem_append_right _ (List.mem_singleton_self row)
  · rw [h.name_eq, hnone, Option.map_none, Option.getD_none] at hcell
    rw [hcell, ← h.default_filled]
    simp [StoredTable.filling, hnumber, h.not_stamped]

/-- So does a replacement, unless the field is the key. -/
theorem Table.Holds.filled_of_replace (h : base.Holds field spec c) (hkey : field ≠ base.primaryKey)
    (hco : schema.Coherent) (hbase : base ∈ schema.bases) (hshares : table.SharesRows base)
    {id : Value} (hrun : Yields (Change.replace schema table now id doc) tx () tx') :
    ∃ key, Change.keyFor table id = .ok key
      ∧ tx'.work.HasFilled base field spec.filled doc key := by
  obtain ⟨key, t, t', -, hkeyfor, ht, hupserts, hlists⟩ :=
    Change.effect_of_replace hco hbase hshares hrun
  obtain ⟨k, hk, -⟩ := hco.keyed base (Schema.mem_physical_of_base hbase)
  obtain ⟨before, row, after, hrows, -, hcells, -⟩ := hupserts.exists_row (hshares.name ▸ ht)
  refine ⟨key, hkeyfor, fun hnone => ⟨row, ?_, ?_, ?_⟩⟩
  · rw [hlists.rows_eq hco hbase (fun m hm => hshares.lists ▸ hm) hbase, if_pos rfl, hrows]
    exact List.mem_append_right _ List.mem_cons_self
  · exact Record.cell_eq_of_get? (hcells _ _ (get?_key_replacedRow hshares hk key _))
  · have hcell := hco.cell_replaced hbase hshares h.mem h.owns (h.name_eq ▸ h.not_stamp) hcells
    rw [h.name_eq, if_neg hkey, hnone, Option.map_none, Option.getD_none] at hcell
    rw [hcell, h.default_filled]

/-- Of several documents that are inserted the rows stay, whatever becomes of those after them. -/
theorem Table.Holds.filled_of_insertAll {catalog : Catalog} {db : Database}
    (h : base.Holds field spec c) (hnumber : c.autoIncrement = false)
    (hco : catalog.schema.Coherent) (hregular : db.store.Regular catalog.schema)
    (hbase : base ∈ catalog.schema.bases) (hshares : table.SharesRows base) {docs : List Record}
    (rest : List Record) {ids : List Value}
    (hids : (catalog.insertAll table now docs db).1.ids = .ok ids) :
    List.Forall₂
      ((catalog.insertAll table now (docs ++ rest) db).2.store.HasFilled base field spec.filled)
      docs ids := by
  -- on the documents, from the database that the first of them leaves
  induction docs generalizing db ids with
  | nil =>
    obtain rfl : [] = ids := Except.ok.inj hids
    exact .nil
  | cons doc docs ih =>
    cases hone : (catalog.insertOne table now doc db).1 with
    | error e => simp [Catalog.insertAll_cons_error hone] at hids
    | ok stamped =>
      obtain ⟨id, new⟩ := stamped
      rw [Catalog.insertAll_cons_ok hone] at hids
      rw [List.cons_append, Catalog.insertAll_cons_ok hone]
      obtain ⟨others, hothers, rfl⟩ := map_eq_ok_iff.1 hids
      obtain ⟨tx, hrun, hstore⟩ := Catalog.yields_of_insertOne hone
      have hfirst := h.filled_of_insert hnumber hco hregular hbase hshares hrun
      have hregular' := hregular.turns hco (turns_of_insert hco hbase hshares hrun)
      rw [← hstore] at hfirst hregular'
      exact .cons (hfirst.of_grows (Catalog.grows_insertAll _ _)) (ih hregular' hothers)

end Changes

/-! ## Compiled domains -/

/-- A column that is no key is not numbered. -/
theorem Compile.FieldColumn.not_numbered {tables : List Table} {field : String} {spec : Field}
    {c : Column} (h : FieldColumn tables field spec c) (hkey : spec.primaryKey = false) :
    c.autoIncrement = false := by
  cases h with
  | ordinary => rfl
  | reference => rfl
  | key _ hprimary => rw [hkey] at hprimary; cases hprimary

/-- What is filled in for a field other than the key is its default, unless it points at a
resource. -/
theorem Field.filled_eq {spec : Field} {d : Value} (hdefault : spec.default? = some d)
    (hkey : spec.primaryKey = false) : spec.filled = if spec.target = none then d else .null := by
  rw [filled, isOrdinary, hkey, hdefault]
  cases spec.target <;> rfl

/-- A value that a column takes is stored as it is, unless it is a whole number among doubles. -/
theorem Column.stored_eq_self_iff {c : Column} {v : Value} (haccepts : c.type.accepts v = true)
    (hnull : v.isNull = false) : c.stored v = v ↔ (c.type = .float → v.isWhole = false) := by
  rw [Column.stored]
  split
  · rename_i hfloat
    rw [hfloat] at haccepts
    rcases ColumnType.accepts_float haccepts hnull with ⟨n, rfl⟩ | ⟨x, rfl⟩
    · refine iff_of_false (fun h => ?_) fun h => absurd (h hfloat) Bool.noConfusion
      cases h
    · exact iff_of_true rfl fun _ => rfl
  · rename_i hother
    exact iff_of_true rfl fun hfloat => absurd hfloat hother

namespace Catalog

variable {settings : Settings} {domain : Domain} {catalog : Catalog}
  {name field : String} {r : Resource}
  {spec : Field} {d : Value}

/-- **What is stored for a field with a default.** A field of a resource, which is no key and no
list of keys, has a default other than null. If it points at no resource, the default is a value of
its column; else the domain would have compiled to the same tables without it. After any run, the
rows of documents that leave the field out and that are inserted or replace a record have the
default as it was declared, or null if the field points at a resource. So they have the default as
the column stores values just when the field points at no resource, and the default is no whole
number in a column of doubles. -/
theorem defaults_stored_iff (hcompiles : Catalog.ofDomain settings domain = .ok catalog)
    (hr : domain.get? name = some r) (hown : r.isAlias = false)
    (hfield : (field, spec) ∈ r.fields.entries) (hdefault : spec.default? = some d)
    (hnull : d.isNull = false) (hkey : spec.primaryKey = false) (hcolumn : spec.hasColumn = true)
    (steps : List Step) :
    ∃ table c, catalog.schema.table name = .ok table ∧ table.column? field = some c
      ∧ (spec.target = none → c.type.accepts d = true)
      ∧ Catalog.ofDomain settings domain.forgetDefaults = .ok catalog
      ∧ spec.filled = (if spec.target = none then d else .null)
      ∧ (∀ now docs rest ids, (catalog.insert name now docs (catalog.run steps)).1.ids = .ok ids →
          List.Forall₂ ((catalog.insert name now (docs ++ rest)
            (catalog.run steps)).2.store.HasFilled table field
            spec.filled) docs ids)
      ∧ (∀ now id doc, (catalog.replace name now id doc (catalog.run steps)).1 = .ok () →
          ∃ key, Change.keyFor table id = .ok key
            ∧ (catalog.replace name now id doc (catalog.run steps)).2.store.HasFilled
              table field spec.filled
              doc key)
      ∧ (spec.filled = c.stored d
        ↔ spec.target = none ∧ (c.type = .float → d.isWhole = false)) := by
  have hco := coherent_of_ofDomain hcompiles
  obtain ⟨schema, hschema, rfl⟩ := map_eq_ok_iff.1 hcompiles
  obtain ⟨parts, links, h⟩ := exists_assembly hschema
  obtain ⟨part, hpart, hpartentry, htable⟩ := h.exists_part_of_own hr hown
  have hcompiled := h.compiled part hpart
  have hbase : part.base links ∈ schema.bases := h.mem_bases.2 ⟨part, hpart, rfl⟩
  have hentry : (field, spec) ∈ part.entry.2.fields.entries := by rwa [hpartentry]
  obtain ⟨c, hc, hfieldColumn⟩ := Part.exists_fieldColumn hcompiled hentry hcolumn
  have hholds := Part.holds_of_field hcompiled hentry hc hfieldColumn links
  have hnumber := hfieldColumn.not_numbered hkey
  have hnotkey : field ≠ (part.base links).primaryKey := fun heq => by
    have hprimary := (Part.primaryKey_eq_iff hcompiled hentry).1 heq.symm
    rw [hkey] at hprimary
    cases hprimary
  have hfilled := Field.filled_eq hdefault hkey
  have haccepts (htarget : spec.target = none) : c.type.accepts d = true := by
    refine hco.default_accepted _ hbase c hc d ?_
    rw [hfieldColumn.default?_eq, if_pos (by simp [Field.isOrdinary, hkey, htarget]), hdefault]
  refine ⟨_, c, htable, ?_, haccepts, (Catalog.ofDomain_forgetDefaults ..).trans hcompiles,
    hfilled, ?_, ?_, ?_⟩
  · rw [← hfieldColumn.name_eq]
    exact Table.column?_of_lone hholds.mem hholds.owns
  · intro now docs rest ids hids
    have hinsert (docs : List Record) (db : Database) :
      Catalog.insert ⟨schema, settings⟩ name now docs db
        = Catalog.insertAll ⟨schema, settings⟩ (part.base links) now docs db := by
      rw [Catalog.insert, htable]
    rw [hinsert] at hids ⊢
    exact hholds.filled_of_insertAll hnumber hco (regular_run hco steps) hbase (.refl _) rest hids
  · intro now id doc hok
    obtain ⟨-, tx, -, hrun, hstore⟩ := yields_of_replace htable hok
    rw [hstore]
    exact hholds.filled_of_replace hnotkey hco hbase (.refl _) hrun
  · rw [hfilled]
    split
    · rename_i htarget
      rw [and_iff_right htarget, ← Column.stored_eq_self_iff (haccepts htarget) hnull]
      exact eq_comm
    · rename_i htarget
      refine iff_of_false (fun heq => ?_) fun hboth => htarget hboth.1
      have hstored := Column.isNull_stored c d
      rw [← heq, hnull] at hstored
      cases hstored

/-! ### A sample -/

def leaderField (leader : Value) : Field :=
  { typeName := "integer", default? := some leader, target := some "person" }

def stateField : Field := { typeName := "string", default? := some (.string "open") }

/-- A shift is open, and led by a person. Both have a default. -/
def shift (leader : Value) : Resource :=
  { fields := .ofList [("leader", leaderField leader), ("state", stateField)] }

def shiftDomain (leader : Value) : Domain := .ofList [("person", {}), ("shift", shift leader)]

def shiftCatalog : Catalog := .compiled {} (shiftDomain (.int 1))

/-- The person who is to lead all shifts. -/
def shiftSteps : List Step := [
  (⟨0, 0⟩, .createTables),
  (⟨1, 0⟩, .insert "person" [{}])]

/-- A shift that is inserted is open, and so is one that replaces another. -/
theorem state_of_shift_stored : ∃ table c, shiftCatalog.schema.table "shift" = .ok table
    ∧ table.column? "state" = some c
    ∧ (shiftCatalog.insert "shift" ⟨2, 0⟩ [{}]
      (shiftCatalog.run shiftSteps)).2.store.HasFilled table "state"
      (c.stored (.string "open")) {} (.int 1)
    ∧ ∃ key, Change.keyFor table (.int 7) = .ok key
      ∧ (shiftCatalog.replace "shift" ⟨2, 0⟩ (.int 7) {}
        (shiftCatalog.run shiftSteps)).2.store.HasFilled table
        "state" (c.stored (.string "open")) {} key := by
  have hcompiles : Catalog.ofDomain {} (shiftDomain (.int 1)) = .ok shiftCatalog :=
    Catalog.ofDomain_compiled rfl
  have hfield : ("state", stateField) ∈ (shift (.int 1)).fields.entries :=
    List.mem_cons_of_mem _ List.mem_cons_self
  obtain ⟨table, c, htable, hc, -, -, -, hinserted, hreplaced, hstored⟩ :=
    defaults_stored_iff hcompiles
      (show (shiftDomain (.int 1)).get? "shift" = some (shift (.int 1)) from rfl) rfl
      hfield rfl rfl rfl rfl shiftSteps
  have hids :
    (shiftCatalog.insert "shift" ⟨2, 0⟩ [{}] (shiftCatalog.run shiftSteps)).1.ids = .ok [.int 1] :=
    eq_ok_of_toOption (by decide +kernel)
  have hok :
    (shiftCatalog.replace "shift" ⟨2, 0⟩ (.int 7) {} (shiftCatalog.run shiftSteps)).1 = .ok () :=
    eq_ok_of_toOption (by decide +kernel)
  rw [hstored.2 ⟨rfl, fun _ => rfl⟩] at hinserted hreplaced
  have hall := hinserted ⟨2, 0⟩ [{}] [] [.int 1] hids
  rw [List.append_nil] at hall
  exact ⟨table, c, htable, hc, (List.forall₂_cons.1 hall).1, hreplaced _ _ _ hok⟩

/-- **A default that is not stored**: a shift is inserted, and has no leader. Nor is the default
checked: the name of a person is none of the keys of persons, which are whole numbers. -/
theorem leader_of_shift_not_stored :
    Catalog.ofDomain {} (shiftDomain (.int 1)) = .ok shiftCatalog
      ∧ (shiftDomain (.int 1)).get? "shift" = some (shift (.int 1))
      ∧ ("leader", leaderField (.int 1)) ∈ (shift (.int 1)).fields.entries
      ∧ (shiftCatalog.insert "shift" ⟨2, 0⟩ [{}] (shiftCatalog.run shiftSteps)).1.ids.toOption
        = some [.int 1]
      ∧ ((shiftCatalog.insert "shift" ⟨2, 0⟩ [{}]
        (shiftCatalog.run shiftSteps)).2.store.rows "shift").map
        (·.cell "leader") = [.null]
      ∧ Catalog.ofDomain {} (shiftDomain (.string "nobody")) = .ok shiftCatalog := by
  refine ⟨ofDomain_compiled rfl, rfl, List.mem_cons_self, ?_, ?_, rfl⟩
  · decide +kernel
  · decide +kernel

end Catalog

end RecordStore
