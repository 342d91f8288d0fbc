import RecordStore.Proofs.Except
import RecordStore.Proofs.WellFormed

/-!
# Compiled tables of resources

The table of a resource is well-formed, whatever its fields are, if the names in the settings are
different. Its columns come from its fields, or are set beside them.

* **`Declares`**, **`Refers`** — what a field becomes, by itself or when it points at another
  resource.
* **`Part.origin_of_mem`** — where a column of the table comes from.
* **`Part.columnNames_nodup_iff`** — columns have different names if those set beside the fields are
  different.
* **`Part.wellFormed_related`** — the table with its references is well-formed.
-/

namespace RecordStore

open Compile

/-! ## Lists of names -/

theorem find?_eq_of_nodup {α : Type} {items : List α} {name : α → String}
    (hnodup : (items.map name).Nodup) {x : α} (hx : x ∈ items) :
    items.find? (name · == name x) = some x := by
  have hfound : (items.find? (name · == name x)).isSome := by
    rw [List.find?_isSome]
    exact ⟨x, hx, by simp⟩
  obtain ⟨y, hy⟩ := Option.isSome_iff_exists.1 hfound
  have hname : name y = name x := by simpa using List.find?_some hy
  rw [hy, List.inj_on_of_nodup_map hnodup (List.mem_of_find?_eq_some hy) hx hname]

/-- Steps of which each gives at most one value, under the name of its item, give them in the order
of the items. -/
theorem sublist_names {α β γ : Type} {R : α → β → Prop} {items : List α} {results : List β}
    {value? : β → Option γ} {name : γ → String} (itemName : α → String)
    (hname : ∀ x y v, R x y → value? y = some v → name v = itemName x)
    (h : List.Forall₂ R items results) :
    ((results.filterMap value?).map name).Sublist (items.map itemName) := by
  -- on the items with their results, side by side
  induction h with
  | nil => exact .slnil
  | @cons x y items results hxy _ ih =>
    rw [List.filterMap_cons, List.map_cons]
    cases hv : value? y with
    | none => exact ih.cons _
    | some v =>
      simp only [List.map_cons, hname x y v hxy hv]
      exact ih.cons_cons _

theorem exists_of_mem_filterMap {α β γ : Type} {R : α → β → Prop} {items : List α}
    {results : List β} {value? : β → Option γ} (h : List.Forall₂ R items results) {v : γ}
    (hv : v ∈ results.filterMap value?) : ∃ x ∈ items, ∃ y, R x y ∧ value? y = some v := by
  obtain ⟨y, hy, hvalue⟩ := List.mem_filterMap.1 hv
  induction h with
  | nil => simp at hy
  | @cons x y' items results hxy _ ih =>
    rcases List.mem_cons.1 hy with rfl | hy
    · exact ⟨x, List.mem_cons_self, y, hxy, hvalue⟩
    · obtain ⟨x', hx', rest⟩ := ih (List.mem_filterMap.2 ⟨y, hy, hvalue⟩) hy
      exact ⟨x', List.mem_cons_of_mem _ hx', rest⟩

theorem exists_of_mem_left {α β : Type} {R : α → β → Prop} {items : List α} {results : List β}
    (h : List.Forall₂ R items results) {x : α} (hx : x ∈ items) : ∃ y ∈ results, R x y := by
  induction h with
  | nil => simp at hx
  | @cons x' y items results hxy _ ih =>
    rcases List.mem_cons.1 hx with rfl | hx
    · exact ⟨y, List.mem_cons_self, hxy⟩
    · obtain ⟨y', hy', hR⟩ := ih hx
      exact ⟨y', List.mem_cons_of_mem _ hy', hR⟩

theorem exists_of_mem_right {α β : Type} {R : α → β → Prop} {items : List α} {results : List β}
    (h : List.Forall₂ R items results) {y : β} (hy : y ∈ results) : ∃ x ∈ items, R x y :=
  exists_of_mem_left h.flip hy

namespace Compile

/-! ## Read options -/

theorem shares_of_withOptions {table t : Table} {name : String} {resource : Resource}
    (h : withOptions table name resource = .ok t) :
    t.SharesRows table ∧ t.resource = table.resource := by
  unfold withOptions at h
  dsimp only at h
  split at h
  · obtain rfl := Except.ok.inj h
    exact ⟨⟨rfl, rfl, rfl, rfl, rfl, rfl⟩, rfl⟩
  · obtain ⟨_, -, h⟩ := bind_eq_ok_iff.1 h
    obtain rfl := Except.ok.inj h
    exact ⟨⟨rfl, rfl, rfl, rfl, rfl, rfl⟩, rfl⟩

/-! ## Columns of a resource's own fields -/

/-- What is known of the column of a field that points at no other resource. -/
structure Declares (field : String) (spec : Field) (c : Column) : Prop where
  name_eq : c.name = field
  primaryKey_eq : c.primaryKey = spec.primaryKey
  references_eq : c.references = none
  defaultNow_eq : c.defaultNow = false
  number_integer : c.autoIncrement = true → c.type = .integer
  number_key : c.autoIncrement = true → c.primaryKey = true
  key_default : c.primaryKey = true → c.default? = none
  key_not_null : c.primaryKey = true → c.nullable = false
  default_accepted : ∀ v, c.default? = some v → c.type.accepts v = true

/-- What a field declares is found again in its column. -/
theorem declares_of_plainColumn {resource field : String} {spec : Field} {type : ColumnType}
    {c : Column} (h : plainColumn resource field spec type = .ok c) : Declares field spec c := by
  unfold plainColumn at h
  split at h
  · cases h
  · rename_i hdefault
    split at h
    -- a declared key has no default, and is numbered if it is an integer
    · rename_i hkey
      obtain rfl := Except.ok.inj h
      exact ⟨rfl, hkey.symm, rfl, rfl, fun hnumber => by simpa using hnumber, fun _ => rfl,
        fun _ => rfl, fun _ => rfl, nofun⟩
    · rename_i hkey
      obtain rfl := Except.ok.inj h
      -- any other column keeps its default, which was checked against the type
      refine ⟨rfl, by simpa using hkey, rfl, rfl, nofun, nofun, nofun, nofun, fun v hv => ?_⟩
      have hgiven : spec.default? = some v := hv
      simpa [hgiven] using hdefault

/-- What a field adds to the table of its resource before references are looked at. -/
theorem ownColumn_eq_ok {resource : String} {reserved : List String} {field : String} {spec : Field}
    {column? : Option Column} (h : ownColumn resource reserved (field, spec) = .ok column?) :
    field ∉ reserved
      ∧ (column? = none ∧ spec.target.isSome = true ∧ spec.primaryKey = false
        ∨ ∃ c, column? = some c ∧ spec.target = none ∧ Declares field spec c) := by
  unfold ownColumn at h
  dsimp only at h
  split at h
  · cases h
  · rename_i hreserved
    refine ⟨by simpa using hreserved, ?_⟩
    split at h
    · cases h
    · split at h
      · rename_i htarget
        split at h
        · cases h
        · rename_i hkey
          exact .inl ⟨(Except.ok.inj h).symm, htarget, by simpa using hkey⟩
      · rename_i htarget
        obtain ⟨c, hc, rfl⟩ := map_eq_ok_iff.1 h
        exact .inr ⟨c, rfl, by simpa using htarget, declares_of_plainColumn hc⟩

/-! ## References -/

theorem mem_relations {resource : Resource} {relation : Relation}
    (h : relation ∈ resource.relations) :
    (relation.field, relation.spec) ∈ resource.fields.entries
      ∧ relation.spec.target = some relation.target := by
  obtain ⟨⟨name, spec⟩, hentry, hmap⟩ := List.mem_filterMap.1 h
  obtain ⟨target, htarget, rfl⟩ := Option.map_eq_some_iff.1 hmap
  exact ⟨hentry, htarget⟩

theorem sublist_relations (resource : Resource) :
    (resource.relations.map Relation.field).Sublist resource.fields.keys := by
  refine sublist_names Prod.fst (R := Eq) ?_ (List.forall₂_refl resource.fields.entries)
  rintro ⟨name, spec⟩ _ relation rfl hmap
  obtain ⟨target, -, rfl⟩ := Option.map_eq_some_iff.1 hmap
  rfl

/-- What is known of what a relation becomes: a column for one key, or a link table for many. -/
inductive Refers (tables : List Table) (owner : String) (relation : Relation) : Reference → Prop
  | column {target : Table} {key : Column} (htarget : target ∈ tables)
      (hkey : target.keyColumn? = some key) (hone : relation.spec.cardinality = .one) :
      Refers tables owner relation (.column (referenceColumn relation target key))
  | link {target : Table} (htarget : target ∈ tables) (hmany : relation.spec.cardinality = .many) :
      Refers tables owner relation (.link ⟨owner, relation.field, target.resource⟩)

theorem keyOf_eq_ok_iff {table : Table} {c : Column} :
    keyOf table = .ok c ↔ table.keyColumn? = some c := by
  unfold keyOf
  cases table.keyColumn? <;> simp

/-- What a relation points at is one of the compiled tables. -/
theorem mem_of_targetTable {domain : Domain} {tables : List Table} {owner : String}
    {relation : Relation} {target : Table}
    (h : targetTable domain tables owner relation = .ok target) :
    target ∈ tables := by
  unfold targetTable at h
  dsimp only at h
  split at h
  · rename_i t hfound
    obtain rfl := Except.ok.inj h
    obtain ⟨resource, -, hfind⟩ := Option.bind_eq_some_iff.1 hfound
    exact List.mem_of_find?_eq_some hfind
  · cases h

/-- A relation becomes a column for one target and a list for many. -/
theorem refers_of_reference {domain : Domain} {tables : List Table} {owner : String}
    {relation : Relation} {ref : Reference} (h : reference domain tables owner relation = .ok ref) :
    Refers tables owner relation ref := by
  obtain ⟨target, htarget, h⟩ := bind_eq_ok_iff.1 h
  obtain ⟨key, hkey, h⟩ := bind_eq_ok_iff.1 h
  have hmem := mem_of_targetTable htarget
  -- both cardinalities need the key of the target, a link table too
  split at h
  · rename_i hone
    obtain rfl := Except.ok.inj h
    exact .column hmem (keyOf_eq_ok_iff.1 hkey) hone
  · rename_i hmany
    obtain rfl := Except.ok.inj h
    exact .link hmem hmany

theorem refers_of_relate {domain : Domain} {tables : List Table} {entry : String × Resource}
    {refs : List Reference} (h : relate domain tables entry = .ok refs) :
    List.Forall₂ (Refers tables entry.1) entry.2.relations refs :=
  (mapM_eq_ok_iff.1 h).imp fun _ _ => refers_of_reference

/-! ## Tables of resources -/

/-- What is known of the table of a resource before references are looked at. -/
structure OwnTable (settings : Settings) (name : String) (resource : Resource)
    (own : List (Option Column)) (t : Table) : Prop where
  one_key : resource.keyFields.length ≤ 1
  own_eq : List.Forall₂ (fun entry column? =>
    ownColumn name (reservedNames settings resource) entry = .ok column?)
      resource.fields.entries own
  name_eq : t.name = name
  resource_eq : t.resource = name
  columns_eq : t.columns = (if resource.keyFields.isEmpty then [.identity settings.idField] else [])
    ++ own.filterMap id ++ [.timestamp createdColumn, .timestamp updatedColumn]
    ++ (if resource.softDelete then [.deletedFlag settings.deletedField] else [])
  primaryKey_eq : t.primaryKey = resource.keyFields.head?.getD settings.idField
  deletedColumn_eq : t.deletedColumn = if resource.softDelete
    then some settings.deletedField else none
  lists_eq : t.lists = []

theorem identityColumns_eq_ok {settings : Settings} {resource : Resource} {columns : List Column}
    (h : identityColumns settings resource = .ok columns) :
    columns = if resource.keyFields.isEmpty then [.identity settings.idField] else [] := by
  unfold identityColumns at h
  split at h
  · rename_i hkeys
    obtain ⟨_, -, h⟩ := bind_eq_ok_iff.1 h
    rw [if_pos hkeys]
    exact (Except.ok.inj h).symm
  · rename_i hkeys
    rw [if_neg hkeys]
    exact (Except.ok.inj h).symm

/-- A resource that hides its deleted records has one flag, under the name that the settings
give. -/
theorem flagColumns_eq_ok {settings : Settings} {resource : Resource} {columns : List Column}
    (h : flagColumns settings resource = .ok columns) :
    columns = if resource.softDelete then [.deletedFlag settings.deletedField] else [] := by
  unfold flagColumns at h
  split at h
  · rename_i hsoft
    obtain ⟨_, -, h⟩ := bind_eq_ok_iff.1 h
    rw [if_pos hsoft]
    exact (Except.ok.inj h).symm
  · rename_i hsoft
    rw [if_neg hsoft]
    exact (Except.ok.inj h).symm

/-- The table of a resource, before its relations, is made of set columns and of those that its
fields declare. -/
theorem ownTable_eq_ok {settings : Settings} {entry : String × Resource} {t : Table}
    (h : ownTable settings entry = .ok t) :
    ∃ own, OwnTable settings entry.1 entry.2 own t := by
  obtain ⟨name, resource⟩ := entry
  unfold ownTable at h
  dsimp only at h
  split at h
  · obtain ⟨_, hfail, -⟩ := bind_eq_ok_iff.1 h
    cases hfail
  · rename_i hkeys
    obtain ⟨identity, hidentity, h⟩ := bind_eq_ok_iff.1 h
    obtain ⟨own, hown, h⟩ := bind_eq_ok_iff.1 h
    obtain ⟨flags, hflags, h⟩ := bind_eq_ok_iff.1 h
    obtain ⟨hshares, hresource⟩ := shares_of_withOptions h
    refine ⟨own, Nat.not_lt.1 hkeys, mapM_eq_ok_iff.1 hown, hshares.name, hresource, ?_,
      hshares.primaryKey, hshares.deletedColumn, hshares.lists⟩
    rw [hshares.columns, identityColumns_eq_ok hidentity, flagColumns_eq_ok hflags]

/-- A resource with a table of its own, and what its fields have become. -/
structure Part where
  entry : String × Resource
  plain : Table
  references : List Reference

/-- Columns that point at other resources are not there yet when the options of a resource are
checked. -/
theorem references_of_ownTable {settings : Settings} {entry : String × Resource} {t : Table}
    (h : ownTable settings entry = .ok t) : ∀ c ∈ t.columns, c.references = none := by
  obtain ⟨own, hplain⟩ := ownTable_eq_ok h
  rw [hplain.columns_eq]
  intro c hc
  simp only [List.mem_append] at hc
  rcases hc with ((hc | hc) | hc) | hc
  · split at hc
    · rw [List.mem_singleton.1 hc]
      rfl
    · cases hc
  · obtain ⟨⟨field, spec⟩, -, column?, hcolumn, rfl⟩ := exists_of_mem_filterMap hplain.own_eq hc
    obtain ⟨-, ⟨hnone, -, -⟩ | ⟨c', hc', -, hdeclares⟩⟩ := ownColumn_eq_ok hcolumn
    · cases hnone
    · obtain rfl := Option.some.inj hc'
      exact hdeclares.references_eq
  · simp only [List.mem_cons, List.not_mem_nil, or_false] at hc
    rcases hc with rfl | rfl <;> rfl
  · split at hc
    · rw [List.mem_singleton.1 hc]
      rfl
    · cases hc

namespace Part

def related (part : Part) : Table := withReferences part.plain part.references

/-- The part was compiled beside tables that relations may point at. -/
structure Compiled (settings : Settings) (domain : Domain) (tables : List Table) (part : Part) :
    Prop where
  plain_eq : ownTable settings part.entry = .ok part.plain
  references_eq : relate domain tables part.entry = .ok part.references

/-- Where a column of the table of a resource comes from. -/
inductive Origin (settings : Settings) (tables : List Table) (resource : Resource) : Column → Prop
  | identity (hkeys : resource.keyFields.isEmpty = true) :
      Origin settings tables resource (.identity settings.idField)
  | field {field : String} {spec : Field} {c : Column}
      (hentry : (field, spec) ∈ resource.fields.entries)
      (hplain : spec.target = none) (hdeclares : Declares field spec c) :
      Origin settings tables resource c
  | stamp {name : String} (hname : name ∈ Change.stampColumns) :
      Origin settings tables resource (.timestamp name)
  | flag (hsoft : resource.softDelete = true) :
      Origin settings tables resource (.deletedFlag settings.deletedField)
  | reference {relation : Relation} {target : Table} {key : Column}
      (hrelation : relation ∈ resource.relations) (htarget : target ∈ tables)
      (hkey : target.keyColumn? = some key) (hone : relation.spec.cardinality = .one) :
      Origin settings tables resource (referenceColumn relation target key)

variable {settings : Settings} {domain : Domain} {tables : List Table} {part : Part}

theorem column_of_reference {owner : String} {relation : Relation} {ref : Reference} {c : Column}
    (href : Refers tables owner relation ref) (hc : ref.column? = some c) :
    ∃ target ∈ tables, ∃ key, target.keyColumn? = some key ∧ relation.spec.cardinality = .one
      ∧ c = referenceColumn relation target key := by
  cases href with
  | column htarget hkey hone => exact ⟨_, htarget, _, hkey, hone, (Option.some.inj hc).symm⟩
  | link => cases hc

/-- Every column of a compiled table was set, declared by a field or made for a relation. -/
theorem origin_of_mem (h : part.Compiled settings domain tables) {c : Column}
    (hc : c ∈ part.related.columns) : Origin settings tables part.entry.2 c := by
  obtain ⟨own, hplain⟩ := ownTable_eq_ok h.plain_eq
  have hrefs := refers_of_relate h.references_eq
  change c ∈ part.plain.columns ++ part.references.filterMap Reference.column? at hc
  rw [hplain.columns_eq] at hc
  simp only [List.mem_append] at hc
  -- the columns in the order in which they are put together
  rcases hc with (((hc | hc) | hc) | hc) | hc
  · split at hc
    · rename_i hkeys
      rw [List.mem_singleton.1 hc]
      exact .identity hkeys
    · cases hc
  · obtain ⟨⟨field, spec⟩, hentry, column?, hcolumn, rfl⟩ :=
      exists_of_mem_filterMap hplain.own_eq hc
    obtain ⟨-, ⟨hnone, -, -⟩ | ⟨c', hc', htarget, hdeclares⟩⟩ := ownColumn_eq_ok hcolumn
    · cases hnone
    · obtain rfl := Option.some.inj hc'
      exact .field hentry htarget hdeclares
  · simp only [List.mem_cons, List.not_mem_nil, or_false] at hc
    rcases hc with rfl | rfl
    · exact .stamp List.mem_cons_self
    · exact .stamp (List.mem_cons_of_mem _ List.mem_cons_self)
  · split at hc
    · rename_i hsoft
      rw [List.mem_singleton.1 hc]
      exact .flag hsoft
    · cases hc
  · obtain ⟨relation, hrelation, ref, href, hcolumn⟩ := exists_of_mem_filterMap hrefs hc
    obtain ⟨target, htarget, key, hkey, hone, rfl⟩ := column_of_reference href hcolumn
    exact .reference hrelation htarget hkey hone

/-! ### Names of columns

The names that the settings and the stamps give are reserved, the names of fields are not, and a
field gives its name to one column at most. -/

theorem not_reserved {own : List (Option Column)} {name : String} {resource : Resource} {t : Table}
    (h : OwnTable settings name resource own t) {entry : String × Field}
    (hentry : entry ∈ resource.fields.entries) : entry.1 ∉ reservedNames settings resource := by
  -- a field with a reserved name fails, and all fields were gone through
  obtain ⟨column?, -, hcolumn⟩ := exists_of_mem_left h.own_eq hentry
  exact (ownColumn_eq_ok hcolumn).1

/-- The names of the columns that do not come from fields. -/
def setNames (settings : Settings) (resource : Resource) : List String :=
  (if resource.keyFields.isEmpty then [settings.idField] else [])
    ++ [createdColumn, updatedColumn]
    ++ (if resource.softDelete then [settings.deletedField] else [])

theorem setNames_nodup (hnames : settings.NamesApart) (resource : Resource) :
    (setNames settings resource).Nodup := by
  have hstamps : createdColumn ≠ updatedColumn := by decide
  simp only [Settings.NamesApart, List.nodup_cons, List.mem_cons, List.not_mem_nil, or_false,
    not_or] at hnames
  obtain ⟨⟨hflag, hcreated, hupdated⟩, ⟨hfcreated, hfupdated⟩, -⟩ := hnames
  unfold setNames
  cases resource.keyFields.isEmpty <;> cases resource.softDelete <;>
    simp [hstamps, hflag, hcreated, hupdated, Ne.symm hfcreated, Ne.symm hfupdated]

theorem mem_reserved_of_setNames {resource : Resource} {name : String}
    (h : name ∈ setNames settings resource) : name ∈ reservedNames settings resource := by
  unfold setNames at h
  unfold reservedNames
  simp only [List.mem_append] at h ⊢
  rcases h with (h | h) | h
  · exact .inr h
  · exact .inl (.inl h)
  · exact .inl (.inr h)

/-- The names of the columns that come from fields. -/
def fieldNames (own : List (Option Column)) (references : List Reference) : List String :=
  (own.filterMap id).map Column.name ++ (references.filterMap Reference.column?).map Column.name

theorem own_names {own : List (Option Column)} {name : String} {resource : Resource} {t : Table}
    (h : OwnTable settings name resource own t) :
    ((own.filterMap id).map Column.name).Sublist resource.fields.keys
      ∧ ∀ c ∈ own.filterMap id, ∃ spec, (c.name, spec) ∈ resource.fields.entries
        ∧ spec.target = none := by
  constructor
  · refine sublist_names Prod.fst ?_ h.own_eq
    rintro ⟨field, spec⟩ column? c hcolumn rfl
    obtain ⟨-, ⟨hnone, -, -⟩ | ⟨c', hc', -, hdeclares⟩⟩ := ownColumn_eq_ok hcolumn
    · cases hnone
    · obtain rfl := Option.some.inj hc'
      exact hdeclares.name_eq
  · intro c hc
    obtain ⟨⟨field, spec⟩, hentry, column?, hcolumn, rfl⟩ := exists_of_mem_filterMap h.own_eq hc
    obtain ⟨-, ⟨hnone, -, -⟩ | ⟨c', hc', htarget, hdeclares⟩⟩ := ownColumn_eq_ok hcolumn
    · cases hnone
    · obtain rfl := Option.some.inj hc'
      exact ⟨spec, hdeclares.name_eq ▸ hentry, htarget⟩

/-- The columns for relations are named after the fields that declare them. -/
theorem reference_names {owner : String} {resource : Resource} {references : List Reference}
    (h : List.Forall₂ (Refers tables owner) resource.relations references) :
    ((references.filterMap Reference.column?).map Column.name).Sublist resource.fields.keys
      ∧ ∀ c ∈ references.filterMap Reference.column?, ∃ spec,
        (c.name, spec) ∈ resource.fields.entries ∧ spec.target.isSome = true
          ∧ spec.cardinality = .one := by
  constructor
  · refine (sublist_names Relation.field ?_ h).trans (sublist_relations resource)
    intro relation ref c href hc
    obtain ⟨target, -, key, -, -, rfl⟩ := column_of_reference href hc
    rfl
  · intro c hc
    obtain ⟨relation, hrelation, ref, href, hcolumn⟩ := exists_of_mem_filterMap h hc
    obtain ⟨target, -, key, -, hone, rfl⟩ := column_of_reference href hcolumn
    obtain ⟨hentry, htarget⟩ := mem_relations hrelation
    exact ⟨relation.spec, hentry, by rw [htarget]; rfl, hone⟩

/-- Fields have different names, so their columns have, whether they point at a resource or not. -/
theorem fieldNames_nodup {own : List (Option Column)} {name owner : String} {resource : Resource}
    {t : Table} {references : List Reference} (h : OwnTable settings name resource own t)
    (hrefs : List.Forall₂ (Refers tables owner) resource.relations references) :
    (fieldNames own references).Nodup := by
  obtain ⟨hownsub, hown⟩ := own_names h
  obtain ⟨hrefsub, href⟩ := reference_names hrefs
  refine List.nodup_append.2
    ⟨hownsub.nodup resource.fields.nodup, hrefsub.nodup resource.fields.nodup, ?_⟩
  -- a field points at a resource or does not
  rintro _ hc _ hd rfl
  obtain ⟨c, hc, hname⟩ := List.mem_map.1 hc
  obtain ⟨d, hd, hdname⟩ := List.mem_map.1 hd
  obtain ⟨spec, hspec, hnone⟩ := hown c hc
  obtain ⟨spec', hspec', hsome, -⟩ := href d hd
  rw [hname, ← NameMap.get?_eq_some_iff] at hspec
  rw [hdname, ← NameMap.get?_eq_some_iff] at hspec'
  obtain rfl := Option.some.inj (hspec.symm.trans hspec')
  rw [hnone] at hsome
  cases hsome

/-- The columns of a table are those that are set beside those of its fields, in an order of their
own. -/
theorem columnNames_perm {own : List (Option Column)}
    (h : OwnTable settings part.entry.1 part.entry.2 own part.plain) :
    part.related.columnNames.Perm
      (setNames settings part.entry.2 ++ fieldNames own part.references) := by
  have hcolumns : part.related.columnNames
      = (if part.entry.2.keyFields.isEmpty then [settings.idField] else [])
        ++ (own.filterMap id).map Column.name ++ [createdColumn, updatedColumn]
        ++ (if part.entry.2.softDelete then [settings.deletedField] else [])
        ++ (part.references.filterMap Reference.column?).map Column.name := by
    show List.map Column.name (part.plain.columns ++ _) = _
    rw [h.columns_eq]
    cases part.entry.2.keyFields.isEmpty <;> cases part.entry.2.softDelete <;>
      simp [Column.identity, Column.timestamp, Column.deletedFlag]
  rw [hcolumns, setNames, fieldNames, List.append_assoc, List.append_assoc, List.append_assoc,
    List.append_assoc, List.append_assoc]
  -- only the names of fields have to be brought together
  refine List.Perm.append_left _ ?_
  rw [← List.append_assoc [createdColumn, updatedColumn],
    ← List.append_assoc [createdColumn, updatedColumn]]
  exact List.perm_append_comm_assoc _ _ _

/-- Names clash only if they were set beside the fields. -/
theorem columnNames_nodup_iff (h : part.Compiled settings domain tables) :
    part.related.columnNames.Nodup ↔ (setNames settings part.entry.2).Nodup := by
  obtain ⟨own, hplain⟩ := ownTable_eq_ok h.plain_eq
  have hrefs := refers_of_relate h.references_eq
  rw [(columnNames_perm hplain).nodup_iff]
  refine ⟨List.Nodup.of_append_left, fun hset => List.nodup_append.2
    ⟨hset, fieldNames_nodup hplain hrefs, ?_⟩⟩
  -- a name that is set is reserved, and no field has a reserved name
  intro name hname other hfield heq
  refine absurd (mem_reserved_of_setNames hname) ?_
  rw [heq]
  have hmem : other ∈ part.entry.2.fields.keys := by
    rcases List.mem_append.1 hfield with hown | href
    · exact (own_names hplain).1.subset hown
    · exact (reference_names hrefs).1.subset href
  obtain ⟨entry, hentry, rfl⟩ := List.mem_map.1 hmem
  exact not_reserved hplain hentry

theorem columnNames_nodup (h : part.Compiled settings domain tables)
    (hnames : settings.NamesApart) :
    part.related.columnNames.Nodup :=
  (columnNames_nodup_iff h).2 (setNames_nodup hnames part.entry.2)

/-! ### Tables -/

/-- The key of a resource is numbered or declared, and never a reference. -/
theorem key_related (h : part.Compiled settings domain tables) (hnames : settings.NamesApart) :
    ∃ c ∈ part.plain.columns, part.related.keyColumn? = some c ∧ c.primaryKey = true
      ∧ c.defaultNow = false ∧ c.references = none := by
  obtain ⟨own, hplain⟩ := ownTable_eq_ok h.plain_eq
  -- names differ, so the column found by the name of the key is the one that is named
  suffices hkey : ∃ c ∈ part.plain.columns, c.name = part.plain.primaryKey ∧ c.primaryKey = true
      ∧ c.defaultNow = false ∧ c.references = none by
    obtain ⟨c, hc, hname, hrest⟩ := hkey
    refine ⟨c, hc, ?_, hrest⟩
    show part.related.columns.find? (·.name == part.plain.primaryKey) = some c
    rw [← hname]
    exact find?_eq_of_nodup (columnNames_nodup h hnames) (List.mem_append_left _ hc)
  rw [hplain.primaryKey_eq, hplain.columns_eq]
  cases hkeys : part.entry.2.keyFields with
  -- no declared key: the number stands in the first column
  | nil => exact ⟨.identity settings.idField, by simp, rfl, rfl, rfl, rfl⟩
  | cons field rest =>
    have hmem : field ∈ part.entry.2.keyFields := by rw [hkeys]; exact List.mem_cons_self
    obtain ⟨entry, hentry, rfl⟩ := List.mem_map.1 hmem
    obtain ⟨hentry, hprimary⟩ := List.mem_filter.1 hentry
    obtain ⟨column?, hown, hcolumn⟩ := exists_of_mem_left hplain.own_eq hentry
    obtain ⟨-, ⟨-, -, hnot⟩ | ⟨c, rfl, -, hdeclares⟩⟩ := ownColumn_eq_ok hcolumn
    -- a declared key that points at a resource fails
    · rw [hprimary] at hnot
      cases hnot
    · refine ⟨c, ?_, hdeclares.name_eq, hdeclares.primaryKey_eq.trans hprimary,
        hdeclares.defaultNow_eq, hdeclares.references_eq⟩
      simp [hown]

/-- A default is of the type of its column. -/
theorem default_accepted_related (h : part.Compiled settings domain tables) {c : Column}
    (hc : c ∈ part.related.columns) {v : Value} (hv : c.default? = some v) :
    c.type.accepts v = true := by
  cases origin_of_mem h hc with
  | identity => cases hv
  | field _ _ hdeclares => exact hdeclares.default_accepted v hv
  | stamp => cases hv
  | flag =>
    obtain rfl := Option.some.inj hv
    rfl
  | reference => cases hv

/-- What a well-formed table needs is read off the origins of its columns. -/
theorem wellFormed_related (h : part.Compiled settings domain tables)
    (hnames : settings.NamesApart) :
    part.related.WellFormed where
  names_nodup := columnNames_nodup h hnames
  key := by
    obtain ⟨c, -, hkey⟩ := key_related h hnames
    exact ⟨c, hkey⟩
  default_accepted _ hc _ hv := default_accepted_related h hc hv
  stamp_datetime c hc hstamp := by
    cases origin_of_mem h hc with
    | identity => cases hstamp
    | field _ _ hdeclares =>
      rw [hdeclares.defaultNow_eq] at hstamp
      cases hstamp
    | stamp => rfl
    | flag => cases hstamp
    | reference => cases hstamp
  number_integer c hc hnumber := by
    cases origin_of_mem h hc with
    | identity => rfl
    | field _ _ hdeclares => exact hdeclares.number_integer hnumber
    | stamp => cases hnumber
    | flag => cases hnumber
    | reference => cases hnumber
  stamps name hname := by
    obtain ⟨own, hplain⟩ := ownTable_eq_ok h.plain_eq
    refine ⟨.timestamp name, List.mem_append_left _ ?_, rfl, rfl⟩
    rw [hplain.columns_eq]
    simp only [Change.stampColumns, List.mem_cons, List.not_mem_nil, or_false] at hname
    rcases hname with rfl | rfl <;> simp
  flag name hname := by
    obtain ⟨own, hplain⟩ := ownTable_eq_ok h.plain_eq
    have hdeleted : part.plain.deletedColumn = some name := hname
    rw [hplain.deletedColumn_eq] at hdeleted
    split at hdeleted
    · rename_i hsoft
      obtain rfl := Option.some.inj hdeleted
      refine ⟨.deletedFlag settings.deletedField, List.mem_append_left _ ?_, rfl, rfl, rfl, rfl⟩
      rw [hplain.columns_eq]
      simp [hsoft]
    · cases hdeleted

/-- A reference of a resource is to the key of one of the tables, and has its type. -/
theorem references_related (h : part.Compiled settings domain tables) {c : Column}
    (hc : c ∈ part.related.columns) {key : ForeignKey} (hkey : c.references = some key) :
    c.default? = none ∧ c.defaultNow = false ∧ ∃ target ∈ tables, ∃ k,
      key = ⟨target.name, k.name⟩ ∧ target.keyColumn? = some k ∧ c.type = k.type := by
  cases origin_of_mem h hc with
  | identity => cases hkey
  | field _ _ hdeclares =>
    rw [hdeclares.references_eq] at hkey
    cases hkey
  | stamp => cases hkey
  | flag => cases hkey
  | @reference relation target k hrelation htarget hk hone =>
    obtain rfl := Option.some.inj hkey
    exact ⟨rfl, rfl, target, htarget, k, rfl, hk, rfl⟩

/-- A field that lists keys is no column. -/
theorem not_column_of_many (h : part.Compiled settings domain tables) {relation : Relation}
    (hrelation : relation ∈ part.entry.2.relations) (hmany : relation.spec.cardinality = .many) :
    part.related.hasColumn relation.field = false := by
  obtain ⟨own, hplain⟩ := ownTable_eq_ok h.plain_eq
  obtain ⟨hentry, htarget⟩ := mem_relations hrelation
  have hspec {spec : Field} (hspec : (relation.field, spec) ∈ part.entry.2.fields.entries) :
      spec = relation.spec := by
    rw [← NameMap.get?_eq_some_iff] at hspec hentry
    exact Option.some.inj (hspec.symm.trans hentry)
  rw [Table.hasColumn, Option.isSome_eq_false_iff, Option.isNone_iff_eq_none, Table.column?,
    List.find?_eq_none]
  intro c hc hname
  have hmem : relation.field ∈ part.related.columnNames := by
    rw [← beq_iff_eq.1 hname]
    exact List.mem_map_of_mem hc
  rw [(columnNames_perm hplain).mem_iff, List.mem_append, fieldNames, List.mem_append] at hmem
  -- the name would be reserved, or the field would be plain, or hold one key
  rcases hmem with hset | hown | href
  · exact not_reserved hplain hentry (mem_reserved_of_setNames hset)
  · obtain ⟨d, hd, hdname⟩ := List.mem_map.1 hown
    obtain ⟨spec, hdspec, hnone⟩ := (own_names hplain).2 d hd
    rw [hdname] at hdspec
    rw [hspec hdspec, htarget] at hnone
    cases hnone
  · obtain ⟨d, hd, hdname⟩ := List.mem_map.1 href
    obtain ⟨spec, hdspec, -, hone⟩ := (reference_names (refers_of_relate h.references_eq)).2 d hd
    rw [hdname] at hdspec
    rw [hspec hdspec, hmany] at hone
    cases hone

end Part

end Compile

end RecordStore
