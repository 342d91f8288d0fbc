import RecordStore.Change
import RecordStore.Proofs.Equality
import RecordStore.Proofs.Except
import RecordStore.Proofs.WellFormed

/-!
# What documents are stored as

A document is checked, its numbers are made doubles where the columns hold doubles, and its fields
are divided between a row and the lists beside it. This module says which cells the row has
(`get?_withDoubles`, `get?_rowOf`), and what a checked document is known to hold
(`accepts_of_check`, `members_of_check`).
-/

namespace RecordStore

/-- A number as a double, and any other value as it is. -/
def Value.asDouble (v : Value) : Value := (v.double?.map Value.float).getD v

theorem Value.asDouble_of_double? {v : Value} {x : Double} (h : v.double? = some x) :
    v.asDouble = .float x := by
  rw [Value.asDouble, h]
  rfl

theorem Value.asDouble_of_none {v : Value} (h : v.double? = none) : v.asDouble = v := by
  rw [Value.asDouble, h]
  rfl

theorem Value.asDouble_asDouble (v : Value) : v.asDouble.asDouble = v.asDouble := by
  cases h : v.double? with
  | none => rw [asDouble_of_none h, asDouble_of_none h]
  | some x => rw [asDouble_of_double? h, asDouble_of_double? (x := x) rfl]

theorem Value.isNull_asDouble (v : Value) : v.asDouble.isNull = v.isNull := by
  cases v <;> rfl

namespace ColumnType

theorem accepts_asDouble {v : Value} (h : float.accepts v = true) :
    float.accepts v.asDouble = true := by
  cases v <;> exact h

/-- A number that a column of doubles takes is a double once it is made one. -/
theorem asDouble_eq_float {v : Value} (h : float.accepts v = true) (hv : v.isNull = false) :
    ∃ x, v.asDouble = .float x := by
  obtain ⟨x, hx⟩ := exists_double_of_accepts h hv
  exact ⟨x, Value.asDouble_of_double? hx⟩

end ColumnType

namespace Change

/-! ## Numbers as doubles -/

/-- One column of doubles is given a double, and nothing else is touched. -/
theorem get?_withDouble (r : Record) (c : Column) (name : String) :
    (withDouble r c).get? name
      = if name = c.name then (r.get? name).map Value.asDouble else r.get? name := by
  unfold withDouble
  split
  · rename_i x hx
    obtain ⟨v, hv, hdouble⟩ := Option.bind_eq_some_iff.1 hx
    rw [NameMap.get?_insert]
    split
    · rename_i hname
      rw [hname, hv, Option.map_some, Value.asDouble_of_double? hdouble]
    · rfl
  · rename_i hnone
    split
    -- the cell of the column is absent or no number, and is left as it is
    · rename_i hname
      rw [hname]
      cases hv : r.get? c.name with
      | none => rfl
      | some v =>
        rw [hv, Option.bind_some] at hnone
        rw [Option.map_some, Value.asDouble_of_none hnone]
    · rfl

theorem keys_withDouble (r : Record) (c : Column) : (withDouble r c).keys = r.keys := by
  unfold withDouble
  split
  · rename_i x hx
    obtain ⟨v, hv, -⟩ := Option.bind_eq_some_iff.1 hx
    -- only a field that is there is written over, so no key is added
    exact NameMap.keys_insert_of_mem _ ((NameMap.mem_keys_iff _ _).2 (by simp [hv]))
  · rfl

theorem get?_foldl_withDouble (columns : List Column) (r : Record) (name : String) :
    (columns.foldl withDouble r).get? name
      = if name ∈ columns.map Column.name then (r.get? name).map Value.asDouble
        else r.get? name := by
  induction columns generalizing r with
  | nil => simp
  | cons c rest ih =>
    rw [List.foldl_cons, ih, get?_withDouble, List.map_cons]
    by_cases hrest : name ∈ rest.map Column.name
    · rw [if_pos hrest, if_pos (List.mem_cons_of_mem _ hrest)]
      -- a number that was made a double already stays that double
      split
      · rw [Option.map_map]
        exact congrArg (Option.map · (r.get? name)) (funext Value.asDouble_asDouble)
      · rfl
    · rw [if_neg hrest]
      by_cases hname : name = c.name
      · rw [if_pos hname, if_pos (hname ▸ List.mem_cons_self)]
      · rw [if_neg hname, if_neg (by simp [hname, hrest])]

/-- The names of the columns of doubles. -/
def doubleNames (table : Table) : List String :=
  (table.columns.filter (·.type == .float)).map Column.name

theorem mem_doubleNames {table : Table} {name : String} :
    name ∈ doubleNames table ↔ ∃ c ∈ table.columns, c.name = name ∧ c.type = .float := by
  unfold doubleNames
  rw [List.mem_map]
  constructor
  · rintro ⟨c, hc, hname⟩
    obtain ⟨hmem, htype⟩ := List.mem_filter.1 hc
    exact ⟨c, hmem, hname, by simpa using htype⟩
  · rintro ⟨c, hmem, hname, htype⟩
    exact ⟨c, List.mem_filter.2 ⟨hmem, by simpa using htype⟩, hname⟩

/-- A column that shares its name with no column of doubles but itself has the name of one if and
only if it is one. -/
theorem mem_doubleNames_iff {table base : Table} (hshares : table.SharesRows base) {c : Column}
    (hc : c ∈ base.columns)
    (hlone : ∀ d ∈ base.columns, d.type = .float → d.name = c.name → d = c) :
    c.name ∈ doubleNames table ↔ c.type = .float := by
  rw [mem_doubleNames, hshares.columns]
  constructor
  · rintro ⟨d, hd, hname, htype⟩
    exact hlone d hd htype hname ▸ htype
  · exact fun htype => ⟨c, hc, rfl, htype⟩

/-- Numbers that are given for columns of doubles are all that changes. -/
theorem get?_withDoubles (table : Table) (r : Record) (name : String) :
    (withDoubles table r).get? name
      = if name ∈ doubleNames table then (r.get? name).map Value.asDouble else r.get? name :=
  get?_foldl_withDouble _ r name

theorem keys_withDoubles (table : Table) (r : Record) : (withDoubles table r).keys = r.keys := by
  unfold withDoubles
  induction table.columns.filter (·.type == .float) generalizing r with
  | nil => rfl
  | cons c rest ih => rw [List.foldl_cons, ih, keys_withDouble]

/-! ## Rows and lists of a document -/

/-- A field of the row is a field of the document that is no list. -/
theorem get?_rowOf (table : Table) (doc : Record) (name : String) :
    (rowOf table doc).get? name
      = if (table.listField? name).isNone then doc.get? name else none := by
  have hnodup :
      ((doc.entries.filter fun entry => (table.listField? entry.1).isNone).map Prod.fst).Nodup :=
    doc.nodup.sublist (List.Sublist.map Prod.fst List.filter_sublist)
  -- both sides hold a value exactly when the entry passes the filter
  apply Option.ext
  intro v
  rw [rowOf, NameMap.get?_ofList_eq_some_iff hnodup, List.mem_filter]
  split
  · rename_i hnone
    rw [NameMap.get?_eq_some_iff]
    exact and_iff_left hnone
  · rename_i hsome
    exact iff_of_false (fun h => hsome h.2) (by simp)

/-- The lists of a document are its fields that are lists of the table, with the members that they
give. -/
theorem mem_listsOf {table : Table} {doc : Record} {m : ListField} {members : List Value} :
    (m, members) ∈ listsOf table doc
      ↔ ∃ v, (m.field, v) ∈ doc.entries ∧ table.listField? m.field = some m
        ∧ members = memberValues v := by
  unfold listsOf
  rw [List.mem_filterMap]
  constructor
  · rintro ⟨⟨field, v⟩, hentry, hmap⟩
    obtain ⟨m', hm', heq⟩ := Option.map_eq_some_iff.1 hmap
    obtain ⟨rfl, rfl⟩ := Prod.mk.inj heq
    obtain ⟨-, rfl⟩ := Table.mem_of_listField? hm'
    exact ⟨v, hentry, hm', rfl⟩
  · rintro ⟨v, hentry, hfield, rfl⟩
    exact ⟨(m.field, v), hentry, by rw [hfield]; rfl⟩

/-- What a document gives lists of are lists of the table. -/
theorem list_of_mem_listsOf {table : Table} {doc : Record} {entry : ListField × List Value}
    (h : entry ∈ listsOf table doc) : entry.1 ∈ table.lists := by
  obtain ⟨v, -, hfield, -⟩ := mem_listsOf.1 h
  exact (Table.mem_of_listField? hfield).1

end Change

/-! ## Checked documents -/

namespace Document

variable {schema : Schema} {table : Table} {doc : Record}

/-- A document that lacks a value is refused for the first that it lacks. -/
theorem check_of_lacks {c : Column} (hc : c ∈ table.columns) (h : lacks doc c = true) :
    ∃ d ∈ table.columns, check schema table doc = reject (.missingField d.name) := by
  cases hfind : table.columns.find? (lacks doc) with
  | none => exact absurd h (List.find?_eq_none.1 hfind c hc)
  | some d =>
    refine ⟨d, List.mem_of_find?_eq_some hfind, ?_⟩
    rw [check, hfind]

/-- A field that passes its check can be left out. -/
theorem checkPartial_erase_of_ok {name : String}
    (h : ∀ v, doc.get? name = some v → checkField schema table (name, v) = .ok ()) :
    checkPartial schema table (doc.erase name) = checkPartial schema table doc := by
  refine forM_filter_of_ok fun (field, v) hentry hname => ?_
  obtain rfl : field = name := by simpa using hname
  exact h v (NameMap.get?_of_mem hentry)

theorem checkPartial_of_check (h : check schema table doc = .ok ()) :
    checkPartial schema table doc = .ok () := by
  unfold check at h
  split at h
  · simp [reject] at h
  · exact h

/-- A value that passes the check of its column is of the column's type. -/
theorem accepts_of_checkValue {c : Column} {v : Value} (h : checkValue c v = .ok ()) :
    c.type.accepts v = true := by
  unfold checkValue at h
  split at h
  · rename_i hnull
    -- every type takes null
    cases v <;> simp_all [Value.isNull]
  · split at h
    · simp [reject] at h
    · rename_i haccepts
      simpa using haccepts

/-- A field of a checked document that is a column has a value that passes the check of the
column. -/
theorem checkValue_of_check (h : checkPartial schema table doc = .ok ()) {name : String}
    {c : Column} {v : Value} (hv : doc.get? name = some v) (hc : table.column? name = some c) :
    checkValue c v = .ok () := by
  have hfield := forM_eq_ok_iff.1 h (name, v) ((NameMap.get?_eq_some_iff ..).1 hv)
  unfold checkField at hfield
  simp only [hc] at hfield
  exact hfield

theorem accepts_of_check (h : checkPartial schema table doc = .ok ()) {name : String} {c : Column}
    {v : Value} (hv : doc.get? name = some v) (hc : table.column? name = some c) :
    c.type.accepts v = true :=
  accepts_of_checkValue (checkValue_of_check h hv hc)

theorem memberType_eq {m : ListField} {target : Table} {key : Column}
    (htarget : schema.table m.target = .ok target) (hkey : target.keyColumn? = some key) :
    memberType schema m = .ok key.type := by
  simp [memberType, htarget, Except.map, hkey]

/-- Members that are checked are keys of the target, and none of them is null. -/
theorem accepts_of_checkMembers {m : ListField} {v : Value} {target : Table} {key : Column}
    (h : checkMembers schema m v = .ok ()) (htarget : schema.table m.target = .ok target)
    (hkey : target.keyColumn? = some key) :
    ∀ member ∈ Change.memberValues v, member.isNull = false ∧ key.type.accepts member = true := by
  cases v with
  | array items =>
    rw [checkMembers, memberType_eq htarget hkey] at h
    change (if _ then _ else _) = _ at h
    split at h
    · rename_i hall
      intro member hmember
      simpa using List.all_eq_true.1 hall member hmember
    · simp [reject] at h
  -- anything but an array gives no members
  | _ => intro member hmember; simp [Change.memberValues] at hmember

/-- A field of a checked document that is a list has keys of its target. -/
theorem members_of_check (h : checkPartial schema table doc = .ok ()) {m : ListField}
    {members : List Value} (hmem : (m, members) ∈ Change.listsOf table doc)
    (happart : table.hasColumn m.field = false) {target : Table} {key : Column}
    (htarget : schema.table m.target = .ok target) (hkey : target.keyColumn? = some key) :
    ∀ member ∈ members, member.isNull = false ∧ key.type.accepts member = true := by
  obtain ⟨v, hentry, hfield, rfl⟩ := Change.mem_listsOf.1 hmem
  have hcheck := forM_eq_ok_iff.1 h _ hentry
  have hcolumn : table.column? m.field = none := by simpa [Table.hasColumn] using happart
  -- the check looks for a column first, and finds none of that name
  unfold checkField at hcheck
  simp only [hcolumn, hfield] at hcheck
  exact accepts_of_checkMembers hcheck htarget hkey

end Document

end RecordStore
