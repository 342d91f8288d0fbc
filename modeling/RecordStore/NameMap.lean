/-!
# Maps keyed by name, in order of declaration

A `NameMap` is a list of named entries in which no name occurs twice. Records, the fields of a
schema and the resources of a domain are all kept this way: the order of declaration is visible (it
is the order of columns, of members and of output), and a name has one value.

* `insert` gives an existing name its new value in place and puts a new name at the end.
* `erase` drops a name and keeps the others in order.
* `get?` is the view through which the laws below describe both.
-/

namespace RecordStore

/-- Named entries in order of declaration, with pairwise different names. -/
structure NameMap (α : Type) where
  entries : List (String × α)
  nodup : (entries.map Prod.fst).Nodup

namespace NameMap

variable {α : Type}

/-- The map without entries. -/
def empty : NameMap α := ⟨[], .nil⟩

instance : EmptyCollection (NameMap α) := ⟨empty⟩

instance : Inhabited (NameMap α) := ⟨empty⟩

/-- The names in order of declaration. -/
def keys (m : NameMap α) : List String := m.entries.map Prod.fst

/-- The values in order of declaration. -/
def values (m : NameMap α) : List α := m.entries.map Prod.snd

def isEmpty (m : NameMap α) : Bool := m.entries.isEmpty

/-- The value under a name, if the name is declared. -/
def get? (m : NameMap α) (name : String) : Option α := m.entries.lookup name

def contains (m : NameMap α) (name : String) : Bool := m.keys.contains name

/-- The entries with the value under `name` replaced; names keep their places. -/
def assign (name : String) (value : α) (entries : List (String × α)) : List (String × α) :=
  entries.map fun entry => (entry.1, if entry.1 = name then value else entry.2)

theorem map_fst_assign (name : String) (value : α) (entries : List (String × α)) :
    (assign name value entries).map Prod.fst = entries.map Prod.fst := by
  simp [assign]

theorem nodup_append_entry {m : NameMap α} {name : String} (value : α)
    (h : ¬ m.contains name = true) : ((m.entries ++ [(name, value)]).map Prod.fst).Nodup := by
  have absent : name ∉ m.entries.map Prod.fst := by simpa [contains, keys] using h
  rw [List.map_append, List.nodup_append]
  refine ⟨m.nodup, by simp, ?_⟩
  intro a ha b hb
  have : b = name := by simpa using hb
  subst this
  exact fun heq => absent (heq ▸ ha)

/-- Give `name` a value: in place when the name is declared, else at the end. -/
def insert (m : NameMap α) (name : String) (value : α) : NameMap α :=
  if h : m.contains name = true then
    ⟨assign name value m.entries, by rw [map_fst_assign]; exact m.nodup⟩
  else
    ⟨m.entries ++ [(name, value)], nodup_append_entry value h⟩

/-- Drop `name`; the other entries keep their order. -/
def erase (m : NameMap α) (name : String) : NameMap α :=
  ⟨m.entries.filter (·.1 ≠ name),
    m.nodup.sublist (List.Sublist.map Prod.fst List.filter_sublist)⟩

/-- Declare the entries one after the other: a repeated name keeps its first place and its last
value. -/
def ofList (entries : List (String × α)) : NameMap α :=
  entries.foldl (fun m entry => m.insert entry.1 entry.2) empty

/-- The same names with values computed from name and value. -/
def mapValues {β : Type} (f : String → α → β) (m : NameMap α) : NameMap β :=
  ⟨m.entries.map fun entry => (entry.1, f entry.1 entry.2), by
    have : (m.entries.map fun entry => (entry.1, f entry.1 entry.2)).map Prod.fst
        = m.entries.map Prod.fst := by simp
    rw [this]
    exact m.nodup⟩

/-! ### The view of each operation -/

/-- An entry that is assigned anew has the new value, wherever it stands. -/
theorem lookup_assign_self {name : String} {entries : List (String × α)} (value : α)
    (h : name ∈ entries.map Prod.fst) :
    (assign name value entries).lookup name = some value := by
  induction entries with
  | nil => simp at h
  | cons entry rest ih =>
    obtain ⟨key, old⟩ := entry
    simp only [assign, List.map_cons, List.lookup_cons] at ih ⊢
    by_cases hk : key = name
    · subst hk; simp
    · have hne : (name == key) = false := by simpa using fun heq => hk heq.symm
      simp only [hne]
      exact ih (by simpa [Ne.symm hk, eq_comm] using h)

theorem lookup_assign_of_ne {name other : String} (entries : List (String × α)) (value : α)
    (h : other ≠ name) : (assign name value entries).lookup other = entries.lookup other := by
  induction entries with
  | nil => rfl
  | cons entry rest ih =>
    obtain ⟨key, old⟩ := entry
    simp only [assign, List.map_cons, List.lookup_cons] at ih ⊢
    by_cases hk : other = key
    · subst hk; simp [h]
    · have hne : (other == key) = false := by simpa using hk
      simp only [hne, ih]

@[simp] theorem keys_mapValues {β : Type} (f : String → α → β) (m : NameMap α) :
    (m.mapValues f).keys = m.keys := by
  simp [mapValues, keys]

@[simp] theorem keys_empty : (∅ : NameMap α).keys = [] := rfl

@[simp] theorem get?_empty (name : String) : (empty : NameMap α).get? name = none := rfl

@[simp] theorem get?_insert_self (m : NameMap α) (name : String) (value : α) :
    (m.insert name value).get? name = some value := by
  unfold insert get?
  split
  · rename_i h
    exact lookup_assign_self value (by simpa [contains, keys] using h)
  · rename_i h
    have absent : name ∉ m.entries.map Prod.fst := by simpa [contains, keys] using h
    have : m.entries.lookup name = none := by
      rw [List.lookup_eq_none_iff]
      intro entry hmem
      have hne : name ≠ entry.1 := fun heq => absent (List.mem_map.2 ⟨entry, hmem, heq.symm⟩)
      simpa using hne
    simp [List.lookup_append, this]

theorem get?_insert_of_ne (m : NameMap α) {name other : String} (value : α) (h : other ≠ name) :
    (m.insert name value).get? other = m.get? other := by
  unfold insert get?
  split
  · exact lookup_assign_of_ne _ _ h
  · have hne : (other == name) = false := by simpa using h
    simp [List.lookup_append, List.lookup_cons, hne]

theorem keys_insert (m : NameMap α) (name : String) (value : α) :
    (m.insert name value).keys = if m.contains name then m.keys else m.keys ++ [name] := by
  unfold insert keys
  split
  · simp [map_fst_assign]
  · simp

theorem get?_insert (m : NameMap α) (name other : String) (value : α) :
    (m.insert name value).get? other = if other = name then some value else m.get? other := by
  by_cases h : other = name
  · subst h; simp
  · rw [if_neg h, get?_insert_of_ne m value h]

@[simp] theorem get?_erase_self (m : NameMap α) (name : String) :
    (m.erase name).get? name = none := by
  unfold erase get?
  rw [List.lookup_eq_none_iff]
  intro entry hmem
  have hne : entry.1 ≠ name := by simpa using (List.mem_filter.1 hmem).2
  simpa using hne.symm

/-! ### Entries and names

The entries, the names and the view say the same: a name is declared when it has a value, and its
value is the one of its only entry. -/

theorem ext {m n : NameMap α} (h : m.entries = n.entries) : m = n := by
  cases m; cases n; simp_all

instance [DecidableEq α] : DecidableEq (NameMap α) := fun m n =>
  decidable_of_iff (m.entries = n.entries) ⟨ext, congrArg entries⟩

/-- A name has a value exactly if the two are an entry, since no name has two. -/
theorem get?_eq_some_iff (m : NameMap α) (name : String) (value : α) :
    m.get? name = some value ↔ (name, value) ∈ m.entries := by
  obtain ⟨entries, nodup⟩ := m
  simp only [get?]
  induction entries with
  | nil => simp
  | cons entry rest ih =>
    obtain ⟨key, old⟩ := entry
    have hrest : key ∉ rest.map Prod.fst ∧ (rest.map Prod.fst).Nodup := List.nodup_cons.1 nodup
    rw [List.lookup_cons]
    by_cases hk : name = key
    · subst hk
      have absent : (name, value) ∉ rest := fun hmem => hrest.1 (List.mem_map.2 ⟨_, hmem, rfl⟩)
      simp [absent, eq_comm]
    · have hne : (name == key) = false := by simpa using hk
      simp [hne, ih hrest.2, hk]

theorem get?_of_mem {m : NameMap α} {entry : String × α} (h : entry ∈ m.entries) :
    m.get? entry.1 = some entry.2 :=
  (get?_eq_some_iff m entry.1 entry.2).2 h

theorem mem_keys_iff (m : NameMap α) (name : String) : name ∈ m.keys ↔ (m.get? name).isSome := by
  rw [Option.isSome_iff_exists]
  constructor
  · intro h
    obtain ⟨entry, hmem, rfl⟩ := List.mem_map.1 h
    exact ⟨entry.2, get?_of_mem hmem⟩
  · rintro ⟨value, h⟩
    exact List.mem_map.2 ⟨_, (get?_eq_some_iff m name value).1 h, rfl⟩

theorem contains_iff (m : NameMap α) (name : String) : m.contains name = true ↔ name ∈ m.keys := by
  simp [contains]

theorem mem_keys_insert (m : NameMap α) (name other : String) (value : α) :
    other ∈ (m.insert name value).keys ↔ other = name ∨ other ∈ m.keys := by
  rw [mem_keys_iff, mem_keys_iff, get?_insert]
  by_cases h : other = name <;> simp [h]

/-- A new value for a declared name leaves the names as they are. -/
theorem keys_insert_of_mem {m : NameMap α} {name : String} (value : α) (h : name ∈ m.keys) :
    (m.insert name value).keys = m.keys := by
  rw [keys_insert, if_pos ((contains_iff m name).2 h)]

/-- The names after an insertion depend on the names before it, and not on values. -/
theorem keys_insert_congr {β : Type} {m : NameMap α} {n : NameMap β} (h : m.keys = n.keys)
    (name : String) (v : α) (w : β) : (m.insert name v).keys = (n.insert name w).keys := by
  rw [keys_insert, keys_insert, contains, contains, h]

theorem keys_erase (m : NameMap α) (name : String) :
    (m.erase name).keys = m.keys.filter (· ≠ name) := by
  rw [keys, keys, List.filter_map]
  rfl

/-- A map is told by its names and by what stands under them. -/
theorem ext_get? {m n : NameMap α} (hkeys : m.keys = n.keys)
    (hget : ∀ name ∈ n.keys, m.get? name = n.get? name) : m = n := by
  have hlength : m.entries.length = n.entries.length := by
    simpa [keys] using congrArg List.length hkeys
  refine ext (List.ext_getElem hlength fun i hi hi' => ?_)
  have hname : m.entries[i].1 = n.entries[i].1 := by
    have hith : m.keys[i]? = n.keys[i]? := by rw [hkeys]
    simpa [keys, hi, hi'] using hith
  have hvalue := hget n.entries[i].1 (List.mem_map_of_mem (List.getElem_mem hi'))
  rw [get?_of_mem (List.getElem_mem hi'), ← hname, get?_of_mem (List.getElem_mem hi)] at hvalue
  exact Prod.ext hname (Option.some.inj hvalue)

theorem entries_insert_of_contains {m : NameMap α} {name : String} (value : α)
    (h : m.contains name = true) : (m.insert name value).entries = assign name value m.entries := by
  rw [insert, dif_pos h]

theorem entries_insert_of_not_contains {m : NameMap α} {name : String} (value : α)
    (h : ¬ m.contains name = true) :
    (m.insert name value).entries = m.entries ++ [(name, value)] := by
  rw [insert, dif_neg h]

theorem assign_assign (name : String) (value other : α) (entries : List (String × α)) :
    assign name other (assign name value entries) = assign name other entries := by
  simp only [assign, List.map_map]
  refine List.map_congr_left fun entry _ => ?_
  by_cases hk : entry.1 = name <;> simp [hk]

theorem assign_of_not_mem {name : String} (value : α) {entries : List (String × α)}
    (h : name ∉ entries.map Prod.fst) : assign name value entries = entries := by
  unfold assign
  refine (List.map_congr_left fun entry hmem => ?_).trans (List.map_id entries)
  have hne : entry.1 ≠ name := fun heq => h (List.mem_map.2 ⟨entry, hmem, heq⟩)
  simp [hne]

/-- Of two values for a name the last one stays. -/
theorem insert_insert (m : NameMap α) (name : String) (value other : α) :
    (m.insert name value).insert name other = m.insert name other := by
  have hself : (m.insert name value).contains name = true := by
    rw [contains_iff, mem_keys_insert]
    exact .inl rfl
  apply ext
  rw [entries_insert_of_contains other hself]
  by_cases hold : m.contains name = true
  · rw [entries_insert_of_contains value hold, entries_insert_of_contains other hold, assign_assign]
  · have absent : name ∉ m.entries.map Prod.fst := by simpa [contains, keys] using hold
    rw [entries_insert_of_not_contains value hold, entries_insert_of_not_contains other hold]
    have hsplit : assign name other (m.entries ++ [(name, value)])
        = assign name other m.entries ++ [(name, other)] := by simp [assign]
    rw [hsplit, assign_of_not_mem other absent]

theorem get?_mapValues {β : Type} (f : String → α → β) (m : NameMap α) (name : String) :
    (m.mapValues f).get? name = (m.get? name).map (f name) := by
  apply Option.ext
  intro value
  rw [get?_eq_some_iff, Option.map_eq_some_iff, mapValues, List.mem_map]
  constructor
  · rintro ⟨⟨key, old⟩, hentry, heq⟩
    obtain ⟨rfl, rfl⟩ := Prod.mk.inj heq
    exact ⟨old, get?_of_mem hentry, rfl⟩
  · rintro ⟨old, hold, rfl⟩
    exact ⟨(name, old), (get?_eq_some_iff ..).1 hold, rfl⟩

/-- A name that is dropped may have had any value. -/
theorem erase_insert (m : NameMap α) (name : String) (value : α) :
    (m.insert name value).erase name = m.erase name := by
  apply ext
  show (m.insert name value).entries.filter _ = m.entries.filter _
  by_cases hold : m.contains name = true
  · rw [entries_insert_of_contains value hold, assign, List.filter_map]
    refine (List.map_congr_left fun entry hentry => ?_).trans (List.map_id _)
    have hname : entry.1 ≠ name := by simpa using (List.mem_filter.1 hentry).2
    rw [if_neg hname, id]
  · rw [entries_insert_of_not_contains value hold, List.filter_append]
    simp

theorem get?_erase_of_ne (m : NameMap α) {name other : String} (h : other ≠ name) :
    (m.erase name).get? other = m.get? other := by
  apply Option.ext
  intro value
  rw [get?_eq_some_iff, get?_eq_some_iff]
  simp [erase, h]

/-! ### Maps from lists -/

/-- Entries with new names are put behind those that are there. -/
private theorem entries_foldl_insert (entries : List (String × α)) (m : NameMap α)
    (h : ((m.entries ++ entries).map Prod.fst).Nodup) :
    (entries.foldl (fun m entry => m.insert entry.1 entry.2) m).entries = m.entries ++ entries := by
  induction entries generalizing m with
  | nil => simp
  | cons entry rest ih =>
    have habsent : ¬ m.contains entry.1 = true := by
      rw [contains_iff]
      simp only [List.map_append, List.map_cons] at h
      exact fun hmem => (List.nodup_append.1 h).2.2 _ hmem _ List.mem_cons_self rfl
    have hstep : (m.insert entry.1 entry.2).entries = m.entries ++ [entry] := by
      unfold insert
      rw [dif_neg habsent]
    rw [List.foldl_cons, ih _ (by rw [hstep]; simpa using h), hstep, List.append_assoc,
      List.singleton_append]

theorem mem_keys_ofList {entries : List (String × α)} {name : String} :
    name ∈ (ofList entries).keys ↔ name ∈ entries.map Prod.fst := by
  have hfold (m : NameMap α) :
    name ∈ (entries.foldl (fun m entry => m.insert entry.1 entry.2) m).keys
      ↔ name ∈ m.keys ∨ name ∈ entries.map Prod.fst := by
    induction entries generalizing m with
    | nil => simp
    | cons entry rest ih =>
      rw [List.foldl_cons, ih, mem_keys_insert, List.map_cons, List.mem_cons, or_assoc,
        or_left_comm]
  exact (hfold empty).trans (by simp [empty, keys])

/-- Entries with pairwise different names are kept as they are. -/
theorem entries_ofList {entries : List (String × α)} (h : (entries.map Prod.fst).Nodup) :
    (ofList entries).entries = entries := by
  have := entries_foldl_insert entries (empty : NameMap α) (by simpa [empty] using h)
  simpa [ofList, empty] using this

theorem get?_ofList_eq_some_iff {entries : List (String × α)} (h : (entries.map Prod.fst).Nodup)
    (name : String) (value : α) :
    (ofList entries).get? name = some value ↔ (name, value) ∈ entries := by
  rw [get?_eq_some_iff, entries_ofList h]

/-- Nothing changes if a name is given the value that it has. -/
theorem insert_of_get? {m : NameMap α} {name : String} {value : α}
    (h : m.get? name = some value) : m.insert name value = m := by
  have hcontains : m.contains name = true := by
    rw [contains_iff, mem_keys_iff, h]
    rfl
  apply ext
  rw [entries_insert_of_contains value hcontains, assign]
  refine (List.map_congr_left fun entry hentry => ?_).trans (List.map_id m.entries)
  by_cases hname : entry.1 = name
  · have hvalue := get?_of_mem hentry
    rw [hname, h] at hvalue
    simp [hname, Option.some.inj hvalue, Prod.ext_iff]
  · simp [hname]

/-- A name that is given one value only has that value, however often it is given. -/
theorem get?_ofList_of_forall {entries : List (String × α)} {name : String}
    {value : α} (hmem : name ∈ entries.map Prod.fst)
    (hall : ∀ entry ∈ entries, entry.1 = name → entry.2 = value) :
    (ofList entries).get? name = some value := by
  have hfold (entries : List (String × α))
      (hall : ∀ entry ∈ entries, entry.1 = name → entry.2 = value)
      (m : NameMap α) : (entries.foldl (fun m entry => m.insert entry.1 entry.2) m).get? name
        = if name ∈ entries.map Prod.fst then some value else m.get? name := by
    -- on the entries, into any map
    induction entries generalizing m with
    | nil => rfl
    | cons entry rest ih =>
      rw [List.foldl_cons, ih fun e he => hall e (List.mem_cons_of_mem _ he), List.map_cons]
      by_cases hrest : name ∈ rest.map Prod.fst
      · rw [if_pos hrest, if_pos (List.mem_cons_of_mem _ hrest)]
      · rw [if_neg hrest, get?_insert]
        by_cases hname : name = entry.1
        · rw [if_pos hname, if_pos (by rw [hname]; exact List.mem_cons_self),
            hall entry List.mem_cons_self hname.symm]
        · rw [if_neg hname, if_neg (by simp [hname, hrest])]
  exact (hfold entries hall empty).trans (if_pos hmem)

/-- A name that is not given has no value. -/
theorem get?_ofList_of_not_mem {entries : List (String × α)} {name : String}
    (h : name ∉ entries.map Prod.fst) : (ofList entries).get? name = none := by
  have hfold (entries : List (String × α)) (h : name ∉ entries.map Prod.fst) (m : NameMap α) :
      (entries.foldl (fun m entry => m.insert entry.1 entry.2) m).get? name = m.get? name := by
    induction entries generalizing m with
    | nil => rfl
    | cons entry rest ih =>
      rw [List.map_cons, List.mem_cons, not_or] at h
      rw [List.foldl_cons, ih h.2, get?_insert_of_ne _ _ h.1]
  exact hfold entries h empty

end NameMap

end RecordStore
