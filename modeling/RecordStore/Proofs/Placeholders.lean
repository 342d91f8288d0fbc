import RecordStore.Proofs.Parameters
import RecordStore.Proofs.StatementText

/-!
# Places and parameters

The text of a statement has places where its parameters go, and the two are put together side by
side: a parameter gets the number that it has among the parameters, and the number goes into the
text. Whatever is compared or written takes a slot, which may take a parameter or none, and the
places are the numbers of the slots that do. So from the text alone, read by one who knows names and
places only, it can be told which value goes to which column.

* **`Compares`**, **`Assigns`**, **`Stores`** — the columns and parameters of comparisons,
  assignments and values.
* **`numbered`** — what is read from a text for slots, numbered from some place on.
* **`Command.LinesUp`** — the places of a statement, joined to its parameters.
* **`Command.places_line_up`** — all statements that are written line up.
-/

namespace RecordStore

namespace Sql

/-! ## Slots -/

/-- What is compared with a value or set to one: a column, unless none is named, and a parameter,
unless none is taken. -/
structure Slot where
  column? : Option String
  bind? : Option Bind

/-- The slot of a comparison. Comparisons with null have no parameter, and one with the empty list
has not even a column, for it holds of nothing. -/
inductive Compares (table : Table) : Predicate → Slot → Prop where
  | isNull {column : String} {c : Column} (hc : table.column? column = some c) :
      Compares table (.compare column .eq .null) ⟨some c.name, none⟩
  | isNotNull {column : String} {c : Column} (hc : table.column? column = some c) :
      Compares table (.compare column .ne .null) ⟨some c.name, none⟩
  | never {column : String} {c : Column} (hc : table.column? column = some c) :
      Compares table (.compare column .isIn (.array [])) ⟨none, none⟩
  | isAny {column : String} {c : Column} {items : List Value}
      {b : Bind} (hc : table.column? column = some c)
      (hitems : items ≠ []) (hb : Bind.ofValues c.name c.type items = .ok b) :
      Compares table (.compare column .isIn (.array items)) ⟨some c.name, some b⟩
  | startsWith {column : String} {c : Column} {s : String} (hc : table.column? column = some c) :
      Compares table (.compare column .startsWith (.string s))
        ⟨some c.name, some (.text (some (Text.Pattern.escape s ++ "%")))⟩
  | value {column : String} {c : Column} {op : Operator}
      {comparator : Comparator} {v : Value} {b : Bind}
      (hc : table.column? column = some c) (hop : Comparator.ofOperator? op = some comparator)
      (hnull : op = .eq ∨ op = .ne → v.isNull = false) (hb : Bind.ofValue c.name c.type v = .ok b) :
      Compares table (.compare column op v) ⟨some c.name, some b⟩

/-- The slot of an assignment. -/
def Assigns (table : Table) (entry : String × Value) (slot : Slot) : Prop :=
  ∃ c b, table.column? entry.1 = some c ∧ Bind.ofValue c.name c.type entry.2 = .ok b
    ∧ slot = ⟨some c.name, some b⟩

/-- The parameter of a column that is given a value by a record. -/
def Stores (r : Record) (c : Column) (b : Bind) : Prop :=
  ∃ v, r.get? c.name = some v ∧ Bind.ofValue c.name c.type v = .ok b

/-- What is read for slots of which the first that takes a parameter has the given place. -/
def numbered (place : Nat) : List Slot → List Item
  | [] => []
  | ⟨column?, none⟩ :: rest => column?.toList.map .name ++ numbered place rest
  | ⟨column?, some _⟩ :: rest =>
    column?.toList.map .name ++ .place place :: numbered (place + 1) rest

def Item.place? : Item → Option Nat
  | .place n => some n
  | _ => none

section Numbered

variable {place : Nat} {slots : List Slot}

theorem numbered_append (place : Nat) (slots more : List Slot) : numbered place (slots ++ more)
    = numbered place slots ++ numbered (place + (slots.filterMap Slot.bind?).length) more := by
  induction slots generalizing place with
  | nil => rfl
  | cons slot rest ih =>
    obtain ⟨column?, bind?⟩ := slot
    cases bind? with
    | none => simp [numbered, ih]
    | some b => simp [numbered, ih, Nat.add_assoc, Nat.add_comm 1]

/-- Of names nothing is picked that is no name. -/
theorem filterMap_names {α β : Type} {pick : Item → Option β} (hpick : ∀ s, pick (.name s) = none)
    (name : α → String) (xs : List α) :
    (xs.map fun x => Item.name (name x)).filterMap pick = [] := by
  simp [List.filterMap_map, hpick]

/-- From slots is read nothing but names and places. -/
theorem filterMap_numbered {β : Type} {pick : Item → Option β} (hname : ∀ s, pick (.name s) = none)
    (hplace : ∀ n, pick (.place n) = none) (place : Nat) (slots : List Slot) :
    (numbered place slots).filterMap pick = [] := by
  induction slots generalizing place with
  | nil => rfl
  | cons slot rest ih =>
    obtain ⟨column?, bind?⟩ := slot
    have hcolumn : (column?.toList.map Item.name).filterMap pick = [] := filterMap_names hname id _
    cases bind? with
    | none => rw [numbered, List.filterMap_append, hcolumn, ih, List.nil_append]
    | some b => rw [numbered, List.filterMap_append, hcolumn, List.filterMap_cons, hplace, ih,
        List.nil_append]

/-- **The places of slots are numbers in a row**, as many as there are parameters. -/
theorem places_numbered (place : Nat) (slots : List Slot) :
    (numbered place slots).filterMap Item.place?
    = List.range' place (slots.filterMap Slot.bind?).length := by
  induction slots generalizing place with
  | nil => rfl
  | cons slot rest ih =>
    obtain ⟨column?, bind?⟩ := slot
    have hcolumn : (column?.toList.map Item.name).filterMap Item.place? = [] :=
      filterMap_names (fun _ => rfl) id _
    cases bind? with
    | none =>
      rw [numbered, List.filterMap_append, hcolumn, ih]
      rfl
    | some b =>
      rw [numbered, List.filterMap_append, hcolumn, List.filterMap_cons, ih]
      exact (List.range'_succ ..).symm

end Numbered

/-! ## Writing slots -/

/-- Pieces that were written for slots, from the parameters that there were before. -/
structure Writes (slots : List Slot) (ps : List Bind) (pieces : List Piece) (qs : List Bind) :
    Prop where
  params_eq : qs = ps ++ slots.filterMap Slot.bind?
  items_eq : pieces.filterMap Piece.item? = numbered (ps.length + 1) slots

namespace Writes

variable {slots more : List Slot} {ps qs mid : List Bind} {pieces others : List Piece}

theorem nil (ps : List Bind) : Writes [] ps [] ps := ⟨(List.append_nil ps).symm, rfl⟩

theorem word (w : String) (h : Writes slots ps pieces qs) :
    Writes slots ps (.word w :: pieces) qs :=
  ⟨h.params_eq, h.items_eq⟩

theorem append (h : Writes slots ps pieces mid) (hmore : Writes more mid others qs) :
    Writes (slots ++ more) ps (pieces ++ others) qs := by
  refine ⟨?_, ?_⟩
  · rw [hmore.params_eq, h.params_eq, List.filterMap_append, List.append_assoc]
  · rw [List.filterMap_append, h.items_eq, hmore.items_eq, numbered_append, h.params_eq,
      List.length_append, Nat.add_right_comm]

end Writes

namespace Condition

variable {table : Table} {ps qs : List Bind}

/-- A comparison takes one slot. -/
theorem exists_slot {column : String} {c : Column} {op : Operator} {v : Value}
    {condition : Condition} (hc : table.column? column = some c)
    (h : Binds (ofComparison c op v) ps condition qs) :
    ∃ slot, Compares table (.compare column op v) slot ∧ Writes [slot] ps condition.pieces qs := by
  unfold ofComparison at h
  split at h
  · obtain ⟨rfl, rfl⟩ := binds_pure.1 h
    exact ⟨_, .isNull hc, (List.append_nil _).symm, rfl⟩
  · obtain ⟨rfl, rfl⟩ := binds_pure.1 h
    exact ⟨_, .isNotNull hc, (List.append_nil _).symm, rfl⟩
  · rename_i items
    split at h
    · rename_i hempty
      obtain rfl := List.isEmpty_iff.1 hempty
      obtain ⟨rfl, rfl⟩ := binds_pure.1 h
      exact ⟨_, .never hc, (List.append_nil _).symm, rfl⟩
    · rename_i hsome
      obtain ⟨b, hb, rfl, rfl⟩ := binds_push_place.1 h
      exact ⟨_, .isAny hc (mt List.isEmpty_iff.2 hsome) hb, rfl, rfl⟩
  · obtain ⟨n, mid, hpush, h⟩ := binds_bind.1 h
    obtain ⟨rfl, rfl⟩ := binds_push.1 hpush
    obtain ⟨rfl, rfl⟩ := binds_pure.1 h
    exact ⟨_, .startsWith hc, rfl, rfl⟩
  · rename_i hneq hnne _ _
    split at h
    · exact absurd h not_binds_throw
    · rename_i comparator hop
      obtain ⟨b, hb, rfl, rfl⟩ := binds_push_place.1 h
      refine ⟨_, .value hc hop (fun hop => ?_) hb, rfl, rfl⟩
      cases v with
      | null => exact (hop.elim (fun h => hneq h rfl) fun h => hnne h rfl).elim
      | _ => rfl

mutual

/-- A condition takes the slots of its comparisons, one after the other. -/
theorem exists_slots : ∀ {p : Predicate} {ps qs : List Bind} {condition : Condition},
    Binds (ofPredicate table p) ps condition qs →
      ∃ slots, List.Forall₂ (Compares table) p.leaves slots ∧ Writes slots ps condition.pieces qs
  | .compare column op v, ps, qs, condition, h => by
    obtain ⟨c, mid, hlift, hcomparison⟩ := binds_bind.1 h
    obtain ⟨hc, rfl⟩ := binds_lift.1 hlift
    obtain ⟨slot, hslot, hwrites⟩ := exists_slot (columnOf_eq_ok_iff.1 hc) hcomparison
    exact ⟨[slot], .cons hslot .nil, hwrites⟩
  | .and [], ps, qs, condition, h => by
    obtain ⟨rfl, rfl⟩ := binds_pure.1 h
    exact ⟨[], .nil, .word _ (.nil _)⟩
  | .and (p :: rest), ps, qs, condition, h => by
    obtain ⟨conditions, hparts, rfl⟩ := binds_map.1 h
    exact exists_slots_conjunction hparts

/-- Each leaf of a conjunction is written with a parameter of its own, in the order of the
leaves. -/
theorem exists_slots_conjunction :
    ∀ {parts : List Predicate} {ps qs : List Bind} {conditions : List Condition},
    Binds (ofPredicates table parts) ps conditions qs →
      ∃ slots, List.Forall₂ (Compares table) (Predicate.leavesOfAll parts) slots
        ∧ Writes slots ps (conjunction conditions) qs
  | [], ps, qs, conditions, h => by
    obtain ⟨rfl, rfl⟩ := binds_pure.1 h
    exact ⟨[], .nil, .nil _⟩
  | p :: rest, ps, qs, conditions, h => by
    obtain ⟨condition, mid, hfirst, h⟩ := binds_bind.1 h
    obtain ⟨others, mid', hrest, h⟩ := binds_bind.1 h
    obtain ⟨rfl, rfl⟩ := binds_pure.1 h
    obtain ⟨slots, hslots, hwrites⟩ := exists_slots hfirst
    obtain ⟨more, hmore, hothers⟩ := exists_slots_conjunction hrest
    refine ⟨slots ++ more, List.rel_append hslots hmore, ?_⟩
    -- a part stands in brackets, with a word behind it if there are others
    cases others with
    | nil => exact (hwrites.append (hothers.word ")")).word "("
    | cons next others => exact (hwrites.append (hothers.word ") AND ")).word "("

end

end Condition

/-! ## The parts of a statement -/

section Parts

variable {table : Table} {r : Record} {ps qs : List Bind}

theorem eq_of_isAlways {p : Predicate} (h : p.isAlways = true) : p = .and [] := by
  cases p with
  | compare => cases h
  | and parts =>
    cases parts with
    | nil => rfl
    | cons => cases h

/-- The clause for a predicate takes the slots of its comparisons. -/
theorem exists_slots_whereClause {p : Predicate} {pieces : List Piece}
    (h : Binds (whereClause table p) ps pieces qs) :
    Framed pieces ∧ ∃ slots, List.Forall₂ (Compares table) p.leaves slots
      ∧ Writes slots ps pieces qs := by
  unfold whereClause at h
  split at h
  · rename_i halways
    obtain rfl := eq_of_isAlways halways
    obtain ⟨rfl, rfl⟩ := binds_pure.1 h
    exact ⟨.nil, [], .nil, .nil _⟩
  · obtain ⟨condition, mid, hcondition, hpure⟩ := binds_bind.1 h
    obtain ⟨rfl, rfl⟩ := binds_pure.1 hpure
    obtain ⟨slots, hslots, hwrites⟩ := Condition.exists_slots hcondition
    exact ⟨condition.follows_pieces _ (by decide), slots, hslots, hwrites.word _⟩

/-- An assignment takes one slot, with a parameter. -/
theorem exists_slot_assignment {entry : String × Value} {pieces : List Piece}
    (h : Binds (assignment table entry) ps pieces qs) :
    Follows pieces ∧ ∃ slot, Assigns table entry slot ∧ Writes [slot] ps pieces qs := by
  obtain ⟨c, mid, hlift, hpush⟩ := binds_bind.1 h
  obtain ⟨hc, rfl⟩ := binds_lift.1 hlift
  obtain ⟨b, hb, rfl, rfl⟩ := binds_push_place.1 hpush
  exact ⟨follows_cons (.name _) (.piece (by decide) (.placeholder _) .nil), _,
    ⟨c, b, Condition.columnOf_eq_ok_iff.1 hc, hb, rfl⟩, rfl, rfl⟩

/-- Each assignment is written with a parameter of its own, in the order of the columns. -/
theorem exists_slots_assignments {entries : List (String × Value)} {parts : List (List Piece)}
    (h : Binds (entries.mapM (assignment table)) ps parts qs) :
    (∀ part ∈ parts, Follows part) ∧ ∃ slots, List.Forall₂ (Assigns table) entries slots
      ∧ Writes slots ps (joined ", " parts) qs := by
  induction entries generalizing ps parts with
  | nil =>
    obtain ⟨rfl, rfl⟩ := binds_mapM_nil.1 h
    exact ⟨nofun, [], .nil, .nil _⟩
  | cons entry rest ih =>
    obtain ⟨part, mid, others, hfirst, hrest, rfl⟩ := binds_mapM_cons.1 h
    obtain ⟨hpart, slot, hslot, hwrites⟩ := exists_slot_assignment hfirst
    obtain ⟨hothers, slots, hslots, hmore⟩ := ih hrest
    refine ⟨List.forall_mem_cons.2 ⟨hpart, hothers⟩, slot :: slots, .cons hslot hslots, ?_⟩
    have hboth := hwrites.append hmore
    refine ⟨hboth.params_eq, ?_⟩
    rw [items_joined, List.flatMap_cons, ← items_joined ", ", ← List.filterMap_append]
    exact hboth.items_eq

/-- The columns of a plan are named in its order. -/
theorem names_of_binds {names : List String} {columns : List Column}
    (h : Binds (names.mapM fun name => (columnOf table name : Binding Column)) ps columns qs) :
    columns.map Column.name = names ∧ qs = ps := by
  induction names generalizing ps columns with
  | nil =>
    obtain ⟨rfl, rfl⟩ := binds_mapM_nil.1 h
    exact ⟨rfl, rfl⟩
  | cons name rest ih =>
    obtain ⟨c, mid, others, hfirst, hrest, rfl⟩ := binds_mapM_cons.1 h
    obtain ⟨hc, rfl⟩ := binds_lift.1 hfirst
    obtain ⟨hothers, rfl⟩ := ih hrest
    have hname := (Table.mem_of_column? (Condition.columnOf_eq_ok_iff.1 hc)).2
    exact ⟨by rw [List.map_cons, hname, hothers], rfl⟩

/-- No parameter is added when the names of a record are looked up. -/
theorem params_eq_of_forM {names : List String} {u : Unit}
    (h : Binds (names.forM fun name => discard (columnOf table name : Binding Column)) ps u qs) :
    qs = ps := by
  induction names generalizing ps with
  | nil => exact (binds_pure.1 h).2
  | cons name rest ih =>
    obtain ⟨_, mid, hfirst, hrest⟩ := binds_bind.1 h
    obtain ⟨c, hlift, -⟩ := binds_map.1 hfirst
    obtain ⟨-, rfl⟩ := binds_lift.1 hlift
    exact ih hrest

/-- The columns of the table that a record has, in the order of the table, take a parameter each,
and the places of the parameters stand in the same order. -/
theorem exists_values {columns : List Column} {values : List (Option (Column × Nat))}
    (h : Binds (columns.mapM (columnValue r)) ps values qs) :
    ∃ binds, qs = ps ++ binds
      ∧ List.Forall₂ (Stores r) (columns.filter fun c => r.contains c.name) binds
      ∧ (values.filterMap id).map Prod.fst = columns.filter (fun c => r.contains c.name)
      ∧ (values.filterMap id).map Prod.snd = List.range' (ps.length + 1) binds.length := by
  induction columns generalizing ps values with
  | nil =>
    obtain ⟨rfl, rfl⟩ := binds_mapM_nil.1 h
    exact ⟨[], (List.append_nil _).symm, .nil, rfl, rfl⟩
  | cons c rest ih =>
    obtain ⟨value, mid, others, hfirst, hrest, rfl⟩ := binds_mapM_cons.1 h
    obtain ⟨binds, rfl, hbinds, hcolumns, hplaces⟩ := ih hrest
    unfold columnValue at hfirst
    cases hget : r.get? c.name with
    | none =>
      rw [hget] at hfirst
      obtain ⟨rfl, rfl⟩ := binds_pure.1 hfirst
      have hlacks : r.contains c.name = false := by
        rw [Bool.eq_false_iff, ne_eq, NameMap.contains_iff, NameMap.mem_keys_iff, hget]
        decide
      have hfilter : (c :: rest).filter (fun c => r.contains c.name) = rest.filter fun c =>
        r.contains c.name :=
        List.filter_cons_of_neg (Bool.eq_false_iff.1 hlacks)
      rw [hfilter]
      exact ⟨binds, rfl, hbinds, hcolumns, hplaces⟩
    | some v =>
      rw [hget] at hfirst
      obtain ⟨b, hb, rfl, rfl⟩ := binds_push_place.1 hfirst
      have hhas : r.contains c.name = true := by
        rw [NameMap.contains_iff, NameMap.mem_keys_iff, hget]
        rfl
      have hfilter : (c :: rest).filter (fun c => r.contains c.name)
          = c :: rest.filter fun c => r.contains c.name := List.filter_cons_of_pos hhas
      rw [hfilter, ← hcolumns]
      refine ⟨b :: binds, by simp, .cons ⟨v, hget, hb⟩ (hcolumns ▸ hbinds), rfl, ?_⟩
      rw [List.length_append, List.length_singleton] at hplaces
      rw [List.length_cons, List.range'_succ, ← hplaces]
      rfl

/-- Of a table with distinct columns, those that a record has are as many as the entries of the
record, if all entries are of columns. -/
theorem perm_keys (hnames : (table.columns.map Column.name).Nodup) (hstores : table.canStore r) :
    ((table.columns.filter fun c => r.contains c.name).map Column.name).Perm r.keys := by
  refine (List.perm_ext_iff_of_nodup (hnames.sublist (List.filter_sublist.map _)) r.nodup).2
    fun name => ?_
  rw [List.mem_map]
  constructor
  · rintro ⟨c, hc, rfl⟩
    exact (NameMap.contains_iff ..).1 (List.mem_filter.1 hc).2
  · intro hname
    obtain ⟨c, hc, rfl⟩ := List.mem_map.1 (Table.hasColumn_iff.1 (hstores.1 name hname))
    exact ⟨c, List.mem_filter.2 ⟨hc, (NameMap.contains_iff ..).2 hname⟩, rfl⟩

end Parts

/-- What is read from the text of a statement. -/
def Statement.items (s : Statement) : List Item := Sql.items .between s.sql.toList

/-- The places in the text of a statement, one after the other. -/
def Statement.places (s : Statement) : List Nat := s.items.filterMap Item.place?

theorem Statement.items_eq {s : Statement} (h : Framed s.text) :
    s.items = s.text.filterMap Piece.item? :=
  items_render h

theorem build_eq_ok_iff {step : Binding (List Piece)} {s : Statement} :
    build step = .ok s ↔ Binds step [] s.text s.params := by
  rw [build, map_eq_ok_iff]
  constructor
  · rintro ⟨⟨text, params⟩, hstep, rfl⟩
    exact hstep
  · exact fun hstep => ⟨_, hstep, rfl⟩

end Sql

/-! ## Statements -/

open Sql

namespace Command

/-- The table of a command. -/
def table : Command → Table
  | select plan => plan.table
  | count table _ | insert table _ | upsert table _ | update table _ _ | delete table _ => table

/-- What is read from the text of a statement for a command, from the beginning to the end, and the
parameters that belong to it. Conditions have a slot for each comparison of the predicate. The
columns that a record has are named one after the other, and so are the places of their parameters;
assignments have a slot each. -/
inductive LinesUp (schema : String) (s : Statement) : Command → Prop where
  | select {plan : Plan} {slots : List Slot}
      (hslots : List.Forall₂ (Compares plan.table) plan.predicate.leaves slots)
      (hparams : s.params = slots.filterMap Slot.bind?)
      (hitems : s.items = plan.columns.map .name
        ++ [.name schema, .name plan.table.name] ++ numbered 1 slots
        ++ plan.order.map (fun key => .name key.column) ++ plan.limit.toList.map .number
        ++ if plan.offset = 0 then [] else [.number plan.offset]) : LinesUp schema s (.select plan)
  | count {table : Table} {p : Predicate} {slots : List Slot}
      (hslots : List.Forall₂ (Compares table) p.leaves slots)
      (hparams : s.params = slots.filterMap Slot.bind?)
      (hitems : s.items = [.name schema, .name table.name] ++ numbered 1 slots) :
      LinesUp schema s (.count table p)
  | insert {table : Table} {r : Record} {columns : List Column}
      (hcolumns : columns.Sublist table.columns)
      (hkeys : (columns.map Column.name).Perm r.keys)
      (hparams : List.Forall₂ (Stores r) columns s.params)
      (hitems : s.items = [.name schema, .name table.name] ++ columns.map (fun c => .name c.name)
        ++ (List.range' 1 s.params.length).map .place ++ [.name table.primaryKey]) :
      LinesUp schema s (.insert table r)
  | upsert {table : Table} {r : Record} {columns : List Column}
      (hcolumns : columns.Sublist table.columns)
      (hkeys : (columns.map Column.name).Perm r.keys)
      (hparams : List.Forall₂ (Stores r) columns s.params)
      (hitems : s.items = [.name schema, .name table.name] ++ columns.map (fun c => .name c.name)
        ++ (List.range' 1 s.params.length).map .place ++ [.name table.primaryKey]
        ++ ((columns.map Column.name).filter (· != table.primaryKey)).flatMap fun name =>
          [.name name, .name name]) :
      LinesUp schema s (.upsert table r)
  | update {table : Table} {p : Predicate} {r : Record} {assigned slots : List Slot}
      (hassigned : List.Forall₂ (Assigns table) r.entries assigned)
      (hslots : List.Forall₂ (Compares table) p.leaves slots)
      (hparams : s.params = (assigned ++ slots).filterMap Slot.bind?)
      (hitems : s.items = [.name schema, .name table.name] ++ numbered 1 (assigned ++ slots)) :
      LinesUp schema s (.update table p r)
  | delete {table : Table} {p : Predicate} {slots : List Slot}
      (hslots : List.Forall₂ (Compares table) p.leaves slots)
      (hparams : s.params = slots.filterMap Slot.bind?)
      (hitems : s.items = [.name schema, .name table.name] ++ numbered 1 slots) :
      LinesUp schema s (.delete table p)

variable {schema : String} {s : Statement}

/-- A statement of one condition, with fixed text in front. -/
theorem exists_slots_of_build {table : Table} {p : Predicate} {w : String} (hw : Separates w)
    (h : build (do
      let condition ← whereClause table p
      return [.word w] ++ qualified schema table.name ++ condition) = .ok s) :
    ∃ slots, List.Forall₂ (Compares table) p.leaves slots ∧ s.params = slots.filterMap Slot.bind?
      ∧ s.items = [.name schema, .name table.name] ++ numbered 1 slots := by
  obtain ⟨condition, mid, hwhere, hpure⟩ := binds_bind.1 (build_eq_ok_iff.1 h)
  obtain ⟨htext, rfl⟩ := binds_pure.1 hpure
  obtain ⟨hframed, slots, hslots, hwrites⟩ := exists_slots_whereClause hwhere
  have hwhole : Framed s.text := htext ▸ ((follows_qualified _ _) _ hw).append hframed
  refine ⟨slots, hslots, hwrites.params_eq, ?_⟩
  rw [Statement.items_eq hwhole, htext, List.filterMap_append, hwrites.items_eq]
  rfl

/-- A selection names the columns of the plan, the conditions, the order and the page. -/
theorem linesUp_select {plan : Plan} (h : Sql.select schema plan = .ok s) :
    LinesUp schema s (.select plan) := by
  obtain ⟨columns, mid, hcolumns, hrest⟩ := binds_bind.1 (build_eq_ok_iff.1 h)
  obtain ⟨condition, mid', hwhere, hpure⟩ := binds_bind.1 hrest
  obtain ⟨htext, rfl⟩ := binds_pure.1 hpure
  obtain ⟨hnames, rfl⟩ := names_of_binds hcolumns
  obtain ⟨hframed, slots, hslots, hwrites⟩ := exists_slots_whereClause hwhere
  have hwhole : Framed s.text := by
    rw [htext]
    refine Framed.append (.append (.append (.append ?_ hframed) ?_) ?_) ?_
    · exact ((follows_names Column.name columns) _ (by decide)).joins
        (by decide) (follows_qualified _ _)
    · exact framed_orderClause _
    · exact framed_limitClause _
    · exact framed_offsetClause _
  refine .select hslots hwrites.params_eq ?_
  rw [Statement.items_eq hwhole, htext]
  simp only [List.filterMap_append, items_word, items_names, items_qualified, hwrites.items_eq,
    items_orderClause, items_limitClause, items_offsetClause, ← hnames, List.map_map,
    Function.comp_def, List.nil_append, List.append_nil, List.length_nil, Nat.zero_add]

/-- The columns of a record and their parameters, as they stand in the text between other pieces. -/
theorem exists_columns {table : Table} {r : Record} {values : List (Column × Nat)}
    {params : List Bind} (hnames : (table.columns.map Column.name).Nodup)
    (h : Binds (valuesOf table r) [] values params) :
    ∃ columns, columns.Sublist table.columns ∧ (columns.map Column.name).Perm r.keys
      ∧ List.Forall₂ (Stores r) columns params ∧ values.map Prod.fst = columns
      ∧ values.map Prod.snd = List.range' 1 params.length := by
  have hstores := canBind_valuesOf_iff.1 ⟨_, _, h⟩
  obtain ⟨_, mid, hcheck, hrest⟩ := binds_bind.1 h
  obtain ⟨all, mid', hall, hpure⟩ := binds_bind.1 hrest
  obtain ⟨rfl, rfl⟩ := binds_pure.1 hpure
  obtain rfl := params_eq_of_forM hcheck
  obtain ⟨binds, rfl, hbinds, hcolumns, hplaces⟩ := exists_values hall
  exact ⟨_, List.filter_sublist, perm_keys hnames hstores, hbinds, hcolumns, hplaces⟩

/-- From lists of the columns and of their places are read the columns and the places. -/
theorem items_columnList {values : List (Column × Nat)} {columns : List Column}
    (h : values.map Prod.fst = columns) :
    (columnList values).filterMap Piece.item? = columns.map fun c => .name c.name := by
  rw [columnList, items_names fun v : Column × Nat => v.1.name, ← h, List.map_map]
  rfl

theorem items_placeList {values : List (Column × Nat)} {places : List Nat}
    (h : values.map Prod.snd = places) :
    (placeList values).filterMap Piece.item? = places.map .place := by
  rw [placeList, items_joined, List.flatMap_map, ← h, List.map_map]
  exact List.map_eq_flatMap.symm

theorem follows_placeList (values : List (Column × Nat)) : Follows (placeList values) := by
  refine follows_joined (by decide) fun part hpart => ?_
  obtain ⟨v, -, rfl⟩ := List.mem_map.1 hpart
  exact follows_cons (.placeholder _) .nil

/-- An insertion names the columns and then gives the places of their values. -/
theorem framed_insertion (table : Table) (values : List (Column × Nat)) :
    Framed ([.word "INSERT INTO "] ++ qualified schema table.name
      ++ [.word " ("] ++ columnList values
      ++ [.word ") VALUES ("] ++ placeList values) :=
  (((follows_qualified _ _) _ (by decide)).joins (by decide)
    (follows_names (fun v : Column × Nat => v.1.name) values)).joins (by
      decide) (follows_placeList values)

/-- An insertion names its columns in the order of their parameters. -/
theorem linesUp_insert {table : Table} {r : Record} (hnames : (table.columns.map Column.name).Nodup)
    (h : Sql.insert schema table r = .ok s) : LinesUp schema s (.insert table r) := by
  obtain ⟨values, mid, hvalues, hrest⟩ := binds_bind.1 (build_eq_ok_iff.1 h)
  obtain ⟨columns, hcolumns, hkeys, hparams, hfirst, hsecond⟩ := exists_columns hnames hvalues
  have hreturning : Framed [.word " RETURNING ", .name table.primaryKey] :=
    .piece (by decide) (.name _) .nil
  dsimp only at hrest
  split at hrest
  · rename_i hempty
    obtain rfl := List.isEmpty_iff.1 hempty
    obtain ⟨htext, rfl⟩ := binds_pure.1 hrest
    refine .insert hcolumns hkeys hparams ?_
    have hwhole : Framed s.text := by
      rw [htext]
      exact (((follows_qualified _ _) _ (by decide)).append
        (.word (by decide) .nil)).append hreturning
    obtain rfl := hfirst
    rw [Statement.items_eq hwhole, htext, ← hsecond]
    rfl
  · obtain ⟨htext, rfl⟩ := binds_pure.1 hrest
    refine .insert hcolumns hkeys hparams ?_
    have hwhole : Framed s.text := by
      rw [htext]
      exact ((framed_insertion table values).append (.word (by decide) .nil)).append hreturning
    rw [Statement.items_eq hwhole, htext]
    simp only [List.filterMap_append, items_word, items_qualified, items_columnList hfirst,
      items_placeList hsecond, List.nil_append, List.append_nil]
    rfl

/-- An upsert names its columns in the order of their parameters, and assigns them again in a
conflict. -/
theorem linesUp_upsert {table : Table} {r : Record} (hnames : (table.columns.map Column.name).Nodup)
    (h : Sql.upsert schema table r = .ok s) : LinesUp schema s (.upsert table r) := by
  unfold Sql.upsert at h
  split at h
  · cases h
  obtain ⟨values, mid, hvalues, hpure⟩ := binds_bind.1 (build_eq_ok_iff.1 h)
  obtain ⟨columns, hcolumns, hkeys, hparams, hfirst, hsecond⟩ := exists_columns hnames hvalues
  obtain ⟨htext, rfl⟩ := binds_pure.1 hpure
  refine .upsert hcolumns hkeys hparams ?_
  have hkey : Follows [.name table.primaryKey, .word ") "] :=
    follows_cons (.name _) (.word (by decide) .nil)
  have hwhole : Framed s.text := by
    rw [htext]
    exact ((framed_insertion table values).joins (by decide) hkey).append (framed_conflictClause _)
  have hassigned : values.map (·.1.name) = columns.map Column.name := by
    rw [← hfirst, List.map_map]
    rfl
  rw [Statement.items_eq hwhole, htext, hassigned]
  simp only [List.filterMap_append, items_word, items_qualified, items_columnList hfirst,
    items_placeList hsecond, items_conflictClause, List.nil_append, List.append_nil]
  rfl

/-- An update assigns its columns first and compares afterwards, and the parameters stand in this
order. -/
theorem linesUp_update {table : Table} {p : Predicate} {r : Record}
    (h : Sql.update schema table p r = .ok s) :
    LinesUp schema s (.update table p r) := by
  unfold Sql.update at h
  split at h
  · cases h
  obtain ⟨parts, mid, hassignments, hrest⟩ := binds_bind.1 (build_eq_ok_iff.1 h)
  obtain ⟨condition, mid', hwhere, hpure⟩ := binds_bind.1 hrest
  obtain ⟨htext, rfl⟩ := binds_pure.1 hpure
  obtain ⟨hparts, assigned, hassigned, hsets⟩ := exists_slots_assignments hassignments
  obtain ⟨hframed, slots, hslots, hwrites⟩ := exists_slots_whereClause hwhere
  have hboth := hsets.append hwrites
  refine .update hassigned hslots hboth.params_eq ?_
  have hwhole : Framed s.text := by
    rw [htext]
    exact (((follows_qualified _ _) _ (by decide)).joins
      (by decide) (follows_joined (by decide) hparts)).append
      hframed
  rw [Statement.items_eq hwhole, htext, List.append_assoc, List.filterMap_append, hboth.items_eq]
  rfl

/-- **All statements that are written line up.** -/
theorem linesUp_of_write {command : Command}
    (hnames : (command.table.columns.map Column.name).Nodup) (h : command.write schema = .ok s) :
    LinesUp schema s command := by
  cases command with
  | select plan => exact linesUp_select h
  | count table p =>
    obtain ⟨slots, hslots, hparams, hitems⟩ := exists_slots_of_build (by decide) h
    exact .count hslots hparams hitems
  | insert table r => exact linesUp_insert hnames h
  | upsert table r => exact linesUp_upsert hnames h
  | update table p r => exact linesUp_update h
  | delete table p =>
    obtain ⟨slots, hslots, hparams, hitems⟩ := exists_slots_of_build (by decide) h
    exact .delete hslots hparams hitems

/-- The places of a statement that lines up are numbered from one. -/
theorem LinesUp.places_eq {command : Command} (h : LinesUp schema s command) :
    s.places = List.range' 1 s.params.length := by
  have hplaces (ns : List Nat) : (ns.map Item.place).filterMap Item.place? = ns := by
    simp [List.filterMap_map, Function.comp_def, Item.place?]
  have hnumbers (ns : List Nat) : (ns.map Item.number).filterMap Item.place? = [] := by
    simp [List.filterMap_map, Function.comp_def, Item.place?]
  have hnames {α : Type} (name : α → String) (xs : List α) :
      (xs.map fun x => Item.name (name x)).filterMap Item.place? = [] :=
        filterMap_names (fun _ => rfl) name xs
  have htable {table : Table} :
    [Item.name schema, .name table.name].filterMap Item.place? = [] := rfl
  have hname (name : String) : [Item.name name].filterMap Item.place? = [] := rfl
  unfold Statement.places
  cases h with
  | @select plan slots _ hparams hitems =>
    have hoffset :
      (if plan.offset = 0 then [] else [Item.number plan.offset]).filterMap Item.place? = [] := by
      split <;> rfl
    have hcolumns : (plan.columns.map Item.name).filterMap Item.place? = [] := hnames id _
    simp only [hitems, List.filterMap_append, hcolumns, htable, places_numbered, hnames, hnumbers,
      hoffset, List.nil_append, List.append_nil, hparams]
  | count _ hparams hitems | update _ _ hparams hitems | delete _ hparams hitems =>
    simp only [hitems, List.filterMap_append, htable, places_numbered, List.nil_append, hparams]
  | insert _ _ _ hitems =>
    simp only [hitems, List.filterMap_append, htable, hnames, hplaces, hname, List.nil_append,
      List.append_nil]
  | @upsert table r columns _ _ _ hitems =>
    have hassigned (names : List String) :
        (names.flatMap fun name => [Item.name name, .name name]).filterMap Item.place? = [] := by
      simp [List.filterMap_flatMap, Item.place?]
    simp only [hitems, List.filterMap_append, htable, hnames, hplaces, hname, hassigned,
      List.nil_append, List.append_nil]

/-- **Places and parameters line up.** Whatever statement is written for a table with distinct
columns, the places that are read from its text, past the names between quotes, are numbered from
one to the number of its parameters. An insertion names a part of the columns in the order of the
table, one for each entry of the record, and the parameters are those of their values in the record.
An update names the columns of its assignments, each with the place of its value, in the order of
the record. The parameters of a condition follow, one for each comparison that takes a value, in the
order of the comparisons. -/
theorem places_line_up {command : Command} (hnames : (command.table.columns.map Column.name).Nodup)
    (h : command.write schema = .ok s) :
    s.places = List.range' 1 s.params.length ∧ LinesUp schema s command :=
  ⟨(linesUp_of_write hnames h).places_eq, linesUp_of_write hnames h⟩

/-- A table with a column whose name looks like a part of a statement. -/
def priceTable : Table where
  resource := "price"
  name := "price"
  kind := .resource
  columns :=
    [.identity "id", { name := "\"$7\" = $9", type := .integer }, { name := "tag", type := .text }]
  primaryKey := "id"
  deletedColumn := none
  lists := []
  uniqueGroups := []
  allowedFilters := .all
  autoFields := []
  defaultFilter := {}
  defaultProjection := none
  defaultSort := []
  paginated := true

/-- Two assignments and three comparisons, of which the last one only takes a value. -/
def reprice : Command :=
  .update priceTable
    (.and [.compare "tag" .ne .null, .compare "id" .isIn (.array []),
      .compare "tag" .startsWith (.string "old")])
    (.ofList [("tag", .string "new"), ("\"$7\" = $9", .int 5)])

def repriceText : String :=
  "UPDATE \"public\".\"price\" SET \"tag\" = $1, \"\"\"$7\"\" = $9\" = $2"
    ++ " WHERE (\"tag\" IS NOT NULL) AND (FALSE) AND (\"tag\" LIKE $3)"

/-- The statement has three places, whatever it looks like. -/
theorem reprice_lines_up :
    ∃ s, reprice.write "public" = .ok s ∧ s.sql = repriceText ∧ s.places = [1, 2, 3]
    ∧ LinesUp "public" s reprice := by
  have hwritten : (reprice.write "public").toOption.map (fun s => (s.sql, s.params.length))
      = some (repriceText, 3) := by
    decide +kernel
  obtain ⟨s, hs, hfacts⟩ := Option.map_eq_some_iff.1 hwritten
  obtain ⟨hsql, hcount⟩ := Prod.mk.inj hfacts
  have hs := eq_ok_of_toOption hs
  obtain ⟨hplaces, hlines⟩ := places_line_up (by decide) hs
  exact ⟨s, hs, hsql, by rw [hplaces, hcount]; rfl, hlines⟩

end Command

end RecordStore
