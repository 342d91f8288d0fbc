import RecordStore.Proofs.Coherent
import RecordStore.Proofs.Removal

/-!
# What a change makes of the tables

What is in the tables after a change that succeeded, as a function of what was in them before. A
change writes the table of its resource first and then, for each of its lists, the link table of the
list; no two lists share a link table, so each table is written by one step only.

* **`StoredTable.Adds`** — rows are put behind those of a table, one for each of some records.
* **`StoredTable.SetsLinks`** — what setting the links of an owner makes of a link table.
* **`effect_of_insert`**, **`effect_of_update`**, **`effect_of_replace`**, **`effect_of_remove`** —
  what the changes make of the store.
-/

namespace RecordStore

open RecordStore.Action

/-! ## Rows that are added -/

namespace StoredTable

/-- Rows are put at the end of a table, one for each record, each filled up and checked beside those
that stand there by then. -/
inductive Adds (groups : List (List String)) (now : Value) :
    StoredTable → List Record → StoredTable → Prop
  | nil (t : StoredTable) : Adds groups now t [] t
  | cons {t t' : StoredTable} {record row : Record} {records : List Record} {next : Int} {s : Store}
      (hfill : t.fill now record = (row, next))
      (hadmissible : s.Admissible groups t.columns t.rows row)
      (hrest : Adds groups now { t with nextId := next, rows := t.rows ++ [row] } records t') :
      Adds groups now t (record :: records) t'

/-- The members that a reader finds in a link table for an owner. -/
def listed (t : StoredTable) (link : Table) (m : ListField) (owner : Value) : List Value :=
  Fetch.membersOf ((t.select (Fetch.linkPlan link m [owner])).foldl (Fetch.addMember m) {}) owner

/-- A table without the links of an owner. -/
def withoutOwner (t : StoredTable) (m : ListField) (owner : Value) : StoredTable :=
  { t with rows := t.rows.filter fun row =>
    !(Predicate.eq m.ownerColumn owner).holds t.columns row }

/-- The links of an owner are set: they stay if the reader finds the members already, and else they
are written anew behind all others. -/
def SetsLinks (link : Table) (m : ListField) (now : Value) (owner : Value) (members : List Value)
    (t t' : StoredTable) : Prop :=
  Value.sameItems (t.listed link m owner) members = true ∧ t' = t
    ∨ Value.sameItems (t.listed link m owner) members = false
      ∧ Adds link.uniqueGroups now (t.withoutOwner m owner)
        (members.map (Change.linkRow m owner)) t'

theorem Adds.columns_eq {groups : List (List String)} {now : Value} {t t' : StoredTable}
    {records : List Record} (h : Adds groups now t records t') : t'.columns = t.columns := by
  induction h with
  | nil => rfl
  | cons _ _ _ ih => exact ih

theorem SetsLinks.columns_eq {link : Table} {m : ListField} {now owner : Value}
    {members : List Value} {t t' : StoredTable} (h : SetsLinks link m now owner members t t') :
    t'.columns = t.columns := by
  rcases h with ⟨-, rfl⟩ | ⟨-, hadds⟩
  · rfl
  · exact hadds.columns_eq

end StoredTable

/-! ## Links -/

namespace Change

variable {schema : Schema} {now : Time.Instant} {tx tx' : Transaction}
  {m : ListField} {owner : Value}
  {members : List Value} {link : Table}

/-- Links are added one by one, each of them a row of the link table. -/
theorem adds_of_addLinks {t : StoredTable} (hlink : schema.linkTable m.linkTable = .ok link)
    (ht : tx.work.tables.get? link.name = some t)
    (h : Yields (addLinks schema now m owner members) tx () tx') :
    ∃ t', tx' = tx.onto (tx.work.put link.name t')
      ∧ t.Adds link.uniqueGroups (.string now.text) (members.map (linkRow m owner)) t' := by
  obtain ⟨link', hlink', hrun⟩ := yields_addLinks.1 h
  obtain rfl : link' = link := Except.ok.inj (hlink'.symm.trans hlink)
  clear h
  -- on the members; each link is put into the table that the ones before it leave
  induction members generalizing tx t with
  | nil =>
    obtain ⟨-, rfl⟩ := (yields_pure _ _).1 hrun
    exact ⟨t, by rw [Store.put_of_get? ht]; rfl, .nil t⟩
  | cons member rest ih =>
    obtain ⟨mid, hfirst, hrest⟩ := yields_forM_cons.1 hrun
    obtain ⟨id, hinsert⟩ := yields_discard.1 hfirst
    obtain ⟨-, row, happend, -⟩ := Transaction.yields_insert.1 hinsert
    obtain ⟨-, u, next, hu, -, hfill, hrules, rfl⟩ := Transaction.yields_append.1 happend
    obtain rfl : u = t := Option.some.inj (hu.symm.trans ht)
    have hstored :
      (tx.work.put link'.name { u with nextId := next, rows := u.rows ++ [row] }).tables.get?
        link'.name = some { u with nextId := next, rows := u.rows ++ [row] } := by
      rw [Store.get?_put, if_pos rfl]
    obtain ⟨t', htx', hadds⟩ := ih hrest hstored
    refine ⟨t', ?_, .cons hfill (Store.admissible_of_checkRules hrules) hadds⟩
    rw [htx', Transaction.onto_onto, Transaction.work_onto, Store.put_put]

/-- The links of an owner are those that were there if they list the members already, and else they
are written anew. -/
theorem sets_of_setLinks (hlink : schema.linkTable m.linkTable = .ok link)
    (h : Yields (setLinks schema now m owner members) tx () tx') :
    ∃ t t', tx.work.tables.get? link.name = some t ∧ tx' = tx.onto (tx.work.put link.name t')
      ∧ t.SetsLinks link m (.string now.text) owner members t' := by
  obtain ⟨current, hcurrent, h⟩ := yields_setLinks.1 h
  obtain ⟨link', rows, hlink', hrows, rfl⟩ := Fetch.yields_membersByOwner.1 hcurrent
  obtain rfl : link' = link := Except.ok.inj (hlink'.symm.trans hlink)
  obtain ⟨-, -, t, ht, rfl⟩ := Transaction.yields_select.1 hrows
  change tx.work.tables.get? link'.name = some t at ht
  refine ⟨t, ?_⟩
  rcases h with ⟨hsame, rfl⟩ | ⟨hsame, link'', n, mid, hlink'', hdelete, hadd⟩
  · exact ⟨t, ht, by rw [Store.put_of_get? ht]; rfl, .inl ⟨hsame, rfl⟩⟩
  · obtain rfl : link'' = link' := Except.ok.inj (hlink''.symm.trans hlink)
    obtain ⟨-, -, u, hu, rfl, -⟩ := Transaction.yields_delete.1 hdelete
    obtain rfl : u = t := Option.some.inj (hu.symm.trans ht)
    have hstored : (tx.work.put link''.name (u.withoutOwner m owner)).tables.get? link''.name
        = some (u.withoutOwner m owner) := by
      rw [Store.get?_put, if_pos rfl]
    obtain ⟨t', htx', hadds⟩ := adds_of_addLinks hlink hstored hadd
    refine ⟨t', ht, ?_, .inr ⟨hsame, hadds⟩⟩
    rw [htx', Transaction.onto_onto, Transaction.work_onto]
    exact congrArg _ (Store.put_put ..)

end Change

/-! ## Loops over different tables -/

/-- What becomes of one table, when all others stay as they are. -/
structure Store.TurnsOnly (name : String) (R : StoredTable → StoredTable → Prop) (s s' : Store) :
    Prop where
  own : ∀ t, s.tables.get? name = some t → ∃ t', s'.tables.get? name = some t' ∧ R t t'
  other : ∀ other, other ≠ name → s'.tables.get? other = s.tables.get? other
  isSome_eq : (s'.tables.get? name).isSome = (s.tables.get? name).isSome

/-- What becomes of the tables that some items name, when all others stay as they are. -/
structure Store.TurnsNamed {α : Type} (items : List α) (name : α → String)
    (R : α → StoredTable → StoredTable → Prop) (s s' : Store) : Prop where
  own : ∀ x ∈ items, ∀ t, s.tables.get? (name x) = some t →
    ∃ t', s'.tables.get? (name x) = some t' ∧ R x t t'
  other : ∀ other, other ∉ items.map name → s'.tables.get? other = s.tables.get? other
  isSome_eq : ∀ x ∈ items, (s'.tables.get? (name x)).isSome = (s.tables.get? (name x)).isSome

/-- A loop whose steps write different tables makes of each what its own step makes of it. -/
theorem turns_of_forM {α : Type} {f : α → Action Unit} {items : List α} {name : α → String}
    {R : α → StoredTable → StoredTable → Prop} {tx tx' : Transaction}
    (hnodup : (items.map name).Nodup)
    (hstep : ∀ x ∈ items, ∀ tx tx', Yields (f x) tx () tx' →
      tx.work.TurnsOnly (name x) (R x) tx'.work)
    (h : Yields (items.forM f) tx () tx') : tx.work.TurnsNamed items name R tx'.work := by
  -- on the items: a table is untouched before its step and after it
  induction items generalizing tx with
  | nil =>
    obtain ⟨-, rfl⟩ := (yields_pure _ _).1 h
    exact ⟨by simp, fun _ _ => rfl, by simp⟩
  | cons x rest ih =>
    rw [List.map_cons, List.nodup_cons] at hnodup
    obtain ⟨mid, hx, hrest⟩ := yields_forM_cons.1 h
    have hfirst := hstep x List.mem_cons_self tx mid hx
    have hlater := ih hnodup.2 (fun y hy => hstep y (List.mem_cons_of_mem x hy)) hrest
    have hne {y : α} (hy : y ∈ rest) : name y ≠ name x := fun heq =>
      hnodup.1 (heq ▸ List.mem_map_of_mem hy)
    refine ⟨?_, ?_, ?_⟩
    · intro y hy t ht
      rcases List.mem_cons.1 hy with rfl | hyrest
      · obtain ⟨t', ht', hR⟩ := hfirst.own t ht
        exact ⟨t', (hlater.other _ hnodup.1).trans ht', hR⟩
      · exact hlater.own y hyrest t ((hfirst.other _ (hne hyrest)).trans ht)
    · intro other hnot
      rw [List.map_cons, List.mem_cons, not_or] at hnot
      exact (hlater.other other hnot.2).trans (hfirst.other other hnot.1)
    · intro y hy
      rcases List.mem_cons.1 hy with rfl | hyrest
      · rw [hlater.other _ hnodup.1, hfirst.isSome_eq]
      · rw [hlater.isSome_eq y hyrest, hfirst.other _ (hne hyrest)]

theorem Store.turnsOnly_put {s : Store} {name : String} {R : StoredTable → StoredTable → Prop}
    {t t' : StoredTable} (ht : s.tables.get? name = some t) (hR : R t t') :
    s.TurnsOnly name R (s.put name t') := by
  refine ⟨fun u hu => ?_, fun other hother => ?_, ?_⟩
  · obtain rfl : u = t := Option.some.inj (hu.symm.trans ht)
    exact ⟨t', by rw [Store.get?_put, if_pos rfl], hR⟩
  · rw [Store.get?_put, if_neg hother]
  · rw [Store.get?_put, if_pos rfl, ht]
    rfl

theorem turns_of_setLinks {schema : Schema} {now : Time.Instant} {m : ListField} {owner : Value}
    {members : List Value} {tx tx' : Transaction} {link : Table}
    (hlink : schema.linkTable m.linkTable = .ok link)
    (h : Yields (Change.setLinks schema now m owner members) tx () tx') :
    tx.work.TurnsOnly m.linkTable
      (StoredTable.SetsLinks link m (.string now.text) owner members) tx'.work := by
  have hname : link.name = m.linkTable := (Schema.mem_of_linkTable hlink).2
  obtain ⟨t, t', ht, rfl, hsets⟩ := Change.sets_of_setLinks hlink h
  rw [← hname, Transaction.work_onto]
  exact Store.turnsOnly_put ht hsets

theorem turns_of_addLinks {schema : Schema} {now : Time.Instant} {m : ListField} {owner : Value}
    {members : List Value} {tx tx' : Transaction} {link : Table}
    (hlink : schema.linkTable m.linkTable = .ok link)
    (h : Yields (Change.addLinks schema now m owner members) tx () tx') :
    tx.work.TurnsOnly m.linkTable (fun t t' =>
      t.Adds link.uniqueGroups (.string now.text) (members.map (Change.linkRow m owner)) t')
      tx'.work := by
  have hname : link.name = m.linkTable := (Schema.mem_of_linkTable hlink).2
  cases ht : tx.work.tables.get? link.name with
  | some t =>
    obtain ⟨t', rfl, hadds⟩ := Change.adds_of_addLinks hlink ht h
    rw [← hname, Transaction.work_onto]
    exact Store.turnsOnly_put ht hadds
  -- without the table there can be no members to link
  | none =>
    obtain ⟨link', hlink', hrun⟩ := Change.yields_addLinks.1 h
    obtain rfl : link' = link := Except.ok.inj (hlink'.symm.trans hlink)
    cases members with
    | nil =>
      obtain ⟨-, rfl⟩ := (yields_pure _ _).1 hrun
      exact ⟨fun t ht => ⟨t, ht, .nil t⟩, fun _ _ => rfl, rfl⟩
    | cons member rest =>
      obtain ⟨_, hfirst, -⟩ := yields_forM_cons.1 hrun
      obtain ⟨id, hinsert⟩ := yields_discard.1 hfirst
      obtain ⟨-, row, happend, -⟩ := Transaction.yields_insert.1 hinsert
      obtain ⟨-, t, next, hstored, -⟩ := Transaction.yields_append.1 happend
      rw [ht] at hstored
      cases hstored

/-! ## The lists of a change -/

/-- The link tables of some lists are turned into others, and all other tables stay as they are. -/
structure Store.ListsTurn {α : Type} (schema : Schema) (items : List α) (list : α → ListField)
    (R : α → Table → StoredTable → StoredTable → Prop) (s s' : Store) : Prop where
  own : ∀ x ∈ items, ∀ link, schema.linkTable (list x).linkTable = .ok link →
    ∀ t, s.tables.get? link.name = some t → ∃ t', s'.tables.get? link.name = some t' ∧ R x link t t'
  other : ∀ other, other ∉ items.map (fun x => (list x).linkTable) →
    s'.tables.get? other = s.tables.get? other
  isSome_eq : ∀ name, (s'.tables.get? name).isSome = (s.tables.get? name).isSome

/-- Steps for several lists turn one link table each, and no two of them the same. -/
theorem listsTurn_of_forM {α : Type} {schema : Schema} {f : α → Action Unit} {items : List α}
    {list : α → ListField} {R : α → Table → StoredTable → StoredTable → Prop} {tx tx' : Transaction}
    (hnodup : (items.map fun x => (list x).linkTable).Nodup)
    (hlinks : ∀ x ∈ items, ∃ link, schema.linkTable (list x).linkTable = .ok link)
    (hstep : ∀ x ∈ items, ∀ link, schema.linkTable (list x).linkTable = .ok link → ∀ tx tx',
      Yields (f x) tx () tx' → tx.work.TurnsOnly (list x).linkTable (R x link) tx'.work)
    (h : Yields (items.forM f) tx () tx') : tx.work.ListsTurn schema items list R tx'.work := by
  have hloop := turns_of_forM (R := fun x t t' => ∀ link,
    schema.linkTable (list x).linkTable = .ok link →
      R x link t t') hnodup (fun x hx tx tx' hrun => by
      obtain ⟨link, hlink⟩ := hlinks x hx
      have hturns := hstep x hx link hlink tx tx' hrun
      refine ⟨fun t ht => ?_, hturns.other, hturns.isSome_eq⟩
      obtain ⟨t', ht', hR⟩ := hturns.own t ht
      refine ⟨t', ht', fun link' hlink' => ?_⟩
      rwa [Except.ok.inj (hlink'.symm.trans hlink)]) h
  refine ⟨fun x hx link hlink t ht => ?_, hloop.other, fun name => ?_⟩
  · have hname := (Schema.mem_of_linkTable hlink).2
    rw [hname] at ht ⊢
    obtain ⟨t', ht', hR⟩ := hloop.own x hx t ht
    exact ⟨t', ht', hR link hlink⟩
  · by_cases hitem : name ∈ items.map fun x => (list x).linkTable
    · obtain ⟨x, hx, rfl⟩ := List.mem_map.1 hitem
      exact hloop.isSome_eq x hx
    · rw [hloop.other name hitem]

/-- The lists that a document gives are of different fields. -/
theorem Change.listsOf_fields_nodup (table : Table) (doc : Record) :
    ((listsOf table doc).map fun entry => entry.1.field).Nodup := by
  have hsub : ((listsOf table doc).map fun entry => entry.1.field).Sublist
      (doc.entries.map Prod.fst) := by
    unfold listsOf
    induction doc.entries with
    | nil => exact .slnil
    | cons entry rest ih =>
      rw [List.filterMap_cons]
      cases hfield : table.listField? entry.1 with
      | none => exact ih.cons _
      | some m =>
        rw [Option.map_some, List.map_cons, List.map_cons, (Table.mem_of_listField? hfield).2]
        exact ih.cons_cons _
  exact hsub.nodup doc.nodup

/-- What a document gives for a list is what a replacement sets. -/
theorem Change.membersFor_of_mem {table : Table} {doc : Record} {entry : ListField × List Value}
    (h : entry ∈ listsOf table doc) : membersFor table doc entry.1 = entry.2 := by
  have hfound := find?_eq_of_nodup (listsOf_fields_nodup table doc) h
  rw [membersFor, hfound]
  rfl

namespace Schema.Coherent

variable {schema : Schema} {table base : Table}

theorem link_of_list (hco : schema.Coherent) (hbase : base ∈ schema.bases)
    (hshares : table.SharesRows base) {m : ListField} (hm : m ∈ table.lists) :
    ∃ link, schema.linkTable m.linkTable = .ok link := by
  obtain ⟨link, _, _, _, hserves⟩ := hco.lists base hbase m (hshares.lists ▸ hm)
  exact ⟨link, hserves.link_eq⟩

/-- The table of a resource is none of the link tables. -/
theorem base_ne_link (hco : schema.Coherent) (hbase : base ∈ schema.bases) {link : Table}
    (hlink : link ∈ schema.links) : base.name ≠ link.name := by
  have hnames := hco.names_nodup
  rw [Schema.physical, List.map_append, List.nodup_append] at hnames
  exact hnames.2.2 _ (List.mem_map_of_mem hbase) _ (List.mem_map_of_mem hlink)

theorem eq_of_name (hco : schema.Coherent) {t u : Table} (ht : t ∈ schema.physical)
    (hu : u ∈ schema.physical) (hname : t.name = u.name) : t = u :=
  List.inj_on_of_nodup_map hco.names_nodup ht hu hname

/-- The lists that a document gives have different link tables. -/
theorem listsOf_links_nodup (hco : schema.Coherent) (hbase : base ∈ schema.bases)
    (hshares : table.SharesRows base) (doc : Record) :
    ((Change.listsOf table doc).map fun entry => entry.1.linkTable).Nodup := by
  have hfields := Change.listsOf_fields_nodup table doc
  have hlists : ∀ entry ∈ Change.listsOf table doc, entry.1 ∈ table.lists :=
    fun _ hentry => Change.list_of_mem_listsOf hentry
  have hnodup := hco.links_nodup base hbase
  rw [← hshares.lists] at hnodup
  -- two entries with one link table are entries for one list, and so for one field
  refine List.Nodup.map_on (fun a ha b hb heq => ?_) hfields.of_map
  have hlist : a.1 = b.1 := List.inj_on_of_nodup_map hnodup (hlists a ha) (hlists b hb) heq
  exact List.inj_on_of_nodup_map hfields ha hb (by rw [hlist])

end Schema.Coherent

namespace Store.ListsTurn

variable {schema : Schema} {table base other : Table} {s s' : Store} {t' : StoredTable} {α : Type}
  {items : List α} {list : α → ListField} {R : α → Table → StoredTable → StoredTable → Prop}

/-- The lists of a resource leave the tables of all resources. -/
theorem get?_base (h : s.ListsTurn schema items list R s') (hco : schema.Coherent)
    (hbase : base ∈ schema.bases) (hshares : table.SharesRows base)
    (hlists : ∀ x ∈ items, list x ∈ table.lists) (hother : other ∈ schema.bases) :
    s'.tables.get? other.name = s.tables.get? other.name := by
  refine h.other other.name fun hmem => ?_
  obtain ⟨x, hx, hname⟩ := List.mem_map.1 hmem
  obtain ⟨link, hlink⟩ := hco.link_of_list hbase hshares (hlists x hx)
  obtain ⟨hlinkmem, hlinkname⟩ := Schema.mem_of_linkTable hlink
  exact hco.base_ne_link hother hlinkmem (hname.symm.trans hlinkname.symm)

/-- The table that a change wrote before the lists is as it was written. -/
theorem get?_written (h : (s.put base.name t').ListsTurn schema items list R s')
    (hco : schema.Coherent) (hbase : base ∈ schema.bases) (hshares : table.SharesRows base)
    (hlists : ∀ x ∈ items, list x ∈ table.lists) : s'.tables.get? base.name = some t' := by
  rw [h.get?_base hco hbase hshares hlists hbase, Store.get?_put, if_pos rfl]

/-- The tables of other resources are as they were. -/
theorem get?_other (h : (s.put base.name t').ListsTurn schema items list R s')
    (hco : schema.Coherent) (hbase : base ∈ schema.bases) (hshares : table.SharesRows base)
    (hlists : ∀ x ∈ items, list x ∈ table.lists) (hother : other ∈ schema.bases)
    (hne : other.name ≠ base.name) : s'.tables.get? other.name = s.tables.get? other.name := by
  rw [h.get?_base hco hbase hshares hlists hother, Store.get?_put, if_neg hne]

/-- A link table is as it was, or what the step of its own list made of it. -/
theorem link_cases (h : (s.put base.name t').ListsTurn schema items list R s')
    (hco : schema.Coherent) (hbase : base ∈ schema.bases)
    (hlists : ∀ x ∈ items, list x ∈ base.lists) {link : Table} (hlink : link ∈ schema.links)
    {u u' : StoredTable} (hu : s.tables.get? link.name = some u)
    (hu' : s'.tables.get? link.name = some u') :
    u' = u ∨ ∃ x ∈ items, schema.linkTable (list x).linkTable = .ok link ∧ R x link u u' := by
  have hstored : (s.put base.name t').tables.get? link.name = some u := by
    rw [Store.get?_put, if_neg (hco.base_ne_link hbase hlink).symm, hu]
  by_cases hitem : link.name ∈ items.map fun x => (list x).linkTable
  · obtain ⟨x, hx, hname⟩ := List.mem_map.1 hitem
    obtain ⟨link', hlink'⟩ := hco.link_of_list hbase (.refl base) (hlists x hx)
    obtain ⟨hmem', hname'⟩ := Schema.mem_of_linkTable hlink'
    obtain rfl : link' = link := hco.eq_of_name (Schema.mem_physical_of_link hmem')
      (Schema.mem_physical_of_link hlink) (hname'.trans hname)
    obtain ⟨w, hw, hR⟩ := h.own x hx link' hlink' u hstored
    obtain rfl := Option.some.inj (hw.symm.trans hu')
    exact .inr ⟨x, hx, hlink', hR⟩
  · rw [h.other link.name hitem] at hu'
    exact .inl (Option.some.inj (hu'.symm.trans hstored))

/-- A link table that is there afterwards was there before. -/
theorem exists_link_cases (h : (s.put base.name t').ListsTurn schema items list R s')
    (hco : schema.Coherent) (hbase : base ∈ schema.bases)
    (hlists : ∀ x ∈ items, list x ∈ base.lists) {link : Table} (hlink : link ∈ schema.links)
    {u' : StoredTable} (hu' : s'.tables.get? link.name = some u') :
    ∃ u, s.tables.get? link.name = some u
      ∧ (u' = u ∨ ∃ x ∈ items, schema.linkTable (list x).linkTable = .ok link ∧ R x link u u') := by
  have hsome : (s.tables.get? link.name).isSome = true := by
    have heq := h.isSome_eq link.name
    rw [Store.get?_put, if_neg (hco.base_ne_link hbase hlink).symm, hu'] at heq
    exact heq.symm
  obtain ⟨u, hu⟩ := Option.isSome_iff_exists.1 hsome
  exact ⟨u, hu, h.link_cases hco hbase hlists hlink hu hu'⟩

end Store.ListsTurn

/-! ## Rows that are changed or go -/

theorem forall₂_trans {α β γ : Type} {R : α → β → Prop} {S : β → γ → Prop} {T : α → γ → Prop}
    (htrans : ∀ a b c, R a b → S b c → T a c) {xs : List α} {ys : List β} {zs : List γ}
    (hxy : List.Forall₂ R xs ys) (hyz : List.Forall₂ S ys zs) : List.Forall₂ T xs zs := by
  induction hxy generalizing zs with
  | nil =>
    cases hyz
    exact .nil
  | cons hfirst _ ih =>
    cases hyz with
    | cons hnext hrest => exact .cons (htrans _ _ _ hfirst hnext) (ih hrest)

theorem forall₂_set {α : Type} {R : α → α → Prop} (hrefl : ∀ a, R a a) {items : List α}
    {place : Nat} {old new : α} (hold : items[place]? = some old) (hR : R old new) :
    List.Forall₂ R items (items.set place new) := by
  -- on the items, the place moving down with them
  induction items generalizing place with
  | nil => cases hold
  | cons x rest ih =>
    cases place with
    | zero =>
      obtain rfl := Option.some.inj hold
      exact .cons hR (List.forall₂_same.2 fun a _ => hrefl a)
    | succ n => exact .cons (hrefl x) (ih hold)

/-- The names of a row stay, and each cell stays or is the one that a record gives. -/
def Record.RewrittenBy (record old row : Record) : Prop :=
  row.keys = old.keys ∧ ∀ name, row.get? name = old.get? name
    ∨ ∃ v, record.get? name = some v ∧ row.get? name = some v

theorem Record.RewrittenBy.trans {record a b c : Record} (hab : record.RewrittenBy a b)
    (hbc : record.RewrittenBy b c) : record.RewrittenBy a c := by
  refine ⟨hbc.1.trans hab.1, fun name => ?_⟩
  rcases hbc.2 name with hsame | hgiven
  · rw [hsame]
    exact hab.2 name
  · exact .inr hgiven

theorem StoredTable.rewrittenBy_assign {record old row : Record}
    (h : StoredTable.assign old record = .ok row) : record.RewrittenBy old row := by
  refine ⟨keys_assign h, fun name => ?_⟩
  rw [get?_assign h name]
  cases hgiven : record.get? name with
  | none => exact .inl rfl
  | some v => exact .inr ⟨v, rfl, rfl⟩

namespace StoredTable

/-- Rows are changed in their places by a record. -/
structure Rewrites (record : Record) (t t' : StoredTable) : Prop where
  columns_eq : t'.columns = t.columns
  nextId_eq : t'.nextId = t.nextId
  rows : List.Forall₂ record.RewrittenBy t.rows t'.rows

theorem Rewrites.refl (record : Record) (t : StoredTable) : t.Rewrites record t :=
  ⟨rfl, rfl, List.forall₂_same.2 fun _ _ => ⟨rfl, fun _ => .inl rfl⟩⟩

theorem Rewrites.trans {record : Record} {a b c : StoredTable} (hab : a.Rewrites record b)
    (hbc : b.Rewrites record c) : a.Rewrites record c :=
  ⟨hbc.columns_eq.trans hab.columns_eq, hbc.nextId_eq.trans hab.nextId_eq,
    forall₂_trans (fun _ _ _ hfirst hnext => hfirst.trans hnext) hab.rows hbc.rows⟩

theorem rewrites_set {t : StoredTable} {record old row : Record} {place : Nat}
    (hold : t.rows[place]? = some old) (hassign : assign old record = .ok row) :
    t.Rewrites record { t with rows := t.rows.set place row } :=
  ⟨rfl, rfl, forall₂_set (fun _ => ⟨rfl, fun _ => .inl rfl⟩) hold (rewrittenBy_assign hassign)⟩

/-- Rows go, and nothing else changes. -/
structure Shrinks (t t' : StoredTable) : Prop where
  columns_eq : t'.columns = t.columns
  nextId_eq : t'.nextId = t.nextId
  rows : t'.rows.Sublist t.rows

theorem Shrinks.refl (t : StoredTable) : t.Shrinks t := ⟨rfl, rfl, .refl _⟩

theorem Shrinks.trans {a b c : StoredTable} (hab : a.Shrinks b) (hbc : b.Shrinks c) : a.Shrinks c :=
  ⟨hbc.columns_eq.trans hab.columns_eq, hbc.nextId_eq.trans hab.nextId_eq, hbc.rows.trans hab.rows⟩

/-- The row that has the key of a record is changed by it, or a new row is put into the table. -/
inductive Upserts (table : Table) (now : Value) (record : Record) (s : Store) (t : StoredTable) :
    StoredTable → Prop
  | change {place : Nat} {rest : List Nat} {old row : Record}
      (hplaces : t.places (.eq table.primaryKey (record.cell table.primaryKey)) = place :: rest)
      (hold : t.rows[place]? = some old) (hassign : assign old record = .ok row)
      (hrules : s.checkRules table t.columns (t.rows.eraseIdx place) row = .ok ()) :
      Upserts table now record s t { t with rows := t.rows.set place row }
  | append {row : Record} {next : Int}
      (hplaces : t.places (.eq table.primaryKey (record.cell table.primaryKey)) = [])
      (hcolumns : t.checkColumns record = .ok ()) (hfill : t.fill now record = (row, next))
      (hrules : (s.put table.name { t with nextId := next }).checkRules table t.columns t.rows row
        = .ok ()) :
      Upserts table now record s t { t with nextId := next, rows := t.rows ++ [row] }

end StoredTable

/-- Every table that there is is turned into another one, and no table comes. -/
def Store.TurnsEach (R : StoredTable → StoredTable → Prop) (s s' : Store) : Prop :=
  ∀ name, match s.tables.get? name with
    | some t => ∃ t', s'.tables.get? name = some t' ∧ R t t'
    | none => s'.tables.get? name = none

theorem Store.TurnsEach.refl {R : StoredTable → StoredTable → Prop} (hrefl : ∀ t, R t t)
    (s : Store) :
    s.TurnsEach R s := by
  intro name
  cases h : s.tables.get? name with
  | some t => exact ⟨t, rfl, hrefl t⟩
  | none => rfl

/-- Tables that turn twice turn once, if their turning is transitive. -/
theorem Store.TurnsEach.trans {R : StoredTable → StoredTable → Prop}
    (htrans : ∀ a b c, R a b → R b c → R a c) {a b c : Store} (hab : a.TurnsEach R b)
    (hbc : b.TurnsEach R c) : a.TurnsEach R c := by
  intro name
  have hfirst := hab name
  have hnext := hbc name
  cases h : a.tables.get? name with
  | some t =>
    simp only [h] at hfirst
    obtain ⟨t', ht', hR⟩ := hfirst
    simp only [ht'] at hnext
    obtain ⟨t'', ht'', hR'⟩ := hnext
    exact ⟨t'', ht'', htrans _ _ _ hR hR'⟩
  | none =>
    simp only [h] at hfirst
    simp only [hfirst] at hnext
    exact hnext

theorem Store.TurnsEach.isSome_eq {R : StoredTable → StoredTable → Prop} {s s' : Store}
    (h : s.TurnsEach R s') (name : String) :
    (s'.tables.get? name).isSome = (s.tables.get? name).isSome := by
  have hname := h name
  cases hget : s.tables.get? name with
  | none =>
    simp only [hget] at hname
    rw [hname]
  | some t =>
    simp only [hget] at hname
    obtain ⟨t', ht', -⟩ := hname
    rw [ht']
    rfl

theorem Store.TurnsEach.turned {R : StoredTable → StoredTable → Prop} {s s' : Store}
    (h : s.TurnsEach R s') {name : String} {t t' : StoredTable} (ht : s.tables.get? name = some t)
    (ht' : s'.tables.get? name = some t') : R t t' := by
  have hname := h name
  simp only [ht] at hname
  obtain ⟨u, hu, hR⟩ := hname
  rwa [Option.some.inj (ht'.symm.trans hu)]

/-- A table that is there was turned out of one that was. -/
theorem Store.TurnsEach.exists_turned {R : StoredTable → StoredTable → Prop} {s s' : Store}
    (h : s.TurnsEach R s') {name : String} {t' : StoredTable}
    (ht' : s'.tables.get? name = some t') :
    ∃ t, s.tables.get? name = some t ∧ R t t' := by
  have hsome := h.isSome_eq name
  rw [ht'] at hsome
  obtain ⟨t, ht⟩ := Option.isSome_iff_exists.1 hsome.symm
  exact ⟨t, ht, h.turned ht ht'⟩

theorem Store.turnsEach_put {R : StoredTable → StoredTable → Prop} (hrefl : ∀ t, R t t) {s : Store}
    {name : String} {t t' : StoredTable} (ht : s.tables.get? name = some t) (hR : R t t') :
    s.TurnsEach R (s.put name t') := by
  intro other
  rw [Store.get?_put]
  by_cases hname : other = name
  · rw [hname, ht, if_pos rfl]
    exact ⟨t', rfl, hR⟩
  · rw [if_neg hname]
    exact Store.TurnsEach.refl hrefl s other

namespace Transaction

variable {table : Table} {record : Record} {now : Time.Instant} {tx tx' : Transaction}

/-- A row that is upserted is changed where its key is found, and else it is added. -/
theorem effect_of_upsert (h : Yields (upsert now table record) tx () tx') :
    ∃ t t', tx.work.tables.get? table.name = some t
      ∧ t.Upserts table (.string now.text) record tx.work t'
      ∧ tx' = tx.onto (tx.work.put table.name t') := by
  obtain ⟨-, -, t, ht, ⟨place, rest, hplaces, hchange⟩ | ⟨hplaces, row, happend⟩⟩ :=
    yields_upsert.1 h
  · obtain ⟨-, u, hu, hcases⟩ := yields_change.1 hchange
    obtain rfl : u = t := Option.some.inj (hu.symm.trans ht)
    obtain ⟨found, hfound, -⟩ := mem_places (by rw [hplaces]; exact List.mem_cons_self)
    rcases hcases with ⟨hnone, -⟩ | ⟨old, row, hold, hassign, hrules, rfl⟩
    -- the place was found among the rows, so there is a row
    · rw [hnone] at hfound
      cases hfound
    · exact ⟨u, _, ht, .change hplaces hold hassign hrules, rfl⟩
  · obtain ⟨-, u, next, hu, hcolumns, hfill, hrules, rfl⟩ := yields_append.1 happend
    obtain rfl : u = t := Option.some.inj (hu.symm.trans ht)
    exact ⟨u, _, ht, .append hplaces hcolumns hfill hrules, rfl⟩

/-- An update rewrites the rows of its table that satisfy a predicate. -/
theorem effect_of_update {p : Predicate} {n : Nat} (h : Yields (update table p record) tx n tx') :
    ∃ t t', tx.work.tables.get? table.name = some t ∧ t.Rewrites record t'
      ∧ tx' = tx.onto (tx.work.put table.name t') := by
  obtain ⟨-, -, t, ht, hrun, -⟩ := yields_update.1 h
  refine ⟨t, ?_⟩
  -- the invariant: the copy differs from the one at the start in rewritten rows of this table
  have hinv := forM_induction
    (P := fun mid => ∃ t', t.Rewrites record t' ∧ mid = tx.onto (tx.work.put table.name t')) ?_
    ⟨t, .refl record t, by rw [Store.put_of_get? ht]; rfl⟩ hrun
  · obtain ⟨t', hrewrites, htx'⟩ := hinv
    exact ⟨t', ht, hrewrites, htx'⟩
  · rintro place - _ mid' ⟨t', hrewrites, rfl⟩ hstep
    obtain ⟨-, u, hu, ⟨-, rfl⟩ | ⟨old, row, hold, hassign, -, rfl⟩⟩ := yields_change.1 hstep
    · exact ⟨t', hrewrites, rfl⟩
    · rw [work_onto, Store.get?_put, if_pos rfl] at hu
      obtain rfl := Option.some.inj hu
      refine ⟨_, hrewrites.trans (StoredTable.rewrites_set hold hassign), ?_⟩
      rw [onto_onto, work_onto, Store.put_put]

theorem effect_of_delete {p : Predicate} {n : Nat} (h : Yields (delete table p) tx n tx') :
    tx.work.TurnsEach StoredTable.Shrinks tx'.work := by
  obtain ⟨-, -, t, ht, rfl, -⟩ := yields_delete.1 h
  exact Store.turnsEach_put StoredTable.Shrinks.refl ht ⟨rfl, rfl, List.filter_sublist⟩

end Transaction

/-! ## The changes -/

namespace Change

variable {schema : Schema} {table base : Table} {now : Time.Instant} {tx tx' : Transaction}
  {doc : Record}

/-- An insertion fills in one row, which its table admits, and then only adds the links of its
lists. -/
theorem effect_of_insert (hco : schema.Coherent) (hbase : base ∈ schema.bases)
    (hshares : table.SharesRows base) {id : Value} {new : Record}
    (h : Yields (insert schema table now doc) tx (id, new) tx') :
    ∃ t row next, tx.work.tables.get? base.name = some t
      ∧ t.fill (.string now.text) (insertedRow table now doc) = (row, next)
      ∧ tx.work.Admissible base.uniqueGroups t.columns t.rows row
      ∧ id = row.cell base.primaryKey
      ∧ (tx.work.put base.name { t with nextId := next, rows := t.rows ++ [row] }).ListsTurn schema
        (listsOf table (withDoubles table doc)) Prod.fst (fun entry link t t' =>
          t.Adds link.uniqueGroups (.string now.text) (entry.2.map (linkRow entry.1 id)) t')
        tx'.work := by
  obtain ⟨-, ⟨mid, hinsert, hlinks⟩, -⟩ := yields_insert.1 h
  obtain ⟨-, row, happend, rfl⟩ := Transaction.yields_insert.1 hinsert
  obtain ⟨t, next, ht, hfill, hadmissible, hwork⟩ :=
    Transaction.admissible_of_append hshares happend
  refine ⟨t, row, next, ht, hfill, hadmissible, by rw [hshares.primaryKey], ?_⟩
  rw [← hwork]
  refine listsTurn_of_forM (hco.listsOf_links_nodup hbase hshares _) (fun entry hentry => ?_)
    (fun entry _ link hlink _ _ hrun => turns_of_addLinks hlink hrun) hlinks
  exact hco.link_of_list hbase hshares (list_of_mem_listsOf hentry)

/-- A change writes the row with the key of the visible one, and then the lists of the document. -/
theorem steps_of_update (hco : schema.Coherent) (hbase : base ∈ schema.bases)
    (hshares : table.SharesRows base) {id : Value}
    (h : Yields (update schema table now id doc) tx () tx') :
    ∃ key n mid, Yields (visibleKey table id) tx (some key) tx
      ∧ Document.checkPartial schema table doc = .ok ()
      ∧ Yields
        (Transaction.update table (.eq table.primaryKey key) (updatedRow table now doc)) tx n mid
      ∧ mid.work.ListsTurn schema (listsOf table doc) Prod.fst
        (fun entry link => StoredTable.SetsLinks link entry.1 (.string now.text) key entry.2)
        tx'.work := by
  obtain ⟨key, n, mid, hfound, hcheck, hupdate, hlinks⟩ := yields_update.1 h
  refine ⟨key, n, mid, hfound, hcheck, hupdate, ?_⟩
  refine listsTurn_of_forM (hco.listsOf_links_nodup hbase hshares _) (fun entry hentry => ?_)
    (fun entry _ link hlink _ _ hrun => turns_of_setLinks hlink hrun) hlinks
  exact hco.link_of_list hbase hshares (list_of_mem_listsOf hentry)

/-- An update rewrites rows of one table, and then sets the links of the lists that are given. -/
theorem effect_of_update (hco : schema.Coherent) (hbase : base ∈ schema.bases)
    (hshares : table.SharesRows base) {id : Value}
    (h : Yields (update schema table now id doc) tx () tx') :
    ∃ key t t', Yields (visibleKey table id) tx (some key) tx
      ∧ tx.work.tables.get? base.name = some t ∧ t.Rewrites (updatedRow table now doc) t'
      ∧ (tx.work.put base.name t').ListsTurn schema (listsOf table doc) Prod.fst
        (fun entry link => StoredTable.SetsLinks link entry.1 (.string now.text) key entry.2)
        tx'.work := by
  obtain ⟨key, n, mid, hfound, -, hupdate, hlists⟩ := steps_of_update hco hbase hshares h
  obtain ⟨t, t', ht, hrewrites, rfl⟩ := Transaction.effect_of_update hupdate
  rw [hshares.name] at ht hlists
  exact ⟨key, t, t', hfound, ht, hrewrites, hlists⟩

/-- The plan by which a replacement looks for the old row. -/
def storedPlan (table : Table) (key : Value) : Plan :=
  { Plan.scan table (.eq table.primaryKey key) with limit := some 1 }

/-- A replacement writes one row under its key, and then sets the links of all lists of the
table. -/
theorem effect_of_replace (hco : schema.Coherent) (hbase : base ∈ schema.bases)
    (hshares : table.SharesRows base) {id : Value}
    (h : Yields (replace schema table now id doc) tx () tx') :
    ∃ key t t', Document.check schema table doc = .ok () ∧ keyFor table id = .ok key
      ∧ tx.work.tables.get? base.name = some t
      ∧ t.Upserts table (.string now.text)
          (replacedRow table now key (t.select (storedPlan table key)).head? doc) tx.work t'
      ∧ (tx.work.put base.name t').ListsTurn schema table.lists (fun m => m)
        (fun m link => StoredTable.SetsLinks link m (.string now.text) key (membersFor table doc m))
        tx'.work := by
  obtain ⟨key, stored, mid, hcheck, hkey, hstored, hupsert, hlinks⟩ := yields_replace.1 h
  obtain ⟨-, -, t, ht, rfl⟩ := Transaction.yields_select.1 hstored
  obtain ⟨u, t', hu, hupserts, rfl⟩ := Transaction.effect_of_upsert hupsert
  obtain rfl : u = t := Option.some.inj (hu.symm.trans ht)
  refine ⟨key, u, t', hcheck, hkey, hshares.name ▸ ht, hupserts, ?_⟩
  rw [← hshares.name, ← Transaction.work_onto tx (tx.work.put table.name t')]
  have hnodup := hco.links_nodup base hbase
  rw [← hshares.lists] at hnodup
  exact listsTurn_of_forM hnodup (fun m hm => hco.link_of_list hbase hshares hm)
    (fun m _ link hlink _ _ hrun => turns_of_setLinks hlink hrun) hlinks

/-- Removing rows takes rows of any tables. -/
theorem effect_of_removeRows {p : Predicate} {n : Nat}
    (h : Yields (removeRows schema table p) tx n tx') :
    tx.work.TurnsEach StoredTable.Shrinks tx'.work := by
  have htrans (a b c : StoredTable) (hab : a.Shrinks b) (hbc : b.Shrinks c) : a.Shrinks c :=
    hab.trans hbc
  obtain ⟨-, t, ht, ⟨-, -, rfl⟩ | ⟨-, mid, hlinks, hdelete⟩⟩ := yields_removeRows.1 h
  · exact .refl StoredTable.Shrinks.refl tx'.work
  · refine .trans htrans ?_ (Transaction.effect_of_delete hdelete)
    refine forM_induction (P := fun mid => tx.work.TurnsEach StoredTable.Shrinks mid.work) ?_
      (.refl StoredTable.Shrinks.refl _) hlinks
    intro link _ before after hbefore hstep
    obtain ⟨k, hrun⟩ := yields_discard.1 hstep
    exact hbefore.trans htrans (Transaction.effect_of_delete hrun)

/-- Removing raises the flags of rows, or takes rows of any tables. -/
theorem effect_of_remove {lookup : Filter} {n : Nat}
    (h : Yields (remove schema table now lookup) tx n tx') :
    (∃ deleted t t', table.deletedColumn = some deleted ∧ tx.work.tables.get? table.name = some t
        ∧ t.Rewrites (.ofList [(deleted, .bool true), (updatedColumn, .string now.text)]) t'
        ∧ tx'.work = tx.work.put table.name t')
      ∨ tx.work.TurnsEach StoredTable.Shrinks tx'.work := by
  obtain ⟨p, -, ⟨deleted, hdeleted, hflag⟩ | ⟨-, hremove⟩⟩ := yields_remove.1 h
  · obtain ⟨t, t', ht, hrewrites, rfl⟩ := Transaction.effect_of_update hflag
    exact .inl ⟨deleted, t, t', hdeleted, ht, hrewrites, rfl⟩
  · exact .inr (effect_of_removeRows hremove)

/-- Removing does no more to a link table than take rows from it. -/
theorem shrinks_of_remove (hco : schema.Coherent) (hbase : base ∈ schema.bases)
    (hshares : table.SharesRows base) {lookup : Filter} {n : Nat}
    (h : Yields (remove schema table now lookup) tx n tx') {link : Table}
    (hlink : link ∈ schema.links) {u' : StoredTable}
    (hu' : tx'.work.tables.get? link.name = some u') :
    ∃ u, tx.work.tables.get? link.name = some u ∧ u.Shrinks u' := by
  rcases effect_of_remove h with ⟨_, t, t', -, -, -, hwork⟩ | hshrinks
  · rw [hwork, hshares.name, Store.get?_put, if_neg (hco.base_ne_link hbase hlink).symm] at hu'
    exact ⟨u', hu', .refl u'⟩
  · exact hshrinks.exists_turned hu'

end Change

end RecordStore
