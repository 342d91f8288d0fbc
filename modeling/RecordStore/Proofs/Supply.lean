import Mathlib.Algebra.Order.BigOperators.Group.List
import Mathlib.Algebra.Order.Ring.Nat
import RecordStore.Proofs.Numbers

/-!
# The numbers of links do not run out

Links are numbered one after the other, so a run uses up no more numbers for the links of a list
than members are given in its documents. As long as these are fewer than there are numbers, no link
is given the last one.

* **`StoredTable.Supplied`** — the numbers of a link table that were given are below a bound.
* **`Catalog.linkKeysBelow_run`** — a run whose documents give few members leaves numbers for links.
-/

namespace RecordStore

open RecordStore.Action

/-! ## Counting members -/

/-- How many members the lists of a document have. -/
def Record.memberCount (doc : Record) : Nat :=
  (doc.entries.map fun entry => (Change.memberValues entry.2).length).sum

/-- How many members are given in an operation. -/
def Operation.memberCount : Operation → Nat
  | .insert _ docs => (docs.map Record.memberCount).sum
  | .update _ _ doc => doc.memberCount
  | .replace _ _ doc => doc.memberCount
  | _ => 0

/-- How many members are given in a run. -/
def memberCount (steps : List Step) : Nat := (steps.map fun step => step.2.memberCount).sum

theorem Change.length_le_memberCount {table : Table} {doc : Record} {entry : ListField × List Value}
    (h : entry ∈ listsOf table doc) : entry.2.length ≤ doc.memberCount := by
  obtain ⟨m, members⟩ := entry
  obtain ⟨v, hentry, -, rfl⟩ := mem_listsOf.1 h
  exact List.le_sum_of_mem (List.mem_map.2 ⟨(m.field, v), hentry, rfl⟩)

/-! ## One link table -/

namespace StoredTable

/-- The next number is no more than a bound, and the numbers among the keys are below it. -/
structure Supplied (t : StoredTable) (k : Column) (bound : Int) : Prop where
  next_le : t.nextId ≤ bound
  lt_next : ∀ row ∈ t.rows, ∀ n, row.cell k.name = .int n → n < t.nextId

variable {groups : List (List String)} {now : Value} {t t' : StoredTable} {records : List Record}
  {k : Column} {bound later : Int}

theorem Supplied.mono (h : t.Supplied k bound) (hle : bound ≤ later) : t.Supplied k later :=
  ⟨Int.le_trans h.next_le hle, h.lt_next⟩

theorem Supplied.of_sublist (h : t.Supplied k bound) (hnext : t'.nextId = t.nextId)
    (hrows : t'.rows.Sublist t.rows) : t'.Supplied k bound :=
  ⟨hnext ▸ h.next_le, fun row hrow n hn => hnext ▸ h.lt_next row (hrows.subset hrow) n hn⟩

/-- **Rows that are added take one number each.** -/
theorem Adds.supplied (h : t.Adds groups now records t') (hnumbered : t.Numbered k)
    (hcounter : isSigned64 t.nextId = true)
    (hnone : ∀ record ∈ records, record.get? k.name = none) (hsupplied : t.Supplied k bound)
    (hroom : bound + records.length ≤ lastNumber) : t'.Supplied k (bound + records.length) := by
  induction h generalizing bound with
  | nil t => exact hsupplied.mono (by simp)
  | @cons t t' record row records next s hfill _ _ ih =>
    rw [List.length_cons] at hroom ⊢
    have hgiven := hnone record List.mem_cons_self
    have hcell := hnumbered.cell_eq hfill hgiven
    have hle := hsupplied.next_le
    have hsucc := hnumbered.next_eq hcounter (by omega) hfill hgiven
    have hrow : ({ t with nextId := next, rows := t.rows ++ [row] } : StoredTable).Supplied k
        (bound + 1) := by
      refine ⟨?_, fun r hr n hn => ?_⟩
      · change next ≤ bound + 1
        omega
      · change n < next
        rcases List.mem_append.1 hr with hr | hr
        · have hlt := hsupplied.lt_next r hr n hn
          omega
        · rw [List.mem_singleton.1 hr, hcell] at hn
          have heq := Value.int.inj hn
          omega
    have hrest := ih (hnumbered.of_columns_eq rfl) (isSigned64_of_fill hcounter hfill)
      (fun r hr => hnone r (List.mem_cons_of_mem _ hr)) hrow (by omega)
    exact hrest.mono (by omega)

/-- Links that an owner is given take one number each. -/
theorem Adds.supplied_links {m : ListField} {owner : Value} {members : List Value}
    (h : t.Adds groups now (members.map (Change.linkRow m owner)) t') (hnumbered : t.Numbered k)
    (hcounter : isSigned64 t.nextId = true)
    (hnone : ∀ member, (Change.linkRow m owner member).get? k.name = none)
    (hsupplied : t.Supplied k bound) (hroom : bound + members.length ≤ lastNumber) :
    t'.Supplied k (bound + members.length) := by
  have hlength : (members.map (Change.linkRow m owner)).length = members.length :=
    List.length_map ..
  rw [← hlength] at hroom ⊢
  refine h.supplied hnumbered hcounter (fun record hrecord => ?_) hsupplied hroom
  obtain ⟨member, -, rfl⟩ := List.mem_map.1 hrecord
  exact hnone member

/-- So do links that are written anew. -/
theorem SetsLinks.supplied {link : Table} {m : ListField} {owner : Value} {members : List Value}
    (h : t.SetsLinks link m now owner members t') (hnumbered : t.Numbered k)
    (hcounter : isSigned64 t.nextId = true)
    (hnone : ∀ member, (Change.linkRow m owner member).get? k.name = none)
    (hsupplied : t.Supplied k bound) (hroom : bound + members.length ≤ lastNumber) :
    t'.Supplied k (bound + members.length) := by
  rcases h with ⟨-, rfl⟩ | ⟨-, hadds⟩
  · exact hsupplied.mono (by omega)
  · have hwithout : (t.withoutOwner m owner).Supplied k bound :=
      hsupplied.of_sublist rfl List.filter_sublist
    exact hadds.supplied_links (hnumbered.of_columns_eq rfl) hcounter hnone hwithout hroom

end StoredTable

/-! ## All link tables -/

/-- The numbers of all links are below a bound. -/
def Store.Supplied (schema : Schema) (bound : Int) (s : Store) : Prop :=
  ∀ link ∈ schema.links, ∀ t, s.tables.get? link.name = some t →
    t.Supplied (.identity link.primaryKey) bound

section Stores

variable {schema : Schema} {table base : Table} {now : Time.Instant} {s s' : Store} {bound : Int}
  {tx tx' : Transaction} {doc : Record}

theorem Store.Supplied.mono {later : Int} (h : s.Supplied schema bound) (hle : bound ≤ later) :
    s.Supplied schema later :=
  fun link hlink t ht => (h link hlink t ht).mono hle

theorem Store.Supplied.linkKeysBelow (h : s.Supplied schema bound) (hlast : bound ≤ lastNumber) :
    s.LinkKeysBelow schema := by
  intro link hlink row hrow n hn
  obtain ⟨t, ht, hmem⟩ := Store.get?_of_mem_rows hrow
  have hsupplied := h link hlink t ht
  exact Int.lt_of_lt_of_le (hsupplied.lt_next row hmem n hn) (Int.le_trans hsupplied.next_le hlast)

/-- Created tables begin with the number one. -/
theorem Store.Supplied.creates (hco : schema.Coherent) (h : s.Supplied schema bound)
    (hbound : 1 ≤ bound) (hcreates : s.Creates schema s') : s'.Supplied schema bound := by
  intro link hlink t ht
  rcases hcreates.cases hco (Schema.mem_physical_of_link hlink) ht with hold | rfl
  · exact h link hlink t hold
  · exact ⟨hbound, nofun⟩

/-- Lists that are written take no more numbers than one of them has members. -/
theorem Store.Supplied.lists (hco : schema.Coherent) (hwf : schema.WellFormed)
    (hregular : s.Regular schema) (hbase : base ∈ schema.bases) {t' : StoredTable} {α : Type}
    {items : List α} {list : α → ListField} {given : α → List Value}
    {R : α → Table → StoredTable → StoredTable → Prop} {count : Nat}
    (hlists : (s.put base.name t').ListsTurn schema items list R s')
    (hmem : ∀ x ∈ items, list x ∈ base.lists) (hgiven : ∀ x ∈ items, (given x).length ≤ count)
    (hstep : ∀ x ∈ items, ∀ link, schema.linkTable (list x).linkTable = .ok link → ∀ u u',
      u.Numbered (.identity link.primaryKey) → isSigned64 u.nextId = true →
        u.Supplied (.identity link.primaryKey) bound → bound + (given x).length ≤ lastNumber →
          R x link u u' → u'.Supplied (.identity link.primaryKey) (bound + (given x).length))
    (h : s.Supplied schema bound) (hroom : bound + count ≤ lastNumber) :
    s'.Supplied schema (bound + count) := by
  intro link hlink u' hu'
  have hphysical := Schema.mem_physical_of_link hlink
  obtain ⟨u, hu, hcases⟩ := hlists.exists_link_cases hco hbase hmem hlink hu'
  have hsupplied := h link hlink u hu
  rcases hcases with rfl | ⟨x, hx, hlinktable, hR⟩
  · exact hsupplied.mono (by omega)
  · have hlength := hgiven x hx
    have hnumbered := hregular.numbered hco hwf hphysical (hwf.link_key hlink) rfl hu
    have hcounter := (hregular.columns_eq link hphysical u hu).2
    have hstepped := hstep x hx link hlinktable u u' hnumbered hcounter hsupplied (by omega) hR
    exact hstepped.mono (by omega)

/-- An inserted document takes no more numbers than it gives members. -/
theorem supplied_of_insert (hco : schema.Coherent) (hwf : schema.WellFormed)
    (hregular : tx.work.Regular schema) (hbase : base ∈ schema.bases)
    (hshares : table.SharesRows base) {id : Value} {new : Record}
    (hrun : Yields (Change.insert schema table now doc) tx (id, new) tx')
    (h : tx.work.Supplied schema bound) (hroom : bound + doc.memberCount ≤ lastNumber) :
    tx'.work.Supplied schema (bound + doc.memberCount) := by
  obtain ⟨t, row, next, -, -, -, -, hlists⟩ := Change.effect_of_insert hco hbase hshares hrun
  have hmem {entry : ListField × List Value}
      (hentry : entry ∈ Change.listsOf table (Change.withDoubles table doc)) :
      entry.1 ∈ base.lists :=
    hshares.lists ▸ Change.list_of_mem_listsOf hentry
  refine h.lists hco hwf hregular hbase hlists (fun entry hentry => hmem hentry)
    (fun entry hentry => Change.length_le_memberCount
      ((Change.mem_listsOf_withDoubles (hco.lists_apart hbase hshares)).1 hentry))
    (fun entry hentry link hlink u u' hnumbered hcounter hsupplied hroom hadds => ?_) hroom
  exact hadds.supplied_links hnumbered hcounter
    (fun member => hco.get?_key_linkRow hbase (hmem hentry) hlink _ member) hsupplied hroom

/-- A document that changes a record takes no more numbers than it gives members. -/
theorem supplied_of_update (hco : schema.Coherent) (hwf : schema.WellFormed)
    (hregular : tx.work.Regular schema) (hbase : base ∈ schema.bases)
    (hshares : table.SharesRows base) {id : Value}
    (hrun : Yields (Change.update schema table now id doc) tx () tx')
    (h : tx.work.Supplied schema bound) (hroom : bound + doc.memberCount ≤ lastNumber) :
    tx'.work.Supplied schema (bound + doc.memberCount) := by
  obtain ⟨key, t, t', -, -, -, hlists⟩ := Change.effect_of_update hco hbase hshares hrun
  have hmem {entry : ListField × List Value} (hentry : entry ∈ Change.listsOf table doc) :
      entry.1 ∈ base.lists := hshares.lists ▸ Change.list_of_mem_listsOf hentry
  refine h.lists hco hwf hregular hbase hlists (fun entry hentry => hmem hentry)
    (fun entry hentry => Change.length_le_memberCount hentry)
    (fun entry hentry link hlink u u' hnumbered hcounter hsupplied hroom hsets => ?_) hroom
  exact hsets.supplied hnumbered hcounter
    (fun member => hco.get?_key_linkRow hbase (hmem hentry) hlink _ member) hsupplied hroom

/-- So does one that replaces a record. -/
theorem supplied_of_replace (hco : schema.Coherent) (hwf : schema.WellFormed)
    (hregular : tx.work.Regular schema) (hbase : base ∈ schema.bases)
    (hshares : table.SharesRows base) {id : Value}
    (hrun : Yields (Change.replace schema table now id doc) tx () tx')
    (h : tx.work.Supplied schema bound) (hroom : bound + doc.memberCount ≤ lastNumber) :
    tx'.work.Supplied schema (bound + doc.memberCount) := by
  obtain ⟨key, t, t', -, -, -, -, hlists⟩ := Change.effect_of_replace hco hbase hshares hrun
  have hmem {m : ListField} (hm : m ∈ table.lists) : m ∈ base.lists := hshares.lists ▸ hm
  have hlength : ∀ m ∈ table.lists, (Change.membersFor table doc m).length ≤ doc.memberCount := by
    intro m hm
    rcases Change.membersFor_cases hshares (hco.fields_nodup base hbase) doc hm with hentry | hnone
    · exact Change.length_le_memberCount hentry
    · rw [hnone]
      exact Nat.zero_le _
  refine h.lists hco hwf hregular hbase hlists (fun m hm => hmem hm) hlength
    (fun m hm link hlink u u' hnumbered hcounter hsupplied hroom hsets => ?_) hroom
  exact hsets.supplied hnumbered hcounter
    (fun member => hco.get?_key_linkRow hbase (hmem hm) hlink _ member) hsupplied hroom

/-- Removing takes no numbers. -/
theorem supplied_of_remove (hco : schema.Coherent) (hbase : base ∈ schema.bases)
    (hshares : table.SharesRows base) {lookup : Filter} {n : Nat}
    (hrun : Yields (Change.remove schema table now lookup) tx n tx')
    (h : tx.work.Supplied schema bound) : tx'.work.Supplied schema bound := by
  intro link hlink u' hu'
  obtain ⟨u, hu, hshrinks⟩ := Change.shrinks_of_remove hco hbase hshares hrun hlink hu'
  exact (h link hlink u hu).of_sublist hshrinks.nextId_eq hshrinks.rows

end Stores

/-! ## Runs -/

namespace Catalog

variable {catalog : Catalog} {db : Database} {now : Time.Instant} {bound : Int}

/-- On the documents; each insertion takes at most as many numbers as it has members. -/
theorem supplied_of_insertAll (hco : catalog.schema.Coherent) (hwf : catalog.schema.WellFormed)
    {table base : Table} (hbase : base ∈ catalog.schema.bases) (hshares : table.SharesRows base)
    {docs : List Record} (hregular : db.store.Regular catalog.schema)
    (h : db.store.Supplied catalog.schema bound)
    (hroom : bound + (docs.map Record.memberCount).sum ≤ lastNumber) :
    (catalog.insertAll table now docs db).2.store.Supplied catalog.schema
      (bound + (docs.map Record.memberCount).sum) := by
  -- on the documents, each inserted beside those before it
  induction docs generalizing db bound with
  | nil => exact h.mono (by simp)
  | cons doc docs ih =>
    rw [List.map_cons, List.sum_cons] at hroom ⊢
    cases hone : (catalog.insertOne table now doc db).1 with
    | error e =>
      rw [insertAll_cons_error hone, store_insertOne_error hone]
      exact h.mono (by omega)
    | ok stamped =>
      obtain ⟨id, new⟩ := stamped
      rw [insertAll_cons_ok hone]
      obtain ⟨tx, hrun, hstore⟩ := yields_of_insertOne hone
      have hregular' : tx.work.Regular catalog.schema :=
        hregular.turns hco (turns_of_insert hco hbase hshares hrun)
      have hsupplied : tx.work.Supplied catalog.schema (bound + doc.memberCount) :=
        supplied_of_insert hco hwf hregular hbase hshares hrun h (by omega)
      rw [← hstore] at hregular' hsupplied
      exact (ih hregular' hsupplied (by omega)).mono (by omega)

/-- **An operation takes no more numbers than members are given in it.** -/
theorem supplied_of_perform (hco : catalog.schema.Coherent) (hwf : catalog.schema.WellFormed)
    (hregular : db.store.Regular catalog.schema) (h : db.store.Supplied catalog.schema bound)
    (hbound : 1 ≤ bound) (op : Operation) (hroom : bound + op.memberCount ≤ lastNumber) :
    (catalog.perform db (now, op)).store.Supplied catalog.schema (bound + op.memberCount) := by
  have hread {s : Store} (hsame : s = db.store) :
      s.Supplied catalog.schema (bound + op.memberCount) := hsame ▸ h.mono (by omega)
  have hwrite {resource : String} {α : Type} {steps : Table → Action α}
      (hcommitted : ∀ table, Keeps Transaction.committed (steps table))
      (hsteps : ∀ table, ∀ base ∈ catalog.schema.bases, table.SharesRows base → ∀ x tx,
        Yields (steps table) (.begin db) x tx →
          tx.work.Supplied catalog.schema (bound + op.memberCount)) :
      (transactWith db (catalog.schema.table resource) steps).2.store.Supplied catalog.schema
        (bound + op.memberCount) := by
    refine store_transactWith (R := fun a b => a.Supplied catalog.schema bound →
      b.Supplied catalog.schema (bound + op.memberCount))
        (fun _ ha => ha.mono (by omega)) hco hcommitted
      (fun table base hbase hshares x tx hrun _ => hsteps table base hbase hshares x tx hrun) h
  cases op with
  | createTables =>
    exact (h.creates hco hbound (creates_applySchema db catalog.schema)).mono (by omega)
  | failNext op table => exact hread rfl
  | insert resource docs =>
    rw [perform, insert]
    cases htable : catalog.schema.table resource with
    | error e => exact hread rfl
    | ok table =>
      obtain ⟨base, hbase, hshares⟩ := hco.shared table (Schema.mem_of_table htable).1
      exact supplied_of_insertAll hco hwf hbase hshares hregular h hroom
  | update resource id doc =>
    exact hwrite (fun _ => Change.keepsCommitted_update id doc) fun _ _ hbase hshares _ _ hrun =>
      supplied_of_update hco hwf hregular hbase hshares hrun h hroom
  | replace resource id doc =>
    exact hwrite (fun _ => Change.keepsCommitted_replace id doc) fun _ _ hbase hshares _ _ hrun =>
      supplied_of_replace hco hwf hregular hbase hshares hrun h hroom
  | remove resource lookup =>
    exact hwrite (fun _ => Change.keepsCommitted_remove lookup) fun _ _ hbase hshares _ _ hrun =>
      (supplied_of_remove hco hbase hshares hrun h).mono (by omega)
  | _ => exact hread (store_perform_of_reads rfl)

/-- **The numbers of links do not run out**: no link has the last number after a run in which fewer
members are given than there are numbers. -/
theorem linkKeysBelow_run (hco : catalog.schema.Coherent) (hwf : catalog.schema.WellFormed)
    (steps : List Step) (hfew : (memberCount steps : Int) < lastNumber) :
    (catalog.run steps).store.LinkKeysBelow catalog.schema := by
  have hfold (steps : List Step) (db : Database) (bound : Int)
      (hregular : db.store.Regular catalog.schema)
      (h : db.store.Supplied catalog.schema bound) (hbound : 1 ≤ bound)
      (hroom : bound + memberCount steps ≤ lastNumber) :
      (steps.foldl catalog.perform db).store.Supplied
        catalog.schema (bound + memberCount steps) := by
    -- on the steps; each takes as many numbers as it gives members
    induction steps generalizing db bound with
    | nil => exact h.mono (by simp [memberCount])
    | cons step rest ih =>
      have hcount : memberCount (step :: rest) = step.2.memberCount + memberCount rest := by
        rw [memberCount, memberCount, List.map_cons, List.sum_cons]
      rw [hcount] at hroom ⊢
      have hstep : (catalog.perform db step).store.Supplied catalog.schema
          (bound + step.2.memberCount) :=
        supplied_of_perform hco hwf hregular h hbound step.2 (by omega)
      have hregular' := hregular.progress hco (progress_of_perform hco hregular step.1 step.2)
      have hrest := ih _ _ hregular' hstep (by omega) (by omega)
      exact hrest.mono (by omega)
  have hempty : ({} : Store).Supplied catalog.schema 1 := by
    intro link _ t ht
    simp [EmptyCollection.emptyCollection] at ht
  exact (hfold steps {} 1 (.empty _) hempty le_rfl (by omega)).linkKeysBelow (by omega)

end Catalog

end RecordStore
