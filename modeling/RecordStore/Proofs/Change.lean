import RecordStore.Change
import RecordStore.Proofs.Statement

/-!
# What a change does

The statements of which each change is made, from the outermost inwards. A change that succeeds is a
chain of statements that succeed (`yields_*`), each of which `Statement` describes; and a change,
whether it succeeds or fails, leaves the committed store as it is (`keepsCommitted_*`). An
insertion, which works on its document in place, is read as an action that answers with the document
(`insert`), beside what is left of a document that is refused (`refused`).
-/

namespace RecordStore

open RecordStore.Action

namespace Fetch

variable {tx tx' : Transaction}

/-- Reading the members of a list leaves everything as it is. -/
theorem yields_membersByOwner {schema : Schema} {m : ListField} {owners : List Value}
    {members : Members} :
    Yields (membersByOwner schema m owners) tx members tx'
      ↔ ∃ link rows, schema.linkTable m.linkTable = .ok link
        ∧ Yields (Transaction.select (linkPlan link m owners)) tx rows tx'
        ∧ members = rows.foldl (addMember m) {} := by
  unfold membersByOwner
  simp only [yields_bind, yields_result, yields_pure]
  constructor
  · rintro ⟨link, _, ⟨hlink, rfl⟩, rows, _, hrows, rfl, rfl⟩
    exact ⟨link, rows, hlink, hrows, rfl⟩
  · rintro ⟨link, rows, hlink, hrows, rfl⟩
    exact ⟨link, tx, ⟨hlink, rfl⟩, rows, tx', hrows, rfl, rfl⟩

theorem keeps_membersByOwner {β : Type} {f : Transaction → β} (schema : Schema) (m : ListField)
    (owners : List Value) : Keeps f (membersByOwner schema m owners) :=
  keeps_bind (keeps_result _) fun _ => keeps_bind (Transaction.keeps_select _) fun _ => keeps_pure _

end Fetch

namespace Change

variable {schema : Schema} {table : Table} {now : Time.Instant} {tx tx' : Transaction}

/-! ## Insertions in place

An insertion works on its document in place. For the transaction it is an action that answers with
the key and with the document as it is when everything is stored; where the action fails, the
document is left with its numbers as doubles if it was a valid one, and else as it was given. -/

/-- Insert a document; return its key, and the document with its key and times. -/
def insert (schema : Schema) (table : Table) (now : Time.Instant) (doc : Record) :
    Action (Value × Record) := do
  Transaction.result (Document.check schema table doc)
  let doc := withDoubles table doc
  let row := stampColumns.foldl (withMissing (.string now.text)) (rowOf table doc)
  let id ← Transaction.insert now table row
  (listsOf table doc).forM fun (m, members) => addLinks schema now m id members
  let stamped := stampColumns.foldl (fun d name => d.insert name (row.cell name))
    (doc.insert table.primaryKey id)
  return (id, stamped)

/-- A document that could not be inserted, as it is left: with its numbers as doubles, if it was a
valid one. -/
def refused (schema : Schema) (table : Table) (doc : Record) : Record :=
  match Document.check schema table doc with
  | .ok _ => withDoubles table doc
  | .error _ => doc

/-- **An insertion in place** leaves the document that the action answers with, or the one that was
refused. -/
theorem outcome_insertInPlace (doc : Record) (tx : Transaction) :
    (insertInPlace schema table now).outcome doc tx
      = match (insert schema table now doc).outcome tx with
        | (.ok (id, new), tx') => ((.ok id, new), tx')
        | (.error e, tx') => ((.error e, refused schema table doc), tx') := by
  unfold insertInPlace insert refused
  simp only [InPlace.outcome_bind, InPlace.outcome_get, InPlace.outcome_lift,
    InPlace.outcome_modify, outcome_bind, outcome_result]
  cases Document.check schema table doc with
  | error e => rfl
  | ok =>
    dsimp only
    -- the row, and then the links: whatever fails, the document has its numbers as doubles by then
    rcases outcome (Transaction.insert now table _) tx with ⟨e | id, mid⟩
    · rfl
    · dsimp only
      rcases outcome (List.forM _ _) mid with ⟨e | x, tx'⟩ <;> rfl

/-! ## Successful changes taken apart -/

/-- Links are added one after the other, to the link table of the list. -/
theorem yields_addLinks {m : ListField} {owner : Value} {members : List Value} {x : Unit} :
    Yields (addLinks schema now m owner members) tx x tx'
      ↔ ∃ link, schema.linkTable m.linkTable = .ok link
        ∧ Yields (members.forM fun member =>
            discard (Transaction.insert now link (linkRow m owner member))) tx () tx' := by
  unfold addLinks
  simp only [yields_bind, yields_result]
  constructor
  · rintro ⟨link, _, ⟨hlink, rfl⟩, h⟩
    exact ⟨link, hlink, h⟩
  · rintro ⟨link, hlink, h⟩
    exact ⟨link, tx, ⟨hlink, rfl⟩, h⟩

/-- The links of an owner are left alone if they are already those to the members; else they are
removed and written anew. -/
theorem yields_setLinks {m : ListField} {owner : Value} {members : List Value} {x : Unit} :
    Yields (setLinks schema now m owner members) tx x tx'
      ↔ ∃ current, Yields (Fetch.membersByOwner schema m [owner]) tx current tx
        ∧ (Value.sameItems (Fetch.membersOf current owner) members = true ∧ tx' = tx
          ∨ Value.sameItems (Fetch.membersOf current owner) members = false
            ∧ ∃ link n mid, schema.linkTable m.linkTable = .ok link
              ∧ Yields (Transaction.delete link (.eq m.ownerColumn owner)) tx n mid
              ∧ Yields (addLinks schema now m owner members) mid () tx') := by
  unfold setLinks
  rw [yields_bind]
  constructor
  · rintro ⟨current, mid, hcurrent, h⟩
    -- reading keeps every function of the transaction, the identity too
    obtain rfl : mid = tx := (Fetch.keeps_membersByOwner schema m [owner]).of_yields
      (f := fun tx => tx) hcurrent
    refine ⟨current, hcurrent, ?_⟩
    cases hsame : Value.sameItems (Fetch.membersOf current owner) members with
    | true =>
      rw [hsame, if_pos rfl, yields_pure] at h
      exact .inl ⟨rfl, h.2⟩
    | false =>
      rw [hsame, if_neg (by simp)] at h
      simp only [yields_bind, yields_result, yields_discard] at h
      obtain ⟨link, _, ⟨hlink, rfl⟩, _, mid', ⟨n, hdelete⟩, hadd⟩ := h
      exact .inr ⟨rfl, link, n, mid', hlink, hdelete, hadd⟩
  · rintro ⟨current, hcurrent, h⟩
    refine ⟨current, tx, hcurrent, ?_⟩
    rcases h with ⟨hsame, rfl⟩ | ⟨hsame, link, n, mid, hlink, hdelete, hadd⟩
    · rw [hsame, if_pos rfl, yields_pure]
      exact ⟨rfl, rfl⟩
    · rw [hsame, if_neg (by simp)]
      simp only [yields_bind, yields_result, yields_discard]
      exact ⟨link, tx, ⟨hlink, rfl⟩, (), mid, ⟨n, hdelete⟩, hadd⟩

/-- The row that a document is inserted as, before it is filled up. -/
def insertedRow (table : Table) (now : Time.Instant) (doc : Record) : Record :=
  stampColumns.foldl (withMissing (.string now.text)) (rowOf table (withDoubles table doc))

/-- An inserted document with its key and its times. -/
def stamped (table : Table) (now : Time.Instant) (doc : Record) (id : Value) : Record :=
  stampColumns.foldl (fun d name => d.insert name ((insertedRow table now doc).cell name))
    ((withDoubles table doc).insert table.primaryKey id)

/-- An insertion checks the document, adds its row and then the links of its lists. -/
theorem yields_insert {doc new : Record} {id : Value} :
    Yields (insert schema table now doc) tx (id, new) tx'
      ↔ Document.check schema table doc = .ok ()
        ∧ (∃ mid, Yields (Transaction.insert now table (insertedRow table now doc)) tx id mid
          ∧ Yields ((listsOf table (withDoubles table doc)).forM fun entry =>
              addLinks schema now entry.1 id entry.2) mid () tx')
        ∧ new = stamped table now doc id := by
  unfold insert
  simp only [yields_bind, yields_result, yields_pure]
  constructor
  · rintro ⟨_, _, ⟨hcheck, rfl⟩, id', mid, hinsert, _, _, hlinks, heq, rfl⟩
    -- the answer is the pair of the key and the record, so both are fixed
    obtain ⟨rfl, rfl⟩ := Prod.mk.inj heq
    exact ⟨hcheck, ⟨mid, hinsert, hlinks⟩, rfl⟩
  · rintro ⟨hcheck, ⟨mid, hinsert, hlinks⟩, rfl⟩
    exact ⟨(), tx, ⟨hcheck, rfl⟩, id, mid, hinsert, (), tx', hlinks, rfl, rfl⟩

/-- An insertion leaves its transaction open. -/
theorem isOpen_of_insert {doc new : Record} {id : Value}
    (h : Yields (insert schema table now doc) tx (id, new) tx') : tx'.isOpen = tx.isOpen := by
  have hrow {table : Table} {record : Record} {id : Value} {tx tx' : Transaction}
      (h : Yields (Transaction.insert now table record) tx id tx') : tx'.isOpen = tx.isOpen := by
    obtain ⟨-, row, happend, -⟩ := Transaction.yields_insert.1 h
    obtain ⟨-, t, next, -, -, -, -, rfl⟩ := Transaction.yields_append.1 happend
    rfl
  obtain ⟨-, ⟨mid, hinsert, hlinks⟩, -⟩ := yields_insert.1 h
  -- the invariant of the links, which are rows themselves
  refine forM_induction (P := fun tx => tx.isOpen = mid.isOpen) ?_
    rfl hlinks |>.trans (hrow hinsert)
  intro entry _ before after hbefore hstep
  obtain ⟨link, -, hmembers⟩ := yields_addLinks.1 hstep
  refine forM_induction (P := fun tx => tx.isOpen = mid.isOpen) ?_ hbefore hmembers
  intro member _ before after hbefore hstep
  obtain ⟨id, hlink⟩ := yields_discard.1 hstep
  exact (hrow hlink).trans hbefore

/-- **An insertion in place**, as a transaction of its own. -/
theorem transactInPlace_insertInPlace (schema : Schema) (table : Table) (now : Time.Instant)
    (db : Database) (doc : Record) :
    db.transactInPlace (insertInPlace schema table now) doc
      = match db.transact (insert schema table now doc) with
        | (.ok (id, new), db') => ((.ok id, new), db')
        | (.error e, db') => ((.error e, refused schema table doc), db') := by
  rw [Database.transactInPlace_eq, Database.transact_eq, outcome_insertInPlace]
  rcases hrun : outcome (insert schema table now doc) (.begin db) with ⟨e | ⟨id, new⟩, tx⟩
  · rfl
  · have hopen : tx.isOpen = true := isOpen_of_insert hrun
    simp only [hopen, if_true]

theorem keeps_visibleKey {β : Type} {f : Transaction → β} (id : Value) :
    Keeps f (visibleKey table id) :=
  keeps_bind (keeps_result _) fun _ => keeps_bind (Transaction.keeps_select _) fun _ => keeps_pure _

/-- The row with which a document changes another one. -/
def updatedRow (table : Table) (now : Time.Instant) (doc : Record) : Record :=
  ((withDoubles table (rowOf table doc)).erase table.primaryKey).insert updatedColumn
    (.string now.text)

/-- The row of an update has the current time, and beside it what the document gives for other
columns than the key. -/
theorem get?_updatedRow (table : Table) (now : Time.Instant) (doc : Record) (name : String) :
    (updatedRow table now doc).get? name
      = if name = updatedColumn then some (.string now.text)
        else if name = table.primaryKey then none
        else (withDoubles table (rowOf table doc)).get? name := by
  rw [updatedRow, NameMap.get?_insert]
  split
  · rfl
  · split
    · rename_i hname
      rw [hname, NameMap.get?_erase_self]
    · rename_i hname
      exact NameMap.get?_erase_of_ne _ hname

/-- An update finds the key of a visible row, checks the document, changes the row with this key and
sets the lists that are given. -/
theorem yields_update {id : Value} {doc : Record} {x : Unit} :
    Yields (update schema table now id doc) tx x tx'
      ↔ ∃ key n mid, Yields (visibleKey table id) tx (some key) tx
        ∧ Document.checkPartial schema table doc = .ok ()
        ∧ Yields (Transaction.update table (.eq table.primaryKey key) (updatedRow table now doc))
            tx n mid
        ∧ Yields ((listsOf table doc).forM fun entry =>
            setLinks schema now entry.1 key entry.2) mid () tx' := by
  unfold update
  rw [yields_bind]
  constructor
  · rintro ⟨found, mid, hfound, h⟩
    obtain rfl : mid = tx := (keeps_visibleKey id).of_yields (f := fun tx => tx) hfound
    cases found with
    -- no visible record has the key: the update fails
    | none => exact absurd h (yields_throw _ _)
    | some key =>
      simp only [yields_bind, yields_result, yields_discard] at h
      obtain ⟨_, _, ⟨hcheck, rfl⟩, _, mid', ⟨n, hrow⟩, hlinks⟩ := h
      exact ⟨key, n, mid', hfound, hcheck, hrow, hlinks⟩
  · rintro ⟨key, n, mid, hfound, hcheck, hrow, hlinks⟩
    refine ⟨some key, tx, hfound, ?_⟩
    simp only [yields_bind, yields_result, yields_discard]
    exact ⟨(), tx, ⟨hcheck, rfl⟩, (), mid, ⟨n, hrow⟩, hlinks⟩

/-- The cells with which rows are flagged. -/
theorem get?_flag (deleted : String) (now : Time.Instant) (name : String) :
    (NameMap.ofList [(deleted, Value.bool true), (updatedColumn, .string now.text)]).get? name
      = if name = updatedColumn then some (.string now.text)
        else if name = deleted then some (.bool true) else none := by
  show (NameMap.insert (NameMap.insert .empty deleted _) updatedColumn _).get? name = _
  rw [NameMap.get?_insert, NameMap.get?_insert, NameMap.get?_empty]

/-- The row that a document replaces another one by. -/
def replacedRow (table : Table) (now : Time.Instant) (key : Value) (stored : Option Record)
    (doc : Record) : Record :=
  .ofList (table.columns.map fun c =>
    (c.name, replacedCell table now key stored (withDoubles table (rowOf table doc)) c))

/-- The members that a document gives for a list, none if it does not give the list. -/
def membersFor (table : Table) (doc : Record) (m : ListField) : List Value :=
  (((listsOf table doc).find? (·.1.field == m.field)).map Prod.snd).getD []

/-- A replacement checks the document, looks for the row with the key, writes a whole row and sets
every list of the table. -/
theorem yields_replace {id : Value} {doc : Record} {x : Unit} :
    Yields (replace schema table now id doc) tx x tx'
      ↔ ∃ key stored mid, Document.check schema table doc = .ok () ∧ keyFor table id = .ok key
        ∧ Yields (Transaction.select
            { Plan.scan table (.eq table.primaryKey key) with limit := some 1 }) tx stored tx
        ∧ Yields
          (Transaction.upsert now table (replacedRow table now key stored.head? doc)) tx () mid
        ∧ Yields (table.lists.forM fun m => setLinks schema now m key (membersFor table doc m))
            mid () tx' := by
  unfold replace
  simp only [yields_bind, yields_result]
  constructor
  · rintro ⟨_, _, ⟨hcheck, rfl⟩, key, _, ⟨hkey, rfl⟩, stored, mid', hstored, _, mid, hrow, hlinks⟩
    obtain rfl := (Transaction.keeps_select _).of_yields (f := fun tx => tx) hstored
    exact ⟨key, stored, mid, hcheck, hkey, hstored, hrow, hlinks⟩
  · rintro ⟨key, stored, mid, hcheck, hkey, hstored, hrow, hlinks⟩
    exact ⟨(), tx, ⟨hcheck, rfl⟩, key, tx, ⟨hkey, rfl⟩, stored, tx, hstored, (), mid, hrow, hlinks⟩

/-- The keys of the rows that a predicate selects. -/
def selectedKeys (table : Table) (p : Predicate) (t : StoredTable) : List Value :=
  (t.select { Plan.scan table p with columns := [table.primaryKey] }).filterMap
    (·.get? table.primaryKey)

/-- The rows go with the links to their keys, if there are any. -/
theorem yields_removeRows {p : Predicate} {n : Nat} :
    Yields (removeRows schema table p) tx n tx'
      ↔ tx.isOpen = true ∧ ∃ t, tx.work.tables.get? table.name = some t
        ∧ (selectedKeys table p t = [] ∧ n = 0 ∧ tx' = tx
          ∨ selectedKeys table p t ≠ []
            ∧ ∃ mid, Yields ((schema.linksTo table.name).forM fun link =>
                discard (Transaction.delete link.1
                  (.compare link.2 .isIn (.array (selectedKeys table p t))))) tx () mid
              ∧ Yields (Transaction.delete table
                  (.compare table.primaryKey .isIn (.array (selectedKeys table p t))))
                    mid n tx') := by
  unfold removeRows
  rw [yields_bind]
  constructor
  · rintro ⟨rows, mid, hrows, h⟩
    obtain ⟨hopen, rfl, t, ht, rfl⟩ := Transaction.yields_select.1 hrows
    refine ⟨hopen, t, ht, ?_⟩
    -- the keys read are the ones that `selectedKeys` names
    change Yields (if (selectedKeys table p t).isEmpty then pure 0 else _) _ n tx' at h
    split at h
    · rename_i hempty
      obtain ⟨rfl, rfl⟩ := (yields_pure _ _).1 h
      exact .inl ⟨List.isEmpty_iff.1 hempty, rfl, rfl⟩
    · rename_i hsome
      obtain ⟨_, mid, hlinks, hdelete⟩ := yields_bind.1 h
      exact .inr ⟨fun heq => hsome (List.isEmpty_iff.2 heq), mid, hlinks, hdelete⟩
  · rintro ⟨hopen, t, ht, h⟩
    refine ⟨_, tx, Transaction.yields_select.2 ⟨hopen, rfl, t, ht, rfl⟩, ?_⟩
    show Yields (if (selectedKeys table p t).isEmpty then pure 0 else _) _ n tx'
    rcases h with ⟨hempty, rfl, rfl⟩ | ⟨hsome, mid, hlinks, hdelete⟩
    · rw [hempty]
      exact (yields_pure _ _).2 ⟨rfl, rfl⟩
    · rw [if_neg fun h => hsome (List.isEmpty_iff.1 h)]
      exact yields_bind.2 ⟨(), mid, hlinks, hdelete⟩

/-- Records are removed by raising their flag where the table has one. -/
theorem yields_remove {lookup : Filter} {n : Nat} :
    Yields (remove schema table now lookup) tx n tx'
      ↔ ∃ p, Predicate.ofFilter table lookup .lookup false = .ok p
        ∧ ((∃ deleted, table.deletedColumn = some deleted
            ∧ Yields (flagDeleted table now deleted p) tx n tx')
          ∨ table.deletedColumn = none ∧ Yields (removeRows schema table p) tx n tx') := by
  unfold remove
  simp only [yields_bind, yields_result]
  constructor
  · rintro ⟨p, _, ⟨hp, rfl⟩, h⟩
    refine ⟨p, hp, ?_⟩
    split at h
    · rename_i deleted hdeleted
      exact .inl ⟨deleted, hdeleted, h⟩
    · rename_i hdeleted
      exact .inr ⟨hdeleted, h⟩
  · rintro ⟨p, hp, h⟩
    refine ⟨p, tx, ⟨hp, rfl⟩, ?_⟩
    rcases h with ⟨deleted, hdeleted, h⟩ | ⟨hdeleted, h⟩
    · rw [hdeleted]
      exact h
    · rw [hdeleted]
      exact h

/-! ## What changes leave as it is -/

theorem keepsCommitted_addLinks (m : ListField) (owner : Value) (members : List Value) :
    Keeps Transaction.committed (addLinks schema now m owner members) :=
  keeps_bind (keeps_result _) fun _ =>
    keeps_forM fun _ _ => keeps_discard (Transaction.keepsCommitted_insert _ _ _)

theorem keepsCommitted_setLinks (m : ListField) (owner : Value) (members : List Value) :
    Keeps Transaction.committed (setLinks schema now m owner members) := by
  refine keeps_bind (Fetch.keeps_membersByOwner _ _ _) fun current => ?_
  split
  · exact keeps_pure ()
  · exact keeps_bind (keeps_result _) fun _ =>
      keeps_bind (keeps_discard (Transaction.keepsCommitted_delete _ _)) fun _ =>
        keepsCommitted_addLinks _ _ _

theorem keepsCommitted_insert (doc : Record) :
    Keeps Transaction.committed (insert schema table now doc) :=
  keeps_bind (keeps_result _) fun _ =>
    keeps_bind (Transaction.keepsCommitted_insert _ _ _) fun _ =>
      keeps_bind (keeps_forM fun _ _ => keepsCommitted_addLinks _ _ _) fun _ => keeps_pure _

theorem keepsCommitted_update (id : Value) (doc : Record) :
    Keeps Transaction.committed (update schema table now id doc) := by
  refine keeps_bind (keeps_visibleKey id) fun key => ?_
  cases key with
  | none => exact keeps_throw _
  | some key =>
    exact keeps_bind (keeps_result _) fun _ =>
      keeps_bind (keeps_discard (Transaction.keepsCommitted_update _ _ _)) fun _ =>
        keeps_forM fun _ _ => keepsCommitted_setLinks _ _ _

theorem keepsCommitted_replace (id : Value) (doc : Record) :
    Keeps Transaction.committed (replace schema table now id doc) :=
  keeps_bind (keeps_result _) fun _ =>
    keeps_bind (keeps_result _) fun _ =>
      keeps_bind (Transaction.keeps_select _) fun _ =>
        keeps_bind (Transaction.keepsCommitted_upsert _ _ _) fun _ =>
          keeps_forM fun _ _ => keepsCommitted_setLinks _ _ _

theorem keepsCommitted_removeRows (p : Predicate) :
    Keeps Transaction.committed (removeRows schema table p) := by
  refine keeps_bind (Transaction.keeps_select _) fun rows => ?_
  dsimp only
  split
  · exact keeps_pure 0
  · exact keeps_bind
      (keeps_forM fun _ _ => keeps_discard (Transaction.keepsCommitted_delete _ _)) fun _ =>
        Transaction.keepsCommitted_delete _ _

theorem keepsCommitted_remove (lookup : Filter) :
    Keeps Transaction.committed (remove schema table now lookup) := by
  refine keeps_bind (keeps_result _) fun p => ?_
  cases table.deletedColumn with
  | none => exact keepsCommitted_removeRows p
  | some deleted => exact Transaction.keepsCommitted_update _ _ _

end Change

end RecordStore
