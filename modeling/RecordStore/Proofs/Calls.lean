import RecordStore.Proofs.Change
import RecordStore.Sql.Statement

/-!
# The statements that changes are made of

A change is a program that hands one statement after the other to whatever keeps the rows, and goes
on with the answer. Here the changes and the loading of lists are written down as such programs, in
which the statements can be seen. Run on the store, each of them is the action it stands for; and
each of its statements could be written for a database instead.

* **`Call`** — a statement that is handed over: what the store does with it (`Call.run`), and its
  text for a database (`Call.write`).
* **`Program`** — statements one after the other; `Program.run` carries them out on the store.
* **`Program.calls`** — the statements that a program hands over, and **`Program.Every`**, a
  condition on all of them.
* **`run_insertProgram`**, **`run_updateProgram`**, **`run_replaceProgram`**,
  **`run_removeProgram`**, **`run_recordsProgram`** — the programs are the actions.
-/

namespace RecordStore

open RecordStore.Action

/-- A statement that is handed over. -/
inductive Call where
  | select (plan : Plan)
  | insert (table : Table) (row : Record)
  | upsert (table : Table) (row : Record)
  | update (table : Table) (p : Predicate) (row : Record)
  | delete (table : Table) (p : Predicate)

namespace Call

/-- What the answer to a statement is. -/
def Answer : Call → Type
  | .select _ => List Record
  | .insert _ _ => Value
  | .upsert _ _ => Unit
  | .update _ _ _ => Nat
  | .delete _ _ => Nat

/-- What the store does. -/
def run (now : Time.Instant) : (call : Call) → Action call.Answer
  | .select plan => Transaction.select plan
  | .insert table row => Transaction.insert now table row
  | .upsert table row => Transaction.upsert now table row
  | .update table p row => Transaction.update table p row
  | .delete table p => Transaction.delete table p

/-- What a database is sent. -/
def write (schema : String) : Call → Except StorageError Sql.Statement
  | .select plan => Sql.select schema plan
  | .insert table row => Sql.insert schema table row
  | .upsert table row => Sql.upsert schema table row
  | .update table p row => Sql.update schema table p row
  | .delete table p => Sql.delete schema table p

end Call

/-- Statements one after the other, each of which may depend on the answers to those before it. -/
inductive Program (α : Type) where
  | done (a : α)
  | fail (e : Error)
  | call (c : Call) (next : c.Answer → Program α)

namespace Program

variable {α β : Type}

protected def bind (f : α → Program β) : Program α → Program β
  | .done a => f a
  | .fail e => .fail e
  | .call c next => .call c fun answer => (next answer).bind f

instance : Monad Program where
  pure := .done
  bind p f := p.bind f

/-- A result that needs no statement. -/
def result : Except Error α → Program α
  | .ok a => .done a
  | .error e => .fail e

def select (plan : Plan) : Program (List Record) := .call (.select plan) .done

def insert (table : Table) (row : Record) : Program Value := .call (.insert table row) .done

def upsert (table : Table) (row : Record) : Program Unit := .call (.upsert table row) .done

def update (table : Table) (p : Predicate) (row : Record) : Program Nat :=
  .call (.update table p row) .done

def delete (table : Table) (p : Predicate) : Program Nat := .call (.delete table p) .done

/-! ## Programs on the store -/

/-- Carry out the statements of a program on the store. -/
def run (now : Time.Instant) : Program α → Action α
  | .done a => pure a
  | .fail e => throw e
  | .call c next => do (next (← c.run now)).run now

section Run

variable {now : Time.Instant}

@[simp] theorem run_pure (a : α) : (pure a : Program α).run now = pure a := rfl

@[simp] theorem run_bind (p : Program α) (f : α → Program β) :
    (p >>= f).run now = p.run now >>= fun a => (f a).run now := by
  show (p.bind f).run now = _
  induction p with
  | done a => rw [Program.bind, run, pure_bind]
  | fail e => rfl
  | call c next ih =>
    rw [Program.bind, run, run, bind_assoc]
    exact congrArg _ (funext ih)

@[simp] theorem run_map (p : Program α) (f : α → β) : (f <$> p).run now = f <$> p.run now := by
  show (p >>= fun a => pure (f a)).run now = _
  rw [run_bind, map_eq_pure_bind]
  rfl

@[simp] theorem run_discard (p : Program α) : (discard p).run now = discard (p.run now) :=
  run_map p _

@[simp] theorem run_result (r : Except Error α) : (result r).run now = Transaction.result r := by
  cases r <;> rfl

@[simp] theorem run_fail (e : Error) : (fail e : Program α).run now = throw e := rfl

@[simp] theorem run_select (plan : Plan) : (select plan).run now = Transaction.select plan :=
  bind_pure _

@[simp] theorem run_insert (table : Table) (row : Record) :
    (insert table row).run now = Transaction.insert now table row :=
  bind_pure _

@[simp] theorem run_upsert (table : Table) (row : Record) :
    (upsert table row).run now = Transaction.upsert now table row :=
  bind_pure _

@[simp] theorem run_update (table : Table) (p : Predicate) (row : Record) :
    (update table p row).run now = Transaction.update table p row :=
  bind_pure _

@[simp] theorem run_delete (table : Table) (p : Predicate) :
    (delete table p).run now = Transaction.delete table p :=
  bind_pure _

@[simp] theorem run_forM (items : List α) (f : α → Program Unit) :
    (forM items f : Program Unit).run now = forM items fun x => (f x).run now := by
  induction items with
  | nil => rfl
  | cons x rest ih => rw [List.forM_cons, List.forM_cons, run_bind, ih]

@[simp] theorem run_foldlM (items : List α) (f : β → α → Program β) (start : β) :
    (items.foldlM f start).run now = items.foldlM (fun b x => (f b x).run now) start := by
  induction items generalizing start with
  | nil => rfl
  | cons x rest ih =>
    rw [List.foldlM_cons, List.foldlM_cons, run_bind]
    exact congrArg _ (funext ih)

end Run

/-! ## The statements of a program -/

/-- The statements that a program hands over, run from a transaction, up to the first that fails. -/
def calls (now : Time.Instant) : Program α → Transaction → List Call
  | .done _, _ => []
  | .fail _, _ => []
  | .call c next, tx =>
    c :: match outcome (c.run now) tx with
      | (.ok answer, tx') => (next answer).calls now tx'
      | (.error _, _) => []

/-- All statements that a program hands over satisfy a condition. -/
def Every (now : Time.Instant) (P : Call → Prop) (p : Program α) (tx : Transaction) : Prop :=
  ∀ c ∈ p.calls now tx, P c

section Every

variable {now : Time.Instant} {P : Call → Prop} {tx : Transaction}

/-- The statements after the first one are those that its answer leads to, if it succeeds. -/
theorem every_call_iff {c : Call} {next : c.Answer → Program α} :
    (Program.call c next).Every now P tx
      ↔ P c ∧ ∀ answer tx', Yields (c.run now) tx answer tx' → (next answer).Every now P tx' := by
  unfold Every Yields
  rw [calls, List.forall_mem_cons]
  refine and_congr_right fun _ => ?_
  rcases outcome (c.run now) tx with ⟨_ | answer, tx'⟩
  · simp
  · constructor
    · rintro h _ _ ⟨⟩
      exact h
    · exact fun h => h answer tx' rfl

theorem every_fail (e : Error) : (fail e : Program α).Every now P tx := List.forall_mem_nil _

theorem every_pure (a : α) : (pure a : Program α).Every now P tx := List.forall_mem_nil _

theorem every_call {c : Call} (hc : P c) : (Program.call c .done).Every now P tx :=
  every_call_iff.2 ⟨hc, fun answer _ _ => every_pure answer⟩

/-- What is true of the calls of a program and of those of the programs that may follow it is true
of the calls of both. -/
theorem Every.bind {p : Program α} {f : α → Program β} (hp : p.Every now P tx)
    (hf : ∀ a tx', Yields (p.run now) tx a tx' → (f a).Every now P tx') :
    (p >>= f).Every now P tx := by
  show (p.bind f).Every now P tx
  induction p generalizing tx with
  | done a => exact hf a tx ((yields_pure a a).2 ⟨rfl, rfl⟩)
  | fail e => exact every_fail e
  | call c next ih =>
    obtain ⟨hc, hnext⟩ := every_call_iff.1 hp
    refine every_call_iff.2
      ⟨hc, fun answer mid hmid => ih answer (hnext answer mid hmid) fun a tx' ha => ?_⟩
    exact hf a tx' (yields_bind.2 ⟨answer, mid, hmid, ha⟩)

theorem Every.map {p : Program α} (hp : p.Every now P tx) (f : α → β) : (f <$> p).Every now P tx :=
  hp.bind fun a _ _ => every_pure (f a)

theorem Every.discard {p : Program α} (hp : p.Every now P tx) : (discard p).Every now P tx :=
  hp.map _

theorem every_result (r : Except Error α) : (result r).Every now P tx := by
  cases r with
  | ok a => exact every_pure a
  | error e => exact every_fail e

theorem result_ok_bind (a : α) (f : α → Program β) : (result (.ok a) >>= f) = f a := rfl

/-- A result is known to be one by what comes after it. -/
theorem every_result_bind {r : Except Error α} {f : α → Program β}
    (hf : ∀ a, r = .ok a → (f a).Every now P tx) : (result r >>= f).Every now P tx := by
  refine (every_result r).bind fun a tx' h => ?_
  rw [run_result] at h
  obtain ⟨hr, rfl⟩ := (yields_result r a).1 h
  exact hf a hr

theorem every_forM {items : List α} {f : α → Program Unit}
    (hf : ∀ x ∈ items, ∀ mid, (f x).Every now P mid) :
    (forM items f : Program Unit).Every now P tx := by
  induction items generalizing tx with
  | nil => exact every_pure ()
  | cons x rest ih =>
    rw [List.forM_cons]
    exact (hf x List.mem_cons_self tx).bind fun _ _ _ =>
      ih fun y hy => hf y (List.mem_cons_of_mem x hy)

/-- The invariant is what the steps may rely on, and what they keep. -/
theorem every_foldlM {I : β → Prop} {items : List α} {f : β → α → Program β} {start : β}
    (hstart : I start) (hf : ∀ x ∈ items, ∀ b, I b → ∀ mid, (f b x).Every now P mid
      ∧ ∀ b' mid', Yields ((f b x).run now) mid b' mid' → I b') :
    (items.foldlM f start).Every now P tx := by
  induction items generalizing start tx with
  | nil => exact every_pure start
  | cons x rest ih =>
    obtain ⟨hfirst, hkeeps⟩ := hf x List.mem_cons_self start hstart tx
    rw [List.foldlM_cons]
    exact hfirst.bind fun b mid hb =>
      ih (hkeeps b mid hb) fun y hy => hf y (List.mem_cons_of_mem x hy)

end Every

end Program

/-! ## The programs -/

namespace Fetch

/-- `Fetch.membersByOwner` as a program. -/
def membersByOwnerProgram (schema : Schema) (m : ListField) (owners : List Value) :
    Program Members := do
  let link ← .result (schema.linkTable m.linkTable)
  let rows ← .select (linkPlan link m owners)
  return rows.foldl (addMember m) {}

/-- `Fetch.withMembers` as a program. -/
def withMembersProgram (schema : Schema) (table : Table) (records : List Record) (m : ListField) :
    Program (List Record) := do
  let owners := records.filterMap (·.get? table.primaryKey)
  if owners.isEmpty then return records
  else
    let members ← membersByOwnerProgram schema m owners
    return handOut table m members records

/-- `Fetch.records` as a program. -/
def recordsProgram (schema : Schema) (settings : Settings) (plan : Plan) :
    Program (List Record) := do
  let rows ← .select plan
  let lists := plan.relations.filterMap plan.table.listField?
  let full ← lists.foldlM (withMembersProgram schema plan.table) rows
  match settings.dateFormat with
  | none => return full
  | some format => .result (full.mapM (formatDates plan.table format))

end Fetch

namespace Change

/-- `Change.addLinks` as a program. -/
def addLinksProgram (schema : Schema) (m : ListField) (owner : Value) (members : List Value) :
    Program Unit := do
  let link ← .result (schema.linkTable m.linkTable)
  members.forM fun member => discard (.insert link (linkRow m owner member))

/-- `Change.setLinks` as a program. -/
def setLinksProgram (schema : Schema) (m : ListField) (owner : Value) (members : List Value) :
    Program Unit := do
  let current ← Fetch.membersByOwnerProgram schema m [owner]
  if Value.sameItems (Fetch.membersOf current owner) members then return ()
  else
    let link ← .result (schema.linkTable m.linkTable)
    discard (.delete link (.eq m.ownerColumn owner))
    addLinksProgram schema m owner members

/-- `Change.visibleKey` as a program. -/
def visibleKeyProgram (table : Table) (id : Value) : Program (Option Value) := do
  let p ← .result (Predicate.ofFilter table (keyFilter table .eq id) .lookup false)
  let rows ← .select { Plan.scan table p with columns := [table.primaryKey], limit := some 1 }
  return rows.head?.bind (·.get? table.primaryKey)

/-- `Change.insert` as a program. -/
def insertProgram (schema : Schema) (table : Table) (now : Time.Instant) (doc : Record) :
    Program (Value × Record) := do
  .result (Document.check schema table doc)
  let id ← .insert table (insertedRow table now doc)
  (listsOf table (withDoubles table doc)).forM fun (m, members) =>
    addLinksProgram schema m id members
  return (id, stamped table now doc id)

/-- `Change.update` as a program. -/
def updateProgram (schema : Schema) (table : Table) (now : Time.Instant) (id : Value)
    (doc : Record) :
    Program Unit := do
  match ← visibleKeyProgram table id with
  | none => .fail (.notFound (.row table.resource id))
  | some key =>
    .result (Document.checkPartial schema table doc)
    discard (.update table (.eq table.primaryKey key) (updatedRow table now doc))
    (listsOf table doc).forM fun (m, members) => setLinksProgram schema m key members

/-- `Change.replace` as a program. -/
def replaceProgram (schema : Schema) (table : Table) (now : Time.Instant) (id : Value)
    (doc : Record) :
    Program Unit := do
  .result (Document.check schema table doc)
  let key ← .result (keyFor table id)
  let stored ← .select { Plan.scan table (.eq table.primaryKey key) with limit := some 1 }
  .upsert table (replacedRow table now key stored.head? doc)
  table.lists.forM fun m => setLinksProgram schema m key (membersFor table doc m)

/-- `Change.removeRows` as a program. -/
def removeRowsProgram (schema : Schema) (table : Table) (p : Predicate) : Program Nat := do
  let rows ← .select { Plan.scan table p with columns := [table.primaryKey] }
  let keys := rows.filterMap (·.get? table.primaryKey)
  if keys.isEmpty then return 0
  else
    (schema.linksTo table.name).forM fun (link, column) =>
      discard (.delete link (.compare column .isIn (.array keys)))
    .delete table (.compare table.primaryKey .isIn (.array keys))

/-- `Change.remove` as a program. -/
def removeProgram (schema : Schema) (table : Table) (now : Time.Instant) (lookup : Filter) :
    Program Nat := do
  let p ← .result (Predicate.ofFilter table lookup .lookup false)
  match table.deletedColumn with
  | some deleted =>
    .update table p (.ofList [(deleted, .bool true), (updatedColumn, .string now.text)])
  | none => removeRowsProgram schema table p

end Change

/-! ## They are what they stand for -/

section Run

variable (schema : Schema) (table : Table) (now : Time.Instant)

namespace Fetch

@[simp] theorem run_membersByOwnerProgram (m : ListField) (owners : List Value) :
    (membersByOwnerProgram schema m owners).run now = membersByOwner schema m owners := by
  simp [membersByOwnerProgram, membersByOwner]

@[simp] theorem run_withMembersProgram (records : List Record) (m : ListField) :
    (withMembersProgram schema table records m).run now = withMembers schema table records m := by
  unfold withMembersProgram withMembers
  dsimp only
  split <;> simp

theorem run_recordsProgram (settings : Settings) (plan : Plan) :
    (recordsProgram schema settings plan).run now = records schema settings plan := by
  unfold recordsProgram records
  cases settings.dateFormat <;> simp

end Fetch

namespace Change

@[simp] theorem run_addLinksProgram (m : ListField) (owner : Value) (members : List Value) :
    (addLinksProgram schema m owner members).run now = addLinks schema now m owner members := by
  simp [addLinksProgram, addLinks]

@[simp] theorem run_setLinksProgram (m : ListField) (owner : Value) (members : List Value) :
    (setLinksProgram schema m owner members).run now = setLinks schema now m owner members := by
  unfold setLinksProgram setLinks
  rw [Program.run_bind, Fetch.run_membersByOwnerProgram]
  congr 1
  funext current
  split <;> simp

@[simp] theorem run_visibleKeyProgram (id : Value) :
    (visibleKeyProgram table id).run now = visibleKey table id := by
  simp [visibleKeyProgram, visibleKey]

theorem run_insertProgram (doc : Record) :
    (insertProgram schema table now doc).run now = insert schema table now doc := by
  simp [insertProgram, insert]
  rfl

theorem run_updateProgram (id : Value) (doc : Record) :
    (updateProgram schema table now id doc).run now = update schema table now id doc := by
  unfold updateProgram update
  rw [Program.run_bind, run_visibleKeyProgram]
  congr 1
  funext found
  cases found <;> simp [updatedRow]

theorem run_replaceProgram (id : Value) (doc : Record) :
    (replaceProgram schema table now id doc).run now = replace schema table now id doc := by
  simp [replaceProgram, replace]
  rfl

@[simp] theorem run_removeRowsProgram (p : Predicate) :
    (removeRowsProgram schema table p).run now = removeRows schema table p := by
  unfold removeRowsProgram removeRows
  rw [Program.run_bind, Program.run_select]
  congr 1
  funext rows
  dsimp only
  split <;> simp

theorem run_removeProgram (lookup : Filter) :
    (removeProgram schema table now lookup).run now = remove schema table now lookup := by
  unfold removeProgram remove
  rw [Program.run_bind, Program.run_result]
  congr 1
  funext p
  cases table.deletedColumn <;> simp [flagDeleted]

end Change

end Run

end RecordStore
