import RecordStore.Proofs.Change
import RecordStore.Proofs.Document

/-!
# How a change fails

A failure of a chain of steps is the failure of one of them, from where those before it left the
transaction (`fails_bind`), and the failure of a loop that of one item (`fails_forM`). What a
failure says of the rules of a table, it says of the table that was written (`Error.Concerns`), and
the check of a document says nothing of the store.

* **`Transaction.Blocked`** — why a statement on a table is not even begun.
* **`Store.Refuses`** — what is wrong with a cell that is refused.
* **`Change.fails_insert`**, **`Change.fails_replace`** — in which of its steps a change fails.
-/

namespace RecordStore

open RecordStore.Action

namespace Action

variable {α β : Type} {tx : Transaction} {e : Error}

/-- From a transaction the action fails with an error. -/
def Fails (a : Action α) (tx : Transaction) (e : Error) : Prop := (outcome a tx).1 = .error e

@[simp] theorem fails_pure (x : α) : ¬ Fails (pure x : Action α) tx e := by
  simp [Fails]

@[simp] theorem fails_throw (err : Error) : Fails (throw err : Action α) tx e ↔ e = err := by
  simp [Fails, eq_comm]

@[simp] theorem fails_result (r : Except Error α) :
    Fails (Transaction.result r) tx e ↔ r = .error e := by
  simp [Fails]

/-- Two steps fail when the first does, or when it succeeds and the second fails. -/
theorem fails_bind {a : Action α} {f : α → Action β} :
    Fails (a >>= f) tx e ↔ Fails a tx e ∨ ∃ x mid, Yields a tx x mid ∧ Fails (f x) mid e := by
  unfold Fails Yields
  rw [outcome_bind]
  rcases outcome a tx with ⟨_ | x, mid⟩
  · simp
  · constructor
    · exact fun h => .inr ⟨x, mid, rfl, h⟩
    · rintro (h | ⟨_, _, ⟨⟩, h⟩)
      · cases h
      · exact h

theorem fails_get_bind {f : Transaction → Action β} :
    Fails (get >>= f) tx e ↔ Fails (f tx) tx e := by
  unfold Fails
  rw [outcome_bind, outcome_get]

/-- A result that needs no transaction fails, or the steps after it do. -/
theorem fails_result_bind {r : Except Error α} {f : α → Action β} :
    Fails (Transaction.result r >>= f) tx e ↔ r = .error e ∨ ∃ x, r = .ok x ∧ Fails (f x) tx e := by
  rw [fails_bind, fails_result]
  refine or_congr_right (exists_congr fun x => ?_)
  constructor
  · rintro ⟨mid, hyield, h⟩
    obtain ⟨hx, rfl⟩ := (yields_result _ _).1 hyield
    exact ⟨hx, h⟩
  · rintro ⟨hx, h⟩
    exact ⟨tx, (yields_result _ _).2 ⟨hx, rfl⟩, h⟩

theorem fails_discard {a : Action α} : Fails (discard a) tx e ↔ Fails a tx e := by
  show Fails (a >>= fun _ => pure ()) tx e ↔ _
  rw [fails_bind]
  simp

/-- A loop fails in one of its steps, from where the steps before it left what they all keep. -/
theorem fails_forM {P : Transaction → Prop} {f : α → Action Unit} {items : List α}
    (step : ∀ x ∈ items, ∀ tx tx', P tx → Yields (f x) tx () tx' → P tx') (hstart : P tx)
    (h : Fails (items.forM f) tx e) : ∃ x ∈ items, ∃ mid, P mid ∧ Fails (f x) mid e := by
  -- on the items; each step starts where the one before it stopped, so `tx` varies
  induction items generalizing tx with
  | nil => exact absurd h (fails_pure ())
  | cons x rest ih =>
    rcases fails_bind.1 (show Fails (f x >>= fun _ => rest.forM f) tx e from h) with h
      | ⟨_, mid, hx, h⟩
    · exact ⟨x, List.mem_cons_self, tx, hstart, h⟩
    · obtain ⟨y, hy, hfails⟩ := ih (fun y hy => step y (List.mem_cons_of_mem x hy))
        (step x List.mem_cons_self tx mid hstart hx) h
      exact ⟨y, List.mem_cons_of_mem x hy, hfails⟩

end Action

/-- A transaction fails in its steps, or because they have ended it. -/
theorem Database.transact_eq_error_iff {α : Type} {db : Database} {steps : Action α} {e : Error} :
    (db.transact steps).1 = .error e
      ↔ Fails steps (.begin db) e ∨ e = .storage .transactionFinished
        ∧ ∃ x tx, Yields steps (.begin db) x tx ∧ tx.isOpen = false := by
  unfold Fails Yields
  rw [transact_eq]
  rcases outcome steps (.begin db) with ⟨err | x, tx⟩
  · simp
  · dsimp only
    split
    · rename_i hopen
      exact iff_of_false nofun (by simp [hopen])
    · rename_i hclosed
      constructor
      · exact fun h => .inr ⟨(Except.error.inj h).symm, x, tx, rfl, by simpa using hclosed⟩
      · rintro (⟨⟨⟩⟩ | ⟨rfl, -⟩)
        rfl

/-! ## Rules that are broken -/

namespace Store

variable {s : Store} {table : Table} {columns : List Column} {others : List Record} {row : Record}

/-- What is wrong with a cell that is refused. -/
inductive Refuses (s : Store) (name : String) (others : List Record) (row : Record) (c : Column) :
    StorageError → Prop
  /-- it is null, and the column takes no null -/
  | null (hnull : (row.cell c.name).isNull = true)
      (hnot : c.nullable = true → c.primaryKey = true) :
      Refuses s name others row c (.constraint name (.nullValue c.name))
  /-- another row has it -/
  | held {other : Record} (hsome : (row.cell c.name).isNull = false) (hother : other ∈ others)
      (hheld : c.isHeldBy c.name (row.cell c.name) other = true) :
      Refuses s name others row c (.constraint name (.duplicateKey c.name))
  /-- it points at a table that is not there -/
  | noTable {key : ForeignKey} (hkey : c.references = some key)
      (hnone : s.tables.get? key.table = none) :
      Refuses s name others row c (.unknownTable key.table)
  /-- it points at no row -/
  | missing {key : ForeignKey} (hkey : c.references = some key) :
      Refuses s name others row c
        (.constraint name (.missingReference c.name (row.cell c.name) key.table))

/-- A reference is refused where no row has its key. -/
theorem refuses_of_checkReference {name : String} {c : Column} {e : StorageError}
    (h : s.checkReference name c (row.cell c.name) = .error e) : s.Refuses name others row c e := by
  unfold checkReference at h
  split at h
  · cases h
  · rename_i key hkey
    rcases bind_eq_error_iff.1 h with h | ⟨target, -, h⟩
    · unfold Store.table at h
      split at h
      · cases h
      · rename_i hnone
        obtain rfl := Except.error.inj h
        exact .noTable hkey hnone
    · split at h
      · cases h
      · obtain rfl := Except.error.inj h
        exact .missing hkey

/-- A cell is refused for a null, for a value that another row holds, or for a key that no row
has. -/
theorem refuses_of_checkCell {name : String} {c : Column} {e : StorageError}
    (h : s.checkCell name others row c = .error e) : s.Refuses name others row c e := by
  unfold checkCell at h
  dsimp only at h
  split at h
  · rename_i hnull
    split at h
    · rename_i hnot
      obtain rfl := Except.error.inj h
      exact .null hnull fun hnullable => by simpa [hnullable] using hnot
    · cases h
  · rename_i hsome
    split at h
    · rename_i hheld
      obtain rfl := Except.error.inj h
      obtain ⟨other, hother, hheld⟩ := List.any_eq_true.1 (Bool.and_eq_true_iff.1 hheld).2
      exact .held (Bool.eq_false_iff.2 hsome) hother hheld
    · exact refuses_of_checkReference h

/-- A row is refused because of one of its cells, or because another row has its cells of a
group. -/
theorem checkRules_eq_error {e : StorageError}
    (h : s.checkRules table columns others row = .error e) :
    (∃ c ∈ columns, s.Refuses table.name others row c e)
      ∨ ∃ group ∈ table.uniqueGroups, e = .constraint table.name (.duplicateGroup group) := by
  rcases bind_eq_error_iff.1 h with h | ⟨_, -, h⟩
  · obtain ⟨c, hc, hcell⟩ := exists_of_forM_error h
    exact .inl ⟨c, hc, refuses_of_checkCell hcell⟩
  · obtain ⟨group, hgroup, hshared⟩ := exists_of_forM_error h
    unfold checkGroup at hshared
    split at hshared
    · exact .inr ⟨group, hgroup, (Except.error.inj hshared).symm⟩
    · cases hshared

end Store

/-! ## Statements that fail -/

namespace Transaction

variable {α : Type} {tx : Transaction} {e : Error} {table : Table} {now : Time.Instant}
  {record : Record}

theorem fails_storage {r : Except StorageError α} :
    Fails (storage r) tx e ↔ ∃ err, r = .error err ∧ e = .storage err := by
  unfold storage
  rw [fails_result]
  cases r <;> simp [Except.mapError, eq_comm]

theorem fails_violation {r : Except Violation α} :
    Fails (violation table r) tx e
      ↔ ∃ v, r = .error v ∧ e = .storage (.constraint table.name v) := by
  unfold violation
  rw [fails_storage]
  cases r <;> simp [Except.mapError]

/-- Why a statement on a table is not even begun. -/
inductive Blocked (tx : Transaction) (name : String) : Error → Prop
  | finished (hopen : tx.isOpen = false) : Blocked tx name (.storage .transactionFinished)
  | injected {op : FaultOp} (hfault : ⟨op, name⟩ ∈ tx.faults) :
      Blocked tx name (.storage (.injected op name))
  | noTable (hnone : tx.work.tables.get? name = none) :
      Blocked tx name (.storage (.unknownTable name))

theorem blocked_of_demandOpen (name : String) (h : Fails demandOpen tx e) : tx.Blocked name e := by
  unfold demandOpen at h
  rw [fails_get_bind] at h
  cases hopen : tx.isOpen with
  | true => simp [hopen] at h
  | false =>
    obtain rfl : e = .storage .transactionFinished := by simpa [hopen] using h
    exact .finished hopen

/-- A statement for which a fault waits is blocked. -/
theorem blocked_of_spendFault {op : FaultOp} {name : String} (h : Fails (spendFault op name) tx e) :
    tx.Blocked name e := by
  unfold spendFault at h
  rw [fails_get_bind] at h
  dsimp only at h
  split at h
  · rename_i hfault
    rcases fails_bind.1 h with hset | ⟨_, _, _, hthrow⟩
    · cases hset
    · obtain rfl := (fails_throw _).1 hthrow
      exact .injected (by simpa using hfault)
  · exact absurd h (fails_pure ())

theorem blocked_of_stored {name : String} (h : Fails (stored name) tx e) : tx.Blocked name e := by
  rcases fails_bind.1 h with hfail | ⟨_, mid, hopen, hlater⟩
  · exact blocked_of_demandOpen name hfail
  · obtain ⟨-, rfl⟩ := yields_demandOpen.1 hopen
    rw [fails_get_bind, fails_storage] at hlater
    obtain ⟨err, htable, rfl⟩ := hlater
    unfold Store.table at htable
    split at htable
    · cases htable
    · rename_i hnone
      obtain rfl := Except.error.inj htable
      exact .noTable hnone

/-- A statement that fails is not begun, or it fails once the table is looked at. -/
theorem fails_statement {op : FaultOp} {name : String} {rest : Action α}
    (h : Fails (do demandOpen; spendFault op name; rest) tx e) :
    tx.Blocked name e ∨ Fails rest tx e := by
  rcases fails_bind.1 h with hfail | ⟨_, mid, hopen, hlater⟩
  · exact .inl (blocked_of_demandOpen name hfail)
  obtain ⟨-, rfl⟩ := yields_demandOpen.1 hopen
  rcases fails_bind.1 hlater with hfail | ⟨_, mid', hfault, hrest⟩
  · exact .inl (blocked_of_spendFault hfail)
  obtain ⟨-, rfl⟩ := yields_spendFault.1 hfault
  exact .inr hrest

theorem fails_stored_bind {name : String} {f : StoredTable → Action α}
    (h : Fails (stored name >>= f) tx e) :
    tx.Blocked name e ∨ ∃ t, tx.work.tables.get? name = some t ∧ Fails (f t) tx e := by
  rcases fails_bind.1 h with hfail | ⟨t, mid, hyield, hrest⟩
  · exact .inl (blocked_of_stored hfail)
  · obtain ⟨-, ht, rfl⟩ := yields_stored.1 hyield
    exact .inr ⟨t, ht, hrest⟩

theorem blocked_of_select {plan : Plan} (h : Fails (select plan) tx e) :
    tx.Blocked plan.table.name e := by
  rcases fails_stored_bind h with hblocked | ⟨t, -, hrest⟩
  · exact hblocked
  · exact absurd hrest (fails_pure _)

theorem blocked_of_delete {p : Predicate} (h : Fails (delete table p) tx e) :
    tx.Blocked table.name e := by
  rcases fails_statement h with hblocked | h
  · exact hblocked
  rcases fails_stored_bind h with hblocked | ⟨t, -, h⟩
  · exact hblocked
  rcases fails_bind.1 h with hput | ⟨_, _, _, hrest⟩
  · cases hput
  · exact absurd hrest (fails_pure _)

/-- What makes a new row fail: an unknown column, or a rule. -/
theorem fails_append (h : Fails (append now table record) tx e) :
    tx.Blocked table.name e ∨ ∃ t, tx.work.tables.get? table.name = some t
      ∧ ((∃ v, t.checkColumns record = .error v ∧ e = .storage (.constraint table.name v))
        ∨ ∃ row next err, t.fill (.string now.text) record = (row, next)
          ∧ (tx.work.put table.name { t with nextId := next }).checkRules
            table t.columns t.rows row = .error err
          ∧ e = .storage err) := by
  rcases fails_stored_bind h with hblocked | ⟨t, ht, h⟩
  · exact .inl hblocked
  refine .inr ⟨t, ht, ?_⟩
  rcases fails_bind.1 h with hfail | ⟨_, mid, hyield, hrest⟩
  · exact .inl (fails_violation.1 hfail)
  obtain ⟨-, rfl⟩ := yields_violation.1 hyield
  dsimp only at hrest
  rcases fails_bind.1 hrest with hfail | ⟨_, mid', hput, hrules⟩
  · cases hfail
  obtain rfl := yields_put.1 hput
  rcases fails_bind.1 hrules with hfail | ⟨_, _, _, hlast⟩
  · unfold checkRules at hfail
    rw [fails_get_bind, fails_storage] at hfail
    obtain ⟨err, hfail, rfl⟩ := hfail
    exact .inr ⟨_, _, err, rfl, hfail, rfl⟩
  -- nothing fails after the row has passed
  · rcases fails_bind.1 hlast with hfail | ⟨_, _, _, hfail⟩
    · cases hfail
    · cases hfail

/-- A new row that breaks a rule fails by it. -/
theorem fails_append_of_checkRules {t : StoredTable} {row : Record} {next : Int}
    {err : StorageError}
    (hopen : tx.isOpen = true) (ht : tx.work.tables.get? table.name = some t)
    (hcolumns : t.checkColumns record = .ok ())
    (hfill : t.fill (.string now.text) record = (row, next))
    (hrules : (tx.work.put table.name { t with nextId := next }).checkRules
      table t.columns t.rows row = .error err) :
    Fails (append now table record) tx (.storage err) := by
  refine fails_bind.2 (.inr ⟨t, tx, yields_stored.2 ⟨hopen, ht, rfl⟩, ?_⟩)
  refine fails_bind.2 (.inr ⟨(), tx, yields_violation.2 ⟨hcolumns, rfl⟩, ?_⟩)
  rw [hfill]
  refine fails_bind.2 (.inr ⟨(), _, yields_put.2 rfl, fails_bind.2 (.inl ?_)⟩)
  unfold checkRules
  rw [fails_get_bind, fails_storage]
  exact ⟨err, hrules, rfl⟩

/-- What makes a changed row fail: a column that the old row has not, or a rule. -/
theorem fails_change {place : Nat} (h : Fails (change table record place) tx e) :
    tx.Blocked table.name e
      ∨ ∃ t old, tx.work.tables.get? table.name = some t ∧ t.rows[place]? = some old
      ∧ ((∃ v, StoredTable.assign old record = .error v ∧ e = .storage (.constraint table.name v))
        ∨ ∃ row err, StoredTable.assign old record = .ok row
          ∧ tx.work.checkRules table t.columns (t.rows.eraseIdx place) row = .error err
            ∧ e = .storage err) := by
  rcases fails_stored_bind h with hblocked | ⟨t, ht, h⟩
  · exact .inl hblocked
  cases hplace : t.rows[place]? with
  | none =>
    rw [hplace] at h
    exact absurd h (fails_pure ())
  | some old =>
    rw [hplace] at h
    refine .inr ⟨t, old, ht, hplace, ?_⟩
    rcases fails_bind.1 h with hfail | ⟨row, mid, hyield, hrest⟩
    · exact .inl (fails_violation.1 hfail)
    obtain ⟨hassign, rfl⟩ := yields_violation.1 hyield
    rcases fails_bind.1 hrest with hfail | ⟨_, _, _, hput⟩
    · unfold checkRules at hfail
      rw [fails_get_bind, fails_storage] at hfail
      obtain ⟨err, hfail, rfl⟩ := hfail
      exact .inr ⟨row, err, hassign, hfail, rfl⟩
    · cases hput

theorem fails_insert (h : Fails (insert now table record) tx e) :
    tx.Blocked table.name e ∨ Fails (append now table record) tx e := by
  rcases fails_statement h with hblocked | h
  · exact .inl hblocked
  rcases fails_bind.1 h with hfail | ⟨_, _, _, hlast⟩
  · exact .inr hfail
  · exact absurd hlast (fails_pure _)

theorem fails_upsert (h : Fails (upsert now table record) tx e) :
    tx.Blocked table.name e ∨ (∃ place, Fails (change table record place) tx e)
      ∨ Fails (append now table record) tx e := by
  rcases fails_statement h with hblocked | h
  · exact .inl hblocked
  rcases fails_stored_bind h with hblocked | ⟨t, -, h⟩
  · exact .inl hblocked
  split at h
  · exact .inr (.inl ⟨_, h⟩)
  · exact .inr (.inr (fails_discard.1 h))

end Transaction

/-! ## Documents that are refused -/

namespace Document

variable {schema : Schema} {table : Table} {doc : Record} {e : Error}

end Document

/-! ## Changes that fail -/

namespace Change

variable {schema : Schema} {table : Table} {now : Time.Instant} {tx : Transaction} {m : ListField}
  {owner : Value} {members : List Value} {doc : Record} {e : Error}

theorem fails_addLinks (h : Fails (addLinks schema now m owner members) tx e) :
    schema.linkTable m.linkTable = .error e ∨ ∃ link, schema.linkTable m.linkTable = .ok link
      ∧ Fails (members.forM fun member =>
          discard (Transaction.insert now link (linkRow m owner member))) tx e :=
  fails_result_bind.1 h

/-- Links are set by reading those that there are, removing them and adding the new ones. -/
theorem fails_setLinks (h : Fails (setLinks schema now m owner members) tx e) :
    schema.linkTable m.linkTable = .error e ∨ ∃ link, schema.linkTable m.linkTable = .ok link
      ∧ (tx.Blocked link.name e
        ∨ ∃ n mid, Yields (Transaction.delete link (.eq m.ownerColumn owner)) tx n mid
        ∧ Fails (addLinks schema now m owner members) mid e) := by
  rcases fails_bind.1 h with hfail | ⟨current, mid, hcurrent, hlater⟩
  · rcases fails_result_bind.1 hfail with hfail | ⟨link, hlink, hread⟩
    · exact .inl hfail
    refine .inr ⟨link, hlink, .inl ?_⟩
    rcases fails_bind.1 hread with hfail | ⟨_, _, _, hlast⟩
    · exact Transaction.blocked_of_select hfail
    · exact absurd hlast (fails_pure _)
  obtain rfl : mid = tx :=
    (Fetch.keeps_membersByOwner schema m [owner]).of_yields (f := fun tx => tx) hcurrent
  split at hlater
  · exact absurd hlater (fails_pure ())
  rcases fails_result_bind.1 hlater with hfail | ⟨link, hlink, hlater⟩
  · exact .inl hfail
  refine .inr ⟨link, hlink, ?_⟩
  rcases fails_bind.1 hlater with hfail | ⟨_, mid, hdelete, hadd⟩
  · exact .inl (Transaction.blocked_of_delete (fails_discard.1 hfail))
  · obtain ⟨n, hdelete⟩ := yields_discard.1 hdelete
    exact .inr ⟨n, mid, hdelete, hadd⟩

/-- An insertion fails by the check of the document, by its row, or by its links. -/
theorem fails_insert (h : Fails (insert schema table now doc) tx e) :
    Document.check schema table doc = .error e
      ∨ Fails (Transaction.insert now table (insertedRow table now doc)) tx e
      ∨ ∃ id mid, Yields (Transaction.insert now table (insertedRow table now doc)) tx id mid
        ∧ Fails ((listsOf table (withDoubles table doc)).forM fun entry =>
            addLinks schema now entry.1 id entry.2) mid e := by
  rcases fails_result_bind.1 h with hfail | ⟨_, -, hlater⟩
  · exact .inl hfail
  dsimp only at hlater
  rcases fails_bind.1 hlater with hfail | ⟨id, mid', hinsert, hrest⟩
  · exact .inr (.inl hfail)
  rcases fails_bind.1 hrest with hfail | ⟨_, _, _, hlast⟩
  · exact .inr (.inr ⟨id, mid', hinsert, hfail⟩)
  · exact absurd hlast (fails_pure _)

/-- A replacement fails by the check of the document or of the key, by reading the old row, by the
new one, or by its links. -/
theorem fails_replace {id : Value} (h : Fails (replace schema table now id doc) tx e) :
    Document.check schema table doc = .error e ∨ keyFor table id = .error e
      ∨ ∃ key, keyFor table id = .ok key ∧ (tx.Blocked table.name e
        ∨ ∃ stored, Yields (Transaction.select
            { Plan.scan table (.eq table.primaryKey key) with limit := some 1 }) tx stored tx
          ∧ (Fails (Transaction.upsert now table (replacedRow table now key stored.head? doc)) tx e
            ∨ ∃ mid, Yields
              (Transaction.upsert now table (replacedRow table now key stored.head? doc)) tx () mid
              ∧ Fails (table.lists.forM fun m =>
                setLinks schema now m key (membersFor table doc m)) mid e)) := by
  rcases fails_result_bind.1 h with hfail | ⟨_, -, hlater⟩
  · exact .inl hfail
  rcases fails_result_bind.1 hlater with hfail | ⟨key, hkey, hlater⟩
  · exact .inr (.inl hfail)
  refine .inr (.inr ⟨key, hkey, ?_⟩)
  rcases fails_bind.1 hlater with hfail | ⟨stored, mid, hstored, hwrite⟩
  · exact .inl (Transaction.blocked_of_select hfail)
  obtain rfl : mid = tx := (Transaction.keeps_select _).of_yields (f := fun tx => tx) hstored
  refine .inr ⟨stored, hstored, ?_⟩
  rcases fails_bind.1 hwrite with hfail | ⟨_, mid', hupsert, hlinks⟩
  · exact .inl hfail
  · exact .inr ⟨mid', hupsert, hlinks⟩

end Change

end RecordStore
