import RecordStore.Proofs.Action
import RecordStore.Proofs.Row

/-!
# What a statement does

For each statement of a transaction, exactly when it succeeds and what the copy of the store is
after it. A statement that succeeds changes the copy only (`Transaction.onto`): the committed store,
the faults that wait and the transaction's being open are as before. Whether it succeeds or fails, a
statement leaves the committed store as it is, and one that reads leaves everything as it is.
-/

namespace RecordStore

open RecordStore.Action

namespace Transaction

variable {α : Type} {tx tx' : Transaction}

/-- The transaction with another copy of the store. -/
def onto (tx : Transaction) (s : Store) : Transaction := { tx with work := s }

@[simp] theorem work_onto (tx : Transaction) (s : Store) : (tx.onto s).work = s := rfl

@[simp] theorem committed_onto (tx : Transaction) (s : Store) :
    (tx.onto s).committed = tx.committed := rfl

@[simp] theorem isOpen_onto (tx : Transaction) (s : Store) : (tx.onto s).isOpen = tx.isOpen := rfl

@[simp] theorem faults_onto (tx : Transaction) (s : Store) : (tx.onto s).faults = tx.faults := rfl

@[simp] theorem onto_onto (tx : Transaction) (s s' : Store) : (tx.onto s).onto s' = tx.onto s' :=
  rfl

@[simp] theorem onto_work (tx : Transaction) : tx.onto tx.work = tx := rfl

/-! ## The parts of a statement -/

theorem yields_demandOpen {x : Unit} :
    Yields demandOpen tx x tx' ↔ tx.isOpen = true ∧ tx' = tx := by
  unfold demandOpen
  rw [yields_get_bind]
  cases hopen : tx.isOpen <;> simp

theorem yields_spendFault {op : FaultOp} {table : String} {x : Unit} :
    Yields (spendFault op table) tx x tx' ↔ ⟨op, table⟩ ∉ tx.faults ∧ tx' = tx := by
  unfold spendFault
  rw [yields_get_bind]
  by_cases hfault : (⟨op, table⟩ : Fault) ∈ tx.faults <;> simp [hfault, yields_bind]

theorem yields_storage {r : Except StorageError α} {x : α} :
    Yields (storage r) tx x tx' ↔ r = .ok x ∧ tx' = tx := by
  unfold storage
  rw [yields_result]
  cases r <;> simp [Except.mapError]

theorem yields_violation {table : Table} {r : Except Violation α} {x : α} :
    Yields (violation table r) tx x tx' ↔ r = .ok x ∧ tx' = tx := by
  unfold violation
  rw [yields_storage]
  cases r <;> simp [Except.mapError]

/-- A table is found in an open transaction. -/
theorem yields_stored {name : String} {t : StoredTable} :
    Yields (stored name) tx t tx'
      ↔ tx.isOpen = true ∧ tx.work.tables.get? name = some t ∧ tx' = tx := by
  unfold stored
  rw [yields_bind]
  constructor
  · rintro ⟨x, mid, hopen, h⟩
    obtain ⟨hopen, rfl⟩ := yields_demandOpen.1 hopen
    obtain ⟨ht, rfl⟩ := yields_storage.1 (yields_get_bind.1 h)
    exact ⟨hopen, (Store.table_eq_ok_iff ..).1 ht, rfl⟩
  · rintro ⟨hopen, ht, rfl⟩
    refine ⟨(), tx', yields_demandOpen.2 ⟨hopen, rfl⟩, yields_get_bind.2 ?_⟩
    exact yields_storage.2 ⟨(Store.table_eq_ok_iff ..).2 ht, rfl⟩

theorem yields_put {name : String} {t : StoredTable} {x : Unit} :
    Yields (put name t) tx x tx' ↔ tx' = tx.onto (tx.work.put name t) :=
  yields_modify _ x

theorem yields_checkRules {table : Table} {columns : List Column} {others : List Record}
    {row : Record} {x : Unit} :
    Yields (checkRules table columns others row) tx x tx'
      ↔ tx.work.checkRules table columns others row = .ok () ∧ tx' = tx := by
  unfold checkRules
  rw [yields_get_bind, yields_storage]

/-! ## Statements that succeed -/

theorem yields_count {table : Table} {p : Predicate} {n : Nat} :
    Yields (count table p) tx n tx'
      ↔ tx.isOpen = true ∧ tx' = tx
        ∧ ∃ t, tx.work.tables.get? table.name = some t ∧ n = (t.matching p).length := by
  unfold count
  rw [yields_bind]
  constructor
  · rintro ⟨t, mid, ht, h⟩
    obtain ⟨hopen, ht, rfl⟩ := yields_stored.1 ht
    obtain ⟨rfl, rfl⟩ := (yields_pure _ _).1 h
    exact ⟨hopen, rfl, t, ht, rfl⟩
  · rintro ⟨hopen, rfl, t, ht, rfl⟩
    exact ⟨t, tx', yields_stored.2 ⟨hopen, ht, rfl⟩, (yields_pure _ _).2 ⟨rfl, rfl⟩⟩

/-- A selection reads the table of its plan and leaves everything as it is. -/
theorem yields_select {plan : Plan} {rows : List Record} :
    Yields (select plan) tx rows tx'
      ↔ tx.isOpen = true ∧ tx' = tx
        ∧ ∃ t, tx.work.tables.get? plan.table.name = some t ∧ rows = t.select plan := by
  unfold select
  rw [yields_bind]
  constructor
  · rintro ⟨t, mid, ht, h⟩
    obtain ⟨hopen, ht, rfl⟩ := yields_stored.1 ht
    obtain ⟨rfl, rfl⟩ := (yields_pure _ _).1 h
    exact ⟨hopen, rfl, t, ht, rfl⟩
  · rintro ⟨hopen, rfl, t, ht, rfl⟩
    exact ⟨t, tx', yields_stored.2 ⟨hopen, ht, rfl⟩, (yields_pure _ _).2 ⟨rfl, rfl⟩⟩

/-- A new row stands at the end of its table, and the numbers that it took are used up. -/
theorem yields_append {now : Time.Instant} {table : Table} {record row : Record} :
    Yields (append now table record) tx row tx'
      ↔ tx.isOpen = true ∧ ∃ t next, tx.work.tables.get? table.name = some t
        ∧ t.checkColumns record = .ok () ∧ t.fill (.string now.text) record = (row, next)
        ∧ (tx.work.put table.name { t with nextId := next }).checkRules table t.columns t.rows row
            = .ok ()
        ∧ tx' = tx.onto
            (tx.work.put table.name { t with nextId := next, rows := t.rows ++ [row] }) := by
  unfold append
  simp only [yields_bind, yields_stored, yields_violation, yields_put, yields_checkRules,
    yields_pure]
  constructor
  · rintro ⟨t, _, ⟨hopen, ht, rfl⟩, _, _, ⟨hcolumns, rfl⟩, _, _, rfl, _, _,
      ⟨hrules, rfl⟩, _, _, rfl,
      rfl, rfl⟩
    -- the two writes to the table are one: the second overrides the used-up numbers of the first
    refine ⟨hopen, t, (t.fill (.string now.text) record).2, ht, hcolumns, rfl, hrules, ?_⟩
    simp only [work_onto, onto_onto, Store.put_put]
  · rintro ⟨hopen, t, next, ht, hcolumns, hfill, hrules, rfl⟩
    refine ⟨t, _, ⟨hopen, ht, rfl⟩, _, _, ⟨hcolumns, rfl⟩, (), _, rfl, (), _, ⟨?_, rfl⟩,
      (), _, rfl, ?_, ?_⟩
    · rw [hfill]; exact hrules
    · rw [hfill]
    · simp only [work_onto, onto_onto, Store.put_put, hfill]

/-- A changed row stays in its place. -/
theorem yields_change {table : Table} {record : Record} {place : Nat} {x : Unit} :
    Yields (change table record place) tx x tx'
      ↔ tx.isOpen = true ∧ ∃ t, tx.work.tables.get? table.name = some t
        ∧ (t.rows[place]? = none ∧ tx' = tx
          ∨ ∃ old row, t.rows[place]? = some old ∧ StoredTable.assign old record = .ok row
            ∧ tx.work.checkRules table t.columns (t.rows.eraseIdx place) row = .ok ()
            ∧ tx' = tx.onto (tx.work.put table.name { t with rows := t.rows.set place row })) := by
  unfold change
  rw [yields_bind]
  constructor
  · rintro ⟨t, mid, ht, h⟩
    obtain ⟨hopen, ht, rfl⟩ := yields_stored.1 ht
    refine ⟨hopen, t, ht, ?_⟩
    -- a place beyond the rows is passed over in silence
    cases hplace : t.rows[place]? with
    | none =>
      rw [hplace] at h
      exact .inl ⟨rfl, ((yields_pure () x).1 h).2⟩
    | some old =>
      rw [hplace] at h
      simp only [yields_bind, yields_violation, yields_put, yields_checkRules] at h
      obtain ⟨row, _, ⟨hassign, rfl⟩, _, _, ⟨hrules, rfl⟩, rfl⟩ := h
      exact .inr ⟨old, row, rfl, hassign, hrules, rfl⟩
  · rintro ⟨hopen, t, ht, h⟩
    refine ⟨t, tx, yields_stored.2 ⟨hopen, ht, rfl⟩, ?_⟩
    rcases h with ⟨hplace, rfl⟩ | ⟨old, row, hplace, hassign, hrules, rfl⟩
    · rw [hplace]
      exact (yields_pure () x).2 ⟨rfl, rfl⟩
    · rw [hplace]
      simp only [yields_bind, yields_violation, yields_put, yields_checkRules]
      exact ⟨row, tx, ⟨hassign, rfl⟩, (), tx, ⟨hrules, rfl⟩, rfl⟩

/-- An insertion adds a row, unless a fault waits for it, and returns its key. -/
theorem yields_insert {now : Time.Instant} {table : Table} {record : Record} {id : Value} :
    Yields (insert now table record) tx id tx'
      ↔ ⟨.insert, table.name⟩ ∉ tx.faults
        ∧ ∃ row, Yields (append now table record) tx row tx' ∧ id = row.cell table.primaryKey := by
  unfold insert
  simp only [yields_bind, yields_demandOpen, yields_spendFault, yields_pure]
  constructor
  · rintro ⟨_, _, ⟨hopen, rfl⟩, _, _, ⟨hfault, rfl⟩, row, _, hrow, rfl, rfl⟩
    exact ⟨hfault, row, hrow, rfl⟩
  · rintro ⟨hfault, row, hrow, rfl⟩
    exact ⟨(), tx, ⟨(yields_append.1 hrow).1, rfl⟩, (), tx, ⟨hfault, rfl⟩, row, tx', hrow, rfl, rfl⟩

/-- A row with the given key is changed if there is one, else a new row is put into the table. -/
theorem yields_upsert {now : Time.Instant} {table : Table} {record : Record} {x : Unit} :
    Yields (upsert now table record) tx x tx'
      ↔ ⟨.insert, table.name⟩ ∉ tx.faults ∧ tx.isOpen = true
        ∧ ∃ t, tx.work.tables.get? table.name = some t
          ∧ ((∃ place rest, t.places (.eq table.primaryKey (record.cell table.primaryKey))
                = place :: rest ∧ Yields (change table record place) tx () tx')
            ∨ (t.places (.eq table.primaryKey (record.cell table.primaryKey)) = []
              ∧ ∃ row, Yields (append now table record) tx row tx')) := by
  unfold upsert
  simp only [yields_bind, yields_demandOpen, yields_spendFault, yields_stored]
  constructor
  · rintro ⟨_, _, ⟨hopen, rfl⟩, _, _, ⟨hfault, rfl⟩, t, _, ⟨-, ht, rfl⟩, h⟩
    refine ⟨hfault, hopen, t, ht, ?_⟩
    -- only the first row found is looked at, the key being unique
    rcases hplaces : t.places (.eq table.primaryKey (record.cell table.primaryKey))
      with _ | ⟨place, rest⟩
    · rw [hplaces] at h
      exact .inr ⟨rfl, yields_discard.1 h⟩
    · rw [hplaces] at h
      exact .inl ⟨place, rest, rfl, h⟩
  · rintro ⟨hfault, hopen, t, ht, h⟩
    refine ⟨(), tx, ⟨hopen, rfl⟩, (), tx, ⟨hfault, rfl⟩, t, tx, ⟨hopen, ht, rfl⟩, ?_⟩
    rcases h with ⟨place, rest, hplaces, h⟩ | ⟨hplaces, h⟩
    · rw [hplaces]
      exact h
    · rw [hplaces]
      exact yields_discard.2 h

/-- An update changes the rows at the places of a predicate, unless a fault waits for it. -/
theorem yields_update {table : Table} {p : Predicate} {record : Record} {n : Nat} :
    Yields (update table p record) tx n tx'
      ↔ ⟨.update, table.name⟩ ∉ tx.faults ∧ tx.isOpen = true
        ∧ ∃ t, tx.work.tables.get? table.name = some t
          ∧ Yields ((t.places p).forM (change table record)) tx () tx'
          ∧ n = (t.places p).length := by
  unfold update
  simp only [yields_bind, yields_demandOpen, yields_spendFault, yields_stored, yields_pure]
  constructor
  · rintro ⟨_, _, ⟨hopen, rfl⟩, _, _, ⟨hfault, rfl⟩, t, _, ⟨-, ht, rfl⟩, _, _, h, rfl, rfl⟩
    exact ⟨hfault, hopen, t, ht, h, rfl⟩
  · rintro ⟨hfault, hopen, t, ht, h, rfl⟩
    exact ⟨(), tx, ⟨hopen, rfl⟩, (), tx, ⟨hfault, rfl⟩, t, tx, ⟨hopen, ht, rfl⟩, (),
      tx', h, rfl, rfl⟩

/-- A deletion drops the rows that satisfy a predicate, unless a fault waits for it. -/
theorem yields_delete {table : Table} {p : Predicate} {n : Nat} :
    Yields (delete table p) tx n tx'
      ↔ ⟨.delete, table.name⟩ ∉ tx.faults ∧ tx.isOpen = true
        ∧ ∃ t, tx.work.tables.get? table.name = some t
          ∧ tx' = tx.onto (tx.work.put table.name
              { t with rows := t.rows.filter fun row => !p.holds t.columns row })
          ∧ n = (t.matching p).length := by
  unfold delete
  simp only [yields_bind, yields_demandOpen, yields_spendFault, yields_stored, yields_put,
    yields_pure]
  constructor
  · rintro ⟨_, _, ⟨hopen, rfl⟩, _, _, ⟨hfault, rfl⟩, t, _, ⟨-, ht, rfl⟩, _, _, rfl, rfl, rfl⟩
    exact ⟨hfault, hopen, t, ht, rfl, rfl⟩
  · rintro ⟨hfault, hopen, t, ht, rfl, rfl⟩
    exact ⟨(), tx, ⟨hopen, rfl⟩, (), tx, ⟨hfault, rfl⟩, t, tx, ⟨hopen, ht, rfl⟩, (),
      _, rfl, rfl, rfl⟩

/-! ## What statements leave as it is

Reading leaves everything as it is, writing the committed store, and both do so even when they
fail. -/

section Keeps

variable {β : Type} {f : Transaction → β}

theorem keeps_demandOpen : Keeps f demandOpen := by
  refine keeps_bind keeps_get fun tx => ?_
  cases tx.isOpen
  · exact keeps_throw _
  · exact keeps_pure ()

theorem keeps_stored (name : String) : Keeps f (stored name) :=
  keeps_bind keeps_demandOpen fun _ => keeps_bind keeps_get fun _ => keeps_result _

theorem keeps_select (plan : Plan) : Keeps f (select plan) :=
  keeps_bind (keeps_stored _) fun _ => keeps_pure _

theorem keeps_count (table : Table) (p : Predicate) : Keeps f (count table p) :=
  keeps_bind (keeps_stored _) fun _ => keeps_pure _

theorem keeps_checkRules (table : Table) (columns : List Column) (others : List Record)
    (row : Record) : Keeps f (checkRules table columns others row) :=
  keeps_bind keeps_get fun _ => keeps_result _

theorem keepsCommitted_put (name : String) (t : StoredTable) : Keeps committed (put name t) :=
  keeps_modify fun _ => rfl

theorem keepsCommitted_spendFault (op : FaultOp) (table : String) :
    Keeps committed (spendFault op table) := by
  intro tx
  unfold spendFault
  rw [outcome_bind, outcome_get]
  -- spending a fault changes the waiting faults even though the step fails
  by_cases hfault : (⟨op, table⟩ : Fault) ∈ tx.faults <;> simp [hfault, outcome_bind]

theorem keepsCommitted_append (now : Time.Instant) (table : Table) (record : Record) :
    Keeps committed (append now table record) :=
  keeps_bind (keeps_stored _) fun _ =>
    keeps_bind (keeps_result _) fun _ =>
      keeps_bind (keepsCommitted_put _ _) fun _ =>
        keeps_bind (keeps_checkRules _ _ _ _) fun _ =>
          keeps_bind (keepsCommitted_put _ _) fun _ => keeps_pure _

theorem keepsCommitted_change (table : Table) (record : Record) (place : Nat) :
    Keeps committed (change table record place) := by
  refine keeps_bind (keeps_stored _) fun t => ?_
  cases t.rows[place]? with
  | none => exact keeps_pure ()
  | some old =>
    exact keeps_bind (keeps_result _) fun _ =>
      keeps_bind (keeps_checkRules _ _ _ _) fun _ => keepsCommitted_put _ _

theorem keepsCommitted_insert (now : Time.Instant) (table : Table) (record : Record) :
    Keeps committed (insert now table record) :=
  keeps_bind keeps_demandOpen fun _ =>
    keeps_bind (keepsCommitted_spendFault _ _) fun _ =>
      keeps_bind (keepsCommitted_append _ _ _) fun _ => keeps_pure _

theorem keepsCommitted_upsert (now : Time.Instant) (table : Table) (record : Record) :
    Keeps committed (upsert now table record) := by
  refine keeps_bind keeps_demandOpen fun _ => keeps_bind (keepsCommitted_spendFault _ _) fun _ =>
    keeps_bind (keeps_stored _) fun t => ?_
  cases t.places (.eq table.primaryKey (record.cell table.primaryKey)) with
  | nil => exact keeps_discard (keepsCommitted_append _ _ _)
  | cons place _ => exact keepsCommitted_change _ _ _

theorem keepsCommitted_update (table : Table) (p : Predicate) (record : Record) :
    Keeps committed (update table p record) :=
  keeps_bind keeps_demandOpen fun _ =>
    keeps_bind (keepsCommitted_spendFault _ _) fun _ =>
      keeps_bind (keeps_stored _) fun _ =>
        keeps_bind (keeps_forM fun _ _ => keepsCommitted_change _ _ _) fun _ => keeps_pure _

theorem keepsCommitted_delete (table : Table) (p : Predicate) : Keeps committed (delete table p) :=
  keeps_bind keeps_demandOpen fun _ =>
    keeps_bind (keepsCommitted_spendFault _ _) fun _ =>
      keeps_bind (keeps_stored _) fun _ =>
        keeps_bind (keepsCommitted_put _ _) fun _ => keeps_pure _

end Keeps

end Transaction

/-! ## Transactions as a whole -/

/-- The last step alone touches the committed store, and demands an open transaction. -/
theorem Transaction.outcome_commit (tx : Transaction) :
    outcome commit tx
      = if tx.isOpen then (.ok (), { tx with committed := tx.work, isOpen := false })
        else (.error (.storage .transactionFinished), tx) := by
  unfold commit demandOpen
  cases hopen : tx.isOpen
  · simp [outcome_bind, hopen]
  · simp only [outcome_bind, outcome_get, hopen]
    rfl

namespace Database

variable {α : Type}

/-- A transaction ends with what its steps leave, if they succeed and it is still open; else it is
dropped. -/
theorem transact_eq (db : Database) (steps : Action α) :
    db.transact steps
      = match outcome steps (.begin db) with
        | (.error e, tx) => (.error e, tx.database)
        | (.ok x, tx) =>
          if tx.isOpen then (.ok x, ⟨tx.work, tx.faults⟩)
          else (.error (.storage .transactionFinished), tx.database) := by
  have hsteps : db.transact steps
      = ((outcome (do let a ← steps; Transaction.commit; return a) (.begin db)).1,
        (outcome (do let a ← steps; Transaction.commit; return a) (.begin db)).2.database) := rfl
  rw [hsteps, outcome_bind]
  rcases outcome steps (.begin db) with ⟨e | x, tx⟩
  · rfl
  · simp only [outcome_bind, Transaction.outcome_commit]
    cases tx.isOpen <;> rfl

/-- Steps on a document end as other steps do, and the document is what they leave. -/
theorem transactInPlace_eq (db : Database) (steps : InPlace α) (doc : Record) :
    db.transactInPlace steps doc
      = match steps.outcome doc (.begin db) with
        | ((.error e, left), tx) => ((.error e, left), tx.database)
        | ((.ok x, left), tx) =>
          if tx.isOpen then ((.ok x, left), ⟨tx.work, tx.faults⟩)
          else ((.error (.storage .transactionFinished), left), tx.database) := by
  have hsteps : db.transactInPlace steps doc
      = ((InPlace.outcome (do let a ← steps; InPlace.lift Transaction.commit; return a) doc
          (.begin db)).1,
        (InPlace.outcome (do let a ← steps; InPlace.lift Transaction.commit; return a) doc
          (.begin db)).2.database) := rfl
  rw [hsteps, InPlace.outcome_bind]
  rcases steps.outcome doc (.begin db) with ⟨⟨e | x, left⟩, tx⟩
  · rfl
  · simp only [InPlace.outcome_bind, InPlace.outcome_lift, Transaction.outcome_commit]
    cases tx.isOpen <;> rfl

/-- A transaction that fails leaves the store as it was. -/
theorem store_transact_error {db : Database} {steps : Action α}
    (h : Keeps Transaction.committed steps) {e : Error} (hrun : (db.transact steps).1 = .error e) :
    (db.transact steps).2.store = db.store := by
  have hkept : (outcome steps (.begin db)).2.committed = db.store := h (.begin db)
  rw [transact_eq] at hrun ⊢
  rcases ho : outcome steps (.begin db) with ⟨e' | x, tx⟩
  · rw [ho] at hkept
    exact hkept
  · rw [ho] at hkept hrun
    -- the steps went through: the failure is that of a transaction already closed
    cases hopen : tx.isOpen
    · simp only [hopen]
      exact hkept
    · simp [hopen] at hrun

/-- A transaction that succeeds makes the copy that its steps leave the store. -/
theorem transact_ok {db : Database} {steps : Action α} {x : α}
    (hrun : (db.transact steps).1 = .ok x) :
    ∃ tx, Yields steps (.begin db) x tx ∧ (db.transact steps).2 = ⟨tx.work, tx.faults⟩ := by
  rw [transact_eq] at hrun ⊢
  rcases ho : outcome steps (.begin db) with ⟨e | y, tx⟩
  · simp [ho] at hrun
  · rw [ho] at hrun
    cases hopen : tx.isOpen
    · simp [hopen] at hrun
    · simp only [hopen, if_true, Except.ok.injEq] at hrun
      exact ⟨tx, hrun ▸ ho, by simp [hopen]⟩

/-- A transaction whose steps succeed and do not end it is committed. -/
theorem transact_of_yields {db : Database} {steps : Action α} {x : α} {tx : Transaction}
    (h : Yields steps (.begin db) x tx) (hopen : tx.isOpen = true) :
    db.transact steps = (.ok x, ⟨tx.work, tx.faults⟩) := by
  rw [transact_eq, show outcome steps (.begin db) = (.ok x, tx) from h]
  simp [hopen]

end Database

end RecordStore
