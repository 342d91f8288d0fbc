import RecordStore.Catalog
import RecordStore.Proofs.Removal

/-!
# Runs

What a client asks of a catalog, one operation after the other, from the empty database on. Reading
leaves the store as it is, and a change that succeeds is a chain of moves, so a run is one, too.

* **`Operation`**, **`Catalog.perform`**, **`Catalog.run`** — operations and their effect on a
  database.
* **`Catalog.moves_of_perform`** — an operation on a sound store is a chain of moves.
* **`Catalog.sound_run`** — every run leaves a sound store.
-/

namespace RecordStore

open RecordStore.Action

/-- What a client asks of a catalog, and a fault that is planted among its statements. -/
inductive Operation where
  | createTables
  | failNext (op : FaultOp) (table : String)
  | insert (resource : String) (docs : List Record)
  | update (resource : String) (id : Value) (doc : Record)
  | replace (resource : String) (id : Value) (doc : Record)
  | remove (resource : String) (lookup : Filter)
  | find (resource : String) (request : Request) (lookup : Filter)
  | findFirst (resource : String) (request : Request) (lookup : Filter)
  | findStored (resource : String) (id : Value)
  | findByKeys (resource : String) (ids : List Value) (projection : Option Projection)
  | isEmpty (resource : String)
  | aggregate

/-- Whether an operation only reads. -/
def Operation.reads : Operation → Bool
  | .find .. | .findFirst .. | .findStored .. | .findByKeys .. | .isEmpty .. | .aggregate => true
  | _ => false

/-- An operation and the time that the clock shows during it. -/
abbrev Step := Time.Instant × Operation

namespace Catalog

/-- The database after an operation. -/
def perform (catalog : Catalog) (db : Database) : Step → Database
  | (_, .createTables) => db.applySchema catalog.schema
  | (_, .failNext op table) => db.failNext op table
  | (now, .insert resource docs) => (catalog.insert resource now docs db).2
  | (now, .update resource id doc) => (catalog.update resource now id doc db).2
  | (now, .replace resource id doc) => (catalog.replace resource now id doc db).2
  | (now, .remove resource lookup) => (catalog.remove resource now lookup db).2
  | (_, .find resource request lookup) => (catalog.find resource request lookup db).2
  | (_, .findFirst resource request lookup) => (catalog.findFirst resource request lookup db).2
  | (_, .findStored resource id) => (catalog.findStored resource id db).2
  | (_, .findByKeys resource ids projection) => (catalog.findByKeys resource ids projection db).2
  | (_, .isEmpty resource) => (catalog.isEmpty resource db).2
  | (_, .aggregate) => (catalog.aggregate db).2

/-- An operation that takes rows out of the table of a resource, and does not only flag them. -/
def Drops (catalog : Catalog) (op : Operation) : Prop :=
  ∃ resource lookup table, op = .remove resource lookup ∧ catalog.schema.table resource = .ok table
    ∧ table.deletedColumn = none

/-- The database after operations on the empty one. -/
def run (catalog : Catalog) (steps : List Step) : Database := steps.foldl catalog.perform {}

end Catalog

/-! ## Reading -/

namespace Fetch

variable {β : Type} {f : Transaction → β} (schema : Schema)

theorem keeps_withMembers (table : Table) (records : List Record) (m : ListField) :
    Keeps f (withMembers schema table records m) := by
  unfold withMembers
  dsimp only
  split
  · exact keeps_pure records
  · exact keeps_bind (keeps_membersByOwner _ _ _) fun _ => keeps_pure _

theorem keeps_foldlM_withMembers (table : Table) (lists : List ListField) (records : List Record) :
    Keeps f (lists.foldlM (withMembers schema table) records) := by
  induction lists generalizing records with
  | nil => exact keeps_pure records
  | cons m rest ih =>
    rw [List.foldlM_cons]
    exact keeps_bind (keeps_withMembers schema table records m) ih

theorem keeps_records (settings : Settings) (plan : Plan) :
    Keeps f (records schema settings plan) := by
  refine keeps_bind (Transaction.keeps_select _) fun rows =>
    keeps_bind (keeps_foldlM_withMembers schema _ _ rows) fun full => ?_
  -- dates are written anew in what was read, without the store
  split
  · exact keeps_pure full
  · exact keeps_result _

theorem keeps_page (settings : Settings) (plan : Plan) : Keeps f (page schema settings plan) :=
  keeps_bind (keeps_records schema settings plan) fun _ =>
    keeps_bind (Transaction.keeps_count _ _) fun _ => keeps_pure _

theorem keeps_first? (settings : Settings) (plan : Plan) : Keeps f (first? schema settings plan) :=
  keeps_bind (keeps_records schema settings _) fun _ => keeps_pure _

end Fetch

/-- A transaction that only reads leaves the store as it is. -/
theorem Database.store_transact_of_keeps {α : Type} {db : Database} {steps : Action α}
    (hcommitted : Keeps Transaction.committed steps) (hwork : Keeps Transaction.work steps) :
    (db.transact steps).2.store = db.store := by
  cases hrun : (db.transact steps).1 with
  | error e => exact store_transact_error hcommitted hrun
  | ok x =>
    obtain ⟨tx, hyields, hdb⟩ := transact_ok hrun
    rw [hdb]
    exact hwork.of_yields hyields

/-! ## Operations as moves -/

section Moves

variable {schema : Schema} {times : Time.Instant → Prop} {drops : Prop} {db : Database}

/-- A transaction is committed with all its moves, or dropped. -/
theorem moves_of_transact {α : Type} {steps : Action α}
    (hcommitted : Keeps Transaction.committed steps)
    (hmoves : ∀ x tx, Yields steps (.begin db) x tx → Moves schema times drops db.store tx.work) :
    Moves schema times drops db.store (db.transact steps).2.store := by
  cases hrun : (db.transact steps).1 with
  | error e =>
    rw [Database.store_transact_error hcommitted hrun]
  | ok x =>
    obtain ⟨tx, hyields, hdb⟩ := Database.transact_ok hrun
    rw [hdb]
    exact hmoves x tx hyields

/-- Creating tables is a move for each of them. -/
theorem moves_of_applySchema (db : Database) :
    Moves schema times drops db.store (db.applySchema schema).store := by
  have hfold (tables : List Table) (htables : ∀ t ∈ tables, t ∈ schema.physical) (db : Database) :
      Moves schema times drops db.store (tables.foldl Database.createTable db).store := by
    -- on the tables, each created in the store that the ones before it leave
    induction tables generalizing db with
    | nil => exact .refl
    | cons table rest ih =>
      exact .head (.create (htables table List.mem_cons_self))
        (ih (fun t ht => htables t (List.mem_cons_of_mem _ ht)) (db.createTable table))
  exact hfold schema.physical (fun _ ht => ht) db

end Moves

namespace Catalog

variable {catalog : Catalog} {times : Time.Instant → Prop} {drops : Prop} {db : Database}
  {now : Time.Instant}

/-- The table of a resource shares its rows with a table of the store. -/
theorem base_of_table (hwf : catalog.schema.WellFormed) {resource : String} {table : Table}
    (h : catalog.schema.table resource = .ok table) :
    ∃ base ∈ catalog.schema.bases, table.SharesRows base :=
  hwf.shared table (Schema.mem_of_table h).1

/-- A change of a resource that is there is one transaction. -/
theorem update_of_table {resource : String} {table : Table}
    (htable : catalog.schema.table resource = .ok table) (now : Time.Instant) (id : Value)
    (doc : Record) (db : Database) :
    catalog.update resource now id doc db
      = db.transact (Change.update catalog.schema table now id doc) := by
  rw [update, htable]
  rfl

theorem replace_of_table {resource : String} {table : Table}
    (htable : catalog.schema.table resource = .ok table) (now : Time.Instant) (id : Value)
    (doc : Record) (db : Database) :
    catalog.replace resource now id doc db
      = db.transact (Change.replace catalog.schema table now id doc) := by
  rw [replace, htable]
  rfl

/-- Inserting documents is one transaction for each; the first that is refused ends it. -/
theorem insertAll_cons (table : Table) (now : Time.Instant) (doc : Record) (docs : List Record)
    (db : Database) :
    catalog.insertAll table now (doc :: docs) db
      = match db.transact (Change.insert catalog.schema table now doc) with
        | (.error e, db') => (⟨.error e, Change.refused catalog.schema table doc :: docs⟩, db')
        | (.ok (id, new), db') =>
          (⟨(catalog.insertAll table now docs db').1.ids.map (id :: ·),
            new :: (catalog.insertAll table now docs db').1.docs⟩,
            (catalog.insertAll table now docs db').2) := by
  rw [insertAll, Change.transactInPlace_insertInPlace]
  rcases db.transact (Change.insert catalog.schema table now doc) with ⟨e | ⟨id, new⟩, db'⟩ <;> rfl

/-- On the documents; the store is sound whenever one of them begins. -/
theorem moves_of_insertAll (hwf : catalog.schema.WellFormed)
    (hsound : db.store.Sound catalog.schema times) {table base : Table}
    (hbase : base ∈ catalog.schema.bases) (hshares : table.SharesRows base) (hnow : times now)
    (docs : List Record) :
    Moves catalog.schema times drops db.store (catalog.insertAll table now docs db).2.store := by
  -- on the documents; each transaction starts where the one before was committed
  induction docs generalizing db with
  | nil => exact .refl
  | cons doc docs ih =>
    have hone : Moves catalog.schema times drops db.store
        (db.transact (Change.insert catalog.schema table now doc)).2.store :=
      moves_of_transact (Change.keepsCommitted_insert doc) fun ⟨_, _⟩ _ hrun =>
        Change.moves_of_insert hwf hsound hbase hshares hnow hrun
    rw [insertAll_cons]
    rcases hrun : db.transact (Change.insert catalog.schema table now doc) with ⟨_ | ⟨id, new⟩, db'⟩
    -- refused: nothing is done for the documents after it
    · rw [hrun] at hone
      exact hone
    · rw [hrun] at hone
      exact hone.trans (ih (hsound.moves hwf hone))

/-- A change of a resource is a chain of moves if its steps on the table of the resource are. -/
theorem moves_of_transactWith {α : Type} (hwf : catalog.schema.WellFormed) {resource : String}
    {steps : Table → Action α} (hcommitted : ∀ table, Keeps Transaction.committed (steps table))
    (hmoves : ∀ table, catalog.schema.table resource = .ok table → ∀ base ∈ catalog.schema.bases,
      table.SharesRows base → ∀ x tx, Yields (steps table) (.begin db) x tx →
        Moves catalog.schema times drops db.store tx.work) :
    Moves catalog.schema times drops db.store
      (transactWith db (catalog.schema.table resource) steps).2.store := by
  cases htable : catalog.schema.table resource with
  -- no table, no transaction
  | error e => exact .refl
  | ok table =>
    obtain ⟨base, hbase, hshares⟩ := base_of_table hwf htable
    exact moves_of_transact (hcommitted table) (hmoves table htable base hbase hshares)

theorem store_transactWith_of_keeps {α β : Type} {prepared : Except Error β} {steps : β → Action α}
    (hcommitted : ∀ b, Keeps Transaction.committed (steps b))
    (hwork : ∀ b, Keeps Transaction.work (steps b)) :
    (transactWith db prepared steps).2.store = db.store := by
  cases prepared with
  | error e => rfl
  | ok b => exact Database.store_transact_of_keeps (hcommitted b) (hwork b)

/-- An operation that only reads leaves the store as it is, also when it fails. -/
theorem store_perform_of_reads {op : Operation} (h : op.reads = true) :
    (catalog.perform db (now, op)).store = db.store := by
  cases op with
  | find resource request lookup =>
    exact store_transactWith_of_keeps (fun _ => Fetch.keeps_page _ _ _) fun _ =>
      Fetch.keeps_page _ _ _
  | findFirst resource request lookup =>
    exact store_transactWith_of_keeps (fun _ => Fetch.keeps_first? _ _ _)
      fun _ => Fetch.keeps_first? _ _ _
  | findStored resource id =>
    exact store_transactWith_of_keeps (fun _ => Fetch.keeps_first? _ _ _)
      fun _ => Fetch.keeps_first? _ _ _
  | findByKeys resource ids projection =>
    exact store_transactWith_of_keeps (fun _ => Fetch.keeps_records _ _ _)
      fun _ => Fetch.keeps_records _ _ _
  | isEmpty resource =>
    exact store_transactWith_of_keeps
      (fun _ => keeps_bind (Transaction.keeps_count _ _) fun _ => keeps_pure _)
      fun _ => keeps_bind (Transaction.keeps_count _ _) fun _ => keeps_pure _
  | aggregate => rfl
  | _ => cases h

/-- **An operation on a sound store is a chain of moves.** -/
theorem moves_of_perform (hwf : catalog.schema.WellFormed)
    (hsound : db.store.Sound catalog.schema times) (hnow : times now) {op : Operation}
    (hdrops : catalog.Drops op → drops) :
    Moves catalog.schema times drops db.store (catalog.perform db (now, op)).store := by
  cases op with
  | createTables => exact moves_of_applySchema db
  | failNext op table => exact .refl
  | insert resource docs =>
    rw [perform, insert]
    cases htable : catalog.schema.table resource with
    | error e => exact .refl
    | ok table =>
      obtain ⟨base, hbase, hshares⟩ := base_of_table hwf htable
      exact moves_of_insertAll hwf hsound hbase hshares hnow docs
  | update resource id doc =>
    exact moves_of_transactWith hwf (fun _ => Change.keepsCommitted_update id doc)
      fun _ _ _ hbase hshares _ _ hrun => Change.moves_of_update hwf hsound hbase hshares hnow hrun
  | replace resource id doc =>
    exact moves_of_transactWith hwf (fun _ => Change.keepsCommitted_replace id doc)
      fun _ _ _ hbase hshares _ _ hrun => Change.moves_of_replace hwf hsound hbase hshares hnow hrun
  | remove resource lookup =>
    exact moves_of_transactWith hwf (fun _ => Change.keepsCommitted_remove lookup)
      fun _ htable _ hbase hshares _ _ hrun => Change.moves_of_remove hwf hsound hbase hshares hnow
        (fun hflag => hdrops ⟨resource, lookup, _, rfl, htable, hflag⟩) hrun
  | _ => rw [store_perform_of_reads rfl]

theorem run_append (catalog : Catalog) (done : List Step) (step : Step) :
    catalog.run (done ++ [step]) = catalog.perform (catalog.run done) step :=
  List.foldl_append ..

/-- Operations on a sound store are a chain of moves. -/
theorem moves_of_steps (hwf : catalog.schema.WellFormed)
    (hsound : db.store.Sound catalog.schema times) {steps : List Step}
    (htimes : ∀ step ∈ steps, times step.1) :
    Moves catalog.schema times True db.store (steps.foldl catalog.perform db).store := by
  -- the invariant is soundness, which lets the next operation be a chain of moves
  induction steps generalizing db with
  | nil => exact .refl
  | cons step rest ih =>
    have hfirst : Moves catalog.schema times True db.store (catalog.perform db step).store :=
      moves_of_perform hwf hsound (htimes step List.mem_cons_self) fun _ => trivial
    exact hfirst.trans (ih (hsound.moves hwf hfirst) fun s hs =>
      htimes s (List.mem_cons_of_mem _ hs))

theorem moves_run (hwf : catalog.schema.WellFormed) {steps : List Step}
    (htimes : ∀ step ∈ steps, times step.1) :
    Moves catalog.schema times True {} (catalog.run steps).store :=
  @moves_of_steps catalog times {} hwf (.empty catalog.schema times) steps htimes

/-- **Every run leaves a sound store.** -/
theorem sound_run (hwf : catalog.schema.WellFormed) {steps : List Step}
    (htimes : ∀ step ∈ steps, times step.1) :
    (catalog.run steps).store.Sound catalog.schema times :=
  (Store.Sound.empty catalog.schema times).moves hwf (moves_run hwf htimes)

/-- Every run leaves a sound store, whatever its times are. -/
theorem sound_run_anytime (hwf : catalog.schema.WellFormed) (steps : List Step) :
    (catalog.run steps).store.Sound catalog.schema fun _ => True :=
  sound_run hwf fun _ _ => trivial

/-- What is asked later is a chain of moves from the store that a run leaves. -/
theorem moves_run_append (hwf : catalog.schema.WellFormed) (steps later : List Step) :
    Moves catalog.schema (fun _ => True) True (catalog.run steps).store
      (catalog.run (steps ++ later)).store := by
  rw [run, run, List.foldl_append]
  exact moves_of_steps hwf (sound_run_anytime hwf steps) fun _ _ => trivial

end Catalog

/-! ## A sample
 Teams point at one person who leads them and list their members. -/

def sampleDomain : Domain := .ofList [
  ("person", { fields := .ofList [("badge", { typeName := "dict", unique := true })] }),
  ("team", { fields := .ofList [
    ("lead", { typeName := "integer", target := some "person" }),
    ("members", { typeName := "list", target := some "person" })] })]

def sampleCatalog : Catalog := .compiled {} sampleDomain

theorem ofDomain_sample : Catalog.ofDomain {} sampleDomain = .ok sampleCatalog :=
  Catalog.ofDomain_compiled rfl

/-- A person, and a team that the person leads and is a member of. -/
def sampleSteps : List Step := [
  (⟨0, 0⟩, .createTables),
  (⟨1, 0⟩, .insert "person" [{}]),
  (⟨2, 0⟩, .insert "team" [.ofList [("lead", .int 1), ("members", .array [.int 1])]])]

end RecordStore
