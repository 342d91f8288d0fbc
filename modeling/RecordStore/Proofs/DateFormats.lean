import RecordStore.Proofs.Pages
import RecordStore.Proofs.Run

/-!
# Date formats

The format of dates in the settings is for the eyes of a reader. Two catalogs that differ in it,
asked the same from the empty database on, change the database alike and give the same answers, but
for the text of the dates that they show. A shown date could do harm where it came back: as the key
under which lists are looked up, as a time that a replaced record inherits, as a cell of a row. Here
it cannot, since lists are looked up before dates are shown, and changes read rows and not records.

A format that cannot be written makes a read fail, and it is the only thing that a format decides
besides texts. A read that fails so has not counted its rows, nor met the faults that wait there, so
nothing is said of runs with such a read.

* **`Record.SameButDates`** — the same record, but for the texts of dates.
* **`Action.SameUpTo`** — two actions leave the same transaction and give related answers, unless
  one of them fails at a date.
* **`Fetch.sameUpTo_records`** — records are read alike under two formats.
* **`Catalog.dates_only_shown`** — two runs under two formats.
-/

namespace RecordStore

open RecordStore.Action

/-! ## Records that differ in dates -/

/-- The same names, and under each the same value, or, under the name of a date, two texts. -/
structure Record.SameButDates (dates : List String) (r r' : Record) : Prop where
  keys_eq : r.keys = r'.keys
  cells : ∀ name, r.get? name = r'.get? name ∨
    name ∈ dates ∧ ∃ text text', r.get? name = some (.string text)
      ∧ r'.get? name = some (.string text')

namespace Record.SameButDates

variable {dates : List String} {r r' r'' : Record}

theorem refl (dates : List String) (r : Record) : r.SameButDates dates r := ⟨rfl, fun _ => .inl rfl⟩

theorem symm (h : r.SameButDates dates r') : r'.SameButDates dates r where
  keys_eq := h.keys_eq.symm
  cells name := by
    rcases h.cells name with heq | ⟨hdate, text, text', hr, hr'⟩
    · exact .inl heq.symm
    · exact .inr ⟨hdate, text', text, hr', hr⟩

theorem mono {more : List String} (h : r.SameButDates dates r') (hsub : dates ⊆ more) :
    r.SameButDates more r' where
  keys_eq := h.keys_eq
  cells name := (h.cells name).imp id fun hdate => ⟨hsub hdate.1, hdate.2⟩

theorem trans (h : r.SameButDates dates r') (h' : r'.SameButDates dates r'') :
    r.SameButDates dates r'' where
  keys_eq := h.keys_eq.trans h'.keys_eq
  cells name := by
    rcases h.cells name with heq | ⟨hdate, text, text', hr, hr'⟩
    · rw [heq]
      exact h'.cells name
    · rcases h'.cells name with heq' | ⟨-, -, text'', -, hr''⟩
      · exact .inr ⟨hdate, text, text', hr, heq' ▸ hr'⟩
      · exact .inr ⟨hdate, text, text'', hr, hr''⟩

end Record.SameButDates

/-- The columns of a table that hold dates. -/
def Table.dateNames (table : Table) : List String :=
  (table.columns.filter (·.type == .datetime)).map Column.name

/-! ## Failing at a date -/

/-- Whether a failure is that of a format that cannot be written. -/
def Error.isOfFormat : Error → Bool
  | .schema (.load (.badDateFormat _)) => true
  | _ => false

/-- Whether a result is such a failure. -/
def failsToFormat {α : Type} : Except Error α → Bool
  | .error e => e.isOfFormat
  | .ok _ => false

namespace Fetch

variable {table : Table} {format : String} {r shown : Record}

theorem isOfFormat_of_formatCell {c : Column} {e : Error} (h : formatCell format r c = .error e) :
    e.isOfFormat = true := by
  unfold formatCell at h
  split at h
  · cases h
  · split at h <;> cases h
    rfl

/-- A date is written over a text. -/
theorem sameButDates_of_formatCell {c : Column} (h : formatCell format r c = .ok shown) :
    r.SameButDates [c.name] shown := by
  unfold formatCell at h
  split at h
  · cases h
    exact .refl _ r
  · rename_i t ht
    split at h
    · rename_i text _
      cases h
      obtain ⟨stored, hstored, -⟩ := Option.bind_eq_some_iff.1 ht
      have hcell : r.get? c.name = some (.string stored) := by
        unfold Record.cell at hstored
        cases hget : r.get? c.name with
        | none => rw [hget] at hstored; cases hstored
        | some v =>
          rw [hget] at hstored
          cases v <;> cases hstored
          rfl
      refine ⟨(NameMap.keys_insert_of_mem _ ?_).symm, fun name => ?_⟩
      · rw [NameMap.mem_keys_iff, hcell]
        rfl
      · by_cases hname : name = c.name
        · subst hname
          exact .inr ⟨List.mem_singleton_self _, stored, text, hcell, NameMap.get?_insert_self ..⟩
        · exact .inl (NameMap.get?_insert_of_ne _ _ hname).symm
    · cases h

/-- One column after the other, all that is written over are texts of dates, and all that fails is
to write one. -/
theorem foldlM_formatCell_cases (format : String) (columns : List Column) (r : Record) :
    (∃ shown, columns.foldlM (formatCell format) r = .ok shown
      ∧ r.SameButDates (columns.map Column.name) shown) ∨
      ∃ e, columns.foldlM (formatCell format) r = .error e ∧ e.isOfFormat = true := by
  induction columns generalizing r with
  | nil => exact .inl ⟨r, rfl, .refl _ r⟩
  | cons c rest ih =>
    rw [List.foldlM_cons]
    cases hcell : formatCell format r c with
    | error e => exact .inr ⟨e, rfl, isOfFormat_of_formatCell hcell⟩
    | ok mid =>
      have hfirst : r.SameButDates ((c :: rest).map Column.name) mid :=
        (sameButDates_of_formatCell hcell).mono (by simp)
      rcases ih mid with ⟨shown, hshown, hrest⟩ | ⟨e, hfails, hdate⟩
      · exact .inl ⟨shown, hshown, hfirst.trans (hrest.mono (List.subset_cons_self ..))⟩
      · exact .inr ⟨e, hfails, hdate⟩

/-- A record is shown as it was read, but for the texts of its dates, or a date of it cannot be
written. -/
theorem presented_cases (settings : Settings) (table : Table) (r : Record) :
    (∃ shown, presented settings table r = .ok shown ∧ r.SameButDates table.dateNames shown) ∨
      ∃ e, presented settings table r = .error e ∧ e.isOfFormat = true := by
  unfold presented
  split
  · exact .inl ⟨r, rfl, .refl _ r⟩
  · exact foldlM_formatCell_cases _ (table.columns.filter (·.type == .datetime)) r

theorem sameButDates_of_presented {settings : Settings}
    (h : presented settings table r = .ok shown) :
    r.SameButDates table.dateNames shown := by
  rcases presented_cases settings table r with ⟨written, hwritten, hsame⟩ | ⟨e, hfails, -⟩
  · obtain rfl := Except.ok.inj (hwritten.symm.trans h)
    exact hsame
  · cases hfails.symm.trans h

theorem isOfFormat_of_presented {settings : Settings} {e : Error}
    (h : presented settings table r = .error e) :
    e.isOfFormat = true := by
  rcases presented_cases settings table r with ⟨written, hwritten, -⟩ | ⟨e', hfails, hdate⟩
  · cases hwritten.symm.trans h
  · obtain rfl := Except.error.inj (hfails.symm.trans h)
    exact hdate

end Fetch

/-! ## Actions that differ in dates -/

/-- The same failure, or related answers. -/
inductive AlikeBy {α : Type} (R : α → α → Prop) : Except Error α → Except Error α → Prop where
  | failed (e : Error) : AlikeBy R (.error e) (.error e)
  | answered {x y : α} (h : R x y) : AlikeBy R (.ok x) (.ok y)

namespace Action

variable {α β : Type} {R : α → α → Prop} {S : β → β → Prop} {a a' : Action α}

/-- From every transaction the actions leave the same one and give related answers, unless one of
them fails at a date. -/
def SameUpTo (R : α → α → Prop) (a a' : Action α) : Prop :=
  ∀ tx, failsToFormat (outcome a tx).1 = false → failsToFormat (outcome a' tx).1 = false →
    AlikeBy R (outcome a tx).1 (outcome a' tx).1 ∧ (outcome a tx).2 = (outcome a' tx).2

namespace SameUpTo

theorem refl (a : Action α) : SameUpTo Eq a a := by
  intro tx _ _
  refine ⟨?_, rfl⟩
  cases (outcome a tx).1 with
  | error e => exact .failed e
  | ok x => exact .answered rfl

theorem pure {x y : α} (h : R x y) : SameUpTo R (Pure.pure x) (Pure.pure y) :=
  fun _ _ _ => ⟨.answered h, rfl⟩

theorem result {r r' : Except Error α}
    (h : failsToFormat r = false → failsToFormat r' = false → AlikeBy R r r') :
    SameUpTo R (Transaction.result r) (Transaction.result r') := fun _ hr hr' => ⟨h hr hr', rfl⟩

/-- Related answers are gone on with alike. -/
theorem bind {f f' : α → Action β} (ha : SameUpTo R a a')
    (hf : ∀ x y, R x y → SameUpTo S (f x) (f' y)) :
    SameUpTo S (a >>= f) (a' >>= f') := by
  intro tx hok hok'
  rw [outcome_bind] at hok hok' ⊢
  rw [outcome_bind a']
  have hfirst := ha tx
  generalize outcome a tx = first at hok hfirst ⊢
  generalize outcome a' tx = first' at hok' hfirst ⊢
  rcases first with ⟨e | x, mid⟩ <;> rcases first' with ⟨e' | y, mid'⟩
  · obtain ⟨hfailed, rfl⟩ := hfirst hok hok'
    cases hfailed
    exact ⟨.failed e, rfl⟩
  · cases (hfirst hok rfl).1
  · cases (hfirst rfl hok').1
  · obtain ⟨hanswered, rfl⟩ := hfirst rfl rfl
    cases hanswered with
    | answered hxy => exact hf x y hxy mid hok hok'

end SameUpTo

end Action

/-- Transactions of such actions leave the same database. -/
theorem Database.transact_of_sameUpTo {α : Type} {R : α → α → Prop} {steps steps' : Action α}
    (h : SameUpTo R steps steps') (db : Database)
    (hok : failsToFormat (db.transact steps).1 = false)
    (hok' : failsToFormat (db.transact steps').1 = false) :
    AlikeBy R (db.transact steps).1 (db.transact steps').1
      ∧ (db.transact steps).2 = (db.transact steps').2 := by
  rw [transact_eq] at hok hok' ⊢
  rw [transact_eq db steps']
  have hsteps := h (.begin db)
  generalize outcome steps (.begin db) = done at hok hsteps ⊢
  generalize outcome steps' (.begin db) = done' at hok' hsteps ⊢
  rcases done with ⟨e | x, tx⟩ <;> rcases done' with ⟨e' | y, tx'⟩
  · obtain ⟨hfailed, rfl⟩ := hsteps hok hok'
    cases hfailed
    exact ⟨.failed e, rfl⟩
  · cases (hsteps hok rfl).1
  · cases (hsteps rfl hok').1
  · obtain ⟨hanswered, rfl⟩ := hsteps rfl rfl
    cases hanswered with
    | answered hxy =>
      dsimp only
      split
      · exact ⟨.answered hxy, rfl⟩
      · exact ⟨.failed _, rfl⟩

/-! ## Reading under two formats -/

namespace Settings

/-- The settings with another format of dates. -/
def showing (settings : Settings) (format : Option String) : Settings :=
  { settings with dateFormat := format }

end Settings

namespace Fetch

variable (schema : Schema) (settings : Settings) (format : Option String) (plan : Plan)

/-- The lists are looked up before the dates are shown, so records differ in dates only. -/
theorem sameUpTo_records :
    SameUpTo (List.Forall₂ (Record.SameButDates plan.table.dateNames))
      (records schema settings plan)
      (records schema (settings.showing format) plan) := by
  rw [records_eq, records_eq]
  refine .bind (.refl _) ?_
  rintro full _ rfl
  refine .result fun hok hok' => ?_
  -- neither list of records fails, since all that could fail is a date
  have hshown (settings : Settings)
      (hok : failsToFormat (full.mapM (presented settings plan.table)) = false) :
      ∃ shown, full.mapM (presented settings plan.table) = .ok shown ∧
        List.Forall₂ (Record.SameButDates plan.table.dateNames) full shown := by
    cases hmap : full.mapM (presented settings plan.table) with
    | error e =>
      obtain ⟨r, -, hr⟩ := exists_of_mapM_error hmap
      rw [hmap] at hok
      exact absurd (isOfFormat_of_presented hr) (by simpa [failsToFormat] using hok)
    | ok shown =>
      exact ⟨shown, rfl, (mapM_eq_ok_iff.1 hmap).imp fun _ _ h => sameButDates_of_presented h⟩
  obtain ⟨shown, hmap, hsame⟩ := hshown settings hok
  obtain ⟨shown', hmap', hsame'⟩ := hshown (settings.showing format) hok'
  rw [hmap, hmap']
  have hback : List.Forall₂ (Record.SameButDates plan.table.dateNames) shown full :=
    List.Forall₂.flip (hsame.imp fun _ _ h => Record.SameButDates.symm h)
  have hboth : List.Forall₂ (Record.SameButDates plan.table.dateNames) shown shown' :=
    forall₂_trans (fun r _ _ (h : r.SameButDates plan.table.dateNames _) h' =>
      h.trans h') hback hsame'
  exact .answered hboth

theorem sameUpTo_page :
    SameUpTo (fun page page' =>
      List.Forall₂ (Record.SameButDates plan.table.dateNames) page.records page'.records ∧
      page.total = page'.total) (page schema settings plan)
        (page schema (settings.showing format) plan) := by
  refine .bind (sameUpTo_records schema settings format plan) fun records records' hrecords => ?_
  refine .bind (.refl _) ?_
  rintro total _ rfl
  exact .pure ⟨hrecords, rfl⟩

theorem sameUpTo_first? :
    SameUpTo (Option.Rel (Record.SameButDates plan.table.dateNames)) (first? schema settings plan)
      (first? schema (settings.showing format) plan) := by
  refine .bind (sameUpTo_records schema settings format _) fun records records' hrecords => ?_
  cases hrecords with
  | nil => exact .pure .none
  | cons hfirst _ => exact .pure (.some hfirst)

end Fetch

/-! ## What an operation answers -/

/-- What an operation answers. The tables that are created and the faults that are planted have no
answer. -/
inductive Answer where
  | none
  | inserted (insertion : Insertion)
  | changed (result : Except Error Unit)
  | removed (result : Except Error Nat)
  | page (result : Except Error Page)
  | record (result : Except Error (Option Record))
  | records (result : Except Error (List Record))
  | whether (result : Except Error Bool)

namespace Answer

/-- Whether it is the failure of a read to write a date. -/
def failsToFormat : Answer → Bool
  | .page result => RecordStore.failsToFormat result
  | .record result => RecordStore.failsToFormat result
  | .records result => RecordStore.failsToFormat result
  | _ => false

/-- The same answer, but for the dates of the records that are read. -/
def SameButDates (dates : List String) : Answer → Answer → Prop
  | .page result, .page result' =>
    AlikeBy (fun page page' => List.Forall₂ (Record.SameButDates dates) page.records page'.records ∧
      page.total = page'.total) result result'
  | .record result, .record result' =>
    AlikeBy (Option.Rel (Record.SameButDates dates)) result result'
  | .records result, .records result' =>
    AlikeBy (List.Forall₂ (Record.SameButDates dates)) result result'
  | answer, answer' => answer = answer'

end Answer

/-- The resource of whose records an operation reads some. -/
def Operation.readResource? : Operation → Option String
  | .find resource _ _ | .findFirst resource _ _ | .findStored
      resource _ | .findByKeys resource _ _ => some resource
  | _ => none

/-- The columns of dates in what an operation reads. -/
def Schema.datesRead (schema : Schema) (op : Operation) : List String :=
  ((op.readResource?.bind fun resource => (schema.table resource).toOption).map
    Table.dateNames).getD []

/-- What becomes of an operation: its answer, and the database after it. -/
structure Outcome where
  operation : Operation
  answer : Answer
  database : Database

/-- The same operation with the same answer, but for dates, and with the same database after it. -/
structure Outcome.SameButDates (schema : Schema) (outcome outcome' : Outcome) : Prop where
  operation_eq : outcome.operation = outcome'.operation
  answers : outcome.answer.SameButDates (schema.datesRead outcome.operation) outcome'.answer
  database_eq : outcome.database = outcome'.database

namespace Catalog

/-- The answer of an operation. -/
def answer (catalog : Catalog) (db : Database) : Step → Answer
  | (_, .createTables) => .none
  | (_, .failNext _ _) => .none
  | (now, .insert resource docs) => .inserted (catalog.insert resource now docs db).1
  | (now, .update resource id doc) => .changed (catalog.update resource now id doc db).1
  | (now, .replace resource id doc) => .changed (catalog.replace resource now id doc db).1
  | (now, .remove resource lookup) => .removed (catalog.remove resource now lookup db).1
  | (_, .find resource request lookup) => .page (catalog.find resource request lookup db).1
  | (_, .findFirst resource request lookup) =>
    .record (catalog.findFirst resource request lookup db).1
  | (_, .findStored resource id) => .record (catalog.findStored resource id db).1
  | (_, .findByKeys resource ids projection) =>
    .records (catalog.findByKeys resource ids projection db).1
  | (_, .isEmpty resource) => .whether (catalog.isEmpty resource db).1
  | (_, .aggregate) => .records (catalog.aggregate db).1

/-- What becomes of operations on a database, one after the other. -/
def outcomes (catalog : Catalog) (db : Database) : List Step → List Outcome
  | [] => []
  | step :: rest =>
    ⟨step.2, catalog.answer db step, catalog.perform db step⟩
      :: catalog.outcomes (catalog.perform db step) rest

/-- No read of a run from the empty database fails at a date. -/
def FormatsDates (catalog : Catalog) (steps : List Step) : Prop :=
  ∀ outcome ∈ catalog.outcomes {} steps, outcome.answer.failsToFormat = false

instance (catalog : Catalog) (steps : List Step) : Decidable (catalog.FormatsDates steps) :=
  inferInstanceAs (Decidable (∀ outcome ∈ catalog.outcomes {} steps, _))

/-- The catalog with another format of dates. -/
def showing (catalog : Catalog) (format : Option String) : Catalog :=
  { catalog with settings := catalog.settings.showing format }

theorem ofDomain_showing {settings : Settings} {domain : Domain} {catalog : Catalog}
    (h : ofDomain settings domain = .ok catalog) (format : Option String) :
    ofDomain (settings.showing format) domain = .ok (catalog.showing format) := by
  obtain ⟨schema, hschema, rfl⟩ := map_eq_ok_iff.1 h
  exact map_eq_ok_iff.2 ⟨schema, hschema, rfl⟩

variable {catalog : Catalog} {resource : String} {plan : Plan} {db : Database}

/-- A transaction on the same preparation, with steps that differ in dates. -/
theorem transactWith_of_sameUpTo {α β : Type} {R : α → α → Prop} {prepared : Except Error β}
    {steps steps' : β → Action α} (h : ∀ b, prepared = .ok b → SameUpTo R (steps b) (steps' b))
    (hok : RecordStore.failsToFormat (transactWith db prepared steps).1 = false)
    (hok' : RecordStore.failsToFormat (transactWith db prepared steps').1 = false) :
    AlikeBy R (transactWith db prepared steps).1 (transactWith db prepared steps').1 ∧
      (transactWith db prepared steps).2 = (transactWith db prepared steps').2 := by
  cases prepared with
  | error e => exact ⟨.failed e, rfl⟩
  | ok b => exact Database.transact_of_sameUpTo (h b rfl) db hok hok'

/-- The dates in what is read are those of the table of the plan. -/
theorem datesRead_eq {op : Operation} {table : Table} (hop : op.readResource? = some resource)
    (htable : catalog.schema.table resource = .ok table) :
    catalog.schema.datesRead op = table.dateNames := by
  simp [Schema.datesRead, hop, htable, Except.toOption]

theorem table_of_plan {request : Request} {lookup : Filter}
    (h : catalog.plan resource request lookup = .ok plan) :
    catalog.schema.table resource = .ok plan.table := by
  obtain ⟨table, htable, hplan⟩ := bind_eq_ok_iff.1 h
  rw [(Plan.facts_of_ofRequestAndLookup hplan).1]
  exact htable

theorem table_of_rawPlan {id : Value} (h : catalog.rawPlan resource id = .ok plan) :
    catalog.schema.table resource = .ok plan.table := by
  obtain ⟨table, htable, h⟩ := bind_eq_ok_iff.1 h
  obtain ⟨p, -, h⟩ := bind_eq_ok_iff.1 h
  cases h
  exact htable

theorem table_of_listPlan {ids : List Value} {projection : Option Projection}
    (h : catalog.listPlan resource ids projection = .ok plan) :
    catalog.schema.table resource = .ok plan.table := by
  obtain ⟨table, htable, h⟩ := bind_eq_ok_iff.1 h
  obtain ⟨p, -, h⟩ := bind_eq_ok_iff.1 h
  obtain ⟨lists, -, h⟩ := bind_eq_ok_iff.1 h
  obtain ⟨order, -, h⟩ := bind_eq_ok_iff.1 h
  cases h
  exact htable

theorem schema_showing (catalog : Catalog) (format : Option String) :
    (catalog.showing format).schema = catalog.schema := rfl

theorem insertAll_showing (format : Option String) (table : Table) (now : Time.Instant)
    (docs : List Record) (db : Database) :
    (catalog.showing format).insertAll table now docs db = catalog.insertAll table now docs db := by
  induction docs generalizing db with
  | nil => rfl
  | cons doc docs ih => simp only [insertAll, schema_showing, ih]

theorem insert_showing (catalog : Catalog) (format : Option String) (resource : String)
    (now : Time.Instant) (docs : List Record) (db : Database) :
    (catalog.showing format).insert resource now docs db = catalog.insert resource now docs db := by
  simp only [insert, schema_showing, insertAll_showing]

/-- One operation under two formats. -/
theorem sameButDates_step (catalog : Catalog) (format : Option String) (db : Database) (step : Step)
    (hok : (catalog.answer db step).failsToFormat = false)
    (hok' : ((catalog.showing format).answer db step).failsToFormat = false) :
    (catalog.answer db step).SameButDates (catalog.schema.datesRead step.2)
      ((catalog.showing format).answer db step) ∧
      catalog.perform db step = (catalog.showing format).perform db step := by
  obtain ⟨now, op⟩ := step
  cases op with
  | insert resource docs =>
    show Answer.inserted (catalog.insert resource now docs db).1
        = .inserted ((catalog.showing format).insert resource now docs db).1 ∧
      (catalog.insert resource now docs db).2
        = ((catalog.showing format).insert resource now docs db).2
    rw [insert_showing]
    exact ⟨rfl, rfl⟩
  | find resource request lookup =>
    refine transactWith_of_sameUpTo (fun plan hplan => ?_) hok hok'
    rw [datesRead_eq rfl (table_of_plan hplan)]
    exact Fetch.sameUpTo_page _ _ format plan
  | findFirst resource request lookup =>
    refine transactWith_of_sameUpTo (fun plan hplan => ?_) hok hok'
    rw [datesRead_eq rfl (table_of_plan hplan)]
    exact Fetch.sameUpTo_first? _ _ format plan
  | findStored resource id =>
    refine transactWith_of_sameUpTo (fun plan hplan => ?_) hok hok'
    rw [datesRead_eq rfl (table_of_rawPlan hplan)]
    exact Fetch.sameUpTo_first? _ _ format plan
  | findByKeys resource ids projection =>
    refine transactWith_of_sameUpTo (fun plan hplan => ?_) hok hok'
    rw [datesRead_eq rfl (table_of_listPlan hplan)]
    exact Fetch.sameUpTo_records _ _ format plan
  | aggregate => exact ⟨.failed _, rfl⟩
  | _ => exact ⟨rfl, rfl⟩

/-- Operations on one database under two formats. -/
theorem sameButDates_outcomes (format : Option String) (steps : List Step) (db : Database)
    (hok : ∀ outcome ∈ catalog.outcomes db steps, outcome.answer.failsToFormat = false)
    (hok' : ∀ outcome ∈ (catalog.showing format).outcomes db steps,
      outcome.answer.failsToFormat = false) :
    List.Forall₂ (Outcome.SameButDates catalog.schema) (catalog.outcomes db steps)
      ((catalog.showing format).outcomes db steps) := by
  induction steps generalizing db with
  | nil => exact .nil
  | cons step rest ih =>
    rw [outcomes, List.forall_mem_cons] at hok hok'
    obtain ⟨hanswer, hdb⟩ := sameButDates_step catalog format db step hok.1 hok'.1
    refine .cons ⟨rfl, hanswer, hdb⟩ ?_
    -- the next operation meets the same database
    rw [← hdb] at hok' ⊢
    exact ih (catalog.perform db step) hok.2 hok'.2

/-- **The format of dates is for show.** A domain that compiles under one format compiles under
every other one. When no read fails at a date under either, a run answers alike under both, but for
the texts of dates in the records that are read, and each operation leaves the same database. -/
theorem dates_only_shown {settings : Settings} {domain : Domain} {catalog : Catalog}
    (hcompiles : ofDomain settings domain = .ok catalog) (format : Option String) :
    ∃ other, ofDomain { settings with dateFormat := format } domain = .ok other ∧
      ∀ steps, catalog.FormatsDates steps → other.FormatsDates steps →
        List.Forall₂ (Outcome.SameButDates catalog.schema)
          (catalog.outcomes {} steps) (other.outcomes {} steps) :=
  ⟨catalog.showing format, ofDomain_showing hcompiles format, fun steps hok hok' =>
    sameButDates_outcomes format steps {} hok hok'⟩

/-! ### A sample -/

/-- People have a birthday. -/
def birthdayDomain : Domain :=
  .ofList [("person", { fields := .ofList [("born", { typeName := "datetime" })] })]

def birthdayCatalog : Catalog := .compiled {} birthdayDomain

theorem ofDomain_birthday : ofDomain {} birthdayDomain = .ok birthdayCatalog :=
  Catalog.ofDomain_compiled rfl

/-- A person is inserted, read, replaced without the date and read again. -/
def birthdaySteps : List Step := [
  (⟨0, 0⟩, .createTables),
  (⟨1, 0⟩, .insert "person" [.ofList [("born", .string "1912-06-23T00:00:00Z")]]),
  (⟨2, 0⟩, .find "person" {} []),
  (⟨3, 0⟩, .replace "person" (.int 1) {}),
  (⟨4, 0⟩, .findStored "person" (.int 1))]

/-- The texts that the first record of the pages of a run has for a field. -/
def shownTexts (outcomes : List Outcome) (name : String) : List Value :=
  outcomes.filterMap fun outcome => match outcome.answer with
    | .page (.ok page) => page.records.head?.map (·.cell name)
    | _ => none

/-- The birthday is shown in full or by its year, and the runs are otherwise the same. -/
theorem birthday_only_shown :
    ∃ other, ofDomain { dateFormat := some "%Y" } birthdayDomain = .ok other ∧
      shownTexts (birthdayCatalog.outcomes {} birthdaySteps) "born"
        = [.string "1912-06-23T00:00:00Z"] ∧
      shownTexts (other.outcomes {} birthdaySteps) "born" = [.string "1912"] ∧
      List.Forall₂ (Outcome.SameButDates birthdayCatalog.schema)
        (birthdayCatalog.outcomes {} birthdaySteps)
        (other.outcomes {} birthdaySteps) := by
  obtain ⟨other, hother, hsame⟩ := dates_only_shown ofDomain_birthday (some "%Y")
  obtain rfl : birthdayCatalog.showing (some "%Y") = other :=
    Except.ok.inj ((ofDomain_showing ofDomain_birthday _).symm.trans hother)
  exact ⟨_, hother, by decide +kernel, by decide +kernel,
    hsame _ (by decide +kernel) (by decide +kernel)⟩

end Catalog

end RecordStore
