import Mathlib.Data.List.Induction
import RecordStore.Proofs.Atomicity
import RecordStore.Proofs.CompiledSchema
import RecordStore.Proofs.Pointing
import RecordStore.Proofs.Run

/-!
# References

A reference is checked when its row is written, and not when the row goes that it points at. So a
store keeps its references through every operation but one: the removal of rows that are pointed at
by rows that stay, and by no other means.

* **`Store.KeepsReferences`** — every reference of a row of a resource is to a row that exists.
* **`Catalog.Orphans`** — a removal succeeds and leaves a row that points at nothing but removed
  rows.
* **`Catalog.keepsReferences_perform_iff`** — an operation keeps the references if and only if it is
  no such removal.
* **`Catalog.references_kept_iff`** — and so does a run.
-/

namespace RecordStore

/-- Every cell of a resource that points at a row points at one that exists. -/
def Store.KeepsReferences (schema : Schema) (s : Store) : Prop :=
  ∀ base ∈ schema.bases, s.Intact base

/-- Cells of resources that point at numbers of the type of doubles are doubles. -/
def Store.PointsExactly (schema : Schema) (s : Store) : Prop :=
  ∀ base ∈ schema.bases, s.Exact base

section Moves

variable {schema : Schema} {times : Time.Instant → Prop} {drops : Prop} {s s' : Store}

theorem Store.PointsExactly.moves (hwf : schema.WellFormed) (hsound : s.Sound schema times)
    (hmoves : Moves schema times drops s s') (h : s.PointsExactly schema) :
    s'.PointsExactly schema := by
  induction hmoves with
  | refl => exact h
  | tail hmoves hmove ih =>
    exact fun base hbase => (ih base hbase).move hwf (hsound.moves hwf hmoves) hmove hbase

/-- References are kept as long as no rows of resources go. -/
theorem Store.KeepsReferences.moves (hwf : schema.WellFormed) (hsound : s.Sound schema times)
    (hexact : s.PointsExactly schema) (hmoves : Moves schema times False s s')
    (h : s.KeepsReferences schema) : s'.KeepsReferences schema := by
  induction hmoves with
  | refl => exact h
  | tail hmoves hmove ih =>
    intro base hbase
    -- the cells that stay have to be doubles after the move as well
    have hexact' := hexact.moves hwf hsound (hmoves.tail hmove)
    exact (ih base hbase).move hwf (hsound.moves hwf hmoves)
      hmove (Schema.mem_physical_of_base hbase)
      (hexact' base hbase)

end Moves

namespace Catalog

/-- A removal of rows, and not only of their visibility, that succeeds and leaves a row whose
reference is to removed rows only. -/
def Orphans (catalog : Catalog) (db : Database) (step : Step) : Prop :=
  ∃ resource lookup table p n, step.2 = .remove resource lookup
    ∧ catalog.schema.table resource = .ok table ∧ table.deletedColumn = none
    ∧ Predicate.ofFilter table lookup .lookup false = .ok p
    ∧ (catalog.remove resource step.1 lookup db).1 = .ok n
    ∧ ∃ base ∈ catalog.schema.bases, ∃ row ∈ db.store.rows base.name,
      (base.name = table.name → p.holds table.columns row = false)
        ∧ ∃ c ∈ base.columns, ∃ key, c.references = some key ∧ key.table = table.name
          ∧ (row.cell c.name).isNull = false
          ∧ ∀ target ∈ db.store.rows table.name,
            c.isHeldBy key.column (row.cell c.name) target = true
              → p.holds table.columns target = true

variable {catalog : Catalog} {times : Time.Instant → Prop} {db : Database} {now : Time.Instant}

/-- The rows of resources after a removal that succeeds: those that were not selected. -/
theorem rows_of_remove (hwf : catalog.schema.WellFormed)
    (hsound : db.store.Sound catalog.schema times) {resource : String} {table : Table}
    (htable : catalog.schema.table resource = .ok table) (hflag : table.deletedColumn = none)
    {lookup : Filter} {n : Nat} (hok : (catalog.remove resource now lookup db).1 = .ok n) :
    ∃ p, Predicate.ofFilter table lookup .lookup false = .ok p
      ∧ ∀ base ∈ catalog.schema.bases, ∀ row,
        row ∈ (catalog.remove resource now lookup db).2.store.rows base.name
          ↔ row ∈ db.store.rows base.name
            ∧ (base.name = table.name → p.holds table.columns row = false) := by
  obtain ⟨own, hown, hshares⟩ := base_of_table hwf htable
  rw [remove, htable] at hok ⊢
  obtain ⟨tx, hyields, hdb⟩ := Database.transact_ok hok
  obtain ⟨p, hp, ⟨deleted, hdeleted, -⟩ | ⟨-, hremoved⟩⟩ := Change.yields_remove.1 hyields
  -- a table without a flag is not flagged
  · rw [hflag] at hdeleted
    cases hdeleted
  · obtain ⟨k, hk, -⟩ := (hwf.tables own (Schema.mem_physical_of_base hown)).key
    have hapart : ∀ link ∈ catalog.schema.links, link.name ≠ table.name := fun link hlink =>
      hshares.name ▸ (hwf.bases_links_disjoint own hown link hlink).symm
    have hkeys := Change.keysApart_of_sound hwf hsound hown hshares (hshares.keyColumn?.trans hk)
    obtain ⟨t, ht, -, hrows, hothers⟩ := Change.tables_of_removeRows hsound.hasColumns hapart
      (hshares.keyColumn?.trans hk) hkeys hremoved
    refine ⟨p, hp, fun base hbase row => ?_⟩
    show row ∈ (db.transact _).2.store.rows base.name ↔ _
    rw [hdb]
    show row ∈ tx.work.rows base.name ↔ row ∈ (Transaction.begin db).work.rows base.name ∧ _
    -- the table itself loses the rows, the others at most links
    by_cases hname : base.name = table.name
    · rw [hname, Store.rows_of_get? hrows, Store.rows_of_get? ht, (hkeys t ht).1]
      simp [StoredTable.without]
    · have hnolinks : ∀ link ∈ catalog.schema.links, link.name ≠ base.name := fun link hlink =>
        (hwf.bases_links_disjoint base hbase link hlink).symm
      have hsame : tx.work.tables.get? base.name
        = (Transaction.begin db).work.tables.get? base.name := by
        rw [hothers _ hname]
        cases (Transaction.begin db).work.tables.get? base.name with
        | none => rfl
        | some u => exact congrArg some (StoredTable.without_eq_self fun row _ =>
            Change.linksToKeys_of_ne _ _ hnolinks row)
      rw [Store.rows, hsame, ← Store.rows]
      simp [hname]

/-- A removal that succeeds and orphans no reference keeps the references. -/
theorem keepsReferences_of_not_orphans (hwf : catalog.schema.WellFormed)
    (hsound : db.store.Sound catalog.schema times) (h : db.store.KeepsReferences catalog.schema)
    {resource : String} {table : Table} (htable : catalog.schema.table resource = .ok table)
    (hflag : table.deletedColumn = none) {lookup : Filter} {n : Nat}
    (hok : (catalog.remove resource now lookup db).1 = .ok n)
    (hnot : ¬ catalog.Orphans db (now, .remove resource lookup)) :
    (catalog.remove resource now lookup db).2.store.KeepsReferences catalog.schema := by
  obtain ⟨p, hp, hrows⟩ := rows_of_remove hwf hsound htable hflag hok
  intro base hbase row hrow c hc key hkey hnull
  obtain ⟨hmem, hstays⟩ := (hrows base hbase row).1 hrow
  obtain ⟨-, -, own, hown, k, rfl, -⟩ :=
    hwf.references base (Schema.mem_physical_of_base hbase) c hc key hkey
  obtain ⟨target, htarget, hheld⟩ := h base hbase row hmem c hc _ hkey hnull
  by_cases hname : own.name = table.name
  · -- some row that is pointed at stays, or the row would be orphaned
    by_contra hnone
    refine hnot ⟨resource, lookup, table, p, n, rfl, htable, hflag, hp, hok, base, hbase, row, hmem,
      hstays, c, hc, _, hkey, hname, hnull, fun target htarget hheld => ?_⟩
    by_contra hselected
    refine hnone ⟨target, (hrows own hown target).2 ⟨hname ▸ htarget, fun _ => ?_⟩, hheld⟩
    exact Bool.eq_false_iff.2 hselected
  · exact ⟨target, (hrows own hown target).2 ⟨htarget, fun heq => absurd heq hname⟩, hheld⟩

/-- A removal that orphans a reference does not keep it. -/
theorem Orphans.not_keepsReferences (hwf : catalog.schema.WellFormed)
    (hsound : db.store.Sound catalog.schema times) {step : Step} (h : catalog.Orphans db step) :
    ¬ (catalog.perform db step).store.KeepsReferences catalog.schema := by
  obtain ⟨now, op⟩ := step
  obtain ⟨resource, lookup, table, p, n, rfl, htable, hflag, hp, hok, base, hbase, row,
    hmem, hstays, c,
    hc, key, hkey, hname, hnull, honly⟩ := h
  obtain ⟨p', hp', hrows⟩ := rows_of_remove hwf hsound htable hflag hok
  obtain rfl : p' = p := Except.ok.inj (hp'.symm.trans hp)
  intro hkept
  obtain ⟨-, -, own, hown, k, rfl, -⟩ :=
    hwf.references base (Schema.mem_physical_of_base hbase) c hc key hkey
  obtain ⟨target, htarget, hheld⟩ :=
    hkept base hbase row ((hrows base hbase row).2 ⟨hmem, hstays⟩) c hc _ hkey hnull
  -- a row that is pointed at was selected, and so it is not left
  obtain ⟨hold, hleft⟩ := (hrows own hown target).1 htarget
  have hselected := honly target (hname ▸ hold) hheld
  rw [hleft hname] at hselected
  cases hselected

/-- **An operation keeps the references if and only if it is no removal that orphans one.** -/
theorem keepsReferences_perform_iff (hwf : catalog.schema.WellFormed)
    (hsound : db.store.Sound catalog.schema times) (hexact : db.store.PointsExactly catalog.schema)
    (h : db.store.KeepsReferences catalog.schema) {step : Step} (hnow : times step.1) :
    (catalog.perform db step).store.KeepsReferences catalog.schema ↔ ¬ catalog.Orphans db step := by
  refine ⟨fun hkept horphans => horphans.not_keepsReferences hwf hsound hkept, fun hnot => ?_⟩
  by_cases hdrops : catalog.Drops step.2
  -- an operation that drops rows is a removal, which fails or succeeds as a whole
  · obtain ⟨now, op⟩ := step
    obtain ⟨resource, lookup, table, rfl, htable, hflag⟩ := hdrops
    rw [perform]
    cases hok : (catalog.remove resource now lookup db).1 with
    | ok n => exact keepsReferences_of_not_orphans hwf hsound h htable hflag hok hnot
    | error e =>
      have hstore : (catalog.remove resource now lookup db).2.store = db.store :=
        store_transactWith_error (fun _ => Change.keepsCommitted_remove lookup) hok
      rw [hstore]
      exact h
  -- any other operation is a chain of moves that drop nothing
  · have hmoves : Moves catalog.schema times False db.store (catalog.perform db step).store :=
      moves_of_perform hwf hsound hnow hdrops
    exact h.moves hwf hsound hexact hmoves

/-- A cell of a resource that points at numbers of the type of doubles is a double after any run. -/
theorem pointsExactly_run (hwf : catalog.schema.WellFormed) (steps : List Step) :
    (catalog.run steps).store.PointsExactly catalog.schema := by
  have hmoves : Moves catalog.schema (fun _ => True) True {} (catalog.run steps).store :=
    moves_run hwf fun _ _ => trivial
  refine Store.PointsExactly.moves hwf (Store.Sound.empty catalog.schema _) hmoves
    fun _ _ _ hrow => ?_
  cases hrow

/-- **References are kept throughout a run if and only if no removal of the run orphans one.** -/
theorem references_kept_iff {settings : Settings} {domain : Domain}
    (hcompiles : Catalog.ofDomain settings domain = .ok catalog) (hnames : settings.NamesApart)
    (steps : List Step) :
    (∀ done, done <+: steps → (catalog.run done).store.KeepsReferences catalog.schema)
      ↔ ∀ done step, done ++ [step] <+: steps → ¬ catalog.Orphans (catalog.run done) step := by
  have hwf := wellFormed_of_ofDomain hcompiles hnames
  constructor
  · intro hkept done step hprefix
    have hnext := hkept (done ++ [step]) hprefix
    rw [run_append] at hnext
    exact fun horphans => horphans.not_keepsReferences hwf (sound_run_anytime hwf done) hnext
  · intro hnone done hprefix
    -- on the run from its end, each prefix having kept the references before
    induction done using List.reverseRecOn with
    | nil => exact fun _ _ _ hrow => by cases hrow
    | append_singleton done step ih =>
      have hdone := ih ((List.prefix_append done [step]).trans hprefix)
      rw [run_append]
      exact (keepsReferences_perform_iff hwf (sound_run_anytime hwf done)
        (pointsExactly_run hwf done) hdone trivial).2 (hnone done step hprefix)

/-- The references of the sample are kept, since nothing is removed. -/
theorem references_of_sample_kept :
    (sampleCatalog.run sampleSteps).store.KeepsReferences sampleCatalog.schema := by
  refine (references_kept_iff ofDomain_sample (by decide) sampleSteps).2
    (fun done step hprefix => ?_)
    sampleSteps List.prefix_rfl
  rintro ⟨resource, lookup, -, -, -, hop, -⟩
  have hmem : step ∈ sampleSteps :=
    hprefix.subset (List.mem_append_right done (List.mem_singleton_self _))
  rcases by simpa [sampleSteps] using hmem with hstep | hstep | hstep
  all_goals
    rw [hstep] at hop
    cases hop

/-- A team, and then the removal of the person who leads it. -/
def orphaningSteps : List Step := sampleSteps ++ [(⟨3, 0⟩, .remove "person" [])]

/-- The person who leads a team is removed all the same, and the team points at nothing. -/
theorem leader_is_removed :
    Catalog.ofDomain {} sampleDomain = .ok sampleCatalog ∧ Settings.NamesApart {}
      ∧ (sampleCatalog.remove "person" ⟨3, 0⟩ [] (sampleCatalog.run sampleSteps)).1.toOption
        = some 1
      ∧ ¬ (sampleCatalog.run orphaningSteps).store.KeepsReferences sampleCatalog.schema := by
  refine ⟨ofDomain_sample, by decide, by decide +kernel, fun hkept => ?_⟩
  -- a reference that is not null, to a table without rows
  have hlost : ∃ base ∈ sampleCatalog.schema.bases,
      ∃ row ∈ (sampleCatalog.run orphaningSteps).store.rows base.name, ∃ c ∈ base.columns,
        ∃ key ∈ c.references, (row.cell c.name).isNull = false
          ∧ (sampleCatalog.run orphaningSteps).store.rows key.table = [] := by
    decide +kernel
  obtain ⟨base, hbase, row, hrow, c, hc, key, hkey, hnull, hnone⟩ := hlost
  obtain ⟨target, htarget, -⟩ := hkept base hbase row hrow c hc key hkey hnull
  rw [hnone] at htarget
  cases htarget

end Catalog

end RecordStore
