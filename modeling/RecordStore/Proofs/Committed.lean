import RecordStore.Proofs.Clock
import RecordStore.Proofs.CompiledSchema
import RecordStore.Proofs.Run

/-!
# Committed rows

What holds of the rows of every table that a catalog creates, whatever was asked of it before: they
have the columns of the table, with values of their types, and no two of them share a key or a value
of a unique column.

* **`committed_rows`** — the rows after any run.
* **`nulls_and_late_stamps`** — nulls of a unique column may equal each other, and a stamp may come
  from a clock that is past the year 9999.
-/

namespace RecordStore

namespace Catalog

variable {settings : Settings} {domain : Domain} {catalog : Catalog}

/-- **The rows of a table after any run** have the columns of the table; their cells are of the
types of the columns, unless a stamp was taken from a clock out of range; null stands only where it
may; and no two rows have equal values in the key or in a unique column. -/
theorem committed_rows (hcompiles : Catalog.ofDomain settings domain = .ok catalog)
    (hnames : settings.NamesApart) (steps : List Step) (table : Table)
    (htable : table ∈ catalog.schema.physical) :
    (∀ row ∈ (catalog.run steps).store.rows table.name, row.keys = table.columnNames)
      ∧ (∀ row ∈ (catalog.run steps).store.rows table.name, ∀ c ∈ table.columns,
        c.type.accepts (row.cell c.name) = true
          ∨ c.defaultNow = true ∧ ∃ step ∈ steps, ¬ step.1.IsRegular
            ∧ row.cell c.name = .string step.1.text)
      ∧ (∀ row ∈ (catalog.run steps).store.rows table.name, ∀ c ∈ table.columns,
        (row.cell c.name).isNull = true → c.nullable = true ∧ c.primaryKey = false)
      ∧ ∀ c ∈ table.columns, c.unique = true ∨ c.primaryKey = true →
        ((catalog.run steps).store.rows table.name).Pairwise fun a b =>
          (a.cell c.name).isNull = false → (b.cell c.name).isNull = false →
            c.type.equal (a.cell c.name) (b.cell c.name) = false := by
  have hwf := wellFormed_of_ofDomain hcompiles hnames
  -- the times of the run are those of its steps, so a stamp can be traced to one
  have hsound : (catalog.run steps).store.Sound catalog.schema fun now =>
    ∃ step ∈ steps, step.1 = now :=
    sound_run hwf fun step hstep => ⟨step, hstep, rfl⟩
  cases hstored : (catalog.run steps).store.tables.get? table.name with
  -- a table that is not created yet has no rows
  | none => simp [Store.rows, hstored]
  | some t =>
    have ht := hsound table htable t hstored
    rw [Store.rows_of_get? hstored]
    refine ⟨ht.keys_eq, fun row hrow c hc => ?_, ht.filled, fun c hc hexclusive => ?_⟩
    · rcases ht.fits row hrow c hc with haccepts | ⟨hstamp, now, ⟨step, hstep, rfl⟩, hcell⟩
      · exact .inl haccepts
      -- a stamp is a date as long as the clock is regular
      · by_cases hregular : step.1.IsRegular
        · rw [(hwf.tables table htable).stamp_datetime c hc hstamp, hcell]
          exact .inl (ColumnType.accepts_clock hregular)
        · exact .inr ⟨hstamp, step, hstep, hregular, hcell⟩
    · have hapart := ht.apart c hc (Bool.or_eq_true _ _ ▸ hexclusive)
      exact hapart.imp fun hclash ha hb =>
        Bool.eq_false_iff.2 fun hequal => hclash ⟨ha, hb, hequal⟩

/-- The row of a person after a run of the sample. -/
theorem committed_row_of_person :
    ∃ table ∈ sampleCatalog.schema.physical, table.name = "person"
      ∧ ((sampleCatalog.run sampleSteps).store.rows table.name).length = 1
      ∧ ∀ row ∈ (sampleCatalog.run sampleSteps).store.rows table.name,
        row.keys = table.columnNames := by
  have hperson : ∃ table ∈ sampleCatalog.schema.physical, table.name = "person"
      ∧ ((sampleCatalog.run sampleSteps).store.rows table.name).length = 1 := by
    decide +kernel
  obtain ⟨table, htable, hname, hlength⟩ := hperson
  exact ⟨table, htable, hname, hlength,
    (committed_rows ofDomain_sample (by decide) sampleSteps table htable).1⟩

/-- Two people without a badge, of whom the second comes in the year 10000. -/
def lateSteps : List Step := [
  (⟨0, 0⟩, .createTables),
  (⟨1, 0⟩, .insert "person" [{}]),
  (⟨253402300800, 0⟩, .insert "person" [{}])]

/-- Two rows may have nulls in a unique column that equal each other, and a stamp of the year 10000
is no date. -/
theorem nulls_and_late_stamps :
    Catalog.ofDomain {} sampleDomain = .ok sampleCatalog ∧ Settings.NamesApart {}
      ∧ ∃ table ∈ sampleCatalog.schema.physical,
        (∃ c ∈ table.columns, c.unique = true
          ∧ ¬ ((sampleCatalog.run lateSteps).store.rows table.name).Pairwise fun a b =>
            c.type.equal (a.cell c.name) (b.cell c.name) = false)
        ∧ ∃ c ∈ table.columns, ∃ row ∈ (sampleCatalog.run lateSteps).store.rows table.name,
          (row.cell c.name).isNull = false ∧ c.type.accepts (row.cell c.name) = false := by
  refine ⟨ofDomain_sample, by decide, ?_⟩
  decide +kernel

end Catalog

end RecordStore
