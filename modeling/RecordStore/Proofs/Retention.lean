import RecordStore.Proofs.RoundTrip

/-!
# Rows of soft-deleted resources

A resource with a flag for deleted rows keeps every row that it ever had. Its rows go by no
operation: a removal raises the flag, through whichever resource of the table it is asked, and rows
that go with a removal elsewhere are links. What may change is the spelling of a key, which stays
equal to itself; where equality is transitive, the row is found under the key of before as long as
the catalog is used.

* **`Moves.keeps_flagged_keys`** — no chain of moves loses a key of a table with a flag.
* **`Catalog.flagged_rows_stay`** — a row that is committed stays and is read under its key.
* **`Catalog.unwritable_dates_are_not_read`** — unless its dates cannot be written.
-/

namespace RecordStore

section Moves

variable {schema : Schema} {times : Time.Instant → Prop} {drops : Prop}
  {s s' : Store} {base : Table}

/-- Rows are dropped from tables without a flag only. -/
theorem Move.keeps_flagged_keys (hwf : schema.WellFormed) (hmove : Move schema times drops s s')
    (hbase : base ∈ schema.bases) (hflag : base.deletedColumn.isSome = true) {row : Record}
    (hrow : row ∈ s.rows base.name) : ∃ row' ∈ s'.rows base.name, base.KeepsKey row row' := by
  rcases hmove.drop_or with hmove | ⟨table, htable, hnone, t, goes, hstored, rfl, -⟩
  · exact hmove.keeps_keys hwf base hbase row hrow
  · have hname : base.name ≠ table.name := by
      intro hname
      obtain rfl := hwf.eq_of_name (Schema.mem_physical_of_base hbase)
        (Schema.mem_physical_of_base htable) hname
      rw [hnone] at hflag
      cases hflag
    refine ⟨row, ?_, .inl rfl⟩
    rw [Store.rows_put, if_neg hname]
    exact hrow

/-- **No key of a table with a flag is lost** by a chain of moves: there is a row with an equal
one. -/
theorem Moves.keeps_flagged_keys (hwf : schema.WellFormed) (hsound : s.Sound schema times)
    (hmoves : Moves schema times drops s s') (hbase : base ∈ schema.bases)
    (hflag : base.deletedColumn.isSome = true) {k : Column} (hk : base.keyColumn? = some k)
    (htype : k.type ≠ .float) {row : Record} (hrow : row ∈ s.rows base.name) :
    ∃ row' ∈ s'.rows base.name,
      k.type.equal (row.cell base.primaryKey) (row'.cell base.primaryKey) = true := by
  have hkname := (Table.mem_of_column? hk).2
  have haccepted {s : Store} (hsound : s.Sound schema times) {row : Record}
      (hrow : row ∈ s.rows base.name) :
      k.type.accepts (row.cell base.primaryKey) = true
        ∧ (row.cell base.primaryKey).isNull = false := by
    rw [← hkname]
    exact (hsound.key_of_row hwf hbase hk hrow).2
  obtain ⟨haccepts, hnull⟩ := haccepted hsound hrow
  -- on the chain; the key of each move's row equals the one before it, and so the first
  induction hmoves with
  | refl => exact ⟨row, hrow, ColumnType.equal_self haccepts hnull⟩
  | @tail mid last hfirst hmove ih =>
    have hsoundmid := hsound.moves hwf hfirst
    obtain ⟨row', hrow', hequal⟩ := ih
    obtain ⟨row'', hrow'', hkeeps⟩ := hmove.keeps_flagged_keys hwf hbase hflag hrow'
    refine ⟨row'', hrow'', ?_⟩
    rcases hkeeps with hsame | ⟨k', hk', hequal'⟩
    · rw [hsame]
      exact hequal
    · obtain rfl : k' = k := Option.some.inj (hk'.symm.trans hk)
      obtain ⟨haccepts', hnull'⟩ := haccepted hsoundmid hrow'
      obtain ⟨haccepts'', hnull''⟩ := haccepted (hsoundmid.move hwf hmove) hrow''
      exact ColumnType.equal_trans htype haccepts haccepts'
        haccepts'' hnull hnull' hnull'' hequal hequal'

end Moves

namespace Catalog

variable {settings : Settings} {domain : Domain} {catalog : Catalog}
  {resource : String} {table : Table}
  {k : Column}

/-- **A row of a soft-deleted resource stays.** Once it is committed, there is a row with an equal
key after all that is asked of the catalog later, and whoever looks for the key, by any resource of
the table, reads this row; only dates that cannot be written in the format of the settings prevent
it. -/
theorem flagged_rows_stay (hcompiles : Catalog.ofDomain settings domain = .ok catalog)
    (hnames : settings.NamesApart) (htable : catalog.schema.table resource = .ok table)
    (hflag : table.deletedColumn.isSome = true) (hk : table.keyColumn? = some k)
    (htype : k.type ≠ .float) (steps rest : List Step) {row : Record}
    (hrow : row ∈ (catalog.run steps).store.rows table.name) :
    ∃ later ∈ (catalog.run (steps ++ rest)).store.rows table.name,
      k.type.equal (row.cell table.primaryKey) (later.cell table.primaryKey) = true
      ∧ ∃ r, catalog.Reads table (catalog.run (steps ++ rest)).store later r
        ∧ catalog.findStored resource (row.cell table.primaryKey) (catalog.run (steps ++ rest))
          = ((Fetch.presented settings table r).map some, catalog.run (steps ++ rest))
        ∧ (settings.WritesDates → ∃ shown, Fetch.presented settings table r = .ok shown) := by
  have hco := coherent_of_ofDomain hcompiles
  have hwf := wellFormed_of_ofDomain hcompiles hnames
  obtain ⟨base, hbase, hshares⟩ := hco.shared table (Schema.mem_of_table htable).1
  have hbasewf := hwf.tables base (Schema.mem_physical_of_base hbase)
  have hsound := sound_run_anytime hwf steps
  rw [hshares.name] at hrow ⊢
  rw [hshares.primaryKey]
  rw [hshares.deletedColumn] at hflag
  rw [hshares.keyColumn?] at hk
  -- the later operations are a chain of moves from the store with the row
  have hmoves : Moves catalog.schema (fun _ => True) True (catalog.run steps).store
      (catalog.run (steps ++ rest)).store := by
    show Moves _ _ _ _ (List.foldl catalog.perform {} (steps ++ rest)).store
    rw [List.foldl_append]
    exact moves_of_steps hwf hsound fun _ _ => trivial
  obtain ⟨later, hlater, hequal⟩ :=
    hmoves.keeps_flagged_keys hwf hsound hbase hflag hk htype hrow
  refine ⟨later, hlater, hequal, ?_⟩
  have hkname := (Table.mem_of_column? hk).2
  obtain ⟨haccepts, hnull⟩ := (hsound.key_of_row hwf hbase hk hrow).2
  rw [hkname] at haccepts hnull
  obtain ⟨t, ht, hmem⟩ := Store.get?_of_mem_rows hlater
  have hmatching :=
    (hsound.moves hwf hmoves base (Schema.mem_physical_of_base hbase) t ht).matching_of_equal
    hbasewf hk htype hmem haccepts hnull hequal
  obtain ⟨r, hreads, hfound⟩ := findStored_of_row hco (regular_run hco _) htable hbase hshares hk ht
    hmatching (ColumnType.interpret_of_accepts haccepts) haccepts
  rw [settings_of_ofDomain hcompiles] at hfound
  exact ⟨r, hreads.of_shares hshares, hfound, fun hdates => Fetch.presented_ok hdates table r⟩

/-! ### A sample -/

/-- Events are known by their times and only flagged as deleted; the archive shows those that
are. -/
def diaryDomain : Domain := .ofList [
  ("event", {
    fields := .ofList [
      ("at", { typeName := "datetime", primaryKey := true }),
      ("title", { typeName := "string" })]
    softDelete := true }),
  ("archive", { datasource := some {
    source := some "event", filter := some (.ofList [("_deleted", .bool true)]) } })]

def diaryCatalog : Catalog := .compiled {} diaryDomain

theorem ofDomain_diary : Catalog.ofDomain {} diaryDomain = .ok diaryCatalog :=
  Catalog.ofDomain_compiled rfl

def newYear : Value := .string "2024-01-01T00:00:00Z"

/-- The same time in another place. -/
def newYearInParis : Value := .string "2024-01-01T01:00:00+01:00"

/-- An event is written down. -/
def diarySteps : List Step := [
  (⟨0, 0⟩, .createTables),
  (⟨1, 0⟩, .insert "event" [.ofList [("at", newYear), ("title", .string "fireworks")]])]

/-- The event is deleted, and again from the archive; it is written down anew under another spelling
of its time, and deleted by a lookup for events that are not. -/
def diaryChanges : List Step := [
  (⟨2, 0⟩, .remove "event" []),
  (⟨3, 0⟩, .remove "archive" []),
  (⟨4, 0⟩, .replace "event" newYearInParis (.ofList [("at", newYearInParis)])),
  (⟨5, 0⟩, .remove "event" [⟨"_deleted", .eq, .bool false⟩])]

/-- The event stays through all this, and is read from the archive under its first spelling. -/
theorem event_of_diary_stays :
    ∃ later ∈ (diaryCatalog.run (diarySteps ++ diaryChanges)).store.rows "event",
      later.cell "at" = newYearInParis ∧ later.cell "_deleted" = .bool true
      ∧ ∃ shown, diaryCatalog.findStored "archive" newYear
          (diaryCatalog.run (diarySteps ++ diaryChanges))
        = (.ok (some shown), diaryCatalog.run (diarySteps ++ diaryChanges)) := by
  have hparts : (diaryCatalog.schema.table "archive").toOption.map (fun table =>
      (table.name, table.primaryKey, table.deletedColumn.isSome, table.keyColumn?.map Column.type))
      = some ("event", "at", true, some .datetime) := by
    decide +kernel
  obtain ⟨table, htable, hparts⟩ := Option.map_eq_some_iff.1 hparts
  have htable := eq_ok_of_toOption htable
  obtain ⟨hname, hkey, hflag, htype⟩ : table.name = "event" ∧ table.primaryKey = "at"
      ∧ table.deletedColumn.isSome = true ∧ table.keyColumn?.map Column.type = some .datetime := by
    simpa using hparts
  obtain ⟨k, hk, htype⟩ := Option.map_eq_some_iff.1 htype
  have hrow : ∃ row ∈ (diaryCatalog.run diarySteps).store.rows "event",
    row.cell "at" = newYear := by
    decide +kernel
  obtain ⟨row, hrow, hcell⟩ := hrow
  obtain ⟨later, hlater, -, r, -, hfound, hshown⟩ :=
    flagged_rows_stay ofDomain_diary (by decide) htable hflag hk (by rw [htype]; decide) diarySteps
      diaryChanges (hname ▸ hrow)
  obtain ⟨shown, hshown⟩ := hshown (by decide)
  rw [hname] at hlater
  rw [hkey, hcell, hshown] at hfound
  have hchanged : ∀ later ∈ (diaryCatalog.run (diarySteps ++ diaryChanges)).store.rows "event",
      later.cell "at" = newYearInParis ∧ later.cell "_deleted" = .bool true := by
    decide +kernel
  obtain ⟨hat, hdeleted⟩ := hchanged later hlater
  exact ⟨later, hlater, hat, hdeleted, shown, hfound⟩

/-- The event is committed, but its dates cannot be written. -/
theorem unwritable_dates_are_not_read :
    Catalog.ofDomain unwritableSettings diaryDomain
      = .ok { diaryCatalog with settings := unwritableSettings }
      ∧ unwritableSettings.NamesApart ∧ ∃ table ∈ diaryCatalog.schema.bases, table.name = "event"
        ∧ table.deletedColumn.isSome = true ∧ (∃ k ∈ table.keyColumn?, k.type ≠ .float)
        ∧ ∃ row ∈
          ({ diaryCatalog with settings := unwritableSettings }.run diarySteps).store.rows "event",
          ({ diaryCatalog with settings := unwritableSettings }.findStored "event"
            (row.cell table.primaryKey)
            ({ diaryCatalog with settings := unwritableSettings }.run diarySteps)).1.toOption
              = none := by
  refine ⟨rfl, by decide, ?_⟩
  decide +kernel

end Catalog

end RecordStore
