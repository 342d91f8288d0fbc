import RecordStore.Proofs.Finding
import RecordStore.Proofs.Keys

/-!
# What a removal removes

A removal concerns the rows that its lookup finds, and their number is its result. Where the table
has a flag for deleted rows they are flagged; else they go, and with them the links that have one of
their keys. Nothing else changes. Rows that were removed are not found again, unless the flag is
what is looked for, so the same removal asked again finds nothing to do.

* **`Store.FlagsFound`**, **`Store.DropsFound`** — the two kinds of removal.
* **`Catalog.removed_rows`** — a removal that succeeds is one of them.
* **`Catalog.stamped_flag_is_not_raised`** — a flag that is also a stamp is written over by the
  time.
-/

namespace RecordStore

open RecordStore.Action

/-! ## Rows and links that are removed -/

/-- A row is flagged as deleted and stamped with the time, and keeps its other cells. -/
structure Record.FlaggedAs (deleted : String) (now : Time.Instant) (old row : Record) : Prop where
  keys_eq : row.keys = old.keys
  flag : row.cell deleted = .bool true
  stamp : row.cell updatedColumn = .string now.text
  kept : ∀ name, name ≠ deleted → name ≠ updatedColumn → row.get? name = old.get? name

/-- Whether a row of a link table has one of the keys in a column that points at the table. -/
def Table.hasLinkTo (link : Table) (target : String) (keys : List Value) (row : Record) : Bool :=
  link.columns.any fun c =>
    c.references.any (·.table == target) && keys.any (c.type.equal (row.cell c.name))

/-- The keys of the rows of a table that a lookup finds. -/
def StoredTable.foundKeys (t : StoredTable) (table : Table) (lookup : Filter) : List Value :=
  (t.rows.filter (table.finds lookup)).map (·.cell table.primaryKey)

/-- The rows that a lookup finds are flagged as deleted, and nothing else changes in any table. -/
structure Store.FlagsFound (table : Table) (deleted : String) (now : Time.Instant) (lookup : Filter)
    (s s' : Store) : Prop where
  own : ∀ t, s.tables.get? table.name = some t → ∃ t', s'.tables.get? table.name = some t'
    ∧ t'.columns = t.columns ∧ t'.nextId = t.nextId
    ∧ List.Forall₂ (fun old row => if table.finds lookup old = true
      then old.FlaggedAs deleted now row
        else row = old) t.rows t'.rows
  others : ∀ name ≠ table.name, s'.tables.get? name = s.tables.get? name

/-- The rows that a lookup finds are gone with the links to their keys, and all other rows are left,
in their order. -/
structure Store.DropsFound (schema : Schema) (table : Table) (lookup : Filter) (s s' : Store) :
    Prop where
  own : ∀ t, s.tables.get? table.name = some t →
    s'.tables.get? table.name = some (t.without (table.finds lookup))
  links : ∀ t, s.tables.get? table.name = some t → ∀ link ∈ schema.links, ∀ u,
    s.tables.get? link.name = some u →
      s'.tables.get? link.name
        = some (u.without (link.hasLinkTo table.name (t.foundKeys table lookup)))
  others : ∀ name ≠ table.name, (∀ link ∈ schema.links, link.name ≠ name) →
    s'.tables.get? name = s.tables.get? name

variable {schema : Schema} {table base : Table} {lookup : Filter} {p : Predicate}
  {now : Time.Instant}
  {tx tx' : Transaction} {n : Nat}

/-! ## Flagging -/

/-- A row that is flagged has the flag and the current time, and its other cells stay. -/
theorem flaggedAs_of_assign {deleted : String} {old row : Record}
    (hdeleted : deleted ≠ updatedColumn)
    (h : StoredTable.assign old (.ofList [(deleted, .bool true), (updatedColumn, .string now.text)])
      = .ok row) : old.FlaggedAs deleted now row := by
  have hget (name : String) := (StoredTable.get?_assign h name).trans
    (congrArg (Option.or · (old.get? name)) (Change.get?_flag deleted now name))
  refine ⟨StoredTable.keys_assign h, ?_, ?_, fun name hname hstamp => ?_⟩
  · rw [Record.cell, hget, if_neg hdeleted, if_pos rfl]
    rfl
  · rw [Record.cell, hget, if_pos rfl]
    rfl
  · rw [hget, if_neg hstamp, if_neg hname, Option.none_or]

/-- A flagged row does not pass for one that is not deleted. -/
theorem cell_flag_ne_false {deleted : String} {old row : Record}
    (h : StoredTable.assign old (.ofList [(deleted, .bool true), (updatedColumn, .string now.text)])
      = .ok row) : row.cell deleted ≠ .bool false := by
  rw [Record.cell, StoredTable.get?_assign h, Change.get?_flag]
  split <;> simp

/-- Raising the flag finds the rows that the lookup does. -/
theorem flagsFound_of_flagDeleted {deleted : String} (hdeleted : deleted ≠ updatedColumn)
    {t t' : StoredTable} {s : Store} (ht : s.tables.get? table.name = some t)
    (hcolumns : t.columns = table.columns)
    (hp : Predicate.ofFilter table lookup .lookup false = .ok p)
    (h : t.Overwrites p (.ofList [(deleted, .bool true), (updatedColumn, .string now.text)]) t') :
    s.FlagsFound table deleted now lookup (s.put table.name t') := by
  refine ⟨fun u hu => ?_, fun name hname => by rw [Store.get?_put, if_neg hname]⟩
  obtain rfl : u = t := Option.some.inj (hu.symm.trans ht)
  refine ⟨t', by rw [Store.get?_put, if_pos rfl], h.columns_eq, h.nextId_eq, h.rows.imp ?_⟩
  intro old row hrow
  rw [hcolumns, Predicate.holds_of_ofFilter hp] at hrow
  split
  · rename_i hfound
    rw [if_pos hfound] at hrow
    exact flaggedAs_of_assign hdeleted hrow
  · rename_i hnot
    rwa [if_neg hnot] at hrow

/-- Where the flag decides, no row is found after the rows that were found are flagged. -/
theorem finds_flagged {deleted : String} (hflag : table.deletedColumn = some deleted)
    (hhides : table.hidesDeleted lookup deleted = true) {t t' : StoredTable}
    (hcolumns : t.columns = table.columns)
    (hp : Predicate.ofFilter table lookup .lookup false = .ok p)
    (h : t.Overwrites p (.ofList [(deleted, .bool true), (updatedColumn, .string now.text)]) t') :
    ∀ row ∈ t'.rows, table.finds lookup row = false := by
  intro row hrow
  obtain ⟨old, -, hchanged⟩ := exists_of_mem_right h.rows hrow
  rw [hcolumns, Predicate.holds_of_ofFilter hp] at hchanged
  split at hchanged
  · have hcell := cell_flag_ne_false hchanged
    rw [Table.finds, hflag, Option.all_some, hhides]
    simp [hcell]
  · rename_i hnot
    rw [hchanged]
    exact Bool.eq_false_iff.2 hnot

/-! ## Dropping -/

/-- The links to the rows that are removed are the rows with one of their keys in a column that
points at the table. -/
theorem linksToKeys_eq (hco : schema.Coherent) {link : Table} (hlink : link ∈ schema.links)
    {t : StoredTable} (hfilled : ∀ row ∈ t.rows, (row.cell table.primaryKey).isNull = false)
    (hcolumns : t.columns = table.columns)
    (hp : Predicate.ofFilter table lookup .lookup false = .ok p) (row : Record) :
    Change.linksToKeys schema table.name (Change.selectedKeys table p t) link.name row
      = link.hasLinkTo table.name (t.foundKeys table lookup) row := by
  have hpoints {c : Column} (href : c.references.any (·.table == table.name) = true) :
      c.references.isSome = true := by
    cases hc : c.references with
    | none => rw [hc] at href; cases href
    | some key => rfl
  have hkeys (key : Value) : key ∈ Change.selectedKeys table p t
    ↔ key ∈ t.foundKeys table lookup := by
    rw [Change.mem_selectedKeys, StoredTable.foundKeys, List.mem_map, hcolumns]
    simp only [Predicate.holds_of_ofFilter hp, List.mem_filter, and_assoc, eq_comm]
  have hnotnull : ∀ key ∈ t.foundKeys table lookup, key.isNull = false := by
    intro key hkey
    obtain ⟨row, hrow, rfl⟩ := List.mem_map.1 hkey
    exact hfilled row (List.mem_of_mem_filter hrow)
  rw [Bool.eq_iff_iff, Change.linksToKeys, Table.hasLinkTo, List.any_eq_true, List.any_eq_true]
  simp only [Change.holds_isIn, Bool.and_eq_true, beq_iff_eq, Bool.not_eq_true', List.any_eq_true]
  constructor
  · rintro ⟨entry, hentry, hentryname, -, key, hkey, hequal⟩
    obtain ⟨hmem, c, hc, href, hcname⟩ := Change.mem_linksTo.1 hentry
    have hsame : entry.1 = link := hco.eq_of_name (Schema.mem_physical_of_link hmem)
      (Schema.mem_physical_of_link hlink) hentryname
    rw [hsame] at hc hequal
    rw [hcname, hco.typeIn_link hlink hc (hpoints href)] at hequal
    exact ⟨c, hc, href, key, (hkeys key).1 hkey, hequal⟩
  · rintro ⟨c, hc, href, key, hkey, hequal⟩
    refine ⟨(link, c.name), Change.mem_linksTo.2 ⟨hlink, c, hc, href, rfl⟩, rfl, ?_, key,
      (hkeys key).2 hkey, ?_⟩
    · exact ColumnType.isNull_of_equal hequal (hnotnull key hkey)
    · rw [hco.typeIn_link hlink hc (hpoints href)]
      exact hequal

/-- No row is found after the rows that were found are gone. -/
theorem finds_without (t : StoredTable) :
    ∀ row ∈ (t.without (table.finds lookup)).rows, table.finds lookup row = false := by
  intro row hrow
  simpa using (List.mem_filter.1 hrow).2

/-- Removing rows drops those that the lookup finds, and the links at either end of them. -/
theorem dropsFound_of_removeRows (hco : schema.Coherent) (hregular : tx.work.Regular schema)
    (hkeysapart : tx.work.KeysApart schema) (hbase : base ∈ schema.bases)
    (hshares : table.SharesRows base) (hp : Predicate.ofFilter table lookup .lookup false = .ok p)
    (h : Yields (Change.removeRows schema table p) tx n tx') :
    ∃ t, tx.work.tables.get? table.name = some t
      ∧ n = (t.rows.filter (table.finds lookup)).length
      ∧ tx.work.DropsFound schema table lookup tx'.work := by
  obtain ⟨k, hk, -⟩ := hco.keyed base (Schema.mem_physical_of_base hbase)
  have hapart : ∀ link ∈ schema.links, link.name ≠ table.name := fun link hlink =>
    hshares.name ▸ (hco.base_ne_link hbase hlink).symm
  have hcolumns : tx.work.HasColumns schema := fun other hother t ht =>
    (hregular.columns_eq other hother t ht).1
  have hkeys := hregular.keysApart_of_shares hkeysapart hbase hshares (hshares.keyColumn?.trans hk)
  obtain ⟨t, ht, hn, hown, hothers⟩ := Change.tables_of_removeRows hcolumns hapart
    (hshares.keyColumn?.trans hk) hkeys h
  obtain ⟨htcolumns, htkeys⟩ := hkeys t ht
  have hfinds : p.holds t.columns = table.finds lookup := by
    funext row
    rw [htcolumns, Predicate.holds_of_ofFilter hp]
  refine ⟨t, ht, ?_, fun u hu => ?_, fun u hu link hlink w hw => ?_, fun name hname hnolink => ?_⟩
  · rw [hn, StoredTable.matching, hfinds]
  · obtain rfl := Option.some.inj (ht.symm.trans hu)
    rw [hown, hfinds]
  · obtain rfl := Option.some.inj (ht.symm.trans hu)
    rw [hothers _ (hapart link hlink), hw, Option.map_some]
    exact congrArg some (StoredTable.without_congr fun row _ =>
      linksToKeys_eq hco hlink htkeys.filled htcolumns hp row)
  · rw [hothers name hname]
    cases tx.work.tables.get? name with
    | none => rfl
    | some w => exact congrArg some (StoredTable.without_eq_self fun row _ =>
        Change.linksToKeys_of_ne _ _ hnolink row)

/-! ## Removals -/

/-- A removal that finds no row succeeds and leaves everything as it is, if no fault waits for
it. -/
theorem yields_remove_nothing {t : StoredTable} (hopen : tx.isOpen = true)
    (ht : tx.work.tables.get? table.name = some t) (hcolumns : t.columns = table.columns)
    (hp : Predicate.ofFilter table lookup .lookup false = .ok p)
    (hnone : ∀ row ∈ t.rows, table.finds lookup row = false)
    (hfault : table.deletedColumn.isSome = true → ⟨.update, table.name⟩ ∉ tx.faults) :
    Yields (Change.remove schema table now lookup) tx 0 tx := by
  have hmatching : t.matching p = [] := by
    rw [StoredTable.matching_of_ofFilter hcolumns hp]
    exact List.filter_eq_nil_iff.2 fun row hrow => by simp [hnone row hrow]
  refine Change.yields_remove.2 ⟨p, hp, ?_⟩
  cases hflag : table.deletedColumn with
  | some deleted =>
    have hplaces : t.places p = [] :=
      List.eq_nil_of_length_eq_zero (by rw [t.length_places, hmatching]; rfl)
    refine .inl ⟨deleted, rfl,
      Transaction.yields_update.2 ⟨hfault (by rw [hflag]; rfl), hopen, t, ht, ?_⟩⟩
    rw [hplaces]
    exact ⟨(yields_pure _ _).2 ⟨rfl, rfl⟩, rfl⟩
  | none =>
    refine .inr ⟨rfl, Change.yields_removeRows.2 ⟨hopen, t, ht, .inl ⟨?_, rfl, rfl⟩⟩⟩
    refine List.eq_nil_iff_forall_not_mem.2 fun key hkey => ?_
    obtain ⟨row, hrow, hholds, -⟩ := Change.mem_selectedKeys.1 hkey
    have hmem : row ∈ t.matching p := List.mem_filter.2 ⟨hrow, hholds⟩
    rw [hmatching] at hmem
    cases hmem

namespace Catalog

variable {settings : Settings} {domain : Domain} {catalog : Catalog} {resource : String}
  {db' : Database}

/-- A removal that finds no row leaves the database as it is, whenever it is asked for. -/
theorem remove_nothing {t : StoredTable} (htable : catalog.schema.table resource = .ok table)
    (ht : db'.store.tables.get? table.name = some t) (hcolumns : t.columns = table.columns)
    (hp : Predicate.ofFilter table lookup .lookup false = .ok p)
    (hnone : ∀ row ∈ t.rows, table.finds lookup row = false)
    (hfault : table.deletedColumn.isSome = true → ⟨.update, table.name⟩ ∉ db'.faults)
    (later : Time.Instant) : catalog.remove resource later lookup db' = (.ok 0, db') := by
  have hyields : Yields (Change.remove catalog.schema table later lookup) (.begin db') 0
      (.begin db') :=
    yields_remove_nothing rfl ht hcolumns hp hnone hfault
  rw [remove, htable]
  change Database.transact _ (Change.remove catalog.schema table later lookup) = _
  rw [Database.transact_of_yields hyields rfl]
  rfl

/-- **What a removal removes.** It returns the number of the rows that its lookup finds. In a table
with a flag these are flagged and stamped; in one without they are gone, with the links to their
keys; and nothing else changes. Where the flag decides what is found, or there is none, the removal
asked again finds nothing. -/
theorem removed_rows (hcompiles : Catalog.ofDomain settings domain = .ok catalog)
    (steps : List Step)
    (h : catalog.remove resource now lookup (catalog.run steps) = (.ok n, db')) :
    ∃ table t, catalog.schema.table resource = .ok table
      ∧ (catalog.run steps).store.tables.get? table.name = some t
      ∧ n = (t.rows.filter (table.finds lookup)).length
      ∧ (∀ deleted, table.deletedColumn = some deleted → deleted ≠ updatedColumn →
        (catalog.run steps).store.FlagsFound table deleted now lookup db'.store)
      ∧ (table.deletedColumn = none →
        (catalog.run steps).store.DropsFound catalog.schema table lookup db'.store)
      ∧ ((∀ deleted, table.deletedColumn = some deleted →
        table.hidesDeleted lookup deleted = true) →
        ∀ later, catalog.remove resource later lookup db' = (.ok 0, db')) := by
  have hco := coherent_of_ofDomain hcompiles
  have hregular := regular_run hco steps
  cases htable : catalog.schema.table resource with
  | error e =>
    rw [remove, htable] at h
    cases h
  | ok table =>
    obtain ⟨base, hbase, hshares⟩ := hco.shared table (Schema.mem_of_table htable).1
    rw [remove, htable] at h
    change Database.transact _ (Change.remove catalog.schema table now lookup) = (.ok n, db') at h
    obtain ⟨tx', hrun, hdb⟩ := Database.transact_ok (congrArg Prod.fst h)
    obtain rfl : db' = ⟨tx'.work, tx'.faults⟩ := (congrArg Prod.snd h).symm.trans hdb
    obtain ⟨p, hp, hcases⟩ := Change.yields_remove.1 hrun
    have hcolumns : ∀ t, (catalog.run steps).store.tables.get? table.name = some t →
        t.columns = table.columns := by
      intro t ht
      rw [hshares.name] at ht
      rw [hshares.columns]
      exact (hregular.columns_eq base (Schema.mem_physical_of_base hbase) t ht).1
    rcases hcases with ⟨deleted, hdeleted, hflag⟩ | ⟨hnoflag, hremoved⟩
    · obtain ⟨t, t', ht, hoverwrites, rfl, hn⟩ := Transaction.overwrites_of_update hflag
      have ht' :
        ((catalog.run steps).store.put table.name t').tables.get? table.name = some t' := by
        rw [Store.get?_put, if_pos rfl]
      refine ⟨table, t, rfl, ht, ?_, fun flag hflagname hne =>
        ?_, fun hnone => ?_, fun hhides => ?_⟩
      · rw [hn, StoredTable.matching_of_ofFilter (hcolumns t ht) hp]
      · obtain rfl := Option.some.inj (hdeleted.symm.trans hflagname)
        exact flagsFound_of_flagDeleted hne ht (hcolumns t ht) hp hoverwrites
      · rw [hdeleted] at hnone
        cases hnone
      · exact remove_nothing htable ht' (hoverwrites.columns_eq.trans (hcolumns t ht)) hp
          (finds_flagged hdeleted (hhides deleted hdeleted) (hcolumns t ht) hp hoverwrites)
          fun _ => (Transaction.yields_update.1 hflag).1
    · have hstart : (Transaction.begin (catalog.run steps)).work.Regular catalog.schema := hregular
      obtain ⟨t, ht, hn, hdrops⟩ :=
        dropsFound_of_removeRows hco hstart (keysApart_run hco steps) hbase
        hshares hp hremoved
      refine ⟨table, t, rfl, ht, hn, fun flag hflagname _ => ?_, fun _ => hdrops, fun _ => ?_⟩
      · rw [hnoflag] at hflagname
        cases hflagname
      · refine remove_nothing htable (hdrops.own t ht) (hcolumns t ht) hp (finds_without t)
          fun hsome => ?_
        rw [hnoflag] at hsome
        cases hsome

/-- The person of the sample is removed, with the link to the person from the team; nobody is left
to be removed a year later. -/
theorem person_of_sample_removed : ∃ table t db',
    sampleCatalog.remove "person" ⟨3, 0⟩ [] (sampleCatalog.run sampleSteps) = (.ok 1, db')
      ∧ sampleCatalog.schema.table "person" = .ok table
      ∧ (sampleCatalog.run sampleSteps).store.tables.get? "person" = some t
      ∧ db'.store.tables.get? "person" = some (t.without (table.finds []))
      ∧ (sampleCatalog.run sampleSteps).store.rows "team_person" ≠ []
      ∧ db'.store.rows "team_person" = []
      ∧ sampleCatalog.remove "person" ⟨31536003, 0⟩ [] db' = (.ok 0, db') := by
  have hremove := eq_ok_of_fst_toOption (a := 1)
    (r := sampleCatalog.remove "person" ⟨3, 0⟩ [] (sampleCatalog.run sampleSteps))
      (by decide +kernel)
  obtain ⟨table, t, htable, ht, -, -, hdrops, hagain⟩ :=
    removed_rows ofDomain_sample sampleSteps hremove
  have hparts : (sampleCatalog.schema.table "person").toOption.map (fun table =>
      (table.name, table.deletedColumn)) = some ("person", none) := by
    decide +kernel
  rw [htable] at hparts
  obtain ⟨hname, hflag⟩ : table.name = "person" ∧ table.deletedColumn = none := by
    simpa [Except.toOption] using hparts
  have hown := (hdrops hflag).own t ht
  rw [hname] at ht hown
  exact ⟨table, t, _, hremove, htable, ht, hown, by decide +kernel, by decide +kernel,
    hagain (by simp [hflag]) _⟩

/-- People are flagged in the column that is also stamped with the time of the last change. -/
def stampedFlagSettings : Settings := { deletedField := "_updated" }

def stampedFlagCatalog : Catalog :=
  .compiled stampedFlagSettings (.ofList [("person", { softDelete := true })])

def stampedFlagSteps : List Step := [(⟨0, 0⟩, .createTables), (⟨1, 0⟩, .insert "person" [{}])]

/-- Whoever was changed since the last century. -/
def sinceCentury : Filter := [⟨"_updated", .gte, .string "1900-01-01T00:00:00Z"⟩]

/-- One person is removed, but the flag is not raised: the time is written over it. -/
theorem stamped_flag_is_not_raised :
    Catalog.ofDomain stampedFlagSettings (.ofList [("person", { softDelete := true })])
        = .ok stampedFlagCatalog
      ∧ ∃ table ∈ stampedFlagCatalog.schema.bases, table.name = "person"
        ∧ table.deletedColumn = some "_updated"
        ∧ (stampedFlagCatalog.remove "person" ⟨2, 0⟩ sinceCentury
            (stampedFlagCatalog.run stampedFlagSteps)).1.toOption = some 1
        ∧ ((stampedFlagCatalog.remove "person" ⟨2, 0⟩ sinceCentury
            (stampedFlagCatalog.run stampedFlagSteps)).2.store.rows "person").map
              (·.cell "_updated")
          = [.string "1970-01-01T00:00:02+00:00"] := by
  refine ⟨ofDomain_compiled rfl, ?_⟩
  decide +kernel

end Catalog

end RecordStore
