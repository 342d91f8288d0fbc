import RecordStore.Proofs.Effect
import RecordStore.Proofs.Failure
import RecordStore.Proofs.Fields
import RecordStore.Proofs.Realizing

/-!
# Conflicts

A document that passes the check may still be refused, for what else is stored or because a fault
was injected: then its insertion or replacement ends in a conflict. It is refused for nothing else,
as the check asks for every value that the row needs, and knows which ones are filled in. The one
exception is a column that takes no null and has null as its default: the check counts on the
default, and the store refuses it.

* **`Error.isConflict`** — the failures that the rest of the store explains.
* **`Transaction.Prepared`** — all tables are there and sound, which every step of a change keeps.
* **`Record.Completes`** — a record that becomes a row without null where the table takes none.
* **`Catalog.conflicts_only_iff`** — in all states only conflicts, if and only if the document
  leaves out no column that would be filled with null against its will.
* **`Catalog.null_default_refused`** — a document that passes the check and is never stored.
-/

namespace RecordStore

open RecordStore.Action

/-- Whether a failure is explained by the other rows of the store, or by a fault that was
injected. -/
def Error.isConflict : Error → Bool
  | .storage (.constraint _ (.duplicateKey _)) => true
  | .storage (.constraint _ (.duplicateGroup _)) => true
  | .storage (.constraint _ (.missingReference ..)) => true
  | .storage (.injected ..) => true
  | _ => false

/-- Whether a document leaves out a column that takes no null and has null as its default. -/
def Document.leavesNull (table : Table) (doc : Record) : Bool :=
  table.columns.any fun c => !c.nullable && c.default?.any Value.isNull && !doc.contains c.name

/-- A cell of the column may have the value, as far as null is concerned. -/
def Column.Admits (c : Column) (v : Value) : Prop :=
  v.isNull = true → c.nullable = true ∧ c.primaryKey = false

theorem Column.admits_of_some {c : Column} {v : Value} (h : v.isNull = false) : c.Admits v := by
  intro hnull
  rw [h] at hnull
  cases hnull

/-- What is wrong with a cell that is not null against the will of its column is a conflict. -/
theorem Store.Refuses.isConflict {s : Store} {name : String} {others : List Record} {row : Record}
    {c : Column} {e : StorageError} (h : s.Refuses name others row c e)
    (hadmits : c.Admits (row.cell c.name))
    (htarget : ∀ key, c.references = some key → ∃ t, s.tables.get? key.table = some t) :
    (Error.storage e).isConflict = true := by
  cases h with
  | null hnull hnot =>
    obtain ⟨hnullable, hkey⟩ := hadmits hnull
    rw [hnot hnullable] at hkey
    cases hkey
  | held => rfl
  | noTable hkey hnone =>
    obtain ⟨t, ht⟩ := htarget _ hkey
    rw [ht] at hnone
    cases hnone
  | missing => rfl

/-! ## Prepared stores -/

/-- The tables of the schema are there, and sound. -/
structure Store.Prepared (schema : Schema) (s : Store) : Prop where
  sound : s.Sound schema fun _ => True
  created : ∀ table ∈ schema.physical, ∃ t, s.tables.get? table.name = some t

/-- The transaction takes statements on all tables of the schema. -/
structure Transaction.Prepared (schema : Schema) (tx : Transaction) : Prop where
  isOpen : tx.isOpen = true
  store : tx.work.Prepared schema

section Prepared

variable {schema : Schema} {times : Time.Instant → Prop} {drops : Prop} {s s' : Store}

/-- No table goes. -/
theorem Store.exists_table_of_moves (h : Moves schema times drops s s') {name : String}
    (hname : ∃ t, s.tables.get? name = some t) : ∃ t, s'.tables.get? name = some t := by
  have hput {s : Store} (other : String) (u : StoredTable) (h : ∃ t, s.tables.get? name = some t) :
      ∃ t, (s.put other u).tables.get? name = some t := by
    rw [Store.get?_put]
    split
    · exact ⟨u, rfl⟩
    · exact h
  induction h with
  | refl => exact hname
  | tail _ hmove ih =>
    cases hmove with
    | create =>
      obtain ⟨t, ht⟩ := ih
      exact ⟨t, by rw [Store.get?_create, ht]; rfl⟩
    | append => exact hput _ _ ih
    | link => exact hput _ _ ih
    | rewrite => exact hput _ _ ih
    | drop => exact hput _ _ ih
    | unlink => exact hput _ _ ih

theorem Store.Prepared.moves (h : s.Prepared schema) (hwf : schema.WellFormed)
    (hmoves : Moves schema (fun _ => True) drops s s') : s'.Prepared schema where
  sound := h.sound.moves hwf hmoves
  created table htable := Store.exists_table_of_moves hmoves (h.created table htable)

/-- The table that a column points at is there. -/
theorem Store.Prepared.exists_target (h : s.Prepared schema) (hwf : schema.WellFormed)
    {table : Table} (htable : table ∈ schema.physical) {c : Column} (hc : c ∈ table.columns)
    {key : ForeignKey} (hkey : c.references = some key) :
    ∃ t, s.tables.get? key.table = some t := by
  obtain ⟨-, -, target, htarget, k, rfl, -⟩ := hwf.references table htable c hc key hkey
  exact h.created target (Schema.mem_physical_of_base htarget)

theorem Transaction.Prepared.onto {tx : Transaction} (h : tx.Prepared schema)
    (hwf : schema.WellFormed) (hmoves : Moves schema (fun _ => True) drops tx.work s) :
    (tx.onto s).Prepared schema :=
  ⟨h.isOpen, h.store.moves hwf hmoves⟩

end Prepared

/-! ## Statements -/

/-- The record becomes a row of the table without null where the table takes none. -/
structure Record.Completes (record : Record) (table : Table) : Prop where
  names : ∀ name ∈ record.keys, name ∈ table.columnNames
  admits : ∀ c ∈ table.columns, ∀ (now : Time.Instant) n,
    c.Admits ((record.get? c.name).getD (StoredTable.filling (.string now.text) n c))

namespace Transaction

variable {schema : Schema} {table base : Table} {now : Time.Instant} {tx tx' : Transaction}
  {record : Record}
  {e : Error}

/-- A statement of a prepared transaction is begun, unless a fault waits for it. -/
theorem Prepared.isConflict_of_blocked (h : tx.Prepared schema) (hbase : base ∈ schema.physical)
    (hname : table.name = base.name) (hblocked : tx.Blocked table.name e) :
    e.isConflict = true := by
  cases hblocked with
  | finished hopen =>
    rw [h.isOpen] at hopen
    cases hopen
  | injected => rfl
  | noTable hnone =>
    obtain ⟨t, ht⟩ := h.store.created base hbase
    rw [hname, ht] at hnone
    cases hnone

section Writing

variable (hwf : schema.WellFormed) (hprepared : tx.Prepared schema) (hbase : base ∈ schema.physical)
  (hshares : table.SharesRows base) (hcompletes : record.Completes base)
include hwf hprepared hbase hshares hcompletes

/-- What can go wrong when a row is added to a table that is there is a rule of the table. -/
theorem isConflict_of_append (h : Fails (append now table record) tx e) : e.isConflict = true := by
  rcases fails_append h with hblocked | ⟨t, ht, hfails⟩
  · exact hprepared.isConflict_of_blocked hbase hshares.name hblocked
  rw [hshares.name] at ht
  have hsound := hprepared.store.sound base hbase t ht
  have hnodup : (t.columns.map Column.name).Nodup :=
    hsound.columns_eq ▸ (hwf.tables base hbase).names_nodup
  rcases hfails with ⟨v, hcheck, -⟩ | ⟨row, next, err, hfill, hrules, rfl⟩
  · rw [(StoredTable.checkColumns_eq_ok_iff t record).2 (hsound.columns_eq ▸ hcompletes.names)]
      at hcheck
    cases hcheck
  rcases Store.checkRules_eq_error hrules with ⟨c, hc, hrefuses⟩ | ⟨group, -, rfl⟩
  · obtain ⟨n, -, hcell⟩ :=
      StoredTable.fill_cell t (.string now.text) record hnodup hc hsound.counter
    rw [hsound.columns_eq] at hc
    rw [hfill] at hcell
    refine hrefuses.isConflict (hcell ▸ hcompletes.admits c hc now n) fun key hkey => ?_
    -- the numbers that are used up already take no table away
    rw [Store.get?_put]
    split
    · exact ⟨_, rfl⟩
    · exact hprepared.store.exists_target hwf hbase hc hkey
  · rfl

/-- What can go wrong when a row is changed in a table that is there is a rule of the table. -/
theorem isConflict_of_change {place : Nat} (h : Fails (change table record place) tx e) :
    e.isConflict = true := by
  rcases fails_change h with hblocked | ⟨t, old, ht, hold, hfails⟩
  · exact hprepared.isConflict_of_blocked hbase hshares.name hblocked
  rw [hshares.name] at ht
  have hsound := hprepared.store.sound base hbase t ht
  have hmem : old ∈ t.rows := List.mem_of_getElem? hold
  rcases hfails with ⟨v, hassign, -⟩ | ⟨row, err, hassign, hrules, rfl⟩
  · obtain ⟨row, hrow⟩ := StoredTable.exists_assign (hsound.keys_eq old hmem ▸ hcompletes.names)
    rw [hrow] at hassign
    cases hassign
  rcases Store.checkRules_eq_error hrules with ⟨c, hc, hrefuses⟩ | ⟨group, -, rfl⟩
  · rw [hsound.columns_eq] at hc
    refine hrefuses.isConflict ?_ fun key hkey => hprepared.store.exists_target hwf hbase hc hkey
    -- the cell is the record's, or the old one
    have hadmits := hcompletes.admits c hc ⟨0, 0⟩ 0
    rw [Record.cell, StoredTable.get?_assign hassign]
    cases hgiven : record.get? c.name with
    | some v =>
      rw [hgiven] at hadmits
      exact hadmits
    | none => exact hsound.filled old hmem c hc
  · rfl

theorem isConflict_of_insert (h : Fails (insert now table record) tx e) : e.isConflict = true := by
  rcases fails_insert h with hblocked | happend
  · exact hprepared.isConflict_of_blocked hbase hshares.name hblocked
  · exact isConflict_of_append hwf hprepared hbase hshares hcompletes happend

theorem isConflict_of_upsert (h : Fails (upsert now table record) tx e) : e.isConflict = true := by
  rcases fails_upsert h with hblocked | ⟨place, hchange⟩ | happend
  · exact hprepared.isConflict_of_blocked hbase hshares.name hblocked
  · exact isConflict_of_change hwf hprepared hbase hshares hcompletes hchange
  · exact isConflict_of_append hwf hprepared hbase hshares hcompletes happend

end Writing

end Transaction

/-! ## Rows of checked documents -/

section Rows

variable {schema : Schema} {table base : Table} {now : Time.Instant} {doc : Record} {c : Column}

theorem Document.lacks_of_check (h : Document.check schema table doc = .ok ())
    (hc : c ∈ table.columns) :
    Document.lacks doc c = false := by
  unfold Document.check at h
  split at h
  · cases h
  · rename_i hnone
    simpa using List.find?_eq_none.1 hnone c hc

theorem Document.nullable_of_checkValue {v : Value} (h : Document.checkValue c v = .ok ())
    (hnull : v.isNull = true) : c.nullable = true := by
  unfold Document.checkValue at h
  rw [if_pos hnull] at h
  split at h
  · assumption
  · cases h

/-- A column that a checked document leaves out has a default, if it is not filled in otherwise and
takes no null. -/
theorem Document.nullable_of_left_out (hcheck : Document.check schema table doc = .ok ())
    (hleaves : Document.leavesNull table doc = false) (hc : c ∈ table.columns)
    (hnone : doc.get? c.name = none) (hnumber : c.autoIncrement = false)
    (hnow : c.defaultNow = false) (hnull : (c.default?.getD .null).isNull = true) :
    c.nullable = true := by
  have hlacks := Document.lacks_of_check hcheck hc
  rw [Document.leavesNull, List.any_eq_false] at hleaves
  have hkept := hleaves c hc
  have habsent : doc.contains c.name = false := by
    rw [← Bool.not_eq_true, NameMap.contains_iff, NameMap.mem_keys_iff, hnone]
    exact Bool.false_ne_true
  cases hdefault : c.default? with
  | none =>
    rw [Document.lacks, Column.hasDefault, Record.cell_of_get?_none hnone] at hlacks
    have hnullable : c.required = false ∧ c.nullable = true := by
      simpa [hdefault, hnow, hnumber, Value.isNull] using hlacks
    exact hnullable.2
  | some v =>
    rw [hdefault] at hnull
    simpa [hdefault, habsent, show v.isNull = true from hnull] using hkept

/-- No key of the table takes null. -/
def Table.KeysFilled (t : Table) : Prop := ∀ c ∈ t.columns, c.primaryKey = true → c.nullable = false

theorem Table.KeysFilled.admits (h : base.KeysFilled) (hc : c ∈ base.columns) {v : Value}
    (hnull : v.isNull = true → c.nullable = true) : c.Admits v := by
  refine fun hv => ⟨hnull hv, Bool.eq_false_iff.2 fun hkey => ?_⟩
  rw [h c hc hkey] at hnull
  exact absurd (hnull hv) Bool.false_ne_true

section Given

variable (hco : schema.Coherent) (hwf : schema.WellFormed) (hbase : base ∈ schema.bases)
  (hshares : table.SharesRows base) (hcheck : Document.check schema table doc = .ok ())
include hwf hbase hshares hcheck

/-- What a checked document gives for a column is null only if the column takes null. -/
theorem nullable_of_given (hc : c ∈ base.columns) {v : Value} (hv : doc.get? c.name = some v)
    (hnull : (c.stored v).isNull = true) : c.nullable = true := by
  have hbasewf := hwf.tables base (Schema.mem_physical_of_base hbase)
  have hfound := (hshares.column? c.name).trans (hbasewf.column?_name hc)
  rw [Column.isNull_stored] at hnull
  exact Document.nullable_of_checkValue
    (Document.checkValue_of_check (Document.checkPartial_of_check hcheck) hv hfound) hnull

variable (hkeys : base.KeysFilled) (hleaves : Document.leavesNull table doc = false)
include hco hkeys hleaves

/-- A checked document makes a row without null where the table takes none. -/
theorem completes_insertedRow : (Change.insertedRow table now doc).Completes base := by
  have hbasewf := hwf.tables base (Schema.mem_physical_of_base hbase)
  refine ⟨names_insertedRow hbasewf hshares (Document.checkPartial_of_check hcheck),
    fun c hc time n => ?_⟩
  cases hget : (Change.insertedRow table now doc).get? c.name with
  | some v =>
    rw [Option.getD_some]
    rcases get?_of_insertedRow hget with hrow | ⟨-, rfl⟩
    · have hdoc := get?_of_rowOf hrow
      rw [hco.get?_withDoubles_stored hbase hshares hc] at hdoc
      obtain ⟨w, hw, rfl⟩ := Option.map_eq_some_iff.1 hdoc
      exact hkeys.admits hc (nullable_of_given hwf hbase hshares hcheck hc hw)
    · exact Column.admits_of_some rfl
  | none =>
    have hstamp : c.name ∉ Change.stampColumns := by
      intro hstamp
      rw [Change.get?_insertedRow doc hstamp] at hget
      cases hget
    have hnow : c.defaultNow = false :=
      Bool.eq_false_iff.2 fun hnow => hstamp (hco.stamps_only base hbase c hc hnow)
    rw [hco.get?_insertedRow_stored hbase hshares hc hstamp, Option.map_eq_none_iff] at hget
    rw [Option.getD_none, StoredTable.filling, hnow]
    split
    · exact Column.admits_of_some rfl
    · rename_i hnumber
      exact hkeys.admits hc fun hnull =>
        Document.nullable_of_left_out hcheck hleaves (hshares.columns ▸ hc) hget
        (by simpa using hnumber) hnow hnull

/-- A checked document replaces a row by one without null where the table takes none. -/
theorem completes_replacedRow {id key : Value} (hkey : Change.keyFor table id = .ok key)
    (stored : Option Record) : (Change.replacedRow table now key stored doc).Completes base := by
  have hphysical := Schema.mem_physical_of_base hbase
  have hbasewf := hwf.tables base hphysical
  refine ⟨names_replacedRow hshares, fun c hc time n => ?_⟩
  rw [get?_replacedRow hshares hc fun _ hd hname =>
    hbasewf.eq_of_name hd hc hname, Option.getD_some]
  obtain ⟨k, hk, -⟩ := hbasewf.key
  unfold Change.replacedCell
  -- the given key, a field of the document, an old or new time, or a default
  split
  · exact Column.admits_of_some (Change.accepts_of_keyFor (hshares.keyColumn?.trans hk) hkey).2
  · rename_i hnotkey
    rw [hco.get?_withDoubles_rowOf hbase hshares hc]
    cases hgiven : doc.get? c.name with
    | some v => exact hkeys.admits hc (nullable_of_given hwf hbase hshares hcheck hc hgiven)
    | none =>
      rw [Option.map_none]
      dsimp only
      split
      · split
        · rename_i hold
          exact Column.admits_of_some (by simpa using (Option.filter_eq_some_iff.1 hold).2)
        · exact Column.admits_of_some rfl
      · rename_i hstamp
        refine hkeys.admits hc fun hnull => ?_
        refine Document.nullable_of_left_out hcheck
          hleaves (hshares.columns ▸ hc) hgiven ?_ ?_ hnull
        · -- a numbered column is the key
          refine Bool.eq_false_iff.2 fun hnumber => hnotkey ?_
          rw [hshares.primaryKey]
          exact (Table.mem_of_column? (hco.numbered base hphysical c hc hnumber).1).2
        · refine Bool.eq_false_iff.2 fun hnow => hstamp ?_
          simpa using hco.stamps_only base hbase c hc hnow

end Given

end Rows

/-! ## Links -/

namespace Change

variable {schema : Schema} {table base link target : Table} {now : Time.Instant}
  {tx tx' : Transaction}
  {m : ListField} {k targetKey : Column} {owner : Value} {members : List Value} {e : Error}

/-- A link has an owner and a member, neither of them null, and the rest of its row is filled in. -/
theorem completes_linkRow (hserves : schema.Serves base m link target k targetKey) {member : Value}
    (howner : owner.isNull = false) (hmember : member.isNull = false) :
    (linkRow m owner member).Completes link := by
  constructor
  · intro name hname
    rw [NameMap.mem_keys_iff, get?_linkRow] at hname
    rw [Table.columnNames, hserves.columns_eq]
    split at hname
    · simp [Compile.linkColumn, *]
    · split at hname
      · simp [Compile.linkColumn, *]
      · cases hname
  · intro c hc time n
    cases hget : (linkRow m owner member).get? c.name with
    | some v =>
      rw [get?_linkRow] at hget
      refine Column.admits_of_some ?_
      split at hget
      · exact Option.some.inj hget ▸ hmember
      · split at hget
        · exact Option.some.inj hget ▸ howner
        · cases hget
    | none =>
      -- the columns of the ends are given, and the other ones are numbered or stamped
      rw [hserves.columns_eq] at hc
      simp only [List.mem_cons, List.not_mem_nil, or_false] at hc
      rcases hc with rfl | rfl | rfl | rfl | rfl
      · exact Column.admits_of_some rfl
      · rw [get?_linkRow] at hget
        simp [Compile.linkColumn] at hget
        split at hget <;> cases hget
      · rw [get?_linkRow] at hget
        simp [Compile.linkColumn] at hget
      · exact Column.admits_of_some rfl
      · exact Column.admits_of_some rfl

section Links

variable (hwf : schema.WellFormed) (hprepared : tx.Prepared schema)
  (hserves : schema.Serves base m link target k targetKey)
include hwf hprepared hserves

theorem prepared_of_delete {p : Predicate} {n : Nat}
    (h : Yields (Transaction.delete link p) tx n tx') :
    tx'.Prepared schema := by
  have hmoves : Moves schema (fun _ => True) True tx.work tx'.work :=
    Transaction.moves_of_delete (Schema.mem_of_linkTable hserves.link_eq).1 h
  obtain ⟨-, -, t, -, rfl, -⟩ := Transaction.yields_delete.1 h
  exact hprepared.onto hwf hmoves

variable (howner : k.type.accepts owner = true ∧ owner.isNull = false)
include howner

theorem prepared_of_link {member : Value}
    (hmember : member.isNull = false ∧ targetKey.type.accepts member = true)
    (h : Yields (discard (Transaction.insert now link (linkRow m owner member))) tx () tx') :
    tx'.Prepared schema := by
  have hlink := (Schema.mem_of_linkTable hserves.link_eq).1
  obtain ⟨id, hinsert⟩ := yields_discard.1 h
  obtain ⟨-, row, happend, -⟩ := Transaction.yields_insert.1 hinsert
  have hmove : Move schema (fun _ => True) True tx.work tx'.work :=
    Transaction.move_of_append_link hlink trivial
      (fits_linkRow (hwf.tables link (Schema.mem_physical_of_link hlink))
        hserves howner.1 hmember.2) happend
  obtain ⟨-, t, next, -, -, -, -, rfl⟩ := Transaction.yields_append.1 happend
  exact hprepared.onto hwf (.single hmove)

variable
  (hmembers : ∀ member ∈ members, member.isNull = false ∧ targetKey.type.accepts member = true)
include hmembers

theorem prepared_of_addLinks (h : Yields (addLinks schema now m owner members) tx () tx') :
    tx'.Prepared schema := by
  obtain ⟨link', hlink', hrun⟩ := yields_addLinks.1 h
  obtain rfl : link = link' := Except.ok.inj (hserves.link_eq.symm.trans hlink')
  exact forM_induction (fun member hmember _ _ hprepared hstep =>
    prepared_of_link hwf hprepared hserves howner (hmembers member hmember) hstep) hprepared hrun

theorem prepared_of_setLinks (h : Yields (setLinks schema now m owner members) tx () tx') :
    tx'.Prepared schema := by
  obtain ⟨current, -, ⟨-, rfl⟩ | ⟨-, link', n, mid, hlink', hdelete, hadd⟩⟩ := yields_setLinks.1 h
  · exact hprepared
  · obtain rfl : link = link' := Except.ok.inj (hserves.link_eq.symm.trans hlink')
    exact prepared_of_addLinks hwf
      (prepared_of_delete hwf hprepared hserves hdelete) hserves howner hmembers hadd

/-- Links fail only by conflicts. -/
theorem isConflict_of_addLinks (h : Fails (addLinks schema now m owner members) tx e) :
    e.isConflict = true := by
  rcases fails_addLinks h with hnone | ⟨link', hlink', hfails⟩
  · rw [hserves.link_eq] at hnone
    cases hnone
  obtain rfl : link = link' := Except.ok.inj (hserves.link_eq.symm.trans hlink')
  -- the step that fails starts at a prepared transaction, like the ones before it
  obtain ⟨member, hmember, mid, hmid, hstep⟩ :=
    fails_forM (fun member hmember _ _ hprepared hstep =>
    prepared_of_link hwf hprepared hserves howner (hmembers member hmember) hstep) hprepared hfails
  exact Transaction.isConflict_of_insert hwf hmid
    (Schema.mem_physical_of_link (Schema.mem_of_linkTable hserves.link_eq).1) (.refl link)
    (completes_linkRow hserves howner.2 (hmembers member hmember).1) (fails_discard.1 hstep)

/-- Links are read, removed and added; none of these steps fails but in a conflict. -/
theorem isConflict_of_setLinks (h : Fails (setLinks schema now m owner members) tx e) :
    e.isConflict = true := by
  rcases fails_setLinks h with hnone | ⟨link', hlink', hfails⟩
  · rw [hserves.link_eq] at hnone
    cases hnone
  obtain rfl : link = link' := Except.ok.inj (hserves.link_eq.symm.trans hlink')
  rcases hfails with hblocked | ⟨n, mid, hdelete, hadd⟩
  · exact hprepared.isConflict_of_blocked
      (Schema.mem_physical_of_link (Schema.mem_of_linkTable hserves.link_eq).1) rfl hblocked
  · exact isConflict_of_addLinks hwf
      (prepared_of_delete hwf hprepared hserves hdelete) hserves howner hmembers hadd

end Links

/-! ## Changes -/

section Changes

variable {doc : Record} (hwf : schema.WellFormed) (hprepared : tx.Prepared schema)
  (hbase : base ∈ schema.bases)
  (hshares : table.SharesRows base) (hk : base.keyColumn? = some k)
  (hcheck : Document.check schema table doc = .ok ())
include hwf hbase hshares hk hcheck

/-- The link table of a list takes the members that a checked document gives for it. -/
theorem serves_of_list (hm : m ∈ table.lists) :
    ∃ link target targetKey, schema.Serves base m link target k targetKey
      ∧ ∀ member ∈ membersFor table doc m, member.isNull = false
        ∧ targetKey.type.accepts member = true := by
  rcases membersFor_cases hshares (hwf.fields_nodup base hbase) doc hm with hgave | hnone
  · exact serves_of_mem_listsOf hwf hbase hshares hk (Document.checkPartial_of_check hcheck) hgave
  · obtain ⟨link, target, targetKey, hserves⟩ := serves_of_mem hwf hbase hshares hk hm
    refine ⟨link, target, targetKey, hserves, ?_⟩
    rw [hnone]
    exact List.forall_mem_nil _

include hprepared

/-- The row that is inserted is put into a prepared transaction, and its key is given to the
links. -/
theorem prepared_of_insertRow {id : Value}
    (h : Yields (Transaction.insert now table (insertedRow table now doc)) tx id tx') :
    tx'.Prepared schema ∧ k.type.accepts id = true ∧ id.isNull = false := by
  have hbasewf := hwf.tables base (Schema.mem_physical_of_base hbase)
  obtain ⟨-, row, happend, rfl⟩ := Transaction.yields_insert.1 h
  have hmove : Move schema (fun _ => True) True tx.work tx'.work :=
    Transaction.move_of_append hbase hshares
    trivial
      (suits_insertedRow hbasewf hshares trivial (Document.checkPartial_of_check hcheck)) happend
  have hprepared' : tx'.Prepared schema := by
    obtain ⟨-, t, next, -, -, -, -, rfl⟩ := Transaction.yields_append.1 happend
    exact hprepared.onto hwf (.single hmove)
  exact ⟨hprepared', key_accepted_of_append hwf hbase hshares hprepared'.store.sound happend hk⟩

omit hk in
/-- A transaction is still prepared when the row of a replacement is written. -/
theorem prepared_of_replacedRow {id key : Value} {rows : List Record}
    (hkey : keyFor table id = .ok key)
    (hstored : Yields (Transaction.select
      { Plan.scan table (.eq table.primaryKey key) with limit := some 1 }) tx rows tx)
    (h : Yields (Transaction.upsert now table (replacedRow table now key rows.head? doc))
      tx () tx') :
    tx'.Prepared schema := by
  have hmoves : Moves schema (fun _ => True) True tx.work tx'.work :=
    moves_of_replacedRow hwf hprepared.store.sound
    hbase hshares trivial (Document.checkPartial_of_check hcheck) hkey hstored h
  obtain ⟨t, t', -, -, rfl⟩ := Transaction.effect_of_upsert h
  exact hprepared.onto hwf hmoves

/-- The links of an inserted document are put one list after the other. -/
theorem prepared_of_given {id : Value} (hid : k.type.accepts id = true ∧ id.isNull = false)
    {entry : ListField × List Value} (hmem : entry ∈ listsOf table (withDoubles table doc))
    (h : Yields (addLinks schema now entry.1 id entry.2) tx () tx') : tx'.Prepared schema := by
  have hpartial := Document.checkPartial_of_check hcheck
  obtain ⟨_, _, _, hserves, hmembers⟩ := serves_of_mem_listsOf hwf hbase hshares hk hpartial
    ((mem_listsOf_withDoubles (hwf.lists_apart hbase hshares)).1 hmem)
  exact prepared_of_addLinks hwf hprepared hserves hid hmembers h

theorem prepared_of_list {key : Value} (hkey : k.type.accepts key = true ∧ key.isNull = false)
    (hm : m ∈ table.lists)
    (h : Yields (setLinks schema now m key (membersFor table doc m)) tx () tx') :
    tx'.Prepared schema := by
  obtain ⟨_, _, _, hserves, hmembers⟩ := serves_of_list hwf hbase hshares hk hcheck hm
  exact prepared_of_setLinks hwf hprepared hserves hkey hmembers h

/-- An insertion leaves the transaction open. -/
theorem prepared_of_insert {id : Value} {new : Record}
    (h : Yields (insert schema table now doc) tx (id, new) tx') :
    tx'.Prepared schema := by
  obtain ⟨-, ⟨mid, hrow, hlinks⟩, -⟩ := yields_insert.1 h
  obtain ⟨hmid, hid⟩ := prepared_of_insertRow hwf hprepared hbase hshares hk hcheck hrow
  exact forM_induction (fun entry hmem _ _ hprepared hstep =>
    prepared_of_given hwf hprepared hbase hshares hk hcheck hid hmem hstep) hmid hlinks

theorem prepared_of_replace {id : Value} (h : Yields (replace schema table now id doc) tx () tx') :
    tx'.Prepared schema := by
  obtain ⟨key, rows, mid, -, hkey, hstored, hrow, hlinks⟩ := yields_replace.1 h
  have hmid := prepared_of_replacedRow hwf hprepared hbase hshares hcheck hkey hstored hrow
  exact forM_induction
    (fun m hm _ _ hprepared hstep => prepared_of_list hwf hprepared hbase hshares hk hcheck
    (accepts_of_keyFor (hshares.keyColumn?.trans hk) hkey) hm hstep) hmid hlinks

variable (hco : schema.Coherent) (hkeys : base.KeysFilled)
  (hleaves : Document.leavesNull table doc = false)
include hco hkeys hleaves

/-- An insertion of a checked document fails in a conflict only, be it of its row or of its
links. -/
theorem isConflict_of_insert (h : Fails (insert schema table now doc) tx e) :
    e.isConflict = true := by
  rcases fails_insert h with hrefused | hrow | ⟨id, mid, hrow, hlinks⟩
  · rw [hcheck] at hrefused
    cases hrefused
  · exact Transaction.isConflict_of_insert hwf hprepared (Schema.mem_physical_of_base hbase) hshares
      (completes_insertedRow hco hwf hbase hshares hcheck hkeys hleaves) hrow
  · obtain ⟨hmid, hid⟩ := prepared_of_insertRow hwf hprepared hbase hshares hk hcheck hrow
    obtain ⟨entry, hmem, mid', hmid', hstep⟩ := fails_forM (fun entry hmem _ _ hprepared hstep =>
      prepared_of_given hwf hprepared hbase hshares hk hcheck hid hmem hstep) hmid hlinks
    have hpartial := Document.checkPartial_of_check hcheck
    obtain ⟨_, _, _, hserves, hmembers⟩ := serves_of_mem_listsOf hwf hbase hshares hk hpartial
      ((mem_listsOf_withDoubles (hwf.lists_apart hbase hshares)).1 hmem)
    exact isConflict_of_addLinks hwf hmid' hserves hid hmembers hstep

/-- A replacement by a checked document fails in a conflict only, be it of its row or of its
links. -/
theorem isConflict_of_replace {id key : Value} (hkey : keyFor table id = .ok key)
    (h : Fails (replace schema table now id doc) tx e) : e.isConflict = true := by
  have hphysical := Schema.mem_physical_of_base hbase
  rcases fails_replace h with hrefused | hinvalid
    | ⟨key', hkey', hblocked | ⟨rows, hstored, hwrite⟩⟩
  · rw [hcheck] at hrefused
    cases hrefused
  · rw [hkey] at hinvalid
    cases hinvalid
  · exact hprepared.isConflict_of_blocked hphysical hshares.name hblocked
  · rcases hwrite with hrow | ⟨mid, hrow, hlinks⟩
    · exact Transaction.isConflict_of_upsert hwf hprepared hphysical hshares
        (completes_replacedRow hco hwf hbase hshares hcheck hkeys hleaves hkey' rows.head?) hrow
    · have hmid := prepared_of_replacedRow hwf hprepared hbase hshares hcheck hkey' hstored hrow
      have haccepts := accepts_of_keyFor (hshares.keyColumn?.trans hk) hkey'
      obtain ⟨m, hm, mid', hmid', hstep⟩ := fails_forM (fun m hm _ _ hprepared hstep =>
        prepared_of_list hwf hprepared hbase hshares hk hcheck haccepts hm hstep) hmid hlinks
      obtain ⟨_, _, _, hserves, hmembers⟩ := serves_of_list hwf hbase hshares hk hcheck hm
      exact isConflict_of_setLinks hwf hmid' hserves haccepts hmembers hstep

end Changes

end Change

/-! ## Null as a default -/

section NullDefault

variable {schema : Schema} {table base : Table} {now : Time.Instant} {doc : Record}

/-- In a table without rows a cell that is null against its will is refused, unless another null
before it is; no other rule can be broken there by then. -/
theorem Store.exists_null_violation {s : Store} {columns before after : List Column} {c : Column}
    {row : Record} (hsplit : columns = before ++ c :: after)
    (hplain : ∀ d ∈ before ++ [c], d.references = none) (hnull : (row.cell c.name).isNull = true)
    (hnot : c.nullable = false) :
    ∃ d : Column, s.checkRules table columns [] row
      = .error (.constraint table.name (.nullValue d.name)) := by
  have hcell : s.checkCell table.name [] row c
    = .error (.constraint table.name (.nullValue c.name)) := by
    unfold checkCell
    dsimp only
    rw [if_pos hnull, hnot]
    rfl
  obtain ⟨d, hd, e, hfails, hall⟩ := exists_first_error before after hcell
  have hrules : s.checkRules table columns [] row = .error e := by
    rw [hsplit]
    exact bind_eq_error_iff.2 (.inl hall)
  cases refuses_of_checkCell hfails with
  | null => exact ⟨d, hrules⟩
  | held _ hother => cases hother
  | noTable hkey => rw [hplain d hd] at hkey; cases hkey
  | missing hkey => rw [hplain d hd] at hkey; cases hkey

/-- The column that is to be null, which the check takes to be filled in. -/
theorem Document.exists_of_leavesNull (h : Document.leavesNull table doc = true) :
    ∃ c ∈ table.columns, c.nullable = false ∧ c.default? = some .null ∧ doc.get? c.name = none := by
  obtain ⟨c, hc, hleft⟩ := List.any_eq_true.1 h
  cases hdefault : c.default? with
  | none => simp [hdefault] at hleft
  | some v =>
    have hparts : c.nullable = false ∧ v.isNull = true ∧ ¬ doc.contains c.name = true := by
      simpa [hdefault, and_assoc] using hleft
    obtain ⟨hnot, hnull, habsent⟩ := hparts
    obtain rfl : v = .null := by cases v <;> first | rfl | cases hnull
    rw [NameMap.contains_iff, NameMap.mem_keys_iff, Option.not_isSome_iff_eq_none] at habsent
    exact ⟨c, hc, hnot, hdefault, habsent⟩

open Compile in
/-- Before a column whose default is null no other one points at a resource. -/
theorem Compile.Assembly.of_null_default {settings : Settings} {domain : Domain} {parts : List Part}
    {links : List BuiltLink} (h : Assembly settings domain schema parts links)
    (hbase : base ∈ schema.bases) {c : Column} (hc : c ∈ base.columns)
    (hnull : c.default? = some .null) :
    c.name ∉ Change.stampColumns ∧ c.autoIncrement = false
      ∧ ∃ before after, base.columns = before ++ c :: after
        ∧ ∀ d ∈ before ++ [c], d.references = none := by
  obtain ⟨part, hpart, rfl⟩ := h.mem_bases.1 hbase
  have hcompiled := h.compiled part hpart
  obtain ⟨hstamp, hnumber⟩ := Part.of_null_default hcompiled hc hnull
  exact ⟨hstamp, hnumber, Part.split_of_default hcompiled hc hnull⟩

/-- A document that leaves null is refused by a table without rows. -/
theorem Change.fails_insert_of_leavesNull {settings : Settings} {domain : Domain}
    {parts : List Compile.Part} {links : List Compile.BuiltLink}
    (hassembly : Compile.Assembly settings domain schema parts links) (hco : schema.Coherent)
    (hwf : schema.WellFormed) (hbase : base ∈ schema.bases) (hshares : table.SharesRows base)
    (hcheck : Document.check schema table doc = .ok ())
    (hleaves : Document.leavesNull table doc = true) {tx : Transaction} (hopen : tx.isOpen = true)
    (hfaults : tx.faults = [])
    (ht : tx.work.tables.get? base.name = some { columns := base.columns }) :
    ∃ d : Column,
      Fails (insert schema table now doc) tx
        (.storage (.constraint table.name (.nullValue d.name))) := by
  have hbasewf := hwf.tables base (Schema.mem_physical_of_base hbase)
  obtain ⟨c, hc, hnot, hdefault, hnone⟩ := Document.exists_of_leavesNull hleaves
  rw [hshares.columns] at hc
  obtain ⟨hstamp, hnumber, before, after, hsplit, hplain⟩ :=
    hassembly.of_null_default hbase hc hdefault
  have hnames : ∀ name ∈ (insertedRow table now doc).keys, name ∈ base.columnNames :=
    names_insertedRow hbasewf hshares (Document.checkPartial_of_check hcheck)
  rw [← hshares.name] at ht
  -- the column is given nothing, and filled with its default
  obtain ⟨row, next, hfill⟩ :
    ∃ row next, StoredTable.fill { columns := base.columns } (.string now.text)
    (insertedRow table now doc) = (row, next) := ⟨_, _, rfl⟩
  have hcell : row.cell c.name = .null := by
    obtain ⟨n, hcell⟩ :=
      hco.cell_inserted hbase hshares hc (fun d hd => hbasewf.eq_of_name hd hc) hstamp rfl
      (show isSigned64 1 = true by decide) hfill
    simpa [hnone, StoredTable.filling, hnumber, hdefault] using hcell
  obtain ⟨d, hrules⟩ : ∃ d : Column,
      (tx.work.put table.name { columns := base.columns, nextId := next }).checkRules
        table base.columns [] row
        = .error (.constraint table.name (.nullValue d.name)) :=
    Store.exists_null_violation hsplit hplain (by rw [hcell]; rfl) hnot
  refine ⟨d, fails_result_bind.2 (.inr ⟨(), hcheck, fails_bind.2 (.inl ?_)⟩)⟩
  refine fails_bind.2 (.inr ⟨(), tx, Transaction.yields_demandOpen.2 ⟨hopen, rfl⟩, ?_⟩)
  refine fails_bind.2 (.inr ⟨(), tx, Transaction.yields_spendFault.2 ⟨by simp [hfaults], rfl⟩, ?_⟩)
  exact fails_bind.2 (.inl (Transaction.fails_append_of_checkRules hopen ht
    ((StoredTable.checkColumns_eq_ok_iff _ _).2 hnames) hfill hrules))

end NullDefault

/-! ## Runs -/

/-- A transaction that stays open fails by its steps. -/
theorem Database.isConflict_of_transact {α : Type} {schema : Schema} {db : Database}
    {steps : Action α} {e : Error} (hfails : ∀ e, Fails steps (.begin db) e → e.isConflict = true)
    (hprepared : ∀ x tx, Yields steps (.begin db) x tx → tx.Prepared schema)
    (h : (db.transact steps).1 = .error e) :
    e.isConflict = true := by
  rcases Database.transact_eq_error_iff.1 h with hsteps | ⟨-, x, tx, hyields, hclosed⟩
  · exact hfails e hsteps
  · rw [(hprepared x tx hyields).isOpen] at hclosed
    cases hclosed

/-- Creating tables plants no faults. -/
theorem Database.faults_applySchema (db : Database) (schema : Schema) :
    (db.applySchema schema).faults = db.faults := by
  have hfold (tables : List Table) (db : Database) :
    (tables.foldl createTable db).faults = db.faults := by
    induction tables generalizing db with
    | nil => rfl
    | cons table rest ih => exact ih (db.createTable table)
  exact hfold schema.physical db

namespace Catalog

variable {settings : Settings} {domain : Domain} {catalog : Catalog}
  {resource : String} {table : Table}
  {doc : Record}

/-- The insertion of one document fails as its transaction does. -/
theorem insert_singleton (htable : catalog.schema.table resource = .ok table) (now : Time.Instant)
    (doc : Record) (db : Database) (e : Error) :
    (catalog.insert resource now [doc] db).1.ids = .error e
      ↔ (catalog.insertOne table now doc db).1 = .error e := by
  rw [insert, htable]
  dsimp only
  cases h : (catalog.insertOne table now doc db).1 with
  | error err =>
    rw [insertAll_cons_error h]
    simp
  | ok new =>
    rw [insertAll_cons_ok h]
    constructor <;> exact fun h => by cases h

theorem keysFilled_of_ofDomain (hcompiles : Catalog.ofDomain settings domain = .ok catalog)
    {base : Table} (hbase : base ∈ catalog.schema.bases) : base.KeysFilled := by
  obtain ⟨schema, hschema, rfl⟩ := map_eq_ok_iff.1 hcompiles
  obtain ⟨parts, links, hassembly⟩ := Compile.exists_assembly hschema
  obtain ⟨part, hpart, rfl⟩ := hassembly.mem_bases.1 hbase
  exact fun c hc hkey => Compile.Part.key_not_null (hassembly.compiled part hpart) hc hkey

/-- Once the tables are created, they are there, and sound. -/
theorem prepared_run (hco : catalog.schema.Coherent) (hwf : catalog.schema.WellFormed)
    {steps : List Step} (hcreated : ∃ t, (t, Operation.createTables) ∈ steps) :
    (catalog.run steps).store.Prepared catalog.schema where
  sound := sound_run_anytime hwf steps
  created table htable := by
    obtain ⟨time, hmem⟩ := hcreated
    obtain ⟨done, later, rfl⟩ := List.append_of_mem hmem
    have hthere : ∃ t, (catalog.run (done ++ [(time, .createTables)])).store.tables.get?
      table.name = some t := by
      rw [run_append]
      exact ⟨_, (creates_applySchema (catalog.run done) catalog.schema).get? hco htable⟩
    -- no later step takes a table away
    rw [List.append_cons]
    exact Store.exists_table_of_moves (moves_run_append hwf _ later) hthere

/-- Once the tables of an empty database are created, a document that leaves null is refused for
that. -/
theorem refused_of_leavesNull (hcompiles : Catalog.ofDomain settings domain = .ok catalog)
    (hnames : settings.NamesApart) (htable : catalog.schema.table resource = .ok table)
    (hcheck : Document.check catalog.schema table doc = .ok ())
    (hleaves : Document.leavesNull table doc = true) (now : Time.Instant) :
    ∃ d : Column, (catalog.insert resource now [doc] (catalog.run [(now, .createTables)])).1.ids
      = .error (.storage (.constraint table.name (.nullValue d.name))) := by
  have hco := coherent_of_ofDomain hcompiles
  have hwf := wellFormed_of_ofDomain hcompiles hnames
  obtain ⟨base, hbase, hshares⟩ := base_of_table hwf htable
  obtain ⟨schema, hschema, rfl⟩ := map_eq_ok_iff.1 hcompiles
  obtain ⟨parts, links, hassembly⟩ := Compile.exists_assembly hschema
  have ht := (creates_applySchema {} schema).get? hco (Schema.mem_physical_of_base hbase)
  obtain ⟨d, hfails⟩ : ∃ d : Column, Fails (Change.insert schema table now doc)
      (.begin (({} : Database).applySchema schema))
        (.storage (.constraint table.name (.nullValue d.name))) :=
    Change.fails_insert_of_leavesNull hassembly hco hwf hbase hshares hcheck hleaves rfl
      (Database.faults_applySchema _ _) ht
  exact ⟨d, (insert_singleton htable now doc _ _).2
    (Database.transact_eq_error_iff.2 (.inl hfails))⟩

/-- **A document that passes the check is refused for conflicts only, in every state that has the
tables, if and only if it leaves out no column whose default is null although the column takes
none.** So it is neither null in a column that takes none, nor an unknown column, table or link
table, that makes its insertion fail, or its replacement under a valid identifier. -/
theorem conflicts_only_iff (hcompiles : Catalog.ofDomain settings domain = .ok catalog)
    (hnames : settings.NamesApart) (htable : catalog.schema.table resource = .ok table)
    (hcheck : Document.check catalog.schema table doc = .ok ()) :
    (∀ steps, (∃ t, (t, Operation.createTables) ∈ steps) → ∀ now,
      (∀ e, (catalog.insert resource now [doc] (catalog.run steps)).1.ids = .error e →
        e.isConflict = true)
      ∧ ∀ id key, Change.keyFor table id = .ok key →
        ∀ e, (catalog.replace resource now id doc (catalog.run steps)).1 = .error e →
          e.isConflict = true)
      ↔ Document.leavesNull table doc = false := by
  have hco := coherent_of_ofDomain hcompiles
  have hwf := wellFormed_of_ofDomain hcompiles hnames
  obtain ⟨base, hbase, hshares⟩ := base_of_table hwf htable
  obtain ⟨k, hk, -⟩ := (hwf.tables base (Schema.mem_physical_of_base hbase)).key
  have hkeys := keysFilled_of_ofDomain hcompiles hbase
  constructor
  · intro hconflicts
    by_contra hnot
    obtain ⟨d, hrefused⟩ :=
      refused_of_leavesNull hcompiles hnames htable hcheck (by simpa using hnot) ⟨0, 0⟩
    cases (hconflicts [(⟨0, 0⟩, .createTables)] ⟨_, List.mem_singleton_self _⟩ ⟨0, 0⟩).1 _ hrefused
  · intro hleaves steps hcreated now
    have hprepared : (Transaction.begin (catalog.run steps)).Prepared catalog.schema :=
      ⟨rfl, prepared_run hco hwf hcreated⟩
    constructor
    · intro e he
      exact Database.isConflict_of_transact
        (fun e h => Change.isConflict_of_insert hwf hprepared
          hbase hshares hk hcheck hco hkeys hleaves h)
        (fun ⟨_, _⟩ _ h => Change.prepared_of_insert hwf hprepared hbase hshares hk hcheck h)
        ((insert_singleton htable now doc _ e).1 he)
    · intro id key hkey e he
      rw [replace, htable] at he
      exact Database.isConflict_of_transact
        (fun e h => Change.isConflict_of_replace hwf hprepared
          hbase hshares hk hcheck hco hkeys hleaves hkey h)
        (fun _ _ h => Change.prepared_of_replace hwf hprepared hbase hshares hk hcheck h) he

/-! ### Samples -/

/-- A team whose leader is not there. -/
def leaderlessTeam : Record := .ofList [("lead", .int 7), ("members", .array [.int 1])]

/-- The team passes the check, and is neither inserted nor replaced: that is a conflict. -/
theorem leaderless_team_in_conflict :
    Catalog.ofDomain {} sampleDomain = .ok sampleCatalog ∧ Settings.NamesApart {}
      ∧ ∃ table, sampleCatalog.schema.table "team" = .ok table
        ∧ Document.check sampleCatalog.schema table leaderlessTeam = .ok ()
        ∧ (∃ e, e.isConflict = true
          ∧ (sampleCatalog.insert "team" ⟨3, 0⟩ [leaderlessTeam]
            (sampleCatalog.run sampleSteps)).1.ids = .error e)
        ∧ ∃ e, e.isConflict = true
          ∧ (sampleCatalog.replace "team" ⟨3, 0⟩ (.int 1)
            leaderlessTeam (sampleCatalog.run sampleSteps)).1
            = .error e := by
  have hteam : ∀ table ∈ (sampleCatalog.schema.table "team").toOption,
      (Document.check sampleCatalog.schema table leaderlessTeam).toOption = some ()
        ∧ Document.leavesNull table leaderlessTeam = false
        ∧ (Change.keyFor table (.int 1)).toOption = some (.int 1) := by
    decide +kernel
  have hfails :
      (sampleCatalog.insert "team" ⟨3, 0⟩ [leaderlessTeam]
        (sampleCatalog.run sampleSteps)).1.ids.toOption = none
      ∧ (sampleCatalog.replace "team" ⟨3, 0⟩ (.int 1) leaderlessTeam
        (sampleCatalog.run sampleSteps)).1.toOption = none := by
    decide +kernel
  obtain ⟨table, htable⟩ : ∃ table, sampleCatalog.schema.table "team" = .ok table := ⟨_, rfl⟩
  obtain ⟨hcheck, hleaves, hkey⟩ := hteam table (by rw [htable]; rfl)
  have hcheck := eq_ok_of_toOption hcheck
  obtain ⟨hinsert, hreplace⟩ :=
    (conflicts_only_iff ofDomain_sample (by decide) htable hcheck).2 hleaves sampleSteps
    ⟨⟨0, 0⟩, List.mem_cons_self⟩ ⟨3, 0⟩
  refine ⟨ofDomain_sample, by decide, table, htable, hcheck, ?_, ?_⟩
  · cases h : (sampleCatalog.insert "team" ⟨3, 0⟩ [leaderlessTeam]
      (sampleCatalog.run sampleSteps)).1.ids with
    | ok ids => rw [h] at hfails; cases hfails.1
    | error e => exact ⟨e, hinsert e h, rfl⟩
  · cases h : (sampleCatalog.replace "team" ⟨3, 0⟩ (.int 1) leaderlessTeam
      (sampleCatalog.run sampleSteps)).1 with
    | ok id => rw [h] at hfails; cases hfails.2
    | error e => exact ⟨e, hreplace _ _ (eq_ok_of_toOption hkey) e h, rfl⟩

/-- People have names, which are null unless they are given, and may not be null. -/
def namelessDomain : Domain := .ofList [
  ("person", { fields := .ofList [
    ("name", { typeName := "string", required := true, default? := some .null })] })]

def namelessCatalog : Catalog := .compiled {} namelessDomain

theorem ofDomain_nameless : Catalog.ofDomain {} namelessDomain = .ok namelessCatalog :=
  Catalog.ofDomain_compiled rfl

/-- Once the table of people is created. -/
def noPeople : Database := namelessCatalog.run [(⟨0, 0⟩, .createTables)]

/-- A person without a name passes the check, and is refused by the empty table. -/
theorem null_default_refused :
    Catalog.ofDomain {} namelessDomain = .ok namelessCatalog ∧ Settings.NamesApart {}
      ∧ ∃ table, namelessCatalog.schema.table "person" = .ok table
        ∧ Document.check namelessCatalog.schema table {} = .ok ()
        ∧ (∃ key, Change.keyFor table (.int 1) = .ok key)
        ∧ (namelessCatalog.insert "person" ⟨1, 0⟩ [{}] noPeople).1.ids
          = .error (.storage (.constraint "person" (.nullValue "name")))
        ∧ (namelessCatalog.replace "person" ⟨1, 0⟩ (.int 1) {} noPeople).1
          = .error (.storage (.constraint "person" (.nullValue "name"))) :=
  ⟨ofDomain_nameless, by decide, _, rfl, rfl, ⟨_, rfl⟩, rfl, rfl⟩

end Catalog

end RecordStore
