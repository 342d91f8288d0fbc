import RecordStore.Proofs.Progress

/-!
# Generated keys

The next number of a table is past every number that was ever a key of one of its rows. It is looked
at when a row is put into the table, and never lowered; rows that are changed keep their keys, and
rows that go leave it as it is.

* **`StoredTable.fill_number`** — the key that a row gets, and the next number after it.
* **`StoredTable.Adds.counts`**, **`StoredTable.Adds.ascends`** — rows that are added one after the
  other.
* **`Store.Counts`** — what one operation does to the next numbers.

All of this holds as long as the keys stay below the greatest number of 64 bits, after which the
numbers begin again with the least.
-/

namespace RecordStore

/-- The greatest signed number of 64 bits, after which no number is left. -/
def lastNumber : Int := Nat.pow 2 63 - 1

namespace StoredTable

theorem successor_eq {n : Int} (hn : isSigned64 n = true) (hlast : n < lastNumber) :
    successor n = n + 1 := by
  have hpow : (Nat.pow 2 63 : Int) = 9223372036854775808 := by decide
  have hpow' : ((Nat.pow 2 64 : Nat) : Int) = 18446744073709551616 := by decide
  simp only [isSigned64, Bool.and_eq_true, decide_eq_true_eq, hpow] at hn
  rw [lastNumber, hpow] at hlast
  unfold successor
  rw [Int.bmod_def, hpow']
  split <;> omega

/-- A column without generated numbers takes none. -/
theorem fillColumn_of_not_numbered {c : Column} (hnot : c.autoIncrement = false) (now : Value)
    (record : Record) (state : Record × Int) : (fillColumn now record state c).2 = state.2 := by
  rw [fillColumn, hnot]
  rfl

/-- Columns without generated numbers take none. -/
theorem fillColumns_of_not_numbered {columns : List Column}
    (hnot : ∀ c ∈ columns, c.autoIncrement = false) (now : Value) (record : Record)
    (state : Record × Int) : (columns.foldl (fillColumn now record) state).2 = state.2 := by
  induction columns generalizing state with
  | nil => rfl
  | cons c rest ih =>
    rw [List.foldl_cons, ih fun d hd => hnot d (List.mem_cons_of_mem _ hd),
      fillColumn_of_not_numbered (hnot c List.mem_cons_self)]

/-- Of columns of which one alone has generated numbers, this one takes the next number, unless the
record has a value for it. -/
theorem fillColumns_number {columns : List Column} {k : Column}
    (hnodup : (columns.map Column.name).Nodup) (hk : k ∈ columns) (hauto : k.autoIncrement = true)
    (honly : ∀ c ∈ columns, c.autoIncrement = true → c = k) (now : Value) (record : Record)
    (state : Record × Int) :
    (columns.foldl (fillColumn now record) state).1.get? k.name
        = some ((record.get? k.name).getD (.int state.2))
      ∧ (columns.foldl (fillColumn now record) state).2
        = numberAfter state.2 (record.get? k.name) := by
  -- on the columns: those before the key and those after it take no number
  induction columns generalizing state with
  | nil => cases hk
  | cons c rest ih =>
    rw [List.map_cons, List.nodup_cons] at hnodup
    rw [List.foldl_cons]
    have hlater (d : Column) (hd : d ∈ rest) (hnumber : d.autoIncrement = true) : d = k :=
      honly d (List.mem_cons_of_mem _ hd) hnumber
    by_cases hck : c = k
    · subst hck
      have hrest (d : Column) (hd : d ∈ rest) : d.autoIncrement = false := by
        by_contra hnumber
        exact hnodup.1 (hlater d hd (by simpa using hnumber) ▸ List.mem_map_of_mem hd)
      rw [get?_fillColumns_of_not_mem _ hnodup.1, fillColumns_of_not_numbered hrest]
      simp [fillColumn, filling, hauto]
    · have hnot : c.autoIncrement = false := by
        by_contra hnumber
        exact hck (honly c List.mem_cons_self (by simpa using hnumber))
      have hmem : k ∈ rest := (List.mem_cons.1 hk).resolve_left (Ne.symm hck)
      have hnumber := ih hnodup.2 hmem hlater (fillColumn now record state c)
      rw [fillColumn_of_not_numbered hnot] at hnumber
      exact hnumber

/-- The number that a column of generated numbers is given, and the next number after it. -/
theorem fill_number {t : StoredTable} {k : Column} (hnodup : (t.columns.map Column.name).Nodup)
    (hk : k ∈ t.columns) (hauto : k.autoIncrement = true)
    (honly : ∀ c ∈ t.columns, c.autoIncrement = true → c = k) (now : Value) (record : Record) :
    (t.fill now record).1.get? k.name = some ((record.get? k.name).getD (.int t.nextId))
      ∧ (t.fill now record).2 = numberAfter t.nextId (record.get? k.name) :=
  fillColumns_number hnodup hk hauto honly now record ({}, t.nextId)

/-- What is known of the column of generated keys of a table. -/
structure Numbered (t : StoredTable) (k : Column) : Prop where
  names_nodup : (t.columns.map Column.name).Nodup
  mem : k ∈ t.columns
  auto : k.autoIncrement = true
  only : ∀ c ∈ t.columns, c.autoIncrement = true → c = k
  type_eq : k.type = .integer

/-- A generated key is the next number. -/
theorem Numbered.cell_eq {t : StoredTable} {k : Column} (h : t.Numbered k) {now : Value}
    {record row : Record} {next : Int} (hfill : t.fill now record = (row, next))
    (hnone : record.get? k.name = none) : row.cell k.name = .int t.nextId := by
  obtain ⟨hget, -⟩ := fill_number h.names_nodup h.mem h.auto h.only now record
  rw [hfill, hnone] at hget
  exact Record.cell_eq_of_get? hget

/-- The next number follows it. -/
theorem Numbered.next_eq {t : StoredTable} {k : Column} (h : t.Numbered k) {now : Value}
    {record row : Record} {next : Int} (hcounter : isSigned64 t.nextId = true)
    (hlast : t.nextId < lastNumber) (hfill : t.fill now record = (row, next))
    (hnone : record.get? k.name = none) : next = t.nextId + 1 := by
  obtain ⟨-, hnext⟩ := fill_number h.names_nodup h.mem h.auto h.only now record
  rw [hfill, hnone] at hnext
  exact hnext.trans (successor_eq hcounter hlast)

theorem Numbered.of_columns_eq {t t' : StoredTable} {k : Column} (h : t.Numbered k)
    (hcolumns : t'.columns = t.columns) : t'.Numbered k :=
  ⟨hcolumns ▸ h.names_nodup, hcolumns ▸ h.mem, h.auto, hcolumns ▸ h.only, h.type_eq⟩

/-- The next number has 64 bits again. -/
theorem isSigned64_of_fill {t : StoredTable} {now : Value} {record row : Record} {next : Int}
    (hcounter : isSigned64 t.nextId = true) (hfill : t.fill now record = (row, next)) :
    isSigned64 next = true := by
  have hcount := fill_counter t now record hcounter
  rwa [hfill] at hcount

/-- The keys of the rows of a table that are numbers are not the last one. -/
def KeysBelow (t : StoredTable) (k : Column) : Prop :=
  ∀ row ∈ t.rows, ∀ n, row.cell k.name = .int n → n < lastNumber

section Adds

variable {groups : List (List String)} {now : Value} {t t' : StoredTable} {records : List Record}
  {k : Column}

theorem Adds.rows_prefix (h : t.Adds groups now records t') : t.rows <+: t'.rows := by
  induction h with
  | nil => exact List.prefix_refl _
  | cons _ _ _ ih => exact (List.prefix_append _ _).trans ih

/-- The next number after a row is past the row's own. -/
theorem fill_counts (hnumbered : t.Numbered k) (hcounter : isSigned64 t.nextId = true)
    {record row : Record} {next : Int} (hfill : t.fill now record = (row, next))
    (hplain : ∀ v, record.get? k.name = some v → k.Plain v)
    (hbelow : ∀ n, row.cell k.name = .int n → n < lastNumber) :
    t.nextId ≤ next ∧ ∀ n, row.cell k.name = .int n → n < next := by
  obtain ⟨hget, hnext⟩ := fill_number hnumbered.names_nodup hnumbered.mem hnumbered.auto
    hnumbered.only now record
  rw [hfill] at hget hnext
  have hcell := Record.cell_eq_of_get? hget
  cases hgiven : record.get? k.name with
  | none =>
    rw [hgiven, Option.getD_none] at hcell
    rw [hgiven] at hnext
    have hsucc := successor_eq hcounter (hbelow _ hcell)
    change next = successor t.nextId at hnext
    refine ⟨by omega, fun n hn => ?_⟩
    obtain rfl := Value.int.inj (hcell.symm.trans hn)
    omega
  | some v =>
    rw [hgiven, Option.getD_some] at hcell
    rw [hgiven] at hnext
    -- a given number has 64 bits, so it moves the next number past itself
    have hint (n : Int) (hn : v = .int n) : v.integer? = some n ∧ isSigned64 n = true := by
      have haccepts := hplain v hgiven (by rw [hn]; rfl)
      rw [hnumbered.type_eq, hn] at haccepts
      have hsigned : isSigned64 n = true := haccepts
      exact ⟨by rw [hn, Value.integer?, if_pos hsigned], hsigned⟩
    rw [numberAfter] at hnext
    constructor
    · split at hnext <;> omega
    · intro n hn
      obtain ⟨hinteger, hsigned⟩ := hint n (hcell.symm.trans hn)
      have hsucc := successor_eq hsigned (hbelow n hn)
      rw [hinteger] at hnext
      change next = max t.nextId (successor n) at hnext
      omega

/-- **The next number never falls, and passes every key that is given or generated.** -/
theorem Adds.counts (h : t.Adds groups now records t') (hnumbered : t.Numbered k)
    (hcounter : isSigned64 t.nextId = true)
    (hplain : ∀ record ∈ records, ∀ v, record.get? k.name = some v → k.Plain v)
    (hbelow : t'.KeysBelow k) :
    t.nextId ≤ t'.nextId
      ∧ ∀ row ∈ t'.rows, row ∈ t.rows ∨ ∀ n, row.cell k.name = .int n → n < t'.nextId := by
  induction h with
  | nil => exact ⟨Int.le_refl _, fun row hrow => .inl hrow⟩
  | @cons t t' record row records next s hfill _ hrest ih =>
    have hmem : row ∈ t'.rows := hrest.rows_prefix.subset (by simp)
    obtain ⟨hle, hlt⟩ := fill_counts hnumbered hcounter hfill
      (hplain record List.mem_cons_self) (hbelow row hmem)
    obtain ⟨hle', hrows⟩ := ih (hnumbered.of_columns_eq rfl) (isSigned64_of_fill hcounter hfill)
      (fun r hr => hplain r (List.mem_cons_of_mem _ hr)) hbelow
    change next ≤ t'.nextId at hle'
    refine ⟨Int.le_trans hle hle', fun r hr => ?_⟩
    rcases hrows r hr with hmem | hnumber
    · rcases List.mem_append.1 hmem with hmem | hmem
      · exact .inl hmem
      · rw [List.mem_singleton.1 hmem]
        exact .inr fun n hn => Int.lt_of_lt_of_le (hlt n hn) hle'
    · exact .inr hnumber

/-- The keys of rows are numbers within bounds, each greater than those before it. -/
def Ascend (k : Column) (least past : Int) (rows : List Record) : Prop :=
  (∀ row ∈ rows, ∃ n, row.cell k.name = .int n ∧ least ≤ n ∧ n < past)
    ∧ rows.Pairwise fun a b => ∃ m n, a.cell k.name = .int m ∧ b.cell k.name = .int n ∧ m < n

/-- **Rows without keys get numbers, in their order.** -/
theorem Adds.ascends (h : t.Adds groups now records t') (hnumbered : t.Numbered k)
    (hcounter : isSigned64 t.nextId = true)
    (hnone : ∀ record ∈ records, record.get? k.name = none) (hbelow : t'.KeysBelow k) :
    t.nextId ≤ t'.nextId ∧ ∃ new, t'.rows = t.rows ++ new ∧ Ascend k t.nextId t'.nextId new := by
  induction h with
  | nil t => exact ⟨Int.le_refl _, [], (List.append_nil _).symm, by simp [Ascend]⟩
  | @cons t t' record row records next s hfill _ hrest ih =>
    have hmem : row ∈ t'.rows := hrest.rows_prefix.subset (by simp)
    have hgiven := hnone record List.mem_cons_self
    have hcell := hnumbered.cell_eq hfill hgiven
    have hsucc := hnumbered.next_eq hcounter (hbelow row hmem _ hcell) hfill hgiven
    obtain ⟨hle, new, hrows, hnumbers, hpairs⟩ := ih (hnumbered.of_columns_eq rfl)
      (isSigned64_of_fill hcounter hfill) (fun r hr => hnone r (List.mem_cons_of_mem _ hr)) hbelow
    change next ≤ t'.nextId at hle
    refine ⟨by omega, row :: new, by rw [hrows, List.append_assoc, List.singleton_append], ?_, ?_⟩
    · intro r hr
      rcases List.mem_cons.1 hr with rfl | hr
      · exact ⟨t.nextId, hcell, Int.le_refl _, by omega⟩
      · obtain ⟨n, hn, hleast, hpast⟩ := hnumbers r hr
        change next ≤ n at hleast
        exact ⟨n, hn, by omega, hpast⟩
    · refine List.pairwise_cons.2 ⟨fun r hr => ?_, hpairs⟩
      obtain ⟨n, hn, hleast, -⟩ := hnumbers r hr
      change next ≤ n at hleast
      exact ⟨t.nextId, n, hcell, hn, by omega⟩

/-- Numbers that ascend go on to do so with later ones behind them. -/
theorem Ascend.append {least mid past : Int} {rows later : List Record}
    (h : Ascend k least mid rows) (hlater : Ascend k mid past later) (hleast : least ≤ mid)
    (hpast : mid ≤ past) :
    Ascend k least past (rows ++ later) := by
  refine ⟨fun row hrow => ?_, List.pairwise_append.2 ⟨h.2, hlater.2, fun a ha b hb => ?_⟩⟩
  · rcases List.mem_append.1 hrow with hrow | hrow
    · obtain ⟨n, hn, hle, hlt⟩ := h.1 row hrow
      exact ⟨n, hn, hle, by omega⟩
    · obtain ⟨n, hn, hle, hlt⟩ := hlater.1 row hrow
      exact ⟨n, hn, by omega, hlt⟩
  · obtain ⟨m, hm, -, hlt⟩ := h.1 a ha
    obtain ⟨n, hn, hle, -⟩ := hlater.1 b hb
    exact ⟨m, n, hm, hn, by omega⟩

theorem Ascend.sublist {least past : Int} {rows fewer : List Record} (h : Ascend k least past rows)
    (hsub : fewer.Sublist rows) : Ascend k least past fewer :=
  ⟨fun row hrow => h.1 row (hsub.subset hrow), h.2.sublist hsub⟩

end Adds

end StoredTable

/-! ## All tables of a store -/

/-- The keys of all rows that are numbers are not the last one. -/
def Store.KeysBelow (schema : Schema) (s : Store) : Prop :=
  ∀ table ∈ schema.physical, ∀ row ∈ s.rows table.name, ∀ n,
    row.cell table.primaryKey = .int n → n < lastNumber

/-- A value is not the last number, nor past it. -/
def Value.isBelow : Value → Bool
  | .int n => decide (n < lastNumber)
  | _ => true

theorem Value.isBelow_iff (v : Value) : v.isBelow = true ↔ ∀ n, v = .int n → n < lastNumber := by
  cases v <;> simp [isBelow]

instance (schema : Schema) (s : Store) : Decidable (s.KeysBelow schema) :=
  decidable_of_iff
    (∀ table ∈ schema.physical, ∀ row ∈ s.rows table.name,
      (row.cell table.primaryKey).isBelow = true) (by
    simp only [Value.isBelow_iff]
    rfl)

/-- The keys of links that are numbers are not the last one. As links are given their numbers one
after the other, this only fails when as many links were written as there are numbers: see
`Catalog.linkKeysBelow_run`. -/
def Store.LinkKeysBelow (schema : Schema) (s : Store) : Prop :=
  ∀ link ∈ schema.links, ∀ row ∈ s.rows link.name, ∀ n,
    row.cell link.primaryKey = .int n → n < lastNumber

instance (schema : Schema) (s : Store) : Decidable (s.LinkKeysBelow schema) :=
  decidable_of_iff
    (∀ link ∈ schema.links, ∀ row ∈ s.rows link.name, (row.cell link.primaryKey).isBelow = true) (by
    simp only [Value.isBelow_iff]
    rfl)

/-- The next numbers do not fall, and every key is one of before or below the next number. -/
def Store.Counts (schema : Schema) (s s' : Store) : Prop :=
  ∀ table ∈ schema.physical, ∀ k, table.keyColumn? = some k → k.autoIncrement = true → ∀ t t',
    s.tables.get? table.name = some t → s'.tables.get? table.name = some t' →
      t.nextId ≤ t'.nextId ∧ ∀ row ∈ t'.rows, ∀ n, row.cell table.primaryKey = .int n →
        n < t'.nextId ∨ ∃ old ∈ t.rows, old.cell table.primaryKey = .int n

/-- The rows of link tables are some of those of before with new ones behind them, whose keys are
the next numbers in their order. -/
def Store.LinksAscend (schema : Schema) (s s' : Store) : Prop :=
  ∀ link ∈ schema.links, ∀ k, link.keyColumn? = some k → ∀ t t',
    s.tables.get? link.name = some t → s'.tables.get? link.name = some t' →
      t.nextId ≤ t'.nextId ∧ ∃ kept new, t'.rows = kept ++ new ∧ kept.Sublist t.rows
        ∧ StoredTable.Ascend k t.nextId t'.nextId new

section Stores

variable {schema : Schema} {now : Time.Instant} {s s' : Store}

theorem Store.KeysBelow.stored (h : s.KeysBelow schema) {table : Table}
    (htable : table ∈ schema.physical) {k : Column} (hk : table.keyColumn? = some k)
    {t : StoredTable} (ht : s.tables.get? table.name = some t) : t.KeysBelow k := by
  intro row hrow n hn
  refine h table htable row ?_ n ?_
  · rw [Store.rows_of_get? ht]
    exact hrow
  · rw [← (Table.mem_of_column? hk).2]
    exact hn

theorem Store.KeysBelow.of_grows (h : s'.KeysBelow schema) (hgrows : s.Grows s') :
    s.KeysBelow schema :=
  fun table htable row hrow => h table htable row ((hgrows table.name).subset hrow)

theorem Store.LinkKeysBelow.stored (h : s.LinkKeysBelow schema) {link : Table}
    (hlink : link ∈ schema.links) {t : StoredTable} (ht : s.tables.get? link.name = some t) :
    t.KeysBelow (.identity link.primaryKey) := by
  intro row hrow n hn
  refine h link hlink row ?_ n hn
  rw [Store.rows_of_get? ht]
  exact hrow

theorem Store.LinkKeysBelow.of_grows (h : s'.LinkKeysBelow schema) (hgrows : s.Grows s') :
    s.LinkKeysBelow schema :=
  fun link hlink row hrow => h link hlink row ((hgrows link.name).subset hrow)

/-- The column of generated keys of a stored table. -/
theorem Store.Regular.numbered (hco : schema.Coherent) (hwf : schema.WellFormed)
    (h : s.Regular schema) {table : Table} (htable : table ∈ schema.physical) {k : Column}
    (hk : table.keyColumn? = some k) (hauto : k.autoIncrement = true) {t : StoredTable}
    (ht : s.tables.get? table.name = some t) :
    t.Numbered k := by
  obtain ⟨hcolumns, -⟩ := h.columns_eq table htable t ht
  obtain ⟨hkmem, -⟩ := Table.mem_of_column? hk
  refine ⟨?_, hcolumns ▸ hkmem, hauto, fun c hc hnumber =>
    ?_, (hco.numbered table htable k hkmem hauto).2⟩
  · rw [hcolumns]
    exact (hwf.tables table htable).names_nodup
  · have hkey := (hco.numbered table htable c (hcolumns ▸ hc) hnumber).1
    exact Option.some.inj (hkey.symm.trans hk)

/-- A changed row whose key is a number has the key of the row of before. -/
theorem Table.KeepsNumber.eq {table : Table} {k : Column} (htype : k.type = .integer)
    {old row : Record} (h : table.KeepsNumber k old row)
    (hplain : k.Plain (old.cell table.primaryKey)) {n : Int}
    (hn : row.cell table.primaryKey = .int n) : old.cell table.primaryKey = .int n := by
  rcases h with hsame | hnone | ⟨hequal, haccepts⟩
  · rw [← hsame, hn]
  · rw [hn] at hnone
    cases hnone
  · rw [hn, htype] at hequal haccepts
    -- only a number equals a number, and the old one is of the column's type
    obtain ⟨m, hm, hsigned⟩ : ∃ m, old.cell table.primaryKey = .int m ∧ isSigned64 m = true := by
      have hnumber : (old.cell table.primaryKey).double?.isSome = true := by
        cases hold : old.cell table.primaryKey <;> rw [hold] at hequal <;> first
          | rfl
          | cases hequal
      have hold := hplain hnumber
      rw [htype] at hold
      refine ColumnType.accepts_integer hold ?_
      cases hcell : old.cell table.primaryKey <;> rw [hcell] at hnumber <;> first
        | rfl
        | cases hnumber
    rw [hm] at hequal ⊢
    rw [(ColumnType.equal_integer_iff hsigned haccepts).1 hequal]

/-- Turning the tables counts on, as long as there are numbers. -/
theorem Store.Regular.counts (hco : schema.Coherent) (hwf : schema.WellFormed)
    (h : s.Regular schema) (hturns : s.Turns schema (.string now.text) s')
    (hbelow : s'.KeysBelow schema) :
    s.Counts schema s' := by
  intro table htable k hk hauto t t' ht ht'
  obtain ⟨hcolumns, hcounter⟩ := h.columns_eq table htable t ht
  have hnumbered := h.numbered hco hwf htable hk hauto ht
  have hkname := (Table.mem_of_column? hk).2
  have hstored := hbelow.stored htable hk ht'
  rcases List.mem_append.1 htable with hbase | hlink
  · obtain ⟨stay, rows, records, hstay, hkept, hgives, hadds⟩ :=
      hturns.bases table hbase k hk t t' ht ht'
    obtain ⟨hle, hrows⟩ := hadds.counts (hnumbered.of_columns_eq rfl) hcounter
      (fun record hrecord v hv => hgives record hrecord v (hkname ▸ hv)) hstored
    refine ⟨hle, fun row hrow n hn => ?_⟩
    rcases hrows row hrow with hmem | hnumber
    · obtain ⟨old, hold, hkeeps⟩ := exists_of_mem_right hkept hmem
      have hplain := h.plain table hbase k hk old (by
        rw [Store.rows_of_get? ht]
        exact hstay.subset hold)
      exact .inr ⟨old, hstay.subset hold, hkeeps.eq hnumbered.type_eq hplain hn⟩
    · exact .inl (hnumber n (hkname ▸ hn))
  · obtain ⟨stay, rows, records, hstay, hkept, hgives, hadds⟩ :=
      hturns.links table hlink t t' ht ht'
    obtain rfl := List.forall₂_eq_eq_eq ▸ hkept
    obtain ⟨hle, hrows⟩ := hadds.counts (hnumbered.of_columns_eq rfl) hcounter
      (fun record hrecord v hv => by
        rw [hkname, hgives record hrecord] at hv
        cases hv) hstored
    refine ⟨hle, fun row hrow n hn => ?_⟩
    rcases hrows row hrow with hmem | hnumber
    · exact .inr ⟨row, hstay.subset hmem, hn⟩
    · exact .inl (hnumber n (hkname ▸ hn))

/-- The keys of links are generated. -/
theorem Schema.WellFormed.link_key (hwf : schema.WellFormed) {link : Table}
    (hlink : link ∈ schema.links) :
    link.keyColumn? = some (.identity link.primaryKey) := by
  obtain ⟨owner, howner, m, hm, hlinktable⟩ := hwf.served link hlink
  obtain ⟨link', target, ownerKey, targetKey, hserves⟩ := hwf.lists owner howner m hm
  obtain rfl : link' = link := Except.ok.inj (hserves.link_eq.symm.trans hlinktable)
  exact Table.keyColumn?_of_columns hserves.columns_eq

theorem Store.Counts.refl (schema : Schema) (s : Store) : s.Counts schema s := by
  intro table _ k _ _ t t' ht ht'
  obtain rfl := Option.some.inj (ht.symm.trans ht')
  exact ⟨Int.le_refl _, fun row hrow n hn => .inr ⟨row, hrow, hn⟩⟩

/-- Where no table comes or goes, counting on is transitive. -/
theorem Store.Counts.trans {a b c : Store} (hab : a.Counts schema b) (hbc : b.Counts schema c)
    (hsome : ∀ name, (b.tables.get? name).isSome = (a.tables.get? name).isSome) :
    a.Counts schema c := by
  intro table htable k hk hauto t t' ht ht'
  obtain ⟨u, hu⟩ := Option.isSome_iff_exists.1 (by rw [hsome table.name, ht]; rfl)
  obtain ⟨hle, hrows⟩ := hab table htable k hk hauto t u ht hu
  obtain ⟨hle', hrows'⟩ := hbc table htable k hk hauto u t' hu ht'
  refine ⟨Int.le_trans hle hle', fun row hrow n hn => ?_⟩
  rcases hrows' row hrow n hn with hlt | ⟨old, hold, hkey⟩
  · exact .inl hlt
  · rcases hrows old hold n hkey with hlt | hold
    · exact .inl (Int.lt_of_lt_of_le hlt hle')
    · exact .inr hold

theorem Store.LinksAscend.refl (schema : Schema) (s : Store) : s.LinksAscend schema s := by
  intro link _ k _ t t' ht ht'
  obtain rfl := Option.some.inj (ht.symm.trans ht')
  exact ⟨Int.le_refl _, t.rows, [], (List.append_nil _).symm, .refl _, by simp [StoredTable.Ascend]⟩

/-- If the second step only adds rows, the rows that it adds come behind the new ones of the
first. -/
theorem Store.LinksAscend.trans {a b c : Store} (hab : a.LinksAscend schema b)
    (hbc : b.LinksAscend schema c) (hgrows : b.Grows c)
    (hsome : ∀ name, (b.tables.get? name).isSome = (a.tables.get? name).isSome) :
    a.LinksAscend schema c := by
  intro link hlink k hk t t' ht ht'
  obtain ⟨u, hu⟩ := Option.isSome_iff_exists.1 (by rw [hsome link.name, ht]; rfl)
  obtain ⟨hle, kept, new, hrows, hkept, hnew⟩ := hab link hlink k hk t u ht hu
  obtain ⟨hle', kept', new', hrows', hkept', hnew'⟩ := hbc link hlink k hk u t' hu ht'
  have hprefix := hgrows link.name
  rw [Store.rows_of_get? hu, Store.rows_of_get? ht'] at hprefix
  obtain ⟨more, hmore⟩ := hprefix
  -- what is behind the rows of before is the end of what the second step put there
  have hsub : more.Sublist new' := by
    rcases List.append_eq_append_iff.1 (hrows'.symm.trans hmore.symm) with ⟨d, -, hnew⟩
      | ⟨d, hlong, hd⟩
    · exact hnew ▸ List.sublist_append_right d more
    · have hlength := hkept'.length_le
      rw [hlong, List.length_append] at hlength
      obtain rfl : d = [] := List.length_eq_zero_iff.1 (by omega)
      rw [hd]
      exact .refl _
  refine ⟨Int.le_trans hle hle', kept, new ++ more, ?_, hkept,
    hnew.append (hnew'.sublist hsub) hle hle'⟩
  rw [← hmore, hrows, List.append_assoc]

theorem Store.Creates.stored (hco : schema.Coherent) (h : s.Creates schema s') {table : Table}
    (htable : table ∈ schema.physical) {t t' : StoredTable} (ht : s.tables.get? table.name = some t)
    (ht' : s'.tables.get? table.name = some t') : t' = t := by
  rw [h.get? hco htable, ht] at ht'
  exact (Option.some.inj ht').symm

end Stores

end RecordStore
