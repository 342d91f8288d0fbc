import RecordStore.Proofs.Numbers
import RecordStore.Proofs.Order

/-!
# Reading the members of a list

What a reader finds in a link table for an owner, and what is there after the links of the owner
were set. Links are read in the order of their numbers. They are found by the key of the owner,
compared as a cell of its column, but the members are gathered under the text of that key.

* **`StoredTable.linksOf`** — the links of an owner, in their order.
* **`StoredTable.listed_eq`** — the members that are listed are those of the links with the owner's
  text.
* **`StoredTable.Adds.linksOf_eq`** — new links are read in the order in which they were written.
-/

namespace RecordStore

/-! ## Rows that are in order -/

/-- Rows of which none belongs before an earlier one. -/
def InOrder (columns : List Column) (keys : List SortKey) (rows : List Record) : Prop :=
  rows.Pairwise fun a b => compareRows columns keys b a ≠ .lt

/-- Sorting leaves rows alone that are in their order. -/
theorem sortRows_of_inOrder {columns : List Column} {keys : List SortKey} {rows : List Record}
    (h : InOrder columns keys rows) : sortRows columns keys rows = rows := by
  have hfold (rows sorted : List Record)
      (h : (sorted.reverse ++ rows).Pairwise fun a b => compareRows columns keys b a ≠ .lt) :
      rows.foldl (fun sorted row => insertRow columns keys row sorted) sorted
        = rows.reverse ++ sorted := by
    -- on the rows that are left; each is put behind all that stand there by then
    induction rows generalizing sorted with
    | nil => rfl
    | cons row rest ih =>
      have hlast : insertRow columns keys row sorted = row :: sorted := by
        cases sorted with
        | nil => rfl
        | cons last before =>
          rw [insertRow, if_neg]
          exact (List.pairwise_append.1 h).2.2 last (by simp) row List.mem_cons_self
      rw [List.foldl_cons, hlast, ih (row :: sorted), List.reverse_cons, List.append_assoc,
        List.singleton_append]
      rw [List.reverse_cons, List.append_assoc, List.singleton_append]
      exact h
  rw [sortRows, hfold rows [] h, List.append_nil, List.reverse_reverse]

/-- The number in a cell, as far as it has 64 bits. -/
def Record.number (name : String) (row : Record) : Int := ((row.cell name).integer?).getD 0

theorem Record.number_eq {name : String} {row : Record} {n : Int}
    (h : ∃ m, row.cell name = .int m ∧ isSigned64 m = true) (hn : row.cell name = .int n) :
    row.number name = n := by
  obtain ⟨m, hm, hsigned⟩ := h
  obtain rfl : m = n := Value.int.inj (hm.symm.trans hn)
  rw [number, hm, Value.integer?, if_pos hsigned]
  rfl

/-- Rows compare by their numbers. -/
theorem compareRows_number {columns : List Column} {name : String} {a b : Record} {m n : Int}
    (ha : a.cell name = .int m) (hm : isSigned64 m = true) (hb : b.cell name = .int n)
    (hn : isSigned64 n = true) : compareRows columns [⟨name, .asc⟩] a b = compare m n := by
  have hcells : compareCells (typeIn columns name) (a.cell name) (b.cell name) = compare m n := by
    rw [ha, hb]
    simp [compareCells, ColumnType.compare?, ColumnType.compareNumbers?, Value.integer?,
      Value.isNull, hm, hn]
  simp [compareRows, SortKey.compareRows, hcells]

theorem compareRows_numbered {columns : List Column} {name : String} {a b : Record}
    (ha : ∃ n, a.cell name = .int n ∧ isSigned64 n = true)
    (hb : ∃ n, b.cell name = .int n ∧ isSigned64 n = true) :
    compareRows columns [⟨name, .asc⟩] a b = compare (a.number name) (b.number name) := by
  obtain ⟨m, hm, hsigned⟩ := ha
  obtain ⟨n, hn, hsigned'⟩ := hb
  rw [compareRows_number hm hsigned hn hsigned', Record.number_eq ⟨m, hm, hsigned⟩ hm,
    Record.number_eq ⟨n, hn, hsigned'⟩ hn]

/-- Rows that compare by their numbers ascend when they are sorted. -/
theorem ascending_sortRows {columns : List Column} {keys : List SortKey} {number : Record → Int}
    {rows : List Record}
    (h : ∀ a ∈ rows, ∀ b ∈ rows, compareRows columns keys a b = compare (number a) (number b)) :
    (sortRows columns keys rows).Pairwise fun a b => number a ≤ number b := by
  have hordered : OrdersOn (· ∈ rows) (compareRows columns keys) :=
    .of_rank number fun a b ha hb => h a ha b hb
  refine (pairwise_sortRows hordered fun row hrow => hrow).imp_of_mem fun {a b} ha hb hle => ?_
  have hmem {row : Record} := (perm_sortRows columns keys rows).mem_iff (a := row)
  rw [h a (hmem.1 ha) b (hmem.1 hb)] at hle
  exact Int.not_lt.1 fun hlt => hle (Int.compare_eq_gt.2 hlt)

/-- Two lists of the same items, of which one ascends and the other one does not fall, are the
same. -/
theorem eq_of_perm_of_ascending {α : Type} {number : α → Int} {items ascending : List α}
    (hperm : items.Perm ascending) (hitems : items.Pairwise fun a b => number a ≤ number b)
    (hascending : ascending.Pairwise fun a b => number a < number b) : items = ascending := by
  have hnodup : (ascending.map number).Nodup :=
    List.pairwise_map.2 (hascending.imp fun {a b} hlt => Int.ne_of_lt hlt)
  refine hperm.eq_of_pairwise (fun a b ha hb hab hba => ?_) hitems
    (hascending.imp fun {a b} hlt => Int.le_of_lt hlt)
  exact List.inj_on_of_nodup_map hnodup (hperm.mem_iff.1 ha) hb (Int.le_antisymm hab hba)

/-- Rows with different numbers ascend when they are sorted. -/
theorem strict_sortRows {columns : List Column} {name : String} {rows : List Record}
    (hnumbers : ∀ row ∈ rows, ∃ n, row.cell name = .int n ∧ isSigned64 n = true)
    (hapart : rows.Pairwise fun a b => a.number name ≠ b.number name) :
    (sortRows columns [⟨name, .asc⟩] rows).Pairwise fun a b => a.number name < b.number name := by
  have hsymm : Std.Symm fun a b : Record => a.number name ≠ b.number name := ⟨fun _ _ => Ne.symm⟩
  have happart :=
    ((perm_sortRows columns [⟨name, .asc⟩] rows).pairwise_iff (Std.Symm.symm _ _)).2 hapart
  have hle : (sortRows columns [⟨name, .asc⟩] rows).Pairwise fun a b =>
    a.number name ≤ b.number name :=
    ascending_sortRows fun a ha b hb => compareRows_numbered (hnumbers a ha) (hnumbers b hb)
  exact (hle.and happart).imp fun {a b} h => Int.lt_iff_le_and_ne.2 h

/-- Rows with different numbers are sorted alike, in whatever order they are taken up. -/
theorem sortRows_eq_of_perm {columns : List Column} {name : String} {rows rows' : List Record}
    (hperm : rows'.Perm rows)
    (hnumbers : ∀ row ∈ rows, ∃ n, row.cell name = .int n ∧ isSigned64 n = true)
    (hapart : rows.Pairwise fun a b => a.number name ≠ b.number name) :
    sortRows columns [⟨name, .asc⟩] rows' = sortRows columns [⟨name, .asc⟩] rows := by
  refine eq_of_perm_of_ascending ((perm_sortRows ..).trans (hperm.trans (perm_sortRows ..).symm)) ?_
    (strict_sortRows hnumbers hapart)
  exact ascending_sortRows fun a ha b hb =>
    compareRows_numbered (hnumbers a (hperm.mem_iff.1 ha)) (hnumbers b (hperm.mem_iff.1 hb))

/-- Ascending numbers are in order. -/
theorem StoredTable.Ascend.inOrder {columns : List Column} {k : Column} {least past : Int}
    {rows : List Record} (h : StoredTable.Ascend k least past rows)
    (hleast : isSigned64 least = true) (hpast : isSigned64 past = true) :
    InOrder columns [⟨k.name, .asc⟩] rows := by
  have hsigned (n : Int) (hle : least ≤ n) (hlt : n < past) : isSigned64 n = true := by
    simp only [isSigned64, Bool.and_eq_true, decide_eq_true_eq] at hleast hpast ⊢
    omega
  refine h.2.imp_of_mem fun {a b} ha hb hless => ?_
  obtain ⟨m, n, hm, hn, hlt⟩ := hless
  obtain ⟨m', hm', hle, hltm⟩ := h.1 a ha
  obtain ⟨n', hn', hle', hltn⟩ := h.1 b hb
  obtain rfl : m = m' := Value.int.inj (hm.symm.trans hm')
  obtain rfl : n = n' := Value.int.inj (hn.symm.trans hn')
  rw [compareRows_number hn (hsigned n hle' hltn) hm (hsigned m hle hltm), Int.compare_eq_gt.2 hlt]
  decide

namespace StoredTable

/-! ## The links of an owner -/

/-- The links of an owner, in the order of their numbers. -/
def linksOf (t : StoredTable) (link : Table) (m : ListField) (owner : Value) : List Record :=
  sortRows t.columns [⟨link.primaryKey, .asc⟩] (t.matching (.eq m.ownerColumn owner))

/-- Links are read in the order of their numbers. -/
theorem pairwise_linksOf {t : StoredTable} {link : Table} (m : ListField) (owner : Value)
    (hnumbers : ∀ row ∈ t.rows, ∃ n, row.cell link.primaryKey = .int n ∧ isSigned64 n = true) :
    (t.linksOf link m owner).Pairwise fun a b =>
      a.number link.primaryKey ≤ b.number link.primaryKey := by
  exact ascending_sortRows fun a ha b hb =>
    compareRows_numbered (hnumbers a (List.mem_of_mem_filter ha))
      (hnumbers b (List.mem_of_mem_filter hb))

/-- The cells of a row stay when it is cut to columns among which they are. -/
theorem cell_cut {columns : List String} (row : Record) {name : String} (h : name ∈ columns) :
    (cut columns row).cell name = row.cell name :=
  Record.cell_eq_of_get? (get?_cut_of_mem row h)

/-- The members gathered for an owner are those of the rows whose owner has its text. -/
theorem membersOf_foldl_addMember (m : ListField) (rows : List Record) (members : Fetch.Members)
    (owner : Value) :
    Fetch.membersOf (rows.foldl (Fetch.addMember m) members) owner
      = Fetch.membersOf members owner
        ++ (rows.filter fun row => (row.cell m.ownerColumn).text == owner.text).map
          (·.cell m.memberColumn) := by
  -- on the rows, whoever was gathered before
  induction rows generalizing members with
  | nil => exact (List.append_nil _).symm
  | cons row rest ih =>
    rw [List.foldl_cons, ih, List.filter_cons]
    have hstep : Fetch.membersOf (Fetch.addMember m members row) owner
        = if owner.text = (row.cell m.ownerColumn).text
          then Fetch.membersOf members owner ++ [row.cell m.memberColumn]
          else Fetch.membersOf members owner := by
      unfold Fetch.addMember
      dsimp only
      rw [Fetch.membersOf, NameMap.get?_insert]
      split
      · rename_i htext
        rw [Option.getD_some, Fetch.membersOf, Fetch.membersOf, htext]
      · rfl
    rw [hstep]
    by_cases htext : owner.text = (row.cell m.ownerColumn).text
    · rw [if_pos htext, if_pos (beq_iff_eq.2 htext.symm), List.map_cons, List.append_assoc,
        List.singleton_append]
    · rw [if_neg htext, if_neg (by simpa using Ne.symm htext)]

theorem matching_isIn (t : StoredTable) (name : String) {v : Value} (hv : v.isNull = false) :
    t.matching (.compare name .isIn (.array [v])) = t.matching (.eq name v) := by
  refine List.filter_congr fun row _ => ?_
  rw [Bool.eq_iff_iff, Transaction.holds_eq hv, Change.holds_isIn]
  simp

/-- The members gathered for an owner where the links of several owners are read at once. -/
def gathered (t : StoredTable) (link : Table) (m : ListField) (owners : List Value)
    (owner : Value) : List Value :=
  Fetch.membersOf ((t.select (Fetch.linkPlan link m owners)).foldl (Fetch.addMember m) {}) owner

/-- The members gathered for an owner are those of the links that have its text, of all that are
read. -/
theorem gathered_eq (t : StoredTable) (link : Table) (m : ListField) (owners : List Value)
    (owner : Value) :
    t.gathered link m owners owner
      = ((sortRows t.columns [⟨link.primaryKey, .asc⟩]
          (t.matching (.compare m.ownerColumn .isIn (.array owners)))).filter
            fun row => (row.cell m.ownerColumn).text == owner.text).map
              (·.cell m.memberColumn) := by
  have hcut (row : Record) : (cut [m.ownerColumn, m.memberColumn] row).cell m.ownerColumn
      = row.cell m.ownerColumn := cell_cut row (by simp)
  have hcut' (row : Record) : (cut [m.ownerColumn, m.memberColumn] row).cell m.memberColumn
      = row.cell m.memberColumn := cell_cut row (by simp)
  have hselect : t.select (Fetch.linkPlan link m owners)
      = (sortRows t.columns [⟨link.primaryKey, .asc⟩]
        (t.matching (.compare m.ownerColumn .isIn (.array owners)))).map
          (cut [m.ownerColumn, m.memberColumn]) := rfl
  rw [gathered, hselect, membersOf_foldl_addMember, List.filter_map, List.map_map]
  show [] ++ _ = _
  rw [List.nil_append]
  simp only [Function.comp_def, hcut, hcut']

/-- **The members that a reader finds are those of the links whose owner has the text of the
key.** -/
theorem listed_eq (t : StoredTable) (link : Table) (m : ListField) {owner : Value}
    (howner : owner.isNull = false) :
    t.listed link m owner
      = ((t.linksOf link m owner).filter fun row => (row.cell m.ownerColumn).text == owner.text).map
        (·.cell m.memberColumn) := by
  rw [linksOf, ← matching_isIn t m.ownerColumn howner]
  exact t.gathered_eq link m [owner] owner

/-! ## New links -/

/-- Of each record that is added, the row has the cells. -/
theorem Adds.exists_new {groups : List (List String)} {now : Value} {t t' : StoredTable}
    {records : List Record} (h : t.Adds groups now records t') :
    ∃ new, t'.rows = t.rows ++ new
      ∧ List.Forall₂ (fun record row => ∀ name v, record.get? name = some v →
        name ∈ t.columns.map Column.name → row.get? name = some v) records new := by
  induction h with
  | nil t => exact ⟨[], (List.append_nil _).symm, .nil⟩
  | @cons t t' record row records next s hfill _ _ ih =>
    obtain ⟨new, hrows, hnew⟩ := ih
    refine ⟨row :: new, by rw [hrows, List.append_assoc, List.singleton_append], .cons ?_ hnew⟩
    intro name v hv hname
    have hgiven := fill_given t now record hv hname
    rwa [hfill] at hgiven

section Links

variable {schema : Schema} {base link : Table} {m : ListField} {owner now : Value}
  {members : List Value} {t t' : StoredTable} {k : Column} {groups : List (List String)}

namespace LinkOf

theorem exists_serves (h : t.LinkOf schema base m link k) (hco : schema.Coherent) :
    ∃ target targetKey, schema.Serves base m link target k targetKey := by
  obtain ⟨link', target, ownerKey, targetKey, hserves⟩ := hco.lists base h.base_mem m h.list_mem
  obtain rfl : link' = link := Except.ok.inj (hserves.link_eq.symm.trans h.link_eq)
  obtain rfl : ownerKey = k := Option.some.inj (hserves.ownerKey_eq.symm.trans h.key_eq)
  exact ⟨target, targetKey, hserves⟩

theorem owner_mem (h : t.LinkOf schema base m link k) (hco : schema.Coherent) :
    m.ownerColumn ∈ t.columns.map Column.name := by
  obtain ⟨target, targetKey, hserves⟩ := h.exists_serves hco
  simp [h.columns_eq, hserves.columns_eq, Compile.linkColumn]

theorem member_mem (h : t.LinkOf schema base m link k) (hco : schema.Coherent) :
    m.memberColumn ∈ t.columns.map Column.name := by
  obtain ⟨target, targetKey, hserves⟩ := h.exists_serves hco
  simp [h.columns_eq, hserves.columns_eq, Compile.linkColumn]

theorem owner_ne_member (h : t.LinkOf schema base m link k) (hco : schema.Coherent) :
    m.ownerColumn ≠ m.memberColumn := by
  obtain ⟨hnodup, -⟩ := hco.list_names base h.base_mem m h.list_mem link h.link_eq
  simp only [List.nodup_cons, List.mem_cons, List.not_mem_nil, or_false, not_or] at hnodup
  exact hnodup.2.1

/-- Owners are compared as keys of the resource. -/
theorem typeIn_owner (h : t.LinkOf schema base m link k) (hco : schema.Coherent) :
    typeIn t.columns m.ownerColumn = k.type := by
  obtain ⟨target, targetKey, hserves⟩ := h.exists_serves hco
  obtain ⟨hnodup, -⟩ := hco.list_names base h.base_mem m h.list_mem link h.link_eq
  simp only [List.nodup_cons, List.mem_cons, List.not_mem_nil, or_false, not_or] at hnodup
  have hfirst : (link.primaryKey == m.ownerColumn) = false := beq_eq_false_iff_ne.2 hnodup.1.1
  simp [typeIn, h.columns_eq, hserves.columns_eq, Column.identity, Compile.linkColumn, hfirst]

/-- The rows that links are written as give no keys. -/
theorem key_not_given (h : t.LinkOf schema base m link k) (hco : schema.Coherent) (owner : Value)
    (members : List Value) : ∀ record ∈ members.map (Change.linkRow m owner),
      record.get? link.primaryKey = none := by
  intro record hrecord
  obtain ⟨member, -, rfl⟩ := List.mem_map.1 hrecord
  exact hco.get?_key_linkRow h.base_mem h.list_mem h.link_eq owner member

/-- A link that has the key of an owner is one of its links. -/
theorem holds_owner (h : t.LinkOf schema base m link k) (hco : schema.Coherent)
    (haccepts : k.type.accepts owner = true) (howner : owner.isNull = false) {row : Record}
    (hrow : row.cell m.ownerColumn = owner) :
    (Predicate.eq m.ownerColumn owner).holds t.columns row = true := by
  rw [Transaction.holds_eq howner, hrow, h.typeIn_owner hco]
  exact ⟨howner, ColumnType.equal_self haccepts howner⟩

/-- The links are numbered, if the name of their key is not that of a stamp. -/
theorem numbered (h : t.LinkOf schema base m link k) (hco : schema.Coherent)
    (hstamp : link.primaryKey ∉ Change.stampColumns) : t.Numbered (.identity link.primaryKey) := by
  obtain ⟨target, targetKey, hserves⟩ := h.exists_serves hco
  obtain ⟨hnodup, hownerstamp, hmemberstamp⟩ :=
    hco.list_names base h.base_mem m h.list_mem link h.link_eq
  have hcolumns := h.columns_eq.trans hserves.columns_eq
  refine ⟨?_, ?_, rfl, fun c hc hnumber => ?_, rfl⟩
  · have hnames : t.columns.map Column.name
        = [link.primaryKey, m.ownerColumn, m.memberColumn] ++ Change.stampColumns := by
      rw [hcolumns]
      rfl
    rw [hnames]
    refine List.nodup_append.2 ⟨hnodup, by decide, fun name hname other hother heq => ?_⟩
    rw [← heq] at hother
    simp only [List.mem_cons, List.not_mem_nil, or_false] at hname
    rcases hname with rfl | rfl | rfl
    · exact hstamp hother
    · exact hownerstamp hother
    · exact hmemberstamp hother
  · rw [hcolumns]
    exact List.mem_cons_self
  · have hphysical := Schema.mem_physical_of_link (Schema.mem_of_linkTable h.link_eq).1
    have hkey := (hco.numbered link hphysical c (h.columns_eq ▸ hc) hnumber).1
    rw [Table.keyColumn?_of_columns hserves.columns_eq] at hkey
    exact (Option.some.inj hkey).symm

end LinkOf

/-- If the key of links has the name of a stamp, the stamp is filled in for it. -/
theorem LinkOf.fill_key (hlink : t.LinkOf schema base m link k) (hco : schema.Coherent)
    (hstamp : link.primaryKey ∈ Change.stampColumns) {record row : Record} {next : Int}
    (hnone : record.get? link.primaryKey = none) (hfill : t.fill now record = (row, next)) :
    row.get? link.primaryKey = some now := by
  obtain ⟨target, targetKey, hserves⟩ := hlink.exists_serves hco
  have hne : createdColumn ≠ updatedColumn := by decide
  have hrow : row = (t.fill now record).1 := (congrArg Prod.fst hfill).symm
  rw [hrow, fill, hlink.columns_eq, hserves.columns_eq]
  simp only [List.foldl_cons, List.foldl_nil]
  simp only [Change.stampColumns, List.mem_cons, List.not_mem_nil, or_false] at hstamp
  -- the last column of the name is a stamp
  rcases hstamp with hcreated | hupdated
  · rw [hcreated] at hnone ⊢
    rw [fillColumn, fillColumn]
    dsimp only [Column.timestamp]
    rw [NameMap.get?_insert_of_ne _ _ hne, NameMap.get?_insert_self, hnone]
    rfl
  · rw [hupdated] at hnone ⊢
    rw [fillColumn]
    dsimp only [Column.timestamp]
    rw [NameMap.get?_insert_self, hnone]
    rfl

/-- Of a key that has the name of a stamp there is one new link at most: the next would have its
key. -/
theorem Adds.length_le_one (hlink : t.LinkOf schema base m link k) (hco : schema.Coherent)
    (hstamp : link.primaryKey ∈ Change.stampColumns) {time : Time.Instant} {records : List Record}
    (hnone : ∀ record ∈ records, record.get? link.primaryKey = none)
    (h : t.Adds groups (.string time.text) records t') : records.length ≤ 1 := by
  cases h with
  | nil => exact Nat.zero_le _
  | @cons _ _ record row records next s hfill _ hrest =>
    cases hrest with
    | nil => exact Nat.le_refl _
    | @cons _ _ record' row' records' next' s' hfill' hadmissible' _ =>
      exfalso
      have hrow := hlink.fill_key hco hstamp (hnone record (by simp)) hfill
      have hcounter : isSigned64 next = true := by
        have hcount := fill_counter t (.string time.text) record hlink.counter
        rwa [hfill] at hcount
      have hlater :
        ({ t with nextId := next, rows := t.rows ++ [row] } : StoredTable).LinkOf schema base m
          link k :=
        ⟨hlink.base_mem, hlink.list_mem, hlink.link_eq, hlink.key_eq, hlink.columns_eq, hcounter⟩
      have hrow' := hlater.fill_key hco hstamp (hnone record' (by simp)) hfill'
      obtain ⟨target, targetKey, hserves⟩ := hlink.exists_serves hco
      have hkey : Column.identity link.primaryKey ∈ t.columns := by
        rw [hlink.columns_eq, hserves.columns_eq]
        exact List.mem_cons_self
      have hcell' : row'.cell link.primaryKey = .string time.text := Record.cell_eq_of_get? hrow'
      have happart := (hadmissible'.key hkey rfl).2 row (by simp)
      change (row.get? link.primaryKey).any
        (fun other => ColumnType.integer.equal other (row'.cell link.primaryKey)) = false at happart
      rw [hrow, hcell'] at happart
      simp [ColumnType.equal, ColumnType.compare?] at happart

/-- **New links are in the order in which they were written**, as long as there are numbers. -/
theorem Adds.links_inOrder (hlink : t.LinkOf schema base m link k) (hco : schema.Coherent)
    {time : Time.Instant}
    (h : t.Adds groups (.string time.text) (members.map (Change.linkRow m owner)) t')
    (hbelow : t'.KeysBelow (.identity link.primaryKey)) {new : List Record}
    (hnew : t'.rows = t.rows ++ new) : InOrder t'.columns [⟨link.primaryKey, .asc⟩] new := by
  have hnone := hlink.key_not_given hco owner members
  by_cases hstamp : link.primaryKey ∈ Change.stampColumns
  · -- one link is in order
    have hlength := Adds.length_le_one hlink hco hstamp hnone h
    obtain ⟨new', hrows, hforall⟩ := h.exists_new
    obtain rfl : new' = new := List.append_cancel_left (hrows.symm.trans hnew)
    rw [hforall.length_eq] at hlength
    match new', hlength with
    | [], _ => exact .nil
    | [row], _ => exact List.pairwise_singleton _ row
  · obtain ⟨-, new', hrows, hascend⟩ :=
      h.ascends (hlink.numbered hco hstamp) hlink.counter hnone hbelow
    obtain rfl : new' = new := List.append_cancel_left (hrows.symm.trans hnew)
    exact hascend.inOrder hlink.counter (h.counter hlink.counter)

/-- The links that an owner is given. -/
theorem Adds.exists_links (hlink : t.LinkOf schema base m link k) (hco : schema.Coherent)
    {time : Time.Instant}
    (h : t.Adds groups (.string time.text) (members.map (Change.linkRow m owner)) t') :
    ∃ new, t'.rows = t.rows ++ new ∧ (∀ row ∈ new, row.cell m.ownerColumn = owner)
      ∧ new.map (·.cell m.memberColumn) = members := by
  obtain ⟨new, hrows, hforall⟩ := h.exists_new
  have hcells : List.Forall₂ (fun member row => row.cell m.ownerColumn = owner
      ∧ row.cell m.memberColumn = member) members new := by
    refine (List.forall₂_map_left_iff.1 hforall).imp fun member row hgiven => ⟨?_, ?_⟩
    · refine Record.cell_eq_of_get? (hgiven _ _ ?_ (hlink.owner_mem hco))
      rw [Change.get?_linkRow, if_neg (hlink.owner_ne_member hco), if_pos rfl]
    · refine Record.cell_eq_of_get? (hgiven _ _ ?_ (hlink.member_mem hco))
      rw [Change.get?_linkRow, if_pos rfl]
  refine ⟨new, hrows, fun row hrow => ?_, ?_⟩
  · obtain ⟨member, -, hcell, -⟩ := exists_of_mem_right hcells hrow
    exact hcell
  · clear hforall hrows h
    induction hcells with
    | nil => rfl
    | cons hcell _ ih => rw [List.map_cons, hcell.2, ih]

/-- **The links that an owner is given are its links**, if it had none before. -/
theorem Adds.linksOf_eq (hlink : t.LinkOf schema base m link k) (hco : schema.Coherent)
    (haccepts : k.type.accepts owner = true) (howner : owner.isNull = false) {time : Time.Instant}
    (h : t.Adds groups (.string time.text) (members.map (Change.linkRow m owner)) t')
    (hbelow : t'.KeysBelow (.identity link.primaryKey))
    (hnolinks : t.matching (.eq m.ownerColumn owner) = []) :
    (∀ row ∈ t'.linksOf link m owner, row.cell m.ownerColumn = owner)
      ∧ (t'.linksOf link m owner).map (·.cell m.memberColumn) = members := by
  obtain ⟨new, hrows, howned, hmembers⟩ := h.exists_links hlink hco
  have hholds : ∀ row ∈ new, (Predicate.eq m.ownerColumn owner).holds t.columns row = true :=
    fun row hrow => hlink.holds_owner hco haccepts howner (howned row hrow)
  have horder := h.links_inOrder hlink hco hbelow hrows
  -- the links that there are now are the new ones
  have hmatching : t'.matching (.eq m.ownerColumn owner) = new := by
    rw [matching] at hnolinks
    rw [matching, h.columns_eq, hrows, List.filter_append, hnolinks, List.nil_append,
      List.filter_eq_self.2 hholds]
  have hlinks : t'.linksOf link m owner = new := by
    rw [linksOf, hmatching, sortRows_of_inOrder horder]
  rw [hlinks]
  exact ⟨howned, hmembers⟩

/-- Of the rows of a table to which the links of an owner were added, those with the text of its key
are the new ones, if there was none before. -/
theorem Adds.filter_text (hlink : t.LinkOf schema base m link k) (hco : schema.Coherent)
    (haccepts : k.type.accepts owner = true) (howner : owner.isNull = false) {now : Value}
    {records new : List Record} (h : t.Adds groups now records t') (hrows : t'.rows = t.rows ++ new)
    (howned : ∀ row ∈ new, row.cell m.ownerColumn = owner)
    (hunlisted : ∀ row ∈ t.rows, (Predicate.eq m.ownerColumn owner).holds t.columns row = true →
      (row.cell m.ownerColumn).text ≠ owner.text) :
    (t'.matching (.eq m.ownerColumn owner)).filter
      (fun row => (row.cell m.ownerColumn).text == owner.text) = new := by
  have hholds : ∀ row ∈ new, (Predicate.eq m.ownerColumn owner).holds t.columns row = true :=
    fun row hrow => hlink.holds_owner hco haccepts howner (howned row hrow)
  have hold : ((t.rows.filter ((Predicate.eq m.ownerColumn owner).holds t.columns)).filter
      fun row => (row.cell m.ownerColumn).text == owner.text) = [] := by
    refine List.filter_eq_nil_iff.2 fun row hrow htext => ?_
    obtain ⟨hmem, hmatches⟩ := List.mem_filter.1 hrow
    exact hunlisted row hmem hmatches (beq_iff_eq.1 htext)
  have hall : new.filter (fun row => (row.cell m.ownerColumn).text == owner.text) = new := by
    refine List.filter_eq_self.2 fun row hrow => ?_
    rw [howned row hrow]
    exact beq_self_eq_true _
  rw [matching, h.columns_eq, hrows, List.filter_append, List.filter_eq_self.2 hholds,
    List.filter_append, hold, hall, List.nil_append]

/-- **The links that an owner is given are what a reader finds**, if it found none before. There may
have been others, under another spelling of the key. -/
theorem Adds.listed_new (hlink : t.LinkOf schema base m link k) (hco : schema.Coherent)
    (haccepts : k.type.accepts owner = true) (howner : owner.isNull = false)
    (hstamp : link.primaryKey ∉ Change.stampColumns) {time : Time.Instant}
    (h : t.Adds groups (.string time.text) (members.map (Change.linkRow m owner)) t')
    (hbelow : t'.KeysBelow (.identity link.primaryKey))
    (hnumbers : ∀ row ∈ t'.rows, ∃ n, row.cell link.primaryKey = .int n ∧ isSigned64 n = true)
    (hunlisted : ∀ row ∈ t.rows, (Predicate.eq m.ownerColumn owner).holds t.columns row = true →
      (row.cell m.ownerColumn).text ≠ owner.text) :
    t'.listed link m owner = members := by
  obtain ⟨new, hrows, howned, hmembers⟩ := h.exists_links hlink hco
  have hnone := hlink.key_not_given hco owner members
  obtain ⟨-, new', hrows', -, hpairs⟩ :=
    h.ascends (hlink.numbered hco hstamp) hlink.counter hnone hbelow
  obtain rfl : new' = new := List.append_cancel_left (hrows'.symm.trans hrows)
  have hascend : new'.Pairwise fun a b =>
      a.number link.primaryKey < b.number link.primaryKey := by
    refine hpairs.imp_of_mem fun {a b} ha hb hless => ?_
    obtain ⟨m, n, hm, hn, hlt⟩ := hless
    rwa [Record.number_eq (hnumbers a (by simp [hrows, ha])) hm,
      Record.number_eq (hnumbers b (by simp [hrows, hb])) hn]
  -- of the links of the owner, those that are listed are the new ones, in whatever order
  have hlisted := h.filter_text hlink hco haccepts howner hrows howned hunlisted
  have hperm : ((t'.linksOf link m owner).filter
      fun row => (row.cell m.ownerColumn).text == owner.text).Perm new' :=
    ((perm_sortRows _ _ _).filter _).trans (.of_eq hlisted)
  have hsorted := (pairwise_linksOf m owner hnumbers).sublist (List.filter_sublist
    (p := fun row => (row.cell m.ownerColumn).text == owner.text))
  rw [StoredTable.listed_eq t' link m howner, eq_of_perm_of_ascending hperm hsorted hascend,
    hmembers]

/-- **The links that an owner is given are none of another one's.** -/
theorem Adds.listed_other (hlink : t.LinkOf schema base m link k) (hco : schema.Coherent)
    {other : Value} (hother : other.isNull = false) (hapart : k.type.equal owner other = false)
    {time : Time.Instant}
    (h : t.Adds groups (.string time.text) (members.map (Change.linkRow m owner)) t') :
    t'.listed link m other = t.listed link m other := by
  obtain ⟨new, hrows, howned, -⟩ := h.exists_links hlink hco
  have hnone : new.filter ((Predicate.eq m.ownerColumn other).holds t.columns) = [] := by
    refine List.filter_eq_nil_iff.2 fun row hrow hholds => ?_
    obtain ⟨-, hequal⟩ := (Transaction.holds_eq hother).1 hholds
    rw [howned row hrow, hlink.typeIn_owner hco, hapart] at hequal
    cases hequal
  have hmatching : t'.matching (.eq m.ownerColumn other)
    = t.matching (.eq m.ownerColumn other) := by
    rw [matching, h.columns_eq, hrows, List.filter_append, hnone, List.append_nil]
    rfl
  rw [listed_eq t' link m hother, listed_eq t link m hother, linksOf, linksOf, hmatching,
    h.columns_eq]

theorem matching_withoutOwner (t : StoredTable) (m : ListField) (owner : Value) :
    (t.withoutOwner m owner).matching (.eq m.ownerColumn owner) = [] := by
  refine List.filter_eq_nil_iff.2 fun row hrow hholds => ?_
  have hnot := (List.mem_filter.1 hrow).2
  change (Predicate.eq m.ownerColumn owner).holds t.columns row = true at hholds
  rw [hholds] at hnot
  cases hnot

/-- Links that were written anew are the links of the owner, and their owner is it to the letter. -/
theorem linksOf_of_setsLinks (hlink : t.LinkOf schema base m link k) (hco : schema.Coherent)
    (haccepts : k.type.accepts owner = true) (howner : owner.isNull = false) {time : Time.Instant}
    (h : t.SetsLinks link m (.string time.text) owner members t')
    (hbelow : t'.KeysBelow (.identity link.primaryKey)) :
    Value.sameItems (t.listed link m owner) members = true ∧ t' = t
      ∨ Value.sameItems (t.listed link m owner) members = false
        ∧ (∀ row ∈ t'.linksOf link m owner, row.cell m.ownerColumn = owner)
        ∧ (t'.linksOf link m owner).map (·.cell m.memberColumn) = members := by
  refine h.imp id fun ⟨hsame, hadds⟩ => ⟨hsame, ?_⟩
  have hwithout : (t.withoutOwner m owner).LinkOf schema base m link k :=
    ⟨hlink.base_mem, hlink.list_mem, hlink.link_eq, hlink.key_eq, hlink.columns_eq, hlink.counter⟩
  exact hadds.linksOf_eq hwithout hco haccepts howner hbelow (matching_withoutOwner t m owner)

@[simp] theorem sameItems_self (items : List Value) : Value.sameItems items items = true := by
  simp [Value.sameItems]

/-- **After the links of an owner were set, a reader finds the members.** -/
theorem SetsLinks.listed (hlink : t.LinkOf schema base m link k) (hco : schema.Coherent)
    (haccepts : k.type.accepts owner = true) (howner : owner.isNull = false) {time : Time.Instant}
    (h : t.SetsLinks link m (.string time.text) owner members t')
    (hbelow : t'.KeysBelow (.identity link.primaryKey)) :
    Value.sameItems (t'.listed link m owner) members = true := by
  rcases linksOf_of_setsLinks hlink hco haccepts howner h hbelow with ⟨hsame, rfl⟩
    | ⟨-, howned, hmembers⟩
  · exact hsame
  · have hall : ∀ row ∈ t'.linksOf link m owner,
        ((row.cell m.ownerColumn).text == owner.text) = true := by
      intro row hrow
      rw [howned row hrow]
      exact beq_self_eq_true _
    rw [listed_eq t' link m howner, List.filter_eq_self.2 hall, hmembers, sameItems_self]

end Links

end StoredTable

end RecordStore
