import RecordStore.Proofs.CompiledSchema
import RecordStore.Proofs.Pointing
import RecordStore.Proofs.Run

/-!
# Links

The link table of a list holds pairs of keys, of an owner and of a member. Links are written with
the owner and go when either end is removed, through whichever resource or list the removal arrives,
so no link is left to a row that is gone.

* **`Store.Linked`** — links point at rows, and no two links of a table are the same.
* **`Store.Linked.move`** — moves keep the links of a store, also those that drop rows.
* **`Store.Anchored.move`** — the same where keys are doubles or times.
* **`Catalog.links_join_rows`** — what this says of the links of a run.
-/

namespace RecordStore

/-- The keys of all resources are whole numbers or texts. -/
def Schema.HasPlainKeys (schema : Schema) : Prop :=
  ∀ base ∈ schema.bases, ∀ k ∈ base.keyColumn?, k.type = .integer ∨ k.type = .text

instance (schema : Schema) : Decidable schema.HasPlainKeys :=
  inferInstanceAs (Decidable (∀ base ∈ schema.bases, ∀ k ∈ base.keyColumn?, _))

/-- The links of a store point at rows, and are all different. -/
structure Store.Linked (schema : Schema) (s : Store) : Prop where
  intact : ∀ link ∈ schema.links, s.Intact link
  apart : ∀ link ∈ schema.links, (s.rows link.name).Pairwise fun earlier later =>
    ∀ group ∈ link.uniqueGroups, sharesGroup group later earlier = false

section Moves

variable {schema : Schema} {times : Time.Instant → Prop} {drops : Prop} {s s' : Store}

/-- A move drops rows of a resource that has no flag for deleted rows, and no link is left to them,
or it is one that drops none. -/
theorem Move.drop_or (hmove : Move schema times drops s s') :
    Move schema times False s s' ∨ ∃ table ∈ schema.bases, table.deletedColumn = none
      ∧ ∃ t, ∃ goes : Record → Bool, s.tables.get? table.name = some t
        ∧ s' = s.put table.name { t with rows := t.rows.filter (!goes ·) }
        ∧ ∀ link ∈ schema.links, ∀ c ∈ link.columns,
          c.references.any (·.table == table.name) = true → ∀ row ∈ s.rows link.name,
            (row.cell c.name).isNull = false → ∀ gone ∈ t.rows, goes gone = true →
              c.type.equal (row.cell c.name) (gone.cell table.primaryKey) = false := by
  cases hmove with
  | create htable => exact .inl (.create htable)
  | append htable hstored hnow hsuits hfill hadmissible =>
    exact .inl (.append htable hstored hnow hsuits hfill hadmissible)
  | link hlink hstored hnow hfits hfill hadmissible =>
    exact .inl (.link hlink hstored hnow hfits hfill hadmissible)
  | rewrite htable hstored hold hassign hsuits hkey hadmissible =>
    exact .inl (.rewrite htable hstored hold hassign hsuits hkey hadmissible)
  | drop _ htable hstored hflag hlinks =>
    exact .inr ⟨_, htable, hflag, _, _, hstored, rfl, hlinks⟩
  | unlink hlink hstored => exact .inl (.unlink hlink hstored)

/-- What a link points at stays when rows go that it does not equal. -/
theorem Store.Points.drop (hwf : schema.WellFormed) {table : Table} (htable : table ∈ schema.bases)
    {t : StoredTable} (hsound : s.Sound schema times) (hstored : s.tables.get? table.name = some t)
    {goes : Record → Bool} {link : Table} (hlink : link ∈ schema.links) {c : Column}
    (hc : c ∈ link.columns) {v : Value}
    (hleft : c.references.any (·.table == table.name) = true → v.isNull = false → ∀ gone ∈ t.rows,
      goes gone = true → c.type.equal v (gone.cell table.primaryKey) = false)
    (hpoints : s.Points c v) :
    (s.put table.name { t with rows := t.rows.filter (!goes ·) }).Points c v := by
  intro key hkey hnull
  obtain ⟨-, -, base, hbase, k, rfl, hk, -⟩ :=
    hwf.references link (Schema.mem_physical_of_link hlink) c hc key hkey
  obtain ⟨target, htarget, hheld⟩ := hpoints _ hkey hnull
  refine ⟨target, ?_, hheld⟩
  rw [Store.rows_put]
  split
  · rename_i hname
    obtain rfl := hwf.eq_of_name (Schema.mem_physical_of_base hbase)
      (Schema.mem_physical_of_base htable) hname
    have hmem : target ∈ t.rows := Store.rows_of_get? hstored ▸ htarget
    refine List.mem_filter.2 ⟨hmem, ?_⟩
    -- if the target went, no link to it would be left
    by_contra hgoes
    have hnot := hleft (by simp [hkey]) hnull target hmem (by simpa using hgoes)
    obtain ⟨-, hkname⟩ := Table.mem_of_column? hk
    rw [Column.isHeldBy_iff (hsound.key_of_row hwf hbase hk htarget).1, hkname,
      ColumnType.equal_comm, hnot] at hheld
    cases hheld
  · exact htarget

/-- Links point at rows that stay when rows go to which no link is left. -/
theorem Store.Intact.drop (hwf : schema.WellFormed) {table : Table} (htable : table ∈ schema.bases)
    {t : StoredTable} (hsound : s.Sound schema times) (hstored : s.tables.get? table.name = some t)
    {goes : Record → Bool} {link : Table} (hlink : link ∈ schema.links)
    (hleft : ∀ c ∈ link.columns, c.references.any (·.table == table.name) = true →
      ∀ row ∈ s.rows link.name, (row.cell c.name).isNull = false → ∀ gone ∈ t.rows,
        goes gone = true → c.type.equal (row.cell c.name) (gone.cell table.primaryKey) = false)
    (hintact : s.Intact link) :
    (s.put table.name { t with rows := t.rows.filter (!goes ·) }).Intact link := by
  have hapart := hwf.bases_links_disjoint table htable link hlink
  intro row hrow c hc
  rw [Store.rows_put, if_neg hapart.symm] at hrow
  exact Store.Points.drop hwf htable hsound hstored hlink hc (fun href => hleft c hc href row hrow)
    (hintact row hrow c hc)

theorem Store.Linked.empty (schema : Schema) : ({} : Store).Linked schema where
  intact _ _ _ hrow := by cases hrow
  apart _ _ := .nil

/-- The rows of a link table after a move are those of before with a new one at the end, or some of
them. -/
theorem Move.links_from (hwf : schema.WellFormed) (hmove : Move schema times drops s s')
    {link : Table} (hlink : link ∈ schema.links) :
    (s'.rows link.name).Sublist (s.rows link.name)
      ∨ ∃ row columns, s'.rows link.name = s.rows link.name ++ [row]
        ∧ s.Admissible link.uniqueGroups columns (s.rows link.name) row := by
  have hkept {base : Table} (hbase : base ∈ schema.bases) (t : StoredTable) :
      ((s.put base.name t).rows link.name).Sublist (s.rows link.name) := by
    rw [Store.rows_put, if_neg (hwf.bases_links_disjoint base hbase link hlink).symm]
  cases hmove with
  | create =>
    rw [Store.rows_create]
    exact .inl (.refl _)
  -- writing to a resource leaves the links alone
  | append hbase => exact .inl (hkept hbase _)
  | @link changed t _ _ row _ hchanged hstored _ _ _ hadmissible =>
    by_cases hname : link.name = changed.name
    · obtain rfl := hwf.eq_of_name (Schema.mem_physical_of_link hlink)
        (Schema.mem_physical_of_link hchanged) hname
      refine .inr ⟨row, t.columns, ?_, Store.rows_of_get? hstored ▸ hadmissible⟩
      rw [Store.rows_put, if_pos rfl, Store.rows_of_get? hstored]
    · rw [Store.rows_put, if_neg hname]
      exact .inl (.refl _)
  | rewrite hbase => exact .inl (hkept hbase _)
  | drop _ hbase => exact .inl (hkept hbase _)
  | @unlink changed t goes _ hstored =>
    by_cases hname : link.name = changed.name
    · rw [Store.rows_put, if_pos hname, hname, Store.rows_of_get? hstored]
      exact .inl List.filter_sublist
    · rw [Store.rows_put, if_neg hname]
      exact .inl (.refl _)

/-- **Moves keep the links of a store.** -/
theorem Store.Linked.move (hwf : schema.WellFormed) (hkeys : schema.HasPlainKeys)
    (hsound : s.Sound schema times) (hmove : Move schema times drops s s') (h : s.Linked schema) :
    s'.Linked schema where
  intact link hlink := by
    rcases hmove.drop_or with hmove | ⟨table, htable, -, t, goes, hstored, rfl, hleft⟩
    -- plain keys are no doubles, so no reference of a link has to be one
    · refine Store.Intact.move hwf hsound hmove (Schema.mem_physical_of_link hlink) ?_
        (h.intact link hlink)
      intro row _ c hc hsome hfloat
      obtain ⟨key, hkey⟩ := Option.isSome_iff_exists.1 hsome
      obtain ⟨-, -, base, hbase, k, -, hk, htype⟩ :=
        hwf.references link (Schema.mem_physical_of_link hlink) c hc key hkey
      rw [htype] at hfloat
      rcases hkeys base hbase k hk with hplain | hplain <;> cases hplain.symm.trans hfloat
    · exact Store.Intact.drop hwf htable hsound hstored
        hlink (hleft link hlink) (h.intact link hlink)
  apart link hlink := by
    rcases hmove.links_from hwf hlink with hsub | ⟨row, columns, hrows, hadmissible⟩
    · exact (h.apart link hlink).sublist hsub
    · rw [hrows]
      refine List.pairwise_append.2 ⟨h.apart link hlink, List.pairwise_singleton _ _, ?_⟩
      -- the new link was checked against all that were there
      intro earlier hearlier later hlater group hgroup
      rw [List.mem_singleton.1 hlater]
      exact hadmissible.ungrouped group hgroup earlier hearlier

theorem Store.Linked.moves (hwf : schema.WellFormed) (hkeys : schema.HasPlainKeys)
    (hsound : s.Sound schema times) (hmoves : Moves schema times drops s s') (h : s.Linked schema) :
    s'.Linked schema := by
  -- links are kept by a move of a sound store, and soundness goes with the chain
  induction hmoves with
  | refl => exact h
  | tail hmoves hmove ih => exact ih.move hwf hkeys (hsound.moves hwf hmoves) hmove

end Moves

/-! ## Links between any keys

A whole number can equal a double that equals another whole number, so a link whose cell is a whole
number among doubles can lose its row when the key of the row is spelled anew. No other link can. -/

/-- A value that is a double if the column is one of doubles. -/
def Column.TakesExactly (c : Column) (v : Value) : Prop := c.type = .float → ∃ x, v = .float x

/-- The cells of links point at rows, but for whole numbers among doubles. -/
def Store.Anchored (schema : Schema) (s : Store) : Prop :=
  ∀ link ∈ schema.links, ∀ row ∈ s.rows link.name, ∀ c ∈ link.columns,
    c.TakesExactly (row.cell c.name) → s.Points c (row.cell c.name)

section Moves

variable {schema : Schema} {times : Time.Instant → Prop} {drops : Prop} {s s' : Store}

/-- **Moves keep links anchored**, also those that drop rows. -/
theorem Store.Anchored.move (hwf : schema.WellFormed) (hsound : s.Sound schema times)
    (hmove : Move schema times drops s s') (h : s.Anchored schema) : s'.Anchored schema := by
  intro link hlink row hrow c hc hexact
  have hphysical := Schema.mem_physical_of_link hlink
  rcases hmove.drop_or with hmove | ⟨table, htable, -, t, goes, hstored, rfl, hleft⟩
  · have hsound' := hsound.move hwf hmove
    obtain ⟨t, ht, hmem⟩ := Store.get?_of_mem_rows hrow
    have htakes := (hsound' link hphysical t ht).fits row hmem c hc
    refine Store.Points.carry hwf hsound hsound' (hmove.keeps_keys hwf) hphysical hc htakes
      (fun _ hfloat _ => hexact hfloat) ?_
    rcases hmove.accounts hwf hsound hphysical hrow with hold | ⟨hpoints, -⟩
    · exact h link hlink row hold c hc hexact
    · exact hpoints c hc
  · have hapart := hwf.bases_links_disjoint table htable link hlink
    rw [Store.rows_put, if_neg hapart.symm] at hrow
    exact Store.Points.drop hwf htable hsound hstored hlink hc
      (fun href => hleft link hlink c hc href row hrow) (h link hlink row hrow c hc hexact)

theorem Store.Anchored.moves (hwf : schema.WellFormed) (hsound : s.Sound schema times)
    (hmoves : Moves schema times drops s s') (h : s.Anchored schema) : s'.Anchored schema := by
  induction hmoves with
  | refl => exact h
  | tail hmoves hmove ih => exact ih.move hwf (hsound.moves hwf hmoves) hmove

end Moves

/-- The links of a run are anchored, whatever keys they join. -/
theorem Catalog.anchored_run {catalog : Catalog} (hwf : catalog.schema.WellFormed)
    (steps : List Step) :
    (catalog.run steps).store.Anchored catalog.schema := by
  have hempty := Store.Sound.empty catalog.schema fun _ => True
  refine Store.Anchored.moves hwf hempty (moves_run hwf fun _ _ => trivial)
    fun link _ row hrow => ?_
  cases hrow

/-! ## The links of a list -/

/-- The links of a list join rows that exist, and no two of them join the same rows. -/
structure Store.Joins (s : Store) (owner : Table) (m : ListField) (link target : Table) : Prop where
  owned : ∀ row ∈ s.rows link.name, ∃ o ∈ s.rows owner.name,
    row.cell m.ownerColumn = o.cell owner.primaryKey
  joined : ∀ row ∈ s.rows link.name, ∃ member ∈ s.rows target.name,
    row.cell m.memberColumn = member.cell target.primaryKey
  once : (s.rows link.name).Pairwise fun a b =>
    ¬ (a.cell m.ownerColumn = b.cell m.ownerColumn ∧ a.cell m.memberColumn = b.cell m.memberColumn)

/-- Whole numbers and texts that are equal are the same. -/
theorem ColumnType.eq_of_equal {type : ColumnType} {a b : Value}
    (htype : type = .integer ∨ type = .text) (ha : type.accepts a = true)
    (hb : type.accepts b = true) (han : a.isNull = false) (hbn : b.isNull = false)
    (h : type.equal a b = true) : a = b := by
  rcases htype with rfl | rfl
  · obtain ⟨m, rfl, hm⟩ := accepts_integer ha han
    obtain ⟨n, rfl, hn⟩ := accepts_integer hb hbn
    rw [(equal_integer_iff hm hn).1 h]
  · obtain ⟨s, rfl⟩ := accepts_text ha han
    obtain ⟨t, rfl⟩ := accepts_text hb hbn
    rw [(equal_text_iff s t).1 h]

namespace Store

variable {schema : Schema} {times : Time.Instant → Prop} {s : Store}

/-- The cell of a link is there, and is the key of a row. -/
theorem Linked.cell_eq_key (hwf : schema.WellFormed) (hkeys : schema.HasPlainKeys)
    (hsound : s.Sound schema times) (h : s.Linked schema) {link base : Table}
    (hlink : link ∈ schema.links) (hbase : base ∈ schema.bases) {name : String} {k : Column}
    (hk : base.keyColumn? = some k) (hc : Compile.linkColumn name base k ∈ link.columns)
    {row : Record} (hrow : row ∈ s.rows link.name) :
    (row.cell name).isNull = false
      ∧ ∃ target ∈ s.rows base.name, row.cell name = target.cell base.primaryKey := by
  have hphysical := Schema.mem_physical_of_link hlink
  obtain ⟨t, ht, hmem⟩ := get?_of_mem_rows hrow
  have hsoundt := hsound link hphysical t ht
  have hnull : (row.cell name).isNull = false := by
    rw [Bool.eq_false_iff]
    intro hnull
    have hnullable := (hsoundt.filled row hmem _ hc hnull).1
    cases hnullable
  have haccepts : k.type.accepts (row.cell name) = true := by
    rcases hsoundt.fits row hmem _ hc with h | ⟨hstamp, -⟩
    · exact h
    · cases hstamp
  -- the link holds what equals a key, which for plain keys is the key
  obtain ⟨target, htarget, hheld⟩ := h.intact link hlink row hrow _ hc _ rfl hnull
  obtain ⟨hkeymem, hkey, hkeynull⟩ := hsound.key_of_row hwf hbase hk htarget
  rw [Column.isHeldBy_iff hkeymem] at hheld
  refine ⟨hnull, target, htarget, ?_⟩
  rw [← (Table.mem_of_column? hk).2]
  exact (ColumnType.eq_of_equal (hkeys base hbase k hk) hkey haccepts hkeynull hnull hheld).symm

/-- The links of a list of a sound store. -/
theorem Linked.joins (hwf : schema.WellFormed) (hkeys : schema.HasPlainKeys)
    (hsound : s.Sound schema times) (h : s.Linked schema) {owner link target : Table}
    (howner : owner ∈ schema.bases) {m : ListField} {ownerKey targetKey : Column}
    (hserves : schema.Serves owner m link target ownerKey targetKey) :
    s.Joins owner m link target := by
  have hlink := (Schema.mem_of_linkTable hserves.link_eq).1
  have howned : Compile.linkColumn m.ownerColumn owner ownerKey ∈ link.columns := by
    simp [hserves.columns_eq]
  have hjoined : Compile.linkColumn m.memberColumn target targetKey ∈ link.columns := by
    simp [hserves.columns_eq]
  have howner_key {row : Record} (hrow : row ∈ s.rows link.name) :=
    h.cell_eq_key hwf hkeys hsound hlink howner hserves.ownerKey_eq howned hrow
  have hmember_key {row : Record} (hrow : row ∈ s.rows link.name) :=
    h.cell_eq_key hwf hkeys hsound hlink hserves.target_mem hserves.targetKey_eq hjoined hrow
  refine ⟨fun row hrow => (howner_key hrow).2, fun row hrow => (hmember_key hrow).2, ?_⟩
  have hgroup : [m.ownerColumn, m.memberColumn] ∈ link.uniqueGroups := by
    simp [hserves.groups_eq]
  refine (h.apart link hlink).imp_of_mem ?_
  rintro earlier later hearlier hlater hapart ⟨hsameowner, hsamemember⟩
  -- the rule of the group looks at cells that are there, and a sound row has them all
  have hget (name : String) (hname : name ∈ link.columnNames) :
      earlier.get? name = some (earlier.cell name) := by
    obtain ⟨t, ht, hmem⟩ := get?_of_mem_rows hearlier
    refine Record.get?_of_mem_keys ?_
    rw [(hsound link (Schema.mem_physical_of_link hlink) t ht).keys_eq earlier hmem]
    exact hname
  have hownerget : earlier.get? m.ownerColumn = _ := hget _ (Table.mem_columnNames howned)
  have hmemberget : earlier.get? m.memberColumn = _ := hget _ (Table.mem_columnNames hjoined)
  have hshared : sharesGroup [m.ownerColumn, m.memberColumn] later earlier = true := by
    simp [sharesGroup, (howner_key hearlier).1, (hmember_key hearlier).1, hownerget, hmemberget,
      ← hsameowner, ← hsamemember]
  rw [hapart _ hgroup] at hshared
  cases hshared

end Store

namespace Catalog

variable {settings : Settings} {domain : Domain} {catalog : Catalog}

/-- **No link is left without its rows.** Every link table is that of a list; after any run, its
rows hold the keys of an owner and of a member that exist, and no two of them the same keys. -/
theorem links_join_rows (hcompiles : Catalog.ofDomain settings domain = .ok catalog)
    (hnames : settings.NamesApart) (hkeys : catalog.schema.HasPlainKeys) (steps : List Step) :
    (∀ link ∈ catalog.schema.links, ∃ owner ∈ catalog.schema.bases, ∃ m ∈ owner.lists,
      catalog.schema.linkTable m.linkTable = .ok link)
    ∧ ∀ owner ∈ catalog.schema.bases, ∀ m ∈ owner.lists, ∃ link target,
        catalog.schema.linkTable m.linkTable = .ok link ∧ catalog.schema.table m.target = .ok target
          ∧ (catalog.run steps).store.Joins owner m link target := by
  have hwf := wellFormed_of_ofDomain hcompiles hnames
  have hmoves : Moves catalog.schema (fun _ => True) True {} (catalog.run steps).store :=
    moves_run hwf fun _ _ => trivial
  have hempty := Store.Sound.empty catalog.schema fun _ => True
  have hsound := hempty.moves hwf hmoves
  have hlinked := Store.Linked.moves hwf hkeys hempty hmoves (.empty _)
  refine ⟨hwf.served, fun owner howner m hm => ?_⟩
  obtain ⟨link, target, ownerKey, targetKey, hserves⟩ := hwf.lists owner howner m hm
  exact ⟨link, target, hserves.link_eq, hserves.target_eq,
    hlinked.joins hwf hkeys hsound howner hserves⟩

/-- The one link of the team of the sample. -/
theorem link_of_team_joins_rows :
    ∃ owner ∈ sampleCatalog.schema.bases, ∃ m ∈ owner.lists,
      ((sampleCatalog.run sampleSteps).store.rows m.linkTable).length = 1
        ∧ ∃ link target, sampleCatalog.schema.linkTable m.linkTable = .ok link
          ∧ sampleCatalog.schema.table m.target = .ok target
          ∧ (sampleCatalog.run sampleSteps).store.Joins owner m link target := by
  have hteam : ∃ owner ∈ sampleCatalog.schema.bases, ∃ m ∈ owner.lists,
      ((sampleCatalog.run sampleSteps).store.rows m.linkTable).length = 1 := by
    decide +kernel
  obtain ⟨owner, howner, m, hm, hlength⟩ := hteam
  exact ⟨owner, howner, m, hm, hlength,
    (links_join_rows ofDomain_sample (by decide) (by decide +kernel) sampleSteps).2
      owner howner m hm⟩

end Catalog

end RecordStore
