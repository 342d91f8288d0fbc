import RecordStore.Proofs.Effect

/-!
# Rows that are overwritten

An update looks for the places of the rows that satisfy a predicate and then changes the row at each
place. The places are those of different rows and are found before the first row is changed, so
every row that satisfied the predicate is changed once and all others stay, whatever the changed
rows satisfy.

* **`StoredTable.Overwrites`** — the rows that satisfy a predicate are changed by a record.
* **`Transaction.overwrites_of_update`** — what an update makes of its table, and the number it
  returns.
-/

namespace RecordStore

open RecordStore.Action

namespace StoredTable

variable {t t' : StoredTable} {p : Predicate} {record : Record}

/-! ## Places -/

theorem mem_places_iff {place : Nat} : place ∈ t.places p
    ↔ ∃ row, t.rows[place]? = some row ∧ p.holds t.columns row = true := by
  refine ⟨Transaction.mem_places, ?_⟩
  rintro ⟨row, hrow, hholds⟩
  have hzip : (row, place) ∈ t.rows.zipIdx := List.mem_zipIdx_iff_getElem?.2 hrow
  exact List.mem_map.2 ⟨(row, place), List.mem_filter.2 ⟨hzip, hholds⟩, rfl⟩

theorem places_nodup (t : StoredTable) (p : Predicate) : (t.places p).Nodup := by
  have hsub : (t.places p).Sublist (t.rows.zipIdx.map Prod.snd) := List.filter_sublist.map _
  rw [List.zipIdx_map_snd] at hsub
  exact hsub.nodup (List.nodup_range' ..)

/-- There are as many places as rows that satisfy the predicate. -/
theorem length_places (t : StoredTable) (p : Predicate) :
    (t.places p).length = (t.matching p).length := by
  have hrows : t.rows = t.rows.zipIdx.map Prod.fst := by rw [List.zipIdx_map_fst]
  rw [matching, places, List.length_map]
  conv_rhs => rw [hrows, List.filter_map, List.length_map]
  rfl

/-! ## Changing the rows at places -/

/-- The rows at some places are changed by a record, and all other rows stay. -/
structure ChangesAt (places : List Nat) (record : Record) (t t' : StoredTable) : Prop where
  columns_eq : t'.columns = t.columns
  nextId_eq : t'.nextId = t.nextId
  length_eq : t'.rows.length = t.rows.length
  changed : ∀ place ∈ places, ∀ old, t.rows[place]? = some old →
    ∃ row, t'.rows[place]? = some row ∧ assign old record = .ok row
  kept : ∀ place, place ∉ places → t'.rows[place]? = t.rows[place]?

theorem ChangesAt.nil (record : Record) (t : StoredTable) : t.ChangesAt [] record t :=
  ⟨rfl, rfl, rfl, by simp, fun _ _ => rfl⟩

/-- One row is changed and then those at other places. -/
theorem ChangesAt.cons {place : Nat} {rest : List Nat} {old row : Record} (hnot : place ∉ rest)
    (hold : t.rows[place]? = some old) (hassign : assign old record = .ok row)
    (h : { t with rows := t.rows.set place row }.ChangesAt rest record t') :
    t.ChangesAt (place :: rest) record t' := by
  have hplace : place < t.rows.length := (List.getElem?_eq_some_iff.1 hold).1
  refine ⟨h.columns_eq, h.nextId_eq, h.length_eq.trans (List.length_set ..), ?_, ?_⟩
  · intro other hother found hfound
    rcases List.mem_cons.1 hother with rfl | hrest
    -- changed first, and left alone by the changes of the rest
    · obtain rfl : found = old := Option.some.inj (hfound.symm.trans hold)
      refine ⟨row, ?_, hassign⟩
      rw [h.kept other hnot]
      exact List.getElem?_set_self hplace
    · have hne : place ≠ other := fun heq => hnot (heq ▸ hrest)
      refine h.changed other hrest found ?_
      rw [← hfound]
      exact List.getElem?_set_ne hne
  · intro other hother
    rw [List.mem_cons, not_or] at hother
    rw [h.kept other hother.2]
    exact List.getElem?_set_ne (Ne.symm hother.1)

/-- The rows that satisfy a predicate are changed by a record, and all other rows stay. -/
structure Overwrites (p : Predicate) (record : Record) (t t' : StoredTable) : Prop where
  columns_eq : t'.columns = t.columns
  nextId_eq : t'.nextId = t.nextId
  rows :
    List.Forall₂ (fun old row => if p.holds t.columns old = true then assign old record = .ok row
    else row = old) t.rows t'.rows

/-- Rows that are changed at the places of a predicate are the rows that satisfied it. -/
theorem overwrites_of_changesAt (h : t.ChangesAt (t.places p) record t') :
    t.Overwrites p record t' := by
  refine ⟨h.columns_eq, h.nextId_eq, List.forall₂_iff_get.2 ⟨h.length_eq.symm, fun i hi hi' => ?_⟩⟩
  rw [List.get_eq_getElem, List.get_eq_getElem]
  have hold : t.rows[i]? = some t.rows[i] := List.getElem?_eq_getElem hi
  have hnew : t'.rows[i]? = some t'.rows[i] := List.getElem?_eq_getElem hi'
  split
  · rename_i hholds
    obtain ⟨row, hrow, hassign⟩ := h.changed i (mem_places_iff.2 ⟨_, hold, hholds⟩) _ hold
    rwa [Option.some.inj (hnew.symm.trans hrow)]
  · rename_i hnot
    have hkept := h.kept i fun hmem => by
      obtain ⟨row, hrow, hholds⟩ := mem_places_iff.1 hmem
      rw [Option.some.inj (hold.symm.trans hrow)] at hnot
      exact hnot hholds
    rw [hold, hnew] at hkept
    exact Option.some.inj hkept

end StoredTable

namespace Transaction

variable {table : Table} {record : Record} {tx tx' : Transaction}

/-- Places that differ are changed one after the other, each where it was. -/
theorem changesAt_of_forM {places : List Nat} {t : StoredTable} (hnodup : places.Nodup)
    (hplaces : ∀ place ∈ places, place < t.rows.length)
    (ht : tx.work.tables.get? table.name = some t)
    (h : Yields (places.forM (change table record)) tx () tx') :
    ∃ t', t.ChangesAt places record t' ∧ tx' = tx.onto (tx.work.put table.name t') := by
  -- on the places; each row is changed in the table that the changes before it leave
  induction places generalizing tx t with
  | nil =>
    obtain ⟨-, rfl⟩ := (yields_pure _ _).1 h
    exact ⟨t, .nil record t, by rw [Store.put_of_get? ht]; rfl⟩
  | cons place rest ih =>
    rw [List.nodup_cons] at hnodup
    obtain ⟨mid, hfirst, hrest⟩ := yields_forM_cons.1 h
    obtain ⟨-, u, hu, hcases⟩ := yields_change.1 hfirst
    obtain rfl : u = t := Option.some.inj (hu.symm.trans ht)
    rcases hcases with ⟨hnone, -⟩ | ⟨old, row, hold, hassign, -, rfl⟩
    · have hplace := hplaces place List.mem_cons_self
      rw [List.getElem?_eq_getElem hplace] at hnone
      cases hnone
    · have hlater : ∀ other ∈ rest, other < (u.rows.set place row).length := by
        intro other hother
        rw [List.length_set]
        exact hplaces other (List.mem_cons_of_mem _ hother)
      obtain ⟨t', hchanges, rfl⟩ := ih hnodup.2 hlater
        (by rw [work_onto, Store.get?_put, if_pos rfl]) hrest
      refine ⟨t', .cons hnodup.1 hold hassign hchanges, ?_⟩
      rw [onto_onto, work_onto, Store.put_put]

/-- **An update changes the rows that satisfy its predicate**, and returns their number. -/
theorem overwrites_of_update {p : Predicate} {n : Nat}
    (h : Yields (update table p record) tx n tx') :
    ∃ t t', tx.work.tables.get? table.name = some t ∧ t.Overwrites p record t'
      ∧ tx' = tx.onto (tx.work.put table.name t') ∧ n = (t.matching p).length := by
  obtain ⟨-, -, t, ht, hrun, hn⟩ := yields_update.1 h
  have hplaces : ∀ place ∈ t.places p, place < t.rows.length := by
    intro place hplace
    obtain ⟨row, hrow, -⟩ := mem_places hplace
    exact (List.getElem?_eq_some_iff.1 hrow).1
  obtain ⟨t', hchanges, htx'⟩ := changesAt_of_forM (t.places_nodup p) hplaces ht hrun
  exact ⟨t, t', ht, StoredTable.overwrites_of_changesAt hchanges, htx',
    hn.trans (t.length_places p)⟩

end Transaction

end RecordStore
