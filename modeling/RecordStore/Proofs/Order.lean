import RecordStore.Proofs.Equality
import RecordStore.Proofs.Rounding
import RecordStore.Store.Order

/-!
# Sorted rows are in order

Sorting puts rows in order as far as the comparison of their cells is an order, which it is among
the values that a column takes: texts, truth values, whole numbers and dates are compared by one
rank each. Numbers in a column of doubles are not, for a whole number is compared exactly with
another one but as a double with a double. They are in order all the same unless a double equals two
different whole numbers, which cannot be if all whole numbers among them are one number, or if no
two of them are equal.

* **`OrdersOn`** — a comparison that is an order of some values.
* **`ColumnType.Merges`** — two different whole numbers that are one double.
* **`ColumnType.ordersOn_iff`** — which values of a column are ordered.
* **`pairwise_sortRows`** — sorted rows are in order.
-/

namespace RecordStore

open Std

/-! ## Comparisons that are orders -/

/-- Among the values with a property, exchanging two of them turns the comparison around, and it is
transitive. -/
structure OrdersOn {α : Type} (S : α → Prop) (cmp : α → α → Ordering) : Prop where
  swap : ∀ {a b}, S a → S b → cmp b a = (cmp a b).swap
  trans : ∀ {a b c}, S a → S b → S c → cmp a b ≠ .gt → cmp b c ≠ .gt → cmp a c ≠ .gt

namespace OrdersOn

variable {α β : Type} {S : α → Prop} {cmp first second : α → α → Ordering}

/-- Values that are compared by their ranks. -/
theorem of_rank [Ord β] [TransOrd β] (rank : α → β)
    (h : ∀ a b, S a → S b → cmp a b = compare (rank a) (rank b)) : OrdersOn S cmp where
  swap {a b} ha hb := by
    rw [h b a hb ha, h a b ha hb]
    exact OrientedCmp.eq_swap
  trans {a b c} ha hb hc hab hbc := by
    rw [h a b ha hb] at hab
    rw [h b c hb hc] at hbc
    rw [h a c ha hc]
    exact Ordering.isLE_iff_ne_gt.1
      (TransCmp.isLE_trans (Ordering.isLE_iff_ne_gt.2 hab) (Ordering.isLE_iff_ne_gt.2 hbc))

theorem congr (h : OrdersOn S first) (hsame : ∀ a b, S a → S b → second a b = first a b) :
    OrdersOn S second where
  swap ha hb := by
    rw [hsame _ _ hb ha, hsame _ _ ha hb]
    exact h.swap ha hb
  trans ha hb hc hab hbc := by
    rw [hsame _ _ ha hb] at hab
    rw [hsame _ _ hb hc] at hbc
    rw [hsame _ _ ha hc]
    exact h.trans ha hb hc hab hbc

theorem mono {T : α → Prop} (h : OrdersOn S cmp) (hle : ∀ a, T a → S a) : OrdersOn T cmp where
  swap ha hb := h.swap (hle _ ha) (hle _ hb)
  trans ha hb hc hab hbc := h.trans (hle _ ha) (hle _ hb) (hle _ hc) hab hbc

/-- Things that are compared by values. -/
theorem comap {T : β → Prop} (h : OrdersOn S cmp) (f : β → α) (hf : ∀ x, T x → S (f x)) :
    OrdersOn T fun x y => cmp (f x) (f y) where
  swap ha hb := h.swap (hf _ ha) (hf _ hb)
  trans ha hb hc hab hbc := h.trans (hf _ ha) (hf _ hb) (hf _ hc) hab hbc

theorem reverse (h : OrdersOn S cmp) : OrdersOn S fun a b => (cmp a b).swap where
  swap ha hb := by rw [h.swap ha hb]
  trans {a b c} ha hb hc hab hbc := by
    rw [← h.swap ha hb] at hab
    rw [← h.swap hb hc] at hbc
    rw [← h.swap ha hc]
    exact h.trans hc hb ha hbc hab

theorem eq_of_ne_gt (h : OrdersOn S cmp) {a b : α} (ha : S a) (hb : S b) (hab : cmp a b ≠ .gt)
    (hba : cmp b a ≠ .gt) : cmp a b = .eq := by
  rw [h.swap ha hb] at hba
  revert hab hba
  cases cmp a b <;> simp

/-- What a first comparison leaves open, a second one decides. -/
theorem lex (hfirst : OrdersOn S first) (hsecond : OrdersOn S second) :
    OrdersOn S fun a b => (first a b).then (second a b) where
  swap ha hb := by rw [hfirst.swap ha hb, hsecond.swap ha hb, Ordering.swap_then]
  trans {a b c} ha hb hc hab hbc := by
    simp only [ne_eq, Ordering.then_eq_gt, not_or, not_and] at hab hbc ⊢
    refine ⟨hfirst.trans ha hb hc hab.1 hbc.1, fun hac => ?_⟩
    -- if the first comparison tells the outer two not apart, it tells none of them apart
    have hca : first c a ≠ .gt := by
      rw [hfirst.swap ha hc, hac]
      decide
    have hfirstab := hfirst.eq_of_ne_gt ha hb hab.1 (hfirst.trans hb hc ha hbc.1 hca)
    have hfirstbc := hfirst.eq_of_ne_gt hb hc hbc.1 (hfirst.trans hc ha hb hca hab.1)
    exact hsecond.trans ha hb hc (hab.2 hfirstab) (hbc.2 hfirstbc)

end OrdersOn

/-! ## The values of a column -/

namespace ColumnType

/-- How two values of a column compare that are not null, if that they cannot be compared counts as
equal. -/
def rankCompare (type : ColumnType) (a b : Value) : Ordering := (type.compare? a b).getD .eq

/-- Two values of a column that is none of documents can be compared. -/
theorem exists_compare? {type : ColumnType} (hjson : type ≠ .json) {a b : Value}
    (ha : type.accepts a = true ∧ a.isNull = false)
    (hb : type.accepts b = true ∧ b.isNull = false) :
    ∃ o, type.compare? a b = some o := by
  refine Option.isSome_iff_exists.1 ?_
  cases type with
  | text =>
    obtain ⟨s, rfl⟩ := accepts_text ha.1 ha.2
    obtain ⟨t, rfl⟩ := accepts_text hb.1 hb.2
    rfl
  | boolean =>
    obtain ⟨p, rfl⟩ := accepts_boolean ha.1 ha.2
    obtain ⟨q, rfl⟩ := accepts_boolean hb.1 hb.2
    rfl
  | integer =>
    obtain ⟨m, rfl, hm⟩ := accepts_integer ha.1 ha.2
    obtain ⟨n, rfl, hn⟩ := accepts_integer hb.1 hb.2
    simp [compare?, compareNumbers?, Value.integer?, hm, hn]
  | float =>
    rcases accepts_float ha.1 ha.2 with ⟨m, rfl⟩ | ⟨x, rfl⟩ <;>
      rcases accepts_float hb.1 hb.2 with ⟨n, rfl⟩ | ⟨y, rfl⟩ <;>
      simp only [compare?, compareNumbers?, Value.double?] <;> split <;> rfl
  | datetime =>
    obtain ⟨s, i, rfl, hi⟩ := accepts_datetime ha.1 ha.2
    obtain ⟨t, j, rfl, hj⟩ := accepts_datetime hb.1 hb.2
    simp [compare?, hi, hj]
  | json => exact absurd rfl hjson

/-- Values of a column that are in no order are equal. -/
theorem equal_of_rankCompare {type : ColumnType} (hjson : type ≠ .json) {a b : Value}
    (ha : type.accepts a = true ∧ a.isNull = false) (hb : type.accepts b = true ∧ b.isNull = false)
    (h : type.rankCompare a b = .eq) : type.equal a b = true := by
  obtain ⟨o, ho⟩ := exists_compare? hjson ha hb
  rw [rankCompare, ho, Option.getD_some] at h
  rw [equal, if_neg hjson, ho, h]
  rfl

theorem rankCompare_swap (type : ColumnType) (a b : Value) :
    type.rankCompare b a = (type.rankCompare a b).swap := by
  rw [rankCompare, rankCompare, compare?_swap type a b]
  cases type.compare? a b <;> rfl

theorem rankCompare_of_equal {type : ColumnType} (hjson : type ≠ .json) {a b : Value}
    (h : type.equal a b = true) : type.rankCompare a b = .eq := by
  rw [equal, if_neg hjson, beq_iff_eq] at h
  rw [rankCompare, h, Option.getD_some]

theorem ordersOn_compareInstants (S : Time.Instant → Prop) :
    OrdersOn S (compare : Time.Instant → Time.Instant → Ordering) := by
  have hseconds : OrdersOn S fun i j : Time.Instant => compare i.seconds j.seconds :=
    .of_rank Time.Instant.seconds fun _ _ _ _ => rfl
  have hnanos : OrdersOn S fun i j : Time.Instant => compare i.nanos j.nanos :=
    .of_rank Time.Instant.nanos fun _ _ _ _ => rfl
  exact hseconds.lex hnanos

/-- The values of a column that is one neither of doubles nor of documents are ordered. -/
theorem ordersOn_compare? {type : ColumnType} (hfloat : type ≠ .float) (hjson : type ≠ .json) :
    OrdersOn (fun v => type.accepts v = true ∧ v.isNull = false) type.rankCompare := by
  cases type with
  | text =>
    refine .of_rank (fun v => v.text?.getD "") fun a b ha hb => ?_
    obtain ⟨s, rfl⟩ := accepts_text ha.1 ha.2
    obtain ⟨t, rfl⟩ := accepts_text hb.1 hb.2
    rfl
  | boolean =>
    refine .of_rank (fun v => v.same (.bool true)) fun a b ha hb => ?_
    obtain ⟨p, rfl⟩ := accepts_boolean ha.1 ha.2
    obtain ⟨q, rfl⟩ := accepts_boolean hb.1 hb.2
    cases p <;> cases q <;> rfl
  | integer =>
    refine .of_rank (fun v => v.integer?.getD 0) fun a b ha hb => ?_
    obtain ⟨m, rfl, hm⟩ := accepts_integer ha.1 ha.2
    obtain ⟨n, rfl, hn⟩ := accepts_integer hb.1 hb.2
    simp [rankCompare, compare?, compareNumbers?, Value.integer?, hm, hn]
  | float => exact absurd rfl hfloat
  | datetime =>
    refine ((ordersOn_compareInstants fun _ => True).comap (fun v : Value => v.instant?.getD ⟨0, 0⟩)
      fun _ _ => trivial).congr fun a b ha hb => ?_
    obtain ⟨s, i, rfl, hi⟩ := accepts_datetime ha.1 ha.2
    obtain ⟨t, j, rfl, hj⟩ := accepts_datetime hb.1 hb.2
    simp [rankCompare, compare?, hi, hj]
  | json => exact absurd rfl hjson

/-- The value of a number as a double. -/
def scaledDouble (v : Value) : Int := (v.double?.map Double.scaled).getD 0

theorem scaledDouble_eq {v : Value} {x : Double} (h : v.double? = some x) :
    scaledDouble v = x.scaled := by
  rw [scaledDouble, h]
  rfl

theorem rankCompare_float {a b : Value} {x y : Double} (hx : a.double? = some x)
    (hy : b.double? = some y) :
    float.rankCompare a b = match a.integer?, b.integer? with
      | some m, some n => compare m n
      | _, _ => compare x.scaled y.scaled := by
  have hcompare : float.rankCompare a b = (compareNumbers? a b).getD .eq := by
    cases a <;> cases b <;> simp_all [rankCompare, compare?, Value.double?]
  rw [hcompare, compareNumbers?, hx, hy]
  cases a.integer? <;> cases b.integer? <;> rfl

section Numbers

variable {a b : Value} {m n : Int}

theorem rankCompare_whole (hm : a.integer? = some m) (hn : b.integer? = some n) :
    float.rankCompare a b = compare m n := by
  obtain ⟨rfl, -⟩ := int_of_integer? hm
  obtain ⟨rfl, -⟩ := int_of_integer? hn
  rw [rankCompare_float rfl rfl, hm, hn]

/-- Numbers of which one is not whole are compared as doubles. -/
theorem rankCompare_double (ha : a.double?.isSome = true) (hb : b.double?.isSome = true)
    (h : a.integer? = none ∨ b.integer? = none) :
    float.rankCompare a b = compare (scaledDouble a) (scaledDouble b) := by
  obtain ⟨x, hx⟩ := Option.isSome_iff_exists.1 ha
  obtain ⟨y, hy⟩ := Option.isSome_iff_exists.1 hb
  rw [rankCompare_float hx hy, scaledDouble_eq hx, scaledDouble_eq hy]
  split
  · rename_i m n hm hn
    rw [hm, hn] at h
    simp at h
  · rfl

/-- Whole numbers are in the order of their doubles, as far as these differ. -/
theorem scaledDouble_le (ha : a.double?.isSome = true) (hb : b.double?.isSome = true)
    (h : float.rankCompare a b ≠ .gt) : scaledDouble a ≤ scaledDouble b := by
  cases hm : a.integer? with
  | none => exact Int.compare_ne_gt.1 (rankCompare_double ha hb (.inl hm) ▸ h)
  | some m =>
    cases hn : b.integer? with
    | none => exact Int.compare_ne_gt.1 (rankCompare_double ha hb (.inr hn) ▸ h)
    | some n =>
      have hle : m ≤ n := Int.compare_ne_gt.1 (rankCompare_whole hm hn ▸ h)
      obtain ⟨rfl, hsigned⟩ := int_of_integer? hm
      obtain ⟨rfl, hsigned'⟩ := int_of_integer? hn
      rw [scaledDouble_eq rfl, scaledDouble_eq rfl]
      exact Double.scaled_ofInt_mono hsigned hsigned' hle

theorem accepts_of_double? (h : a.double?.isSome = true) :
    float.accepts a = true ∧ a.isNull = false := by
  cases a <;> simp_all [Value.double?, accepts, Value.isNull]

end Numbers

/-- Two different whole numbers of a column of doubles that are one double. -/
def Merges (type : ColumnType) (a b : Value) : Prop :=
  type = .float ∧ ∃ m n, a.integer? = some m ∧ b.integer? = some n ∧ m ≠ n
    ∧ scaledDouble a = scaledDouble b

theorem Merges.same_double {type : ColumnType} {a b : Value} (h : type.Merges a b) :
    scaledDouble a = scaledDouble b := by
  obtain ⟨-, -, -, -, -, -, hsame⟩ := h
  exact hsame

/-- Numbers that merge are compared exactly. -/
theorem Merges.rankCompare_ne_eq {type : ColumnType} {a b : Value} (h : type.Merges a b) :
    type.rankCompare a b ≠ .eq := by
  obtain ⟨rfl, m, n, hm, hn, hne, -⟩ := h
  rw [rankCompare_whole hm hn]
  exact fun heq => hne (LawfulEqCmp.compare_eq_iff_eq.1 heq)

/-- **Numbers are ordered in a column of doubles** if none of them equals two that merge. -/
theorem ordersOn_float {S : Value → Prop} (hdouble : ∀ v, S v → v.double?.isSome = true)
    (hapart : ∀ a b c, S a → S b → S c → float.Merges a b →
      ¬ (float.equal a c = true ∧ float.equal b c = true)) : OrdersOn S float.rankCompare where
  swap _ _ := rankCompare_swap float _ _
  trans {a b c} ha hb hc hab hbc hac := by
    have hle := scaledDouble_le (hdouble a ha) (hdouble b hb) hab
    have hle' := scaledDouble_le (hdouble b hb) (hdouble c hc) hbc
    have hge : scaledDouble c ≤ scaledDouble a := by
      refine scaledDouble_le (hdouble c hc) (hdouble a ha) ?_
      rw [rankCompare_swap float a c, hac]
      decide
    have hsame : scaledDouble a = scaledDouble c := by omega
    -- the outer two are one double, so they are compared exactly
    have hwhole : ¬ (a.integer? = none ∨ c.integer? = none) := by
      intro hnot
      rw [rankCompare_double (hdouble a ha) (hdouble c hc) hnot, Int.compare_eq_gt] at hac
      omega
    obtain ⟨hm, hn⟩ := not_or.1 hwhole
    obtain ⟨m, hm⟩ := Option.ne_none_iff_exists'.1 hm
    obtain ⟨n, hn⟩ := Option.ne_none_iff_exists'.1 hn
    rw [rankCompare_whole hm hn, Int.compare_eq_gt] at hac
    cases hk : b.integer? with
    | some k =>
      rw [rankCompare_whole hm hk, Int.compare_ne_gt] at hab
      rw [rankCompare_whole hk hn, Int.compare_ne_gt] at hbc
      omega
    | none =>
      have hequal {v : Value} (hv : S v) (hdoubles : scaledDouble v = scaledDouble b) :
          float.equal v b = true := by
        refine equal_of_rankCompare (by decide) (accepts_of_double? (hdouble v hv))
          (accepts_of_double? (hdouble b hb)) ?_
        rw [rankCompare_double (hdouble v hv) (hdouble b hb) (.inr hk), hdoubles]
        exact LawfulEqCmp.compare_eq_iff_eq.2 rfl
      exact hapart a c b ha hc hb ⟨rfl, m, n, hm, hn, by omega, hsame⟩
        ⟨hequal ha (by omega), hequal hc (by omega)⟩

/-- Numbers of which all that are whole are one number are ordered by their doubles. -/
theorem ordersOn_doubles {S : Value → Prop} (hdouble : ∀ v, S v → v.double?.isSome = true)
    (hone : ∀ a b, S a → S b → a.integer?.isSome = true → b.integer?.isSome = true → a = b) :
    OrdersOn S float.rankCompare := by
  refine ordersOn_float hdouble fun a b c ha hb _ hmerges => ?_
  obtain ⟨-, m, n, hm, hn, hne, -⟩ := hmerges
  obtain rfl := hone a b ha hb (by rw [hm]; rfl) (by rw [hn]; rfl)
  exact absurd (Option.some.inj (hm.symm.trans hn)) hne

/-- Numbers of which no two are equal are ordered. -/
theorem ordersOn_apart {S : Value → Prop} (hdouble : ∀ v, S v → v.double?.isSome = true)
    (hapart : ∀ a b, S a → S b → float.equal a b = true → a = b) :
    OrdersOn S float.rankCompare := by
  refine ordersOn_float hdouble fun a b c ha hb hc hmerges hequal => ?_
  obtain ⟨-, m, n, hm, hn, hne, -⟩ := hmerges
  obtain rfl := hapart a c ha hc hequal.1
  obtain rfl := hapart b a hb hc hequal.2
  exact hne (Option.some.inj (hm.symm.trans hn))

/-- **The values of a column that is none of documents are ordered** exactly as far as none of them
equals two that merge, which no values do but those of a column of doubles. -/
theorem ordersOn_iff {type : ColumnType} (hjson : type ≠ .json) {S : Value → Prop}
    (hS : ∀ v, S v → type.accepts v = true ∧ v.isNull = false) :
    OrdersOn S type.rankCompare ↔ ∀ a b c, S a → S b → S c → type.Merges a b →
      ¬ (type.equal a c = true ∧ type.equal b c = true) := by
  constructor
  · rintro horders a b c ha hb hc hmerges ⟨hac, hbc⟩
    have hac := rankCompare_of_equal hjson hac
    have hbc := rankCompare_of_equal hjson hbc
    have hca := rankCompare_swap type a c
    have hcb := rankCompare_swap type b c
    rw [hac] at hca
    rw [hbc] at hcb
    refine hmerges.rankCompare_ne_eq (horders.eq_of_ne_gt ha hb (horders.trans ha hc hb ?_ ?_)
      (horders.trans hb hc ha ?_ ?_))
    all_goals simp [hac, hbc, hca, hcb]
  · intro hapart
    by_cases hfloat : type = .float
    · subst hfloat
      exact ordersOn_float (fun v hv =>
        Option.isSome_iff_exists.2 (exists_double_of_accepts (hS v hv).1 (hS v hv).2)) hapart
    · exact (ordersOn_compare? hfloat hjson).mono hS

end ColumnType

/-! ## Rows -/

theorem compareCells_of_filled {type : ColumnType} {a b : Value} (ha : a.isNull = false)
    (hb : b.isNull = false) :
    compareCells type a b = type.rankCompare a b := by
  rw [compareCells, ha, hb]
  rfl

/-- Cells are ordered whose values that are not null are: null comes after these. -/
theorem ordersOn_compareCells {type : ColumnType} {S : Value → Prop}
    (h : OrdersOn (fun v => S v ∧ v.isNull = false) type.rankCompare) :
    OrdersOn S (compareCells type) where
  swap {a b} ha hb := by
    cases hnull : a.isNull <;> cases hnull' : b.isNull
    · rw [compareCells_of_filled hnull hnull', compareCells_of_filled hnull' hnull]
      exact h.swap ⟨ha, hnull⟩ ⟨hb, hnull'⟩
    all_goals simp [compareCells, hnull, hnull']
  trans {a b c} ha hb hc := by
    cases hnull : a.isNull <;> cases hnull' : b.isNull <;> cases hnull'' : c.isNull
    · rw [compareCells_of_filled hnull hnull', compareCells_of_filled hnull' hnull'',
        compareCells_of_filled hnull hnull'']
      exact h.trans ⟨ha, hnull⟩ ⟨hb, hnull'⟩ ⟨hc, hnull''⟩
    all_goals simp [compareCells, hnull, hnull', hnull'']

section Sorting

variable {columns : List Column} {keys : List SortKey} {S : Record → Prop}

/-- Rows are ordered if the cells of each sort key are. -/
theorem ordersOn_compareRows
    (h : ∀ key ∈ keys, OrdersOn (fun v => ∃ row, S row ∧ row.cell key.column = v)
      (compareCells (typeIn columns key.column))) : OrdersOn S (compareRows columns keys) := by
  induction keys with
  | nil => exact ⟨fun _ _ => rfl, fun _ _ _ hab _ => hab⟩
  | cons key rest ih =>
    have hcells := (h key List.mem_cons_self).comap (T := S) (·.cell key.column) fun row hrow =>
      ⟨row, hrow, rfl⟩
    have hkey : OrdersOn S (key.compareRows columns) := by
      obtain ⟨name, direction⟩ := key
      cases direction with
      | asc => exact hcells
      | desc => exact hcells.reverse
    exact hkey.lex (ih fun other hother => h other (List.mem_cons_of_mem key hother))

/-- Rows that are in no order are in none by any sort key. -/
theorem compareRows_eq {a b : Record} (h : compareRows columns keys a b = .eq) {key : SortKey}
    (hkey : key ∈ keys) :
    compareCells (typeIn columns key.column) (a.cell key.column) (b.cell key.column) = .eq := by
  induction keys with
  | nil => cases hkey
  | cons first rest ih =>
    obtain ⟨hfirst, hrest⟩ := Ordering.then_eq_eq.1 h
    rcases List.mem_cons.1 hkey with rfl | hkey
    · obtain ⟨name, direction⟩ := key
      cases direction with
      | asc => exact hfirst
      | desc => exact Ordering.swap_eq_eq.1 hfirst
    · exact ih hrest hkey

/-- A row that is put among rows that are in order, the last one first, leaves them in order. -/
theorem pairwise_insertRow (hordered : OrdersOn S (compareRows columns keys)) {row : Record}
    {sorted : List Record} (hrow : S row) (hrows : ∀ a ∈ sorted, S a)
    (hpairs : sorted.Pairwise fun a b => compareRows columns keys b a ≠ .gt) :
    (insertRow columns keys row sorted).Pairwise fun a b => compareRows columns keys b a ≠ .gt := by
  induction sorted with
  | nil => exact List.pairwise_singleton _ row
  | cons last before ih =>
    have hlast := hrows last List.mem_cons_self
    have hbefore (a : Record) (ha : a ∈ before) : S a := hrows a (List.mem_cons_of_mem last ha)
    rw [List.pairwise_cons] at hpairs
    unfold insertRow
    split
    · rename_i hless
      refine List.pairwise_cons.2 ⟨fun a ha => ?_, ih hbefore hpairs.2⟩
      rcases List.mem_cons.1 ((perm_insertRow columns keys row before).mem_iff.1 ha) with rfl | ha
      · rw [hless]
        decide
      · exact hpairs.1 a ha
    · rename_i hnot
      have hbehind : compareRows columns keys last row ≠ .gt := by
        rw [hordered.swap hrow hlast]
        simpa using hnot
      refine List.pairwise_cons.2 ⟨fun a ha => ?_, List.pairwise_cons.2 hpairs⟩
      rcases List.mem_cons.1 ha with rfl | ha
      · exact hbehind
      · exact hordered.trans (hbefore a ha) hlast hrow (hpairs.1 a ha) hbehind

/-- **Sorted rows are in order**: of two of them the earlier one does not come after the later
one. -/
theorem pairwise_sortRows (hordered : OrdersOn S (compareRows columns keys)) {rows : List Record}
    (hrows : ∀ row ∈ rows, S row) :
    (sortRows columns keys rows).Pairwise fun a b => compareRows columns keys a b ≠ .gt := by
  have hfold (later sorted : List Record) (hlater : ∀ a ∈ later, S a) (hsorted : ∀ a ∈ sorted, S a)
      (hpairs : sorted.Pairwise fun a b => compareRows columns keys b a ≠ .gt) :
      (later.foldl (fun sorted row => insertRow columns keys row sorted) sorted).Pairwise
        fun a b => compareRows columns keys b a ≠ .gt := by
    induction later generalizing sorted with
    | nil => exact hpairs
    | cons row rest ih =>
      have hrow := hlater row List.mem_cons_self
      refine ih _ (fun a ha => hlater a (List.mem_cons_of_mem _ ha)) (fun a ha => ?_)
        (pairwise_insertRow hordered hrow hsorted hpairs)
      rcases List.mem_cons.1 ((perm_insertRow columns keys row sorted).mem_iff.1 ha) with rfl | ha
      · exact hrow
      · exact hsorted a ha
  rw [sortRows, List.pairwise_reverse]
  exact hfold rows [] hrows (by simp) .nil

end Sorting

end RecordStore
