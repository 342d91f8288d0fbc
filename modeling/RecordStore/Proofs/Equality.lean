import Mathlib.Order.Compare
import RecordStore.Store.Comparison

/-!
# Equality of values and of cells

Two notions of equality decide what a store does. Plain equality (`Value.same`) compares values as
they are written, the order of members apart; it is an equivalence on all values. The equality of a
column (`ColumnType.equal`) compares what the cells stand for: dates by their instants, numbers by
their values.

* **`equal_comm`** and **`equal_self`** hold in every column, the second for the values that the
  column takes.
* **`equal_trans`** holds in every column but one of doubles. There a whole number is compared
  exactly with another one but as a double with a double, so two different whole numbers can equal
  the same double; **`equal_float_trans`** says what is left, with a double at the end of the chain.
-/

namespace RecordStore

open Std

namespace Value

theorem same_iff (a b : Value) : a.same b = true ↔ a.canonical = b.canonical := by
  simp [same]

@[simp] theorem same_self (v : Value) : v.same v = true := (same_iff v v).2 rfl

theorem same_comm (a b : Value) : a.same b = b.same a := by
  rw [Bool.eq_iff_iff, same_iff, same_iff, eq_comm]

theorem sameItems_iff (xs ys : List Value) :
    sameItems xs ys = true ↔ xs.map canonical = ys.map canonical := by
  have hmap (items : List Value) : canonicalItems items = items.map canonical := by
    induction items with
    | nil => rfl
    | cons v rest ih => rw [canonicalItems, List.map_cons, ih]
  rw [sameItems, decide_eq_true_eq, hmap, hmap]

end Value

namespace ColumnType

/-! ## The values that a column takes -/

theorem accepts_text {v : Value} (h : text.accepts v = true) (hv : v.isNull = false) :
    ∃ s, v = .string s := by
  cases v <;> simp_all [accepts, Value.isNull]

theorem accepts_boolean {v : Value} (h : boolean.accepts v = true) (hv : v.isNull = false) :
    ∃ b, v = .bool b := by
  cases v <;> simp_all [accepts, Value.isNull]

theorem accepts_integer {v : Value} (h : integer.accepts v = true) (hv : v.isNull = false) :
    ∃ n, v = .int n ∧ isSigned64 n = true := by
  cases v <;> simp_all [accepts, Value.isNull]

theorem accepts_float {v : Value} (h : float.accepts v = true) (hv : v.isNull = false) :
    (∃ n, v = .int n) ∨ ∃ x, v = .float x := by
  cases v <;> simp_all [accepts, Value.isNull]

/-- Whatever a column of doubles takes, but null, is a number, and has a double. -/
theorem exists_double_of_accepts {v : Value} (h : float.accepts v = true)
    (hv : v.isNull = false) : ∃ x, v.double? = some x := by
  rcases accepts_float h hv with ⟨n, rfl⟩ | ⟨x, rfl⟩
  · exact ⟨_, rfl⟩
  · exact ⟨x, rfl⟩

theorem accepts_datetime {v : Value} (h : datetime.accepts v = true) (hv : v.isNull = false) :
    ∃ s i, v = .string s ∧ v.instant? = some i := by
  cases v with
  | string s =>
    obtain ⟨i, hi⟩ :=
      Option.isSome_iff_exists.1 (show (Value.string s).instant?.isSome = true from h)
    exact ⟨s, i, rfl, hi⟩
  | null => simp [Value.isNull] at hv
  | _ => simp [accepts, Value.instant?, Value.text?] at h

@[simp] theorem accepts_null (type : ColumnType) : type.accepts .null = true := by
  cases type <;> rfl

/-! ## How cells compare
 Exchanging the two cells turns a comparison around. -/

theorem compareNumbers?_swap (a b : Value) :
    compareNumbers? b a = (compareNumbers? a b).map Ordering.swap := by
  have hints (m n : Int) : compare n m = (compare m n).swap := OrientedCmp.eq_swap
  unfold compareNumbers?
  cases a.integer? <;> cases b.integer? <;> cases a.double? <;> cases b.double? <;>
    first
    | rfl
    | exact congrArg some (hints _ _)

theorem compareInstants_swap (i j : Time.Instant) : compare j i = (compare i j).swap := by
  have hseconds : compare j.seconds i.seconds = (compare i.seconds j.seconds).swap :=
    OrientedCmp.eq_swap
  have hnanos : compare j.nanos i.nanos = (compare i.nanos j.nanos).swap := OrientedCmp.eq_swap
  show (compare j.seconds i.seconds).then (compare j.nanos i.nanos)
    = ((compare i.seconds j.seconds).then (compare i.nanos j.nanos)).swap
  rw [hseconds, hnanos, Ordering.swap_then]

/-- Two values compare the other way round as they compare. -/
theorem compare?_swap (type : ColumnType) (a b : Value) :
    type.compare? b a = (type.compare? a b).map Ordering.swap := by
  have hnumbers := compareNumbers?_swap a b
  cases a <;> cases b <;> simp only [compare?] <;> try exact hnumbers
  case bool.bool p q =>
    exact congrArg some OrientedCmp.eq_swap
  case string.string s t =>
    -- texts are compared as dates in columns of dates
    split
    · cases (Value.string s).instant? <;> cases (Value.string t).instant? <;>
        first
        | rfl
        | exact congrArg some (compareInstants_swap _ _)
    · exact congrArg some OrientedCmp.eq_swap

theorem equal_comm (type : ColumnType) (a b : Value) : type.equal a b = type.equal b a := by
  unfold equal
  split
  · exact Value.same_comm a b
  · rw [compare?_swap type b a]
    cases type.compare? b a with
    | none => rfl
    | some o => cases o <;> rfl

/-! ## What equal cells have in common -/

/-- What equals a value that is not null is not null. -/
theorem isNull_of_equal {type : ColumnType} {v w : Value} (h : type.equal v w = true)
    (hw : w.isNull = false) : v.isNull = false := by
  cases v with
  | null =>
    unfold ColumnType.equal at h
    cases w <;> simp_all [Value.isNull, Value.same, Value.canonical, ColumnType.compare?,
      ColumnType.compareNumbers?, Value.integer?, Value.double?]
  | _ => rfl

theorem equal_integer_iff {m n : Int} (hm : isSigned64 m = true) (hn : isSigned64 n = true) :
    integer.equal (.int m) (.int n) = true ↔ m = n := by
  simp [equal, compare?, compareNumbers?, Value.integer?, hm, hn]

theorem equal_text_iff (s t : String) : text.equal (.string s) (.string t) = true ↔ s = t := by
  simp [equal, compare?]

theorem equal_boolean_iff (p q : Bool) : boolean.equal (.bool p) (.bool q) = true ↔ p = q := by
  simp [equal, compare?]

theorem compareInstants_eq_iff (i j : Time.Instant) : compare i j = .eq ↔ i = j := by
  show (compare i.seconds j.seconds).then (compare i.nanos j.nanos) = .eq ↔ i = j
  obtain ⟨m, k⟩ := i
  obtain ⟨n, l⟩ := j
  simp [Ordering.then_eq_eq]

theorem equal_datetime_iff {s t : String} {i j : Time.Instant}
    (hi : (Value.string s).instant? = some i) (hj : (Value.string t).instant? = some j) :
    datetime.equal (.string s) (.string t) = true ↔ i = j := by
  simp [equal, compare?, hi, hj, compareInstants_eq_iff]

theorem equal_json_iff (a b : Value) : json.equal a b = true ↔ a.canonical = b.canonical := by
  rw [equal, if_pos rfl, Value.same_iff]

theorem compareDoubles_eq_iff (x y : Double) : compare x y = .eq ↔ x.scaled = y.scaled := by
  show compare x.scaled y.scaled = .eq ↔ _
  exact LawfulEqCmp.compare_eq_iff_eq

/-- Beside a double every number counts as a double. -/
theorem equal_double_iff (v : Value) (x : Double) :
    float.equal v (.float x) = true ↔ ∃ y, v.double? = some y ∧ y.scaled = x.scaled := by
  cases v <;>
    simp [equal, compare?, compareNumbers?, Value.integer?, Value.double?, compareDoubles_eq_iff]

theorem int_of_integer? {v : Value} {n : Int} (h : v.integer? = some n) :
    v = .int n ∧ isSigned64 n = true := by
  cases v with
  | int m =>
    simp only [Value.integer?] at h
    split at h <;> simp_all
  | _ => simp [Value.integer?] at h

theorem compareNumbers?_self {v : Value} {x : Double} (h : v.double? = some x) :
    compareNumbers? v v = some .eq := by
  unfold compareNumbers?
  cases v.integer? with
  | some n => exact congrArg some (LawfulEqCmp.compare_eq_iff_eq.2 rfl)
  | none =>
    simp only [h]
    exact congrArg some ((compareDoubles_eq_iff x x).2 rfl)

/-- Equal numbers are equal as doubles. -/
theorem scaled_eq_of_equal {a b : Value} {x y : Double} (h : float.equal a b = true)
    (hx : a.double? = some x) (hy : b.double? = some y) : x.scaled = y.scaled := by
  have hnumbers : compareNumbers? a b = some .eq := by
    cases a <;> cases b <;> simp_all [equal, compare?, Value.double?]
  unfold compareNumbers? at hnumbers
  split at hnumbers
  · -- both are whole numbers and compared exactly
    rename_i m n hm hn
    have heq : m = n := LawfulEqCmp.compare_eq_iff_eq.1 (Option.some.inj hnumbers)
    rw [(int_of_integer? hm).1] at hx
    rw [(int_of_integer? hn).1, ← heq] at hy
    rw [Option.some.inj (hx.symm.trans hy)]
  -- one of them is a double, so both are compared as doubles
  · rw [hx, hy] at hnumbers
    exact (compareDoubles_eq_iff x y).1 (Option.some.inj hnumbers)

theorem equal_float_iff {a b : Value} {x : Double} (hx : a.double? = some x) :
    float.equal a b = true ↔ compareNumbers? a b = some .eq := by
  cases a <;> simp_all [equal, compare?, Value.double?]

/-- Only numbers equal numbers. -/
theorem exists_double_of_equal {a b : Value} {y : Double} (hy : b.double? = some y)
    (h : float.equal a b = true) : ∃ x, a.double? = some x := by
  rw [equal_comm, equal_float_iff hy] at h
  cases a <;> simp_all [compareNumbers?, Value.integer?, Value.double?]

/-- Cells that equal the same number are equal, unless both are compared exactly and the number is
not. -/
theorem equal_float_of_equal {a b c : Value} {x y z : Double} (hx : a.double? = some x)
    (hy : b.double? = some y) (hz : c.double? = some z) (hac : float.equal a c = true)
    (hbc : float.equal b c = true)
    (hwhole : a.integer?.isSome = true → b.integer?.isSome = true → c.integer?.isSome = true) :
    float.equal a b = true := by
  refine (equal_float_iff hx).2 ?_
  have hdoubles : compare x y = .eq := (compareDoubles_eq_iff x y).2
    ((scaled_eq_of_equal hac hx hz).trans (scaled_eq_of_equal hbc hy hz).symm)
  rw [equal_float_iff hx] at hac
  rw [equal_float_iff hy] at hbc
  cases hm : a.integer? with
  | none => simp [compareNumbers?, hm, hx, hy, hdoubles]
  | some m =>
    cases hn : b.integer? with
    | none => simp [compareNumbers?, hm, hn, hx, hy, hdoubles]
    | some n =>
      -- both are compared with a whole number
      obtain ⟨l, hl⟩ := Option.isSome_iff_exists.1 (hwhole (by rw [hm]; rfl) (by rw [hn]; rfl))
      simp_all [compareNumbers?]

/-- Every value that a column takes, but null, equals itself. -/
theorem equal_self {type : ColumnType} {v : Value} (h : type.accepts v = true)
    (hv : v.isNull = false) : type.equal v v = true := by
  cases type with
  | text =>
    obtain ⟨s, rfl⟩ := accepts_text h hv
    exact (equal_text_iff s s).2 rfl
  | boolean =>
    obtain ⟨b, rfl⟩ := accepts_boolean h hv
    exact (equal_boolean_iff b b).2 rfl
  | integer =>
    obtain ⟨n, rfl, hn⟩ := accepts_integer h hv
    exact (equal_integer_iff hn hn).2 rfl
  | float =>
    rcases accepts_float h hv with ⟨n, rfl⟩ | ⟨x, rfl⟩
    · have hnumbers := compareNumbers?_self (v := .int n) rfl
      simp only [equal, compare?, hnumbers]
      rfl
    · exact (equal_double_iff _ x).2 ⟨x, rfl, rfl⟩
  | datetime =>
    obtain ⟨s, i, rfl, hi⟩ := accepts_datetime h hv
    exact (equal_datetime_iff hi hi).2 rfl
  | json => exact (equal_json_iff v v).2 rfl

/-- In every column but one of doubles, cells that equal the same cell are equal. -/
theorem equal_trans {type : ColumnType} {a b c : Value} (htype : type ≠ .float)
    (ha : type.accepts a = true) (hb : type.accepts b = true) (hc : type.accepts c = true)
    (han : a.isNull = false) (hbn : b.isNull = false) (hcn : c.isNull = false)
    (hab : type.equal a b = true) (hbc : type.equal b c = true) : type.equal a c = true := by
  cases type with
  | text =>
    obtain ⟨s, rfl⟩ := accepts_text ha han
    obtain ⟨t, rfl⟩ := accepts_text hb hbn
    obtain ⟨u, rfl⟩ := accepts_text hc hcn
    rw [equal_text_iff] at *
    exact hab.trans hbc
  | boolean =>
    obtain ⟨p, rfl⟩ := accepts_boolean ha han
    obtain ⟨q, rfl⟩ := accepts_boolean hb hbn
    obtain ⟨r, rfl⟩ := accepts_boolean hc hcn
    rw [equal_boolean_iff] at *
    exact hab.trans hbc
  | integer =>
    obtain ⟨k, rfl, hk⟩ := accepts_integer ha han
    obtain ⟨m, rfl, hm⟩ := accepts_integer hb hbn
    obtain ⟨n, rfl, hn⟩ := accepts_integer hc hcn
    rw [equal_integer_iff hk hm] at hab
    rw [equal_integer_iff hm hn] at hbc
    exact (equal_integer_iff hk hn).2 (hab.trans hbc)
  | float => exact absurd rfl htype
  | datetime =>
    obtain ⟨s, i, rfl, hi⟩ := accepts_datetime ha han
    obtain ⟨t, j, rfl, hj⟩ := accepts_datetime hb hbn
    obtain ⟨u, k, rfl, hk⟩ := accepts_datetime hc hcn
    rw [equal_datetime_iff hi hj] at hab
    rw [equal_datetime_iff hj hk] at hbc
    exact (equal_datetime_iff hi hk).2 (hab.trans hbc)
  | json =>
    rw [equal_json_iff] at *
    exact hab.trans hbc

/-- A double that equals a number equals every number that equals this one. -/
theorem equal_float_trans {a b : Value} {x : Double} (hb : float.accepts b = true)
    (hbn : b.isNull = false) (hab : float.equal a b = true)
    (hax : float.equal a (.float x) = true) : float.equal b (.float x) = true := by
  obtain ⟨y, hy, hyx⟩ := (equal_double_iff a x).1 hax
  obtain ⟨z, hz⟩ := exists_double_of_accepts hb hbn
  exact (equal_double_iff b x).2 ⟨z, hz, (scaled_eq_of_equal hab hy hz).symm.trans hyx⟩

end ColumnType

end RecordStore
