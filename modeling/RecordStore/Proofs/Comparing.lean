import RecordStore.Proofs.Meaning
import RecordStore.Proofs.Order
import RecordStore.Proofs.Run

/-!
# Comparing values and comparing their parameters

The store compares two values of a column as they are written, and a database compares the
parameters that hold them, each of which is made for the type of the column. Both find one order,
except for whole numbers in a column of doubles: the store compares two of them exactly, while their
parameters hold doubles, and beyond the numbers that doubles tell apart these may be one. Where this
happens, a double can equal two numbers of which one is less than the other, so the comparison of
the store is no order any more.

* **`ColumnType.order?_iff`**, **`ColumnType.equals?_iff`** — when the two find the same.
* **`ColumnType.compares_as_bound`** — how the values of a column compare, and how far they are
  ordered.
-/

namespace RecordStore

open Std Sql

namespace ColumnType

variable {type : ColumnType} {a b : Value} {x y : Datum}

/-! ## Parameters of two values -/

/-- A value that is not null has a parameter, which holds it. -/
theorem exists_bind (column : String) (h : type.accepts a = true ∧ a.isNull = false) :
    ∃ p x, Bind.ofValue column type a = .ok p
      ∧ p.cell? = some (some x) ∧ type.datum? a = some x := by
  obtain ⟨p, hp⟩ := Bind.ofValue_ok_iff.2 h.1
  have hcell := cell?_of_ofValue hp
  cases hdatum : type.datum? a with
  | none =>
    rw [(datum?_eq_none_iff h.1).1 hdatum] at h
    cases h.2
  | some x => exact ⟨p, x, hp, hdatum ▸ hcell, rfl⟩

theorem double_of_datum? (h : float.datum? a = some x) :
    ∃ d, x = .float d ∧ a.double? = some d := by
  obtain ⟨d, hd, rfl⟩ := Option.map_eq_some_iff.1 h
  exact ⟨d, rfl, hd⟩

/-- Two whole numbers are in the order of their doubles unless they merge. -/
theorem compare_doubles {m n : Int} (hm : a.integer? = some m) (hn : b.integer? = some n)
    (hapart : ¬ float.Merges a b) : compare m n = compare (scaledDouble a) (scaledDouble b) := by
  have hdouble {v : Value} {k : Int} (hk : v.integer? = some k) : v.double?.isSome = true := by
    rw [(int_of_integer? hk).1]
    rfl
  have hle := scaledDouble_le (hdouble hm) (hdouble hn)
  have hge := scaledDouble_le (hdouble hn) (hdouble hm)
  rw [rankCompare_whole hm hn, Int.compare_ne_gt] at hle
  rw [rankCompare_whole hn hm, Int.compare_ne_gt] at hge
  have hdoubles (hne : m ≠ n) : scaledDouble a ≠ scaledDouble b :=
    fun hsame => hapart ⟨rfl, m, n, hm, hn, hne, hsame⟩
  rcases Int.lt_trichotomy m n with hlt | heq | hgt
  · have hne := hdoubles (by omega)
    rw [Int.compare_eq_lt.2 hlt, Int.compare_eq_lt.2 (by omega)]
  · rw [Int.compare_eq_eq.2 heq, Int.compare_eq_eq.2 (by omega)]
  · have hne := hdoubles (by omega)
    rw [Int.compare_eq_gt.2 hgt, Int.compare_eq_gt.2 (by omega)]

/-- The parameters of two values are in the order in which the store finds the values, unless these
merge. Then they are equal. -/
theorem order?_cases (hjson : type ≠ .json) (ha : type.datum? a = some x)
    (hb : type.datum? b = some y) :
    ∃ o, x.order? y = some o
      ∧ (¬ type.Merges a b ∧ type.rankCompare a b = o ∨ type.Merges a b ∧ o = .eq) := by
  by_cases hfloat : type = .float
  · subst hfloat
    obtain ⟨d, rfl, hd⟩ := double_of_datum? ha
    obtain ⟨e, rfl, he⟩ := double_of_datum? hb
    have hscaled : compare d e = compare (scaledDouble a) (scaledDouble b) := by
      rw [scaledDouble_eq hd, scaledDouble_eq he]
      rfl
    refine ⟨compare d e, rfl, ?_⟩
    rw [hscaled]
    by_cases hmerges : float.Merges a b
    · exact .inr ⟨hmerges, Int.compare_eq_eq.2 hmerges.same_double⟩
    refine .inl ⟨hmerges, ?_⟩
    by_cases hwhole : a.integer? = none ∨ b.integer? = none
    · exact rankCompare_double (by rw [hd]; rfl) (by rw [he]; rfl) hwhole
    · obtain ⟨hm, hn⟩ := not_or.1 hwhole
      obtain ⟨m, hm⟩ := Option.ne_none_iff_exists'.1 hm
      obtain ⟨n, hn⟩ := Option.ne_none_iff_exists'.1 hn
      rw [rankCompare_whole hm hn, compare_doubles hm hn hmerges]
  · obtain ⟨o, ho, hcompare⟩ := order?_of_datum? hjson (fun h => absurd h hfloat) ha hb
    refine ⟨o, ho, .inl ⟨fun hmerges => hfloat hmerges.1, ?_⟩⟩
    rw [rankCompare, hcompare, Option.getD_some]

/-! ## The comparison of the store -/

/-- **How the values of a column compare**, in a column that is none of documents. Two values that
the column takes can be compared, and have parameters that can be. The order of the parameters is
that of the values, and they are equal when the values are, unless the column holds doubles and the
values are two different whole numbers that are one double: these the store takes for different, and
their parameters are equal. So the comparison of the store orders a set of values exactly if none of
them equals two that are one double. -/
theorem compares_as_bound (hjson : type ≠ .json) (column : String) :
    (∀ a b, type.accepts a = true → a.isNull = false → type.accepts b = true → b.isNull = false →
      ∃ o o' p q x y, type.compare? a b = some o
        ∧ Bind.ofValue column type a = .ok p ∧ p.cell? = some (some x)
        ∧ Bind.ofValue column type b = .ok q ∧ q.cell? = some (some y) ∧ x.order? y = some o'
        ∧ (¬ type.Merges a b → o = o' ∧ x.equals? y = some (type.equal a b))
        ∧ (type.Merges a b → o ≠ .eq ∧ o' = .eq ∧ x.equals? y = some true ∧ type.equal a b = false))
      ∧ ∀ S : Value → Prop, (∀ v, S v → type.accepts v = true ∧ v.isNull = false) →
        (OrdersOn S type.rankCompare ↔ ∀ a b c, S a → S b → S c → type.Merges a b →
          ¬ (type.equal a c = true ∧ type.equal b c = true)) := by
  refine ⟨fun a b ha hfilled hb hfilled' => ?_, fun S hS => ordersOn_iff hjson hS⟩
  obtain ⟨o, ho⟩ := exists_compare? hjson ⟨ha, hfilled⟩ ⟨hb, hfilled'⟩
  obtain ⟨p, x, hp, hx, hdatum⟩ := exists_bind column ⟨ha, hfilled⟩
  obtain ⟨q, y, hq, hy, hdatum'⟩ := exists_bind column ⟨hb, hfilled'⟩
  obtain ⟨o', ho', hcases⟩ := order?_cases hjson hdatum hdatum'
  have hrank : type.rankCompare a b = o := by rw [rankCompare, ho, Option.getD_some]
  have hequal : type.equal a b = (o == .eq) := by
    rw [equal, if_neg hjson, ho]
    cases o <;> rfl
  have hequals := Datum.equals?_of_order? ho'
  refine ⟨o, o', p, q, x, y, ho, hp, hx, hq, hy, ho', fun hapart => ?_, fun hmerges => ?_⟩
  · obtain ⟨-, hsame⟩ | ⟨hmerges, -⟩ := hcases
    · rw [hequals, hequal, ← hrank, hsame]
      exact ⟨rfl, rfl⟩
    · exact absurd hmerges hapart
  · obtain ⟨hapart, -⟩ | ⟨-, rfl⟩ := hcases
    · exact absurd hmerges hapart
    · have hne : o ≠ .eq := hrank ▸ hmerges.rankCompare_ne_eq
      exact ⟨hne, rfl, hequals, by rw [hequal]; simpa using hne⟩

/-- A whole number and a double are compared as doubles, and with them the values of a column that
holds one whole number. -/
theorem levels_compared :
    ∃ p q x y, Bind.ofValue "level" .float (.int 7) = .ok p ∧ p.cell? = some (some x)
    ∧ Bind.ofValue "level" .float (.float (.ofInt 8)) = .ok q ∧ q.cell? = some (some y)
    ∧ x.order? y = float.compare? (.int 7) (.float (.ofInt 8))
    ∧ x.equals? y = some (float.equal (.int 7) (.float (.ofInt 8)))
    ∧ OrdersOn (· ∈ [Value.int 7, .float (.ofInt 7), .float (.ofInt 8)]) float.rankCompare := by
  obtain ⟨hpairs, horders⟩ := compares_as_bound (show float ≠ json by decide) "level"
  obtain ⟨o, o', p, q, x, y, ho, hp, hx, hq, hy, ho', hapart, -⟩ :=
    hpairs (.int 7) (.float (.ofInt 8)) rfl rfl rfl rfl
  obtain ⟨rfl, hequals⟩ := hapart fun ⟨_, _, _, _, hn, _⟩ => nomatch hn
  have haccepts : ∀ v ∈ [Value.int 7, .float (.ofInt 7), .float (.ofInt 8)],
      float.accepts v = true ∧ v.isNull = false := by decide +kernel
  refine ⟨p, q, x, y, hp, hx, hq, hy, ho'.trans ho.symm, hequals, (horders _ haccepts).2 ?_⟩
  rintro a b c ha hb - ⟨-, m, n, hm, hn, hne, -⟩ -
  obtain ⟨rfl, -⟩ := int_of_integer? hm
  obtain ⟨rfl, -⟩ := int_of_integer? hn
  simp_all

end ColumnType

/-! ### A sample -/

namespace Catalog

/-- Tanks show a level, which at first is the least number that doubles do not tell from the next
one. -/
def tankDomain : Domain := .ofList [("tank", { fields := .ofList [
  ("level", { typeName := "float", default? := some (.int 9007199254740992) })] })]

def tankCatalog : Catalog := .compiled {} tankDomain

def tankSteps : List Step := [(⟨0, 0⟩, .createTables), (⟨1, 0⟩, .insert "tank" [{}])]

/-- The level of a tank and the next whole number are one parameter, but the tank is not found by
the number, and both beside their double are in no order. -/
theorem next_level_not_found :
    Catalog.ofDomain {} tankDomain = .ok tankCatalog
      ∧ (∃ row ∈ (tankCatalog.run tankSteps).store.rows "tank",
        row.cell "level" = .int 9007199254740992)
      ∧ (tankCatalog.remove "tank" ⟨2, 0⟩ [⟨"level", .eq, .int 9007199254740993⟩]
        (tankCatalog.run tankSteps)).1.toOption = some 0
      ∧ ColumnType.float.Merges (.int 9007199254740992) (.int 9007199254740993)
      ∧ ¬ OrdersOn
        (· ∈ [Value.int 9007199254740992, .int 9007199254740993, .float (.ofInt 9007199254740992)])
        ColumnType.float.rankCompare := by
  have hmerges : ColumnType.float.Merges (.int 9007199254740992) (.int 9007199254740993) :=
    ⟨rfl, _, _, rfl, rfl, by decide, by decide +kernel⟩
  have haccepts : ∀ v ∈ [Value.int 9007199254740992, .int 9007199254740993,
      .float (.ofInt 9007199254740992)], ColumnType.float.accepts v = true ∧ v.isNull = false := by
    decide +kernel
  refine ⟨ofDomain_compiled rfl, by decide +kernel, by decide +kernel, hmerges, fun horders => ?_⟩
  exact (ColumnType.ordersOn_iff (by decide) haccepts).1
    horders _ _ (.float (.ofInt 9007199254740992))
    (by simp) (by simp) (by simp) hmerges (by decide +kernel)

end Catalog

end RecordStore
