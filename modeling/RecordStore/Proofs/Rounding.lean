import Mathlib.Data.Nat.Log
import RecordStore.Json.Value

/-!
# Whole numbers as doubles

A whole number is rounded to a double in units of the smallest positive one. The quotient that is
rounded has the greater divisor the greater the number is, so numbers of different lengths are
compared through the power of two between them, which is a double itself. Rounding keeps the order
of whole numbers, but it may make different ones the same double.

* **`Double.nearest_mono`** — rounding keeps the order of magnitudes.
* **`Double.scaled_ofInt_mono`** — a whole number of 64 bits that is not greater than another one is
  no greater as a double.
-/

namespace RecordStore

/-! ## Rounding a quotient -/

section Quotient

variable {m n den : Nat}

/-- Rounding never goes below the quotient. -/
theorem div_le_roundHalfEven (num den : Nat) : num / den ≤ roundHalfEven num den := by
  unfold roundHalfEven
  dsimp only
  split
  · exact Nat.le_refl _
  · split
    · exact Nat.le_succ _
    · split
      · exact Nat.le_refl _
      · exact Nat.le_succ _

/-- Rounding goes past the quotient by one at most. -/
theorem roundHalfEven_le (num den : Nat) : roundHalfEven num den ≤ num / den + 1 := by
  unfold roundHalfEven
  dsimp only
  split
  · exact Nat.le_succ _
  · split
    · exact Nat.le_refl _
    · split
      · exact Nat.le_succ _
      · exact Nat.le_refl _

theorem roundHalfEven_mono (h : m ≤ n) : roundHalfEven m den ≤ roundHalfEven n den := by
  rcases Nat.lt_or_eq_of_le (Nat.div_le_div_right (c := den) h) with hlt | heq
  · exact (roundHalfEven_le m den).trans
      ((Nat.succ_le_of_lt hlt).trans (div_le_roundHalfEven n den))
  -- with one quotient the remainders are in the order of the numbers
  · have hrest : m % den ≤ n % den := by
      have hm := Nat.div_add_mod m den
      have hn := Nat.div_add_mod n den
      rw [heq] at hm
      omega
    unfold roundHalfEven
    dsimp only
    rw [heq]
    split_ifs <;> omega

theorem roundHalfEven_mul (k : Nat) (hden : 0 < den) : roundHalfEven (k * den) den = k := by
  unfold roundHalfEven
  rw [Nat.mul_div_cancel k hden, Nat.mul_mod_left]
  exact if_pos hden

/-- A quotient that is extended by a factor is rounded to the same number. -/
theorem roundHalfEven_mul_mul {k : Nat} (hk : 0 < k) (num den : Nat) :
    roundHalfEven (num * k) (den * k) = roundHalfEven num den := by
  have hlt (a b : Nat) : 2 * (a * k) < b * k ↔ 2 * a < b := by
    rw [← Nat.mul_assoc, Nat.mul_lt_mul_right hk]
  have hgt (a b : Nat) : b * k < 2 * (a * k) ↔ b < 2 * a := by
    rw [← Nat.mul_assoc, Nat.mul_lt_mul_right hk]
  unfold roundHalfEven
  rw [Nat.mul_div_mul_right num den hk, Nat.mul_mod_mul_right]
  simp only [hlt, hgt]

end Quotient

namespace Double

/-! ## Rounding a magnitude -/

/-- The exponent of the double nearest to a number of units, before its mantissa is rounded. -/
def exponentOf (num : Nat) : Nat := num.log2 - 52

/-- The double nearest to a number of units, in units. -/
def nearest (num : Nat) : Nat :=
  roundHalfEven num (Nat.pow 2 (exponentOf num)) * Nat.pow 2 (exponentOf num)

variable {m n i j : Nat}

theorem two_pow_pos (i : Nat) : 0 < Nat.pow 2 i := Nat.pow_pos (by decide)

theorem two_pow_add (i j : Nat) : Nat.pow 2 (i + j) = Nat.pow 2 i * Nat.pow 2 j := Nat.pow_add 2 i j

/-- A power of two beyond the exponent is rounded to itself. -/
theorem round_two_pow (h : i ≤ j) :
    roundHalfEven (Nat.pow 2 j) (Nat.pow 2 i) * Nat.pow 2 i = Nat.pow 2 j := by
  obtain ⟨k, rfl⟩ := Nat.exists_eq_add_of_le' h
  rw [two_pow_add, roundHalfEven_mul _ (two_pow_pos i)]

theorem nearest_le_pow (h : n ≤ Nat.pow 2 j) (hj : exponentOf n ≤ j) : nearest n ≤ Nat.pow 2 j := by
  rw [← round_two_pow hj]
  exact Nat.mul_le_mul_right _ (roundHalfEven_mono h)

theorem pow_le_nearest (h : Nat.pow 2 j ≤ n) (hj : exponentOf n ≤ j) : Nat.pow 2 j ≤ nearest n := by
  rw [← round_two_pow hj]
  exact Nat.mul_le_mul_right _ (roundHalfEven_mono h)

/-- **Rounding keeps the order of magnitudes.** -/
theorem nearest_mono (h : m ≤ n) : nearest m ≤ nearest n := by
  rcases Nat.eq_zero_or_pos m with rfl | hm
  · have hzero : nearest 0 = 0 := by decide
    rw [hzero]
    exact Nat.zero_le _
  have hlog : m.log2 ≤ n.log2 := by
    rw [Nat.le_log2 (by omega)]
    exact (Nat.log2_self_le (by omega)).trans h
  by_cases hexponent : exponentOf m = exponentOf n
  · rw [nearest, nearest, hexponent]
    exact Nat.mul_le_mul_right _ (roundHalfEven_mono h)
  -- the power of two that the greater number starts with lies between the two
  · have hless : m.log2 < n.log2 ∧ 52 < n.log2 := by
      unfold exponentOf at hexponent
      omega
    have hmpow : m ≤ Nat.pow 2 n.log2 :=
      Nat.le_of_lt ((Nat.log2_lt (by omega)).1 hless.1)
    have hnpow : Nat.pow 2 n.log2 ≤ n := Nat.log2_self_le (by omega)
    refine (nearest_le_pow hmpow ?_).trans (pow_le_nearest hnpow ?_) <;>
      · unfold exponentOf
        omega

/-! ## The double that is rounded to -/

/-- The mantissa has at most 53 bits; rounding up may reach the next power. -/
theorem mantissa_le (n : Nat) :
    roundHalfEven n (Nat.pow 2 (exponentOf n)) ≤ Nat.pow 2 53 := by
  have hle : n ≤ Nat.pow 2 53 * Nat.pow 2 (exponentOf n) := by
    have hlt : n < Nat.pow 2 (n.log2 + 1) := Nat.lt_log2_self
    have hpow : Nat.pow 2 (n.log2 + 1) ≤ Nat.pow 2 (53 + exponentOf n) :=
      Nat.pow_le_pow_right (by decide) (by unfold exponentOf; omega)
    rw [← two_pow_add]
    exact Nat.le_of_lt (hlt.trans_le hpow)
  have hround : roundHalfEven n (Nat.pow 2 (exponentOf n))
      ≤ roundHalfEven (Nat.pow 2 53 * Nat.pow 2 (exponentOf n)) (Nat.pow 2 (exponentOf n)) :=
    roundHalfEven_mono hle
  rwa [roundHalfEven_mul _ (two_pow_pos _)] at hround

theorem le_mantissa (h : 0 < exponentOf n) :
    Nat.pow 2 52 ≤ roundHalfEven n (Nat.pow 2 (exponentOf n)) := by
  have hn : n ≠ 0 := by
    rintro rfl
    exact absurd h (by decide)
  have hle : Nat.pow 2 52 * Nat.pow 2 (exponentOf n) ≤ n := by
    have hlog : 52 + exponentOf n = n.log2 := by
      unfold exponentOf at h ⊢
      omega
    rw [← two_pow_add, hlog]
    exact Nat.log2_self_le hn
  have hround : roundHalfEven (Nat.pow 2 52 * Nat.pow 2 (exponentOf n)) (Nat.pow 2 (exponentOf n))
      ≤ roundHalfEven n (Nat.pow 2 (exponentOf n)) := roundHalfEven_mono hle
  rwa [roundHalfEven_mul _ (two_pow_pos _)] at hround

theorem units_of_ofParts? {negative : Bool} {mantissa exponent : Nat}
    (h : mantissa < Nat.pow 2 53 ∧ exponent ≤ 2045 ∧ (Nat.pow 2 52 ≤ mantissa ∨ exponent = 0)) :
    ∃ x, ofParts? negative mantissa exponent = some x ∧ x.negative = negative
      ∧ x.units = mantissa * Nat.pow 2 exponent := by
  rw [ofParts?, dif_pos h]
  exact ⟨_, rfl, rfl, rfl⟩

/-- Numbers of units that are not too large are rounded to the nearest double. -/
theorem exists_ofUnits (negative : Bool) (h : exponentOf n < 2045) :
    ∃ x, ofUnits negative n 1 = some x ∧ x.negative = negative ∧ x.units = nearest n := by
  have hle := mantissa_le n
  have hnormal : Nat.pow 2 52 ≤ roundHalfEven n (Nat.pow 2 (exponentOf n)) ∨ exponentOf n = 0 :=
    (Nat.eq_zero_or_pos (exponentOf n)).symm.imp le_mantissa id
  rw [ofUnits, Nat.div_one, Nat.one_mul]
  change ∃ x,
    (if roundHalfEven n (Nat.pow 2 (exponentOf n)) < Nat.pow 2 53 then _ else _) = some x ∧ _
  split
  · rename_i hlt
    exact units_of_ofParts? ⟨hlt, Nat.le_of_lt h, hnormal⟩
  -- the mantissa is rounded up to a power of two, and halved
  · rename_i hnot
    have hmantissa : roundHalfEven n (Nat.pow 2 (exponentOf n)) = Nat.pow 2 53 := by omega
    have hhalf : roundHalfEven n (Nat.pow 2 (exponentOf n)) / 2 = Nat.pow 2 52 := by
      rw [hmantissa]
    obtain ⟨x, hx, hnegative, hunits⟩ :
      ∃ x, ofParts? negative (Nat.pow 2 52) (exponentOf n + 1) = some x
        ∧ x.negative = negative ∧ x.units = Nat.pow 2 52 * Nat.pow 2 (exponentOf n + 1) :=
      units_of_ofParts? ⟨by decide, h, .inl (Nat.le_refl _)⟩
    refine ⟨x, hhalf ▸ hx, hnegative, ?_⟩
    rw [hunits, nearest, hmantissa, ← two_pow_add, ← two_pow_add]
    congr 1
    omega

/-- The exponent of a multiple of a power of two. -/
theorem exponentOf_mul_two_pow {k : Nat} (h : k < Nat.pow 2 i) (hi : 0 < i) (j : Nat) :
    exponentOf (k * Nat.pow 2 j) < i + j := by
  have hlt : k * Nat.pow 2 j < Nat.pow 2 (i + j) := by
    rw [two_pow_add]
    exact Nat.mul_lt_mul_of_pos_right h (two_pow_pos j)
  rcases Nat.eq_zero_or_pos (k * Nat.pow 2 j) with hzero | hpos
  · rw [hzero]
    have hnone : exponentOf 0 = 0 := by decide
    omega
  · have hlog := (Nat.log2_lt (Nat.ne_of_gt hpos)).2 hlt
    unfold exponentOf
    omega

/-- The value of a whole number of 64 bits as a double. -/
theorem scaled_ofInt {k : Int} (h : isSigned64 k = true) : (ofInt k).scaled
    = if k < 0 then -(nearest (k.natAbs * unitsPerOne) : Int)
      else nearest (k.natAbs * unitsPerOne) := by
  have hk : k.natAbs < Nat.pow 2 64 := by
    simp only [isSigned64, Nat.pow_eq, Bool.and_eq_true, decide_eq_true_eq] at h ⊢
    omega
  have hexponent : exponentOf (k.natAbs * unitsPerOne) < 2045 := by
    have hpower : ∀ j ≤ 1074, exponentOf (k.natAbs * Nat.pow 2 j) < 2045 := fun j hj =>
      (exponentOf_mul_two_pow hk (by decide) j).trans (by omega)
    delta unitsPerOne
    apply hpower
    decide
  obtain ⟨x, hx, hnegative, hunits⟩ := exists_ofUnits (k < 0) hexponent
  rw [ofInt, hx, Option.getD_some, scaled, hnegative, hunits]
  simp only [decide_eq_true_eq]

/-- **A whole number that is not greater than another one is no greater as a double.** -/
theorem scaled_ofInt_mono {k l : Int} (hk : isSigned64 k = true) (hl : isSigned64 l = true)
    (h : k ≤ l) :
    (ofInt k).scaled ≤ (ofInt l).scaled := by
  have hmono {i j : Int} (habs : i.natAbs ≤ j.natAbs) :
      nearest (i.natAbs * unitsPerOne) ≤ nearest (j.natAbs * unitsPerOne) :=
    nearest_mono (Nat.mul_le_mul_right _ habs)
  rw [scaled_ofInt hk, scaled_ofInt hl]
  split <;> split
  · have hgreater := hmono (i := l) (j := k) (by omega)
    omega
  · omega
  · omega
  · have hless := hmono (i := k) (j := l) (by omega)
    omega

end Double

end RecordStore
