import Mathlib.Tactic.LinearCombination
import Mathlib.Tactic.Ring
import RecordStore.Double.Notation
import RecordStore.Double.Reader
import RecordStore.Proofs.Digits
import RecordStore.Proofs.Rounding

/-!
# Doubles as texts

A double is written with the digits of a decimal number that is rounded to it. The text tells the
value of this decimal number, for it is read as a number of the same value; and numbers of one value
are rounded to one double. So no two doubles have one text.

* **`Decimal.read_magnitudeText`** — a decimal number that is written is read as one of its value.
* **`Double.ofDecimal_shortest`** — the decimal number of a double is rounded to the double.
* **`Double.text_injective`** — different doubles have different texts.
-/

namespace RecordStore

open Text

/-! ## The value of a decimal number -/

namespace Decimal

/-- What a decimal number is worth. -/
def value (d : Decimal) : ℚ := d.digits * (10 : ℚ) ^ d.exponent

theorem value_mul_pow (n k : Nat) (e : Int) : value ⟨n * 10 ^ k, e⟩ = value ⟨n, e + k⟩ := by
  unfold value
  push_cast
  rw [zpow_add₀ (by norm_num), zpow_natCast]
  ring

theorem value_eq_zero_iff (d : Decimal) : d.value = 0 ↔ d.digits = 0 := by
  have hpower : (10 : ℚ) ^ d.exponent ≠ 0 := zpow_ne_zero _ (by norm_num)
  rw [value, mul_eq_zero, or_iff_left hpower, Nat.cast_eq_zero]

/-! ## Significant digits -/

/-- The digits of a number are the significant ones and zeros behind them. -/
theorem exists_significant {d : Decimal} (h : d.digits ≠ 0) :
    d.significant ≠ [] ∧ ∃ k, Nat.toDigits 10 d.digits = d.significant ++ List.replicate k '0' := by
  have hsplit := eq_append_zeros (Nat.toDigits 10 d.digits)
  unfold significant
  split
  · rename_i hnone
    -- if all digits were zeros, so were the number
    rw [hnone, List.nil_append] at hsplit
    have hvalue := digitsValue_digitsOf d.digits
    rw [hsplit, digitsValue, Nat.ofDigitChars_replicate_zero] at hvalue
    exact absurd hvalue.symm h
  · rename_i hsome
    exact ⟨hsome, _, hsplit⟩

/-- The value of a number is that of its significant digits at its point. -/
theorem value_eq_significant {d : Decimal} (h : d.digits ≠ 0) :
    d.value = value ⟨digitsValue d.significant, d.point - d.significant.length⟩ := by
  obtain ⟨-, k, hdigits⟩ := exists_significant h
  have hvalue : d.digits = digitsValue d.significant * 10 ^ k := by
    rw [← digitsValue_append_zeros, ← hdigits, digitsValue_digitsOf]
  have hpoint : d.point - d.significant.length = d.exponent + k := by
    rw [point, hdigits, List.length_append, List.length_replicate]
    push_cast
    ring
  rw [hpoint, ← value_mul_pow, ← hvalue]

theorem isDigit_of_mem_significant {d : Decimal} (h : d.digits ≠ 0) {c : Char}
    (hc : c ∈ d.significant) :
    isDigit c = true := by
  obtain ⟨-, k, hdigits⟩ := exists_significant h
  exact isDigit_of_mem_digitsOf (hdigits ▸ List.mem_append_left _ hc)

/-! ## Reading what is written -/

/-- Digits on either side of a point are read up to an exponent. -/
theorem read_point (whole fraction rest : List Char) (hwhole : ∀ c ∈ whole, isDigit c = true)
    (hfraction : ∀ c ∈ fraction, isDigit c = true) (hrest : ∀ c ∈ rest.head?, isDigit c = false)
    (hsome : whole ≠ []) :
    read (whole ++ '.' :: (fraction ++ rest))
      = (readExponent rest).map (ofDigits whole fraction) := by
  have hpoint : ∀ c ∈ ('.' :: (fraction ++ rest)).head?, isDigit c = false := by simp [isDigit]
  obtain ⟨htake, hdrop⟩ := span_append hwhole hpoint
  obtain ⟨htake', hdrop'⟩ := span_append hfraction hrest
  unfold read
  rw [htake, hdrop]
  simp only [htake', hdrop']
  rw [if_neg (by simp [hsome])]

/-- Digits without a point are read up to an exponent. -/
theorem read_whole (whole rest : List Char) (hwhole : ∀ c ∈ whole, isDigit c = true)
    (hrest : ∀ c ∈ rest.head?, isDigit c = false ∧ c ≠ '.') (hsome : whole ≠ []) :
    read (whole ++ rest) = (readExponent rest).map (ofDigits whole []) := by
  obtain ⟨htake, hdrop⟩ := span_append hwhole fun c hc => (hrest c hc).1
  unfold read
  rw [htake, hdrop]
  split
  · exact absurd rfl (hrest '.' rfl).2
  · rw [if_neg (by simp [hsome])]

/-- Digits on either side of a point are a number. -/
theorem read_fraction (whole fraction : List Char) (hwhole : ∀ c ∈ whole, isDigit c = true)
    (hfraction : ∀ c ∈ fraction, isDigit c = true) (hsome : whole ≠ []) :
    read (whole ++ '.' :: fraction) = some (ofDigits whole fraction 0) := by
  have hread := read_point whole fraction [] hwhole hfraction (by simp) hsome
  rwa [List.append_nil] at hread

/-- Digits with a point among them are read with their value. -/
theorem read_positional {ds : List Char} (hds : ∀ c ∈ ds, isDigit c = true) (hsome : ds ≠ [])
    (p : Int) :
    ∃ d, read (Double.positional ds p) = some d
      ∧ d.value = value ⟨digitsValue ds, p - ds.length⟩ := by
  have hzeros {k : Nat} : ∀ c ∈ List.replicate k '0', isDigit c = true := fun _ hc =>
    isDigit_of_mem_zeros hc
  unfold Double.positional
  split
  -- zeros stand between the point and the digits
  · rename_i hp
    have hread := read_fraction ['0'] (List.replicate (-p).toNat '0' ++ ds) (by simp [isDigit])
      (List.forall_mem_append.2 ⟨hzeros, hds⟩) (by simp)
    refine ⟨_, hread, congrArg value ?_⟩
    have hvalue := digitsValue_zeros_append ((-p).toNat + 1) ds
    rw [List.replicate_succ, List.cons_append] at hvalue
    rw [ofDigits, List.singleton_append, hvalue, List.length_append, List.length_replicate]
    congr 1
    omega
  · dsimp only
    split
    -- zeros stand between the digits and the point
    · rename_i hlength
      have hread := read_fraction (ds ++ List.replicate (p.toNat - ds.length) '0') ['0']
        (List.forall_mem_append.2 ⟨hds, hzeros⟩) (by simp [isDigit]) (by simp [hsome])
      refine ⟨_, hread, ?_⟩
      rw [ofDigits, List.append_assoc, ← List.replicate_succ', digitsValue_append_zeros,
        value_mul_pow]
      congr 2
      simp only [List.length_singleton]
      omega
    -- the point stands between two digits
    · rename_i hlength
      have hread := read_fraction (ds.take p.toNat) (ds.drop p.toNat)
        (fun c hc => hds c (List.mem_of_mem_take hc)) (fun c hc => hds c (List.mem_of_mem_drop hc))
        (by simp [hsome]; omega)
      refine ⟨_, by rwa [List.append_assoc, List.singleton_append], congrArg value ?_⟩
      rw [ofDigits, List.take_append_drop, List.length_drop]
      congr 1
      omega

/-- Digits with an exponent are read with their value. -/
theorem read_scientific {ds : List Char} (hds : ∀ c ∈ ds, isDigit c = true) (hsome : ds ≠ [])
    (n : Int) :
    ∃ d, read (Double.scientific ds n) = some d
      ∧ d.value = value ⟨digitsValue ds, n + 1 - ds.length⟩ := by
  have hexponent :
    readExponent ('e' :: (if n < 0 then '-' else '+') :: Nat.toDigits 10 n.natAbs) = some n := by
    rw [readExponent, if_pos (by decide), integer?_signed]
  have hmark : isDigit 'e' = false := by decide
  rcases ds with _ | ⟨c, _ | ⟨c', rest⟩⟩
  · exact absurd rfl hsome
  · have hread :=
      read_whole [c] ('e' :: (if n < 0 then '-' else '+') :: Nat.toDigits 10 n.natAbs) hds
      (by simp [hmark]) (by simp)
    rw [hexponent] at hread
    refine ⟨_, hread, congrArg value ?_⟩
    rw [ofDigits, List.append_nil]
    congr 1
    simp
  · have hread :=
      read_point [c] (c' :: rest) ('e' :: (if n < 0 then '-' else '+') :: Nat.toDigits 10 n.natAbs)
      (by simpa using hds c (by simp))
        (fun d hd => hds d (by simp [hd])) (by simp [hmark]) (by simp)
    rw [hexponent] at hread
    refine ⟨_, hread, congrArg value ?_⟩
    rw [ofDigits, List.singleton_append]
    congr 1
    simp only [List.length_cons]
    omega

/-- **A decimal number that is written is read as one of its value.** -/
theorem read_magnitudeText (d : Decimal) :
    ∃ d', read (Double.magnitudeText d) = some d' ∧ d'.value = d.value := by
  unfold Double.magnitudeText
  split
  · rename_i hzero
    refine ⟨⟨0, -1⟩, by decide, ?_⟩
    rw [(value_eq_zero_iff d).2 hzero, (value_eq_zero_iff _).2 rfl]
  · rename_i hsome
    have hds : ∀ c ∈ d.significant, isDigit c = true :=
      fun c hc => isDigit_of_mem_significant hsome hc
    have hnonempty := (exists_significant hsome).1
    rw [value_eq_significant hsome]
    split
    · exact read_positional hds hnonempty d.point
    · obtain ⟨d', hread, hvalue⟩ := read_scientific hds hnonempty (d.point - 1)
      exact ⟨d', hread, by rwa [Int.sub_add_cancel] at hvalue⟩

end Decimal

namespace Double

/-! ## The double of a decimal number -/

variable {negative : Bool} {num den num' den' : Nat}

/-- Equal quotients have one nearest double. -/
theorem ofUnits_congr (hden : 0 < den) (hden' : 0 < den') (h : num * den' = num' * den) :
    ofUnits negative num den = ofUnits negative num' den' := by
  have hdiv : num / den = num' / den' := by
    rw [← Nat.mul_div_mul_right num den hden', ← Nat.mul_div_mul_right num' den' hden, h,
      Nat.mul_comm den']
  have hround (k : Nat) : roundHalfEven num (den * k) = roundHalfEven num' (den' * k) := by
    rw [← roundHalfEven_mul_mul hden' num, ← roundHalfEven_mul_mul hden num', h]
    congr 1
    ring
  rw [ofUnits, ofUnits, hdiv]
  simp only [hround]

/-- A double that is not zero is the nearest one to a quotient worth the decimal number that it is
rounded from. -/
theorem ofUnits_of_ofDecimal {d : Decimal} {x : Double} (h : ofDecimal negative d = some x)
    (hx : x.mantissa ≠ 0) :
    ∃ num den : Nat, 0 < den ∧ (num : ℚ) = d.value * unitsPerOne * den
      ∧ ofUnits negative num den = some x := by
  have hzero : ¬ zero negative = x := by
    rintro rfl
    exact hx rfl
  unfold ofDecimal at h
  generalize unitsPerOne = units at h ⊢
  split_ifs at h with h0 h1 h2 h3
  · exact absurd (Option.some.inj h) hzero
  · exact absurd (Option.some.inj h) hzero
  · refine ⟨_, 1, Nat.one_pos, ?_, h⟩
    have hpower : (10 : ℚ) ^ d.exponent = 10 ^ d.exponent.toNat := by
      rw [← zpow_natCast, Int.toNat_of_nonneg h3]
    rw [Decimal.value, hpower, Nat.pow_eq]
    push_cast
    ring
  · refine ⟨_, _, Nat.pow_pos (by decide), ?_, h⟩
    have hpower : (10 : ℚ) ^ d.exponent * 10 ^ (-d.exponent).toNat = 1 := by
      rw [← zpow_natCast, Int.toNat_of_nonneg (by omega), zpow_neg]
      exact mul_inv_cancel₀ (zpow_ne_zero _ (by norm_num))
    rw [Decimal.value]
    push_cast
    linear_combination (-(d.digits : ℚ) * units) * hpower

/-- Decimal numbers of one value are rounded to one double. -/
theorem eq_of_ofDecimal {d d' : Decimal} {x y : Double} (hx : x.mantissa ≠ 0) (hy : y.mantissa ≠ 0)
    (h : ofDecimal negative d = some x) (h' : ofDecimal negative d' = some y)
    (hvalue : d.value = d'.value) :
    x = y := by
  obtain ⟨num, den, hden, hnum, hround⟩ := ofUnits_of_ofDecimal h hx
  obtain ⟨num', den', hden', hnum', hround'⟩ := ofUnits_of_ofDecimal h' hy
  have hquotient : num * den' = num' * den := by
    have hcast : (num : ℚ) * den' = num' * den := by
      rw [hnum, hnum', hvalue]
      ring
    exact_mod_cast hcast
  rw [ofUnits_congr hden hden' hquotient, hround'] at hround
  exact (Option.some.inj hround).symm

/-- The exponent of a double is that of its units. -/
theorem exponentOf_units {x : Double} (hx : x.mantissa ≠ 0) : exponentOf x.units = x.exponent := by
  have hunits : x.units ≠ 0 := Nat.mul_ne_zero hx (two_pow_pos _).ne'
  have hlt : x.units.log2 < 53 + x.exponent := by
    rw [Nat.log2_lt hunits, units, Nat.pow_add]
    exact Nat.mul_lt_mul_of_pos_right x.mantissa_lt (two_pow_pos _)
  unfold exponentOf
  rcases x.normal with hnormal | hzero
  · have hle : 52 + x.exponent ≤ x.units.log2 := by
      rw [Nat.le_log2 hunits, units, Nat.pow_add]
      exact Nat.mul_le_mul_right _ hnormal
    omega
  · omega

/-- A double is the one nearest to its own units. -/
theorem ofUnits_units {x : Double} (hx : x.mantissa ≠ 0) :
    ofUnits x.negative x.units 1 = some x := by
  have hexponent : x.units.log2 - 52 = x.exponent := exponentOf_units hx
  have hround : roundHalfEven x.units (Nat.pow 2 x.exponent) = x.mantissa :=
    roundHalfEven_mul _ (two_pow_pos _)
  rw [ofUnits, Nat.div_one, Nat.one_mul, hexponent, hround, if_pos x.mantissa_lt, ofParts?,
    dif_pos ⟨x.mantissa_lt, x.exponent_le, x.normal⟩]

/-- The decimal number that a double is exactly is rounded to the double. -/
theorem ofDecimal_exact {x : Double} (hx : x.mantissa ≠ 0) :
    ofDecimal x.negative x.exact = some x := by
  have hunits : 0 < x.units := Nat.mul_pos (Nat.pos_of_ne_zero hx) (two_pow_pos _)
  have hnonzero (k : Nat) : x.units * Nat.pow 5 k ≠ 0 :=
    (Nat.mul_pos hunits (Nat.pow_pos (by decide))).ne'
  have hbound {i j : Nat} (hij : i ≤ j) : 2 * i ≤ (x.units * Nat.pow 5 j).log2 := by
    rw [Nat.le_log2 (hnonzero j)]
    calc 2 ^ (2 * i) = (2 ^ 2) ^ i := Nat.pow_mul 2 2 i
      _ ≤ 5 ^ i := Nat.pow_le_pow_left (by decide) i
      _ ≤ 5 ^ j := Nat.pow_le_pow_right (by decide) hij
      _ ≤ x.units * 5 ^ j := Nat.le_mul_of_pos_left _ hunits
  obtain ⟨k, hk, hunit, hexact⟩ : ∃ k, k = 1074 ∧ unitsPerOne = Nat.pow 2 k
      ∧ x.exact = ⟨x.units * Nat.pow 5 k, -k⟩ := ⟨1074, rfl, by delta unitsPerOne; rfl, rfl⟩
  have hlog := hbound (show 1061 ≤ k by omega)
  rw [hexact, ofDecimal]
  dsimp only
  rw [if_neg (hnonzero k), if_neg (by omega), if_neg (by omega), if_neg (by omega),
    ← ofUnits_units hx]
  refine ofUnits_congr (Nat.pow_pos (by decide)) Nat.one_pos ?_
  have hten (k : Nat) : x.units * Nat.pow 5 k * Nat.pow 2 k * 1 = x.units * Nat.pow 10 k := by
    rw [Nat.mul_one, Nat.mul_assoc]
    exact congrArg (x.units * ·) (Nat.mul_pow 5 2 k).symm
  rw [hunit, Int.neg_neg, Int.toNat_natCast]
  exact hten k

/-- **The decimal number of a double is rounded to the double.** -/
theorem ofDecimal_shortest {x : Double} (hx : x.mantissa ≠ 0) :
    ofDecimal x.negative x.shortest = some x := by
  rw [shortest, if_neg hx]
  cases hfind : x.candidates.find? x.readsBack with
  | none => exact ofDecimal_exact hx
  | some d =>
    have hreads : x.readsBack d = true := List.find?_some hfind
    exact beq_iff_eq.1 hreads

theorem eq_zero_of_mantissa {x : Double} (h : x.mantissa = 0) : x = zero x.negative := by
  obtain ⟨negative, mantissa, exponent, hlt, hle, hnormal⟩ := x
  obtain rfl : mantissa = 0 := h
  obtain rfl : exponent = 0 := hnormal.resolve_left (by decide)
  rfl

/-- Only the zeros are written as zero. -/
theorem value_shortest_eq_zero_iff {x : Double} : x.shortest.value = 0 ↔ x.mantissa = 0 := by
  constructor
  · intro hvalue
    by_contra hx
    have hround := ofDecimal_shortest hx
    rw [ofDecimal, if_pos ((Decimal.value_eq_zero_iff _).1 hvalue)] at hround
    rw [← Option.some.inj hround] at hx
    exact hx rfl
  · intro hx
    rw [shortest, if_pos hx, Decimal.value_eq_zero_iff]

/-- The decimal numbers of two doubles of one sign are worth different. -/
theorem eq_of_value_shortest {x y : Double} (hsign : x.negative = y.negative)
    (h : x.shortest.value = y.shortest.value) : x = y := by
  have hzero : x.mantissa = 0 ↔ y.mantissa = 0 := by
    rw [← value_shortest_eq_zero_iff, ← value_shortest_eq_zero_iff, h]
  by_cases hx : x.mantissa = 0
  · rw [eq_zero_of_mantissa hx, eq_zero_of_mantissa (hzero.1 hx), hsign]
  · have hy : y.mantissa ≠ 0 := mt hzero.2 hx
    exact eq_of_ofDecimal hx hy (ofDecimal_shortest hx) (hsign ▸ ofDecimal_shortest hy) h

/-! ## The text of a double -/

/-- A sign is no part of a magnitude. -/
theorem read_minus (cs : List Char) : Decimal.read ('-' :: cs) = none := by
  rfl

/-- The text of a magnitude tells its value. -/
theorem value_of_magnitudeText {d d' : Decimal} (h : magnitudeText d = magnitudeText d') :
    d.value = d'.value := by
  obtain ⟨e, hread, hvalue⟩ := Decimal.read_magnitudeText d
  obtain ⟨e', hread', hvalue'⟩ := Decimal.read_magnitudeText d'
  rw [h, hread', Option.some.injEq] at hread
  rw [← hvalue, ← hvalue', hread]

/-- A magnitude is not written with a sign. -/
theorem magnitudeText_ne_minus (d : Decimal) (cs : List Char) : magnitudeText d ≠ '-' :: cs := by
  intro h
  obtain ⟨e, hread, -⟩ := Decimal.read_magnitudeText d
  rw [h, read_minus] at hread
  exact Option.some_ne_none e hread.symm

/-- **Different doubles have different texts.** -/
theorem text_injective {x y : Double} (h : x.text = y.text) : x = y := by
  have hchars := String.ofList_injective h
  cases hx : x.negative <;> cases hy : y.negative <;>
    simp only [hx, hy, if_true, if_false, Bool.false_eq_true] at hchars
  · exact eq_of_value_shortest (hx.trans hy.symm) (value_of_magnitudeText hchars)
  · exact absurd hchars (magnitudeText_ne_minus _ _)
  · exact absurd hchars.symm (magnitudeText_ne_minus _ _)
  · exact eq_of_value_shortest (hx.trans hy.symm) (value_of_magnitudeText (List.cons.inj hchars).2)

end Double

end RecordStore
