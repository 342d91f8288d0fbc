import Mathlib.Algebra.Order.Ring.Int
import Mathlib.Data.List.TakeWhile
import RecordStore.Text.Blank
import RecordStore.Text.Integer

/-!
# Digits

A natural number is read from its digits, with zeros before them or none. Zeros behind them are
powers of ten. So a whole number is known by its text.

* **`Text.digitsValue_padded`** — padding does not change what digits write.
* **`Text.ofInteger_injective`** — different whole numbers have different texts.
-/

namespace RecordStore.Text

/-! ## Runs of characters -/

/-- Characters of one kind are read up to the first of another kind. -/
theorem span_append {p : Char → Bool} {cs rest : List Char} (hcs : ∀ c ∈ cs, p c = true)
    (hrest : ∀ c ∈ rest.head?, p c = false) :
    (cs ++ rest).takeWhile p = cs ∧ (cs ++ rest).dropWhile p = rest := by
  rw [List.takeWhile_append_of_pos hcs, List.dropWhile_append_of_pos hcs]
  cases rest with
  | nil => simp
  | cons c rest => simp [hrest c rfl]

/-- Blanks around characters that neither begin nor end with a blank are taken off, and nothing else
is. -/
theorem trimChars_append {before cs after : List Char} (hbefore : ∀ c ∈ before, isBlank c = true)
    (hafter : ∀ c ∈ after, isBlank c = true) (hfirst : ∀ c ∈ cs.head?, isBlank c = false)
    (hlast : ∀ c ∈ cs.getLast?, isBlank c = false) : trimChars (before ++ (cs ++ after)) = cs := by
  cases cs with
  | nil =>
    have hall : (before ++ ([] ++ after)).dropWhile isBlank = [] :=
      List.dropWhile_eq_nil_iff.2 (List.forall_mem_append.2 ⟨hbefore, hafter⟩)
    rw [trimChars, hall]
    rfl
  | cons c rest =>
    have hbegin : ∀ d ∈ (c :: rest ++ after).head?, isBlank d = false := hfirst
    have hend : ∀ d ∈ (c :: rest).reverse.head?, isBlank d = false := by rwa [List.head?_reverse]
    rw [trimChars, (span_append hbefore hbegin).2, List.reverse_append,
      (span_append (fun d hd => hafter d (List.mem_reverse.1 hd)) hend).2, List.reverse_reverse]

/-- Zeros at the end can be taken off and put back. -/
theorem eq_append_zeros (cs : List Char) :
    cs = (cs.reverse.dropWhile (· == '0')).reverse
      ++ List.replicate (cs.reverse.takeWhile (· == '0')).length '0' := by
  have hzeros : (cs.reverse.takeWhile (· == '0')).reverse
      = List.replicate (cs.reverse.takeWhile (· == '0')).length '0' := by
    rw [List.eq_replicate_iff, List.length_reverse]
    refine ⟨rfl, fun c hc => ?_⟩
    have hzero : (c == '0') = true :=
      List.mem_takeWhile_imp (p := (· == '0')) (List.mem_reverse.1 hc)
    exact beq_iff_eq.1 hzero
  rw [← hzeros, ← List.reverse_append, List.takeWhile_append_dropWhile, List.reverse_reverse]

/-! ## Natural numbers -/

theorem isDigit_of_mem_digitsOf {n : Nat} {c : Char} (h : c ∈ Nat.toDigits 10 n) :
    isDigit c = true :=
  Nat.isDigit_of_mem_toDigits (by decide) (by decide) h

theorem isDigit_of_mem_zeros {k : Nat} {c : Char} (h : c ∈ List.replicate k '0') :
    isDigit c = true := by
  rw [List.eq_of_mem_replicate h]
  rfl

theorem digitsValue_digitsOf (n : Nat) : digitsValue (Nat.toDigits 10 n) = n :=
  Nat.ofDigitChars_toDigits (by decide) (by decide)

/-- Zeros behind the digits are powers of ten. -/
theorem digitsValue_append_zeros (ds : List Char) (k : Nat) :
    digitsValue (ds ++ List.replicate k '0') = digitsValue ds * 10 ^ k := by
  rw [digitsValue, digitsValue, Nat.ofDigitChars_append, Nat.ofDigitChars_replicate_zero,
    Nat.mul_comm]

/-- Zeros before the digits are nothing. -/
theorem digitsValue_zeros_append (k : Nat) (ds : List Char) :
    digitsValue (List.replicate k '0' ++ ds) = digitsValue ds := by
  rw [digitsValue, digitsValue, Nat.ofDigitChars_append, Nat.ofDigitChars_replicate_zero,
    Nat.mul_zero]

/-- Padding does not change what digits write. -/
theorem digitsValue_padded (width n : Nat) : digitsValue (padded width n) = n :=
  (digitsValue_zeros_append ..).trans (digitsValue_digitsOf n)

theorem isDigit_of_mem_padded {width n : Nat} {c : Char} (hc : c ∈ padded width n) :
    isDigit c = true :=
  (List.mem_append.1 hc).elim isDigit_of_mem_zeros isDigit_of_mem_digitsOf

theorem length_digitsOf_le {width n : Nat} (hwidth : 0 < width) (hn : n < 10 ^ width) :
    (digitsOf n).length ≤ width :=
  (Nat.length_toDigits_le_iff (by decide) hwidth).2 hn

theorem length_padded {width n : Nat} (hwidth : 0 < width) (hn : n < 10 ^ width) :
    (padded width n).length = width := by
  have hlength := length_digitsOf_le hwidth hn
  rw [padded, List.length_append, List.length_replicate]
  omega

theorem natural?_zeros_append (k n : Nat) :
    natural? (List.replicate k '0' ++ Nat.toDigits 10 n) = some n := by
  have hdigits : ∀ c ∈ List.replicate k '0' ++ Nat.toDigits 10 n, isDigit c = true :=
    List.forall_mem_append.2 ⟨fun _ => isDigit_of_mem_zeros, fun _ => isDigit_of_mem_digitsOf⟩
  unfold natural?
  rw [if_neg (by simp), if_pos (List.all_eq_true.2 hdigits), digitsValue_zeros_append,
    digitsValue_digitsOf]

theorem natural?_digitsOf (n : Nat) : natural? (Nat.toDigits 10 n) = some n :=
  natural?_zeros_append 0 n

/-! ## Whole numbers -/

/-- A number with a sign is read as it is written. -/
theorem integer?_signed (n : Int) :
    integer? ((if n < 0 then '-' else '+') :: Nat.toDigits 10 n.natAbs) = some n := by
  split
  · rw [integer?, natural?_digitsOf]
    show some (-(n.natAbs : Int)) = some n
    congr 1
    omega
  · show (natural? (Nat.toDigits 10 n.natAbs)).map Int.ofNat = some n
    rw [natural?_digitsOf, Option.map_some]
    congr 1
    show (n.natAbs : Int) = n
    omega

theorem isDigit_of_mem_ofInteger {n : Int} {c : Char} (h : c ∈ ofInteger n) :
    c = '-' ∨ isDigit c = true := by
  unfold ofInteger at h
  split at h
  · exact (List.mem_cons.1 h).imp id isDigit_of_mem_digitsOf
  · exact .inr (isDigit_of_mem_digitsOf h)

theorem ofInteger_ne_nil (n : Int) : ofInteger n ≠ [] := by
  unfold ofInteger digitsOf
  split <;> simp

/-- **Different whole numbers have different texts.** -/
theorem ofInteger_injective {m n : Int} (h : ofInteger m = ofInteger n) : m = n := by
  have hdigits {i j : Nat} (h : digitsOf i = digitsOf j) : i = j := by
    have hvalue := congrArg digitsValue h
    rwa [digitsOf, digitsOf, digitsValue_digitsOf, digitsValue_digitsOf] at hvalue
  have hsign {i j : Nat} : '-' :: digitsOf i ≠ digitsOf j := by
    intro heq
    have hminus : '-' ∈ digitsOf j := heq ▸ List.mem_cons_self
    exact absurd (isDigit_of_mem_digitsOf hminus) (by decide)
  unfold ofInteger at h
  split at h <;> split at h
  · have := hdigits (List.cons.inj h).2
    omega
  · exact absurd h hsign
  · exact absurd h.symm hsign
  · have := hdigits h
    omega

end RecordStore.Text
