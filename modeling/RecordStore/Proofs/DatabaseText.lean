import Mathlib.Data.String.Basic
import RecordStore.Text.Pattern

/-!
# Texts in a database

A store compares texts by their characters and looks for the beginning of one directly. A database
compares texts by the bytes of their encoding, and a beginning becomes a pattern with a run at its
end. Neither makes a difference.

* **`Text.compareBytes_eq`** — UTF-8 keeps the order of texts.
* **`Text.Pattern.matchesExactly_beginning`** — the escaped beginning with a run behind it is the
  pattern of the texts with this beginning.
-/

namespace RecordStore.Text

/-! ## Order by bytes -/

/-- The bytes of a text. -/
def bytes (s : String) : List UInt8 := s.toUTF8.data.toList

/-- How two texts compare by their bytes. -/
def compareBytes (s t : String) : Ordering := compareOfLessAndEq (bytes s) (bytes t)

theorem bytes_eq_flatMap (s : String) : bytes s = s.toList.flatMap String.utf8EncodeChar := by
  have hencode : s.toUTF8 = s.toList.utf8Encode := String.utf8Encode_toList.symm
  rw [bytes, hencode, List.utf8Encode, List.toList_data_toByteArray]

theorem bytes_inj {s t : String} : bytes s = bytes t ↔ s = t := by
  rw [bytes, bytes, Array.toList_inj, ← ByteArray.ext_iff]
  exact String.toByteArray_inj

/-- Two encodings are told apart by a byte that both have, so that what follows them does not
matter. -/
def BytesBefore (a b : List UInt8) : Prop := ∀ restA restB, a ++ restA < b ++ restB

theorem ofNat_lt_ofNat {m n : Nat} (h : m < n) (hn : n < 256) : UInt8.ofNat m < UInt8.ofNat n := by
  rw [UInt8.lt_iff_toNat_lt, UInt8.toNat_ofNat', UInt8.toNat_ofNat']
  omega

theorem bytesBefore_head {m n : Nat} {a b : List UInt8} (h : m < n) (hn : n < 256) :
    BytesBefore (UInt8.ofNat m :: a) (UInt8.ofNat n :: b) :=
  fun _ _ => List.cons_lt_cons_iff.2 (.inl (ofNat_lt_ofNat h hn))

theorem BytesBefore.cons {m n : Nat} {a b : List UInt8} (hmn : m = n) (h : BytesBefore a b) :
    BytesBefore (UInt8.ofNat m :: a) (UInt8.ofNat n :: b) :=
  fun restA restB => List.cons_lt_cons_iff.2 (.inr ⟨congrArg UInt8.ofNat hmn, h restA restB⟩)

theorem charVal_lt (c : Char) : c.val.toNat < 0x110000 := by
  rcases c.valid with h | ⟨-, h⟩
  · exact Nat.lt_trans h (by decide)
  · exact h

/-- **The encodings of characters stand in the order of the characters.** A longer encoding begins
with a greater byte; of two that are as long, the first different byte decides. -/
theorem bytesBefore_of_lt {c d : Char} (h : c < d) :
    BytesBefore (String.utf8EncodeChar c) (String.utf8EncodeChar d) := by
  rw [Char.lt_def, UInt32.lt_iff_toNat_lt] at h
  have hd := charVal_lt d
  unfold String.utf8EncodeChar
  generalize c.val.toNat = m at *
  generalize d.val.toNat = n at *
  dsimp only
  split_ifs
  -- the lengths are different, or there is one byte, or the lengths contradict the order
  all_goals first
    | omega
    | exact bytesBefore_head (by omega) (by omega)
    | skip
  · by_cases hfirst : m / 64 = n / 64
    · exact .cons (by omega) (bytesBefore_head (by omega) (by omega))
    · exact bytesBefore_head (by omega) (by omega)
  · by_cases hfirst : m / 4096 = n / 4096
    · by_cases hsecond : m / 64 = n / 64
      · exact .cons (by omega) (.cons (by omega) (bytesBefore_head (by omega) (by omega)))
      · exact .cons (by omega) (bytesBefore_head (by omega) (by omega))
    · exact bytesBefore_head (by omega) (by omega)
  · by_cases hfirst : m / 262144 = n / 262144
    · by_cases hsecond : m / 4096 = n / 4096
      · by_cases hthird : m / 64 = n / 64
        · exact .cons (by omega)
            (.cons (by omega) (.cons (by omega) (bytesBefore_head (by omega) (by omega))))
        · exact .cons (by omega) (.cons (by omega) (bytesBefore_head (by omega) (by omega)))
      · exact .cons (by omega) (bytesBefore_head (by omega) (by omega))
    · exact bytesBefore_head (by omega) (by omega)

/-- Of two texts the one that is first by its characters is first by its bytes. -/
theorem encoded_lt_of_lt {cs ds : List Char} (h : cs < ds) :
    cs.flatMap String.utf8EncodeChar < ds.flatMap String.utf8EncodeChar := by
  induction cs generalizing ds with
  | nil =>
    cases ds with
    | nil => exact absurd h (List.not_lt_nil [])
    | cons d ds =>
      obtain ⟨x, rest, hx⟩ := List.exists_cons_of_ne_nil (String.utf8EncodeChar_ne_nil (c := d))
      rw [List.flatMap_cons, hx]
      exact List.nil_lt_cons x _
  | cons c cs ih =>
    cases ds with
    | nil => exact absurd h (List.not_lt_nil _)
    | cons d ds =>
      rw [List.flatMap_cons, List.flatMap_cons]
      rcases List.cons_lt_cons_iff.1 h with hfirst | ⟨rfl, hrest⟩
      · exact bytesBefore_of_lt hfirst _ _
      · exact List.append_left_lt (ih hrest)

/-- **To compare texts by their bytes is to compare them by their characters.** -/
theorem compareBytes_eq (s t : String) : compareBytes s t = compare s t := by
  have hlt {s t : String} (h : s < t) : bytes s < bytes t := by
    rw [bytes_eq_flatMap, bytes_eq_flatMap]
    exact encoded_lt_of_lt (String.lt_iff_toList_lt.1 h)
  have hcompare : compare s t = compareOfLessAndEq s t := rfl
  rw [hcompare, compareBytes, compareOfLessAndEq, compareOfLessAndEq, if_congr bytes_inj rfl rfl]
  rcases lt_trichotomy s t with h | rfl | h
  · rw [if_pos h, if_pos (hlt h)]
  · simp
  · rw [if_neg (List.lt_asymm (hlt h)), if_neg (not_lt_of_gt h)]

/-! ## Beginnings as patterns -/

namespace Pattern

theorem tokens_plain {c : Char} (h : isSpecial c = false) (rest : List Char) :
    tokens (c :: rest) = .literal c :: tokens rest := by
  simp only [isSpecial, Bool.or_eq_false_iff, beq_eq_false_iff_ne] at h
  obtain ⟨⟨hrun, hone⟩, hbackslash⟩ := h
  rw [tokens]
  · exact hrun
  · exact hone
  · exact fun hlast => absurd hlast hbackslash
  · exact fun _ _ hliteral => absurd hliteral hbackslash

/-- An escaped text asks for its characters one by one. -/
theorem tokens_escapeChars (cs rest : List Char) :
    tokens (escapeChars cs ++ rest) = cs.map .literal ++ tokens rest := by
  induction cs with
  | nil => rfl
  | cons c cs ih =>
    rw [escapeChars]
    split
    · rw [List.cons_append, List.cons_append, tokens, ih]
      rfl
    · rename_i hplain
      rw [List.cons_append, tokens_plain (Bool.eq_false_iff.2 hplain), ih]
      rfl

/-- Where no rest remains, none comes back. -/
theorem foldl_advance_nil (same : Char → Char → Bool) (ts : List PatternToken) :
    ts.foldl (advance same) [] = [] := by
  induction ts with
  | nil => rfl
  | cons t ts ih => cases t <;> exact ih

theorem mem_suffixes_nil (text : List Char) : [] ∈ suffixes text := by
  induction text with
  | nil => exact List.mem_cons_self
  | cons c rest ih => exact List.mem_cons_of_mem _ ih

/-- Characters and a run describe the texts that begin with the characters. -/
theorem accepts_beginning (cs text : List Char) :
    accepts (· == ·) (cs.map .literal ++ [.run]) text = cs.isPrefixOf text := by
  induction cs generalizing text with
  | nil =>
    rw [List.isPrefixOf_nil_left, accepts, List.any_eq_true]
    exact ⟨[], mem_suffixes_nil text, rfl⟩
  | cons c cs ih =>
    cases text with
    | nil =>
      rw [accepts, List.map_cons, List.cons_append, List.foldl_cons]
      exact congrArg (List.any · List.isEmpty) (foldl_advance_nil _ _)
    | cons d rest =>
      rw [accepts, List.map_cons, List.cons_append, List.foldl_cons, List.isPrefixOf_cons_cons]
      have hstep : advance (· == ·) [d :: rest] (.literal c) = if c == d then [rest] else [] := by
        rw [advance, List.filterMap_cons, takeOne]
        cases c == d <;> rfl
      rw [hstep]
      split
      · rename_i hsame
        rw [hsame, Bool.true_and]
        exact ih rest
      · rename_i hdiffers
        rw [Bool.eq_false_iff.2 hdiffers, Bool.false_and, foldl_advance_nil]
        rfl

/-- **The escaped beginning with a run behind it describes the texts with this beginning.** -/
theorem matchesExactly_beginning (s text : String) :
    matchesExactly (escape s ++ "%") text = s.toList.isPrefixOf text.toList := by
  rw [matchesExactly, isMatch, escape, String.toList_append, String.toList_ofList,
    tokens_escapeChars]
  exact accepts_beginning s.toList text.toList

end Pattern

end RecordStore.Text
