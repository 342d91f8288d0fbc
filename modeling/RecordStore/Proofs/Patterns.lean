import Mathlib.Data.List.Forall2
import RecordStore.Proofs.DatabaseText
import RecordStore.Sql.Condition
import RecordStore.Store.Matching

/-!
# Texts that patterns describe

A text is one that a pattern describes if it can be cut into pieces, one for each step of the
pattern, so that every step takes its piece. The matcher does not look for the cuts one after the
other: it keeps the rests that may remain behind the steps so far. After a run it takes the rests of
the first one alone, which is right because the first is the longest and the others are rests of it
(`LongestFirst`).

* **`Pattern.Spells`** — the steps that a pattern stands for, character by character.
* **`Pattern.accepts_iff`** — the matcher finds the cuts if there are any.
* **`Pattern.like_iff_pieces`** — the texts that the operator `like` accepts.
* **`Pattern.beginnings_found_alike`** — looking for a beginning with a pattern, and without one.
-/

namespace RecordStore.Text

/-- Whether a step takes a piece of a text, where `same` compares a literal with a character. -/
def PatternToken.Takes (same : Char → Char → Bool) : PatternToken → List Char → Prop
  | .run, _ => True
  | .one, piece => ∃ c, piece = [c]
  | .literal c, piece => ∃ d, piece = [d] ∧ same c d = true

namespace Pattern

/-! ## What a pattern stands for -/

/-- The steps that the characters of a pattern stand for. Only the two wildcards and the backslash
mean more than themselves, and a backslash behind which nothing stands means nothing. -/
inductive Spells : List Char → List PatternToken → Prop
  | nil : Spells [] []
  | run {rest : List Char} {ts : List PatternToken} (h : Spells rest ts) :
      Spells ('%' :: rest) (.run :: ts)
  | one {rest : List Char} {ts : List PatternToken} (h : Spells rest ts) :
      Spells ('_' :: rest) (.one :: ts)
  | quoted (c : Char) {rest : List Char} {ts : List PatternToken} (h : Spells rest ts) :
    Spells ('\\' :: c :: rest) (.literal c :: ts)
  | dropped : Spells ['\\'] []
  | plain {c : Char} {rest : List Char} {ts : List PatternToken}
      (hc : c ∉ ['%', '_', '\\']) (h : Spells rest ts) :
    Spells (c :: rest) (.literal c :: ts)

theorem isSpecial_eq_false_iff {c : Char} : isSpecial c = false ↔ c ∉ ['%', '_', '\\'] := by
  simp [isSpecial, and_assoc]

/-- A pattern is read into the tokens that it spells, by recursion on its characters. -/
theorem spells_tokens (pattern : List Char) : Spells pattern (tokens pattern) := by
  fun_induction tokens pattern with
  | case1 => exact .nil
  | case2 rest ih => exact .run ih
  | case3 rest ih => exact .one ih
  | case4 => exact .dropped
  | case5 c rest ih => exact .quoted c ih
  | case6 c rest hrun hone hlast hquoted ih =>
    refine .plain ?_ ih
    simp only [List.mem_cons, List.not_mem_nil, or_false, not_or]
    refine ⟨hrun, hone, fun hc => ?_⟩
    cases rest with
    | nil => exact hlast hc rfl
    | cons d rest => exact hquoted d rest hc rfl

/-- **A pattern stands for the steps that are read from it, and for no others.** -/
theorem spells_iff {pattern : List Char} {ts : List PatternToken} :
    Spells pattern ts ↔ ts = tokens pattern := by
  refine ⟨fun h => ?_, fun h => h ▸ spells_tokens pattern⟩
  induction h with
  | nil => rfl
  | run _ ih => rw [tokens, ih]
  | one _ ih => rw [tokens, ih]
  | quoted c _ ih => rw [tokens, ih]
  | dropped => rfl
  | plain hc _ ih => rw [tokens_plain (isSpecial_eq_false_iff.2 hc), ih]

/-! ## The rests that may remain -/

theorem mem_suffixes_iff {rest text : List Char} : rest ∈ suffixes text ↔ rest <:+ text := by
  induction text with
  | nil => rw [suffixes, List.mem_singleton, List.suffix_nil]
  | cons c text ih => rw [suffixes, List.mem_cons, ih, List.suffix_cons_iff]

/-- Of the rests of a text the longer ones stand before the shorter, which are rests of theirs. -/
def LongestFirst (rests : List (List Char)) : Prop :=
  rests.Pairwise fun longer shorter => shorter <:+ longer

theorem longestFirst_suffixes (text : List Char) : LongestFirst (suffixes text) := by
  induction text with
  | nil => exact List.pairwise_singleton _ _
  | cons c text ih =>
    exact List.pairwise_cons.2
      ⟨fun rest hrest => (mem_suffixes_iff.1 hrest).trans (List.suffix_cons c text), ih⟩

variable {same : Char → Char → Bool} {rests : List (List Char)}

theorem takeOne_eq_some_iff {accept : Char → Bool} {before rest : List Char} :
    takeOne accept before = some rest ↔ ∃ c, accept c = true ∧ before = c :: rest := by
  cases before with
  | nil => simp [takeOne]
  | cons c cs =>
    rw [takeOne, Option.ite_none_right_eq_some, Option.some.injEq]
    constructor
    · rintro ⟨haccept, rfl⟩
      exact ⟨c, haccept, rfl⟩
    · rintro ⟨_, haccept, ⟨⟩⟩
      exact ⟨haccept, rfl⟩

/-- Rests that have each lost a character are still rests of one another. -/
theorem LongestFirst.filterMap_takeOne (h : LongestFirst rests) (accept : Char → Bool) :
    LongestFirst (rests.filterMap (takeOne accept)) := by
  refine List.Pairwise.filterMap _ (fun longer shorter hsuffix rest hrest rest' hrest' => ?_) h
  obtain ⟨c, -, rfl⟩ := takeOne_eq_some_iff.1 hrest
  obtain ⟨d, -, rfl⟩ := takeOne_eq_some_iff.1 hrest'
  rcases List.suffix_cons_iff.1 hsuffix with hall | hinner
  · obtain ⟨-, rfl⟩ := List.cons.inj hall
    exact List.suffix_rfl
  · exact (List.suffix_cons d rest').trans hinner

/-- **One step keeps the rests in order.** -/
theorem LongestFirst.advance (h : LongestFirst rests) (t : PatternToken) :
    LongestFirst (advance same rests t) := by
  cases t with
  | run =>
    cases rests with
    | nil => exact .nil
    | cons longest others => exact longestFirst_suffixes longest
  | one => exact h.filterMap_takeOne _
  | literal c => exact h.filterMap_takeOne _

/-- **One step leaves what stands behind a piece that it takes.** -/
theorem mem_advance_iff (h : LongestFirst rests) {t : PatternToken} {rest : List Char} :
    rest ∈ advance same rests t ↔ ∃ piece, t.Takes same piece ∧ piece ++ rest ∈ rests := by
  cases t with
  | run =>
    cases rests with
    | nil => simp [Pattern.advance]
    | cons longest others =>
      rw [Pattern.advance, mem_suffixes_iff]
      constructor
      · rintro ⟨piece, rfl⟩
        exact ⟨piece, trivial, List.mem_cons_self⟩
      · rintro ⟨piece, -, hmem⟩
        -- what a run leaves of a shorter rest is also what a longer run leaves of the longest
        rcases List.mem_cons.1 hmem with hlongest | hother
        · exact ⟨piece, hlongest⟩
        · exact (List.suffix_append piece rest).trans ((List.pairwise_cons.1 h).1 _ hother)
  | one =>
    rw [Pattern.advance, List.mem_filterMap]
    constructor
    · rintro ⟨before, hbefore, htake⟩
      obtain ⟨c, -, rfl⟩ := takeOne_eq_some_iff.1 htake
      exact ⟨[c], ⟨c, rfl⟩, hbefore⟩
    · rintro ⟨_, ⟨c, rfl⟩, hmem⟩
      exact ⟨c :: rest, hmem, takeOne_eq_some_iff.2 ⟨c, rfl, rfl⟩⟩
  | literal c =>
    rw [Pattern.advance, List.mem_filterMap]
    constructor
    · rintro ⟨before, hbefore, htake⟩
      obtain ⟨d, hsame, rfl⟩ := takeOne_eq_some_iff.1 htake
      exact ⟨[d], ⟨d, rfl, hsame⟩, hbefore⟩
    · rintro ⟨_, ⟨d, rfl, hsame⟩, hmem⟩
      exact ⟨d :: rest, hmem, takeOne_eq_some_iff.2 ⟨d, hsame, rfl⟩⟩

/-- **All steps leave what stands behind pieces that they take one after the other.** -/
theorem mem_foldl_advance_iff (h : LongestFirst rests) (ts : List PatternToken) {rest : List Char} :
    rest ∈ ts.foldl (Pattern.advance same) rests
      ↔ ∃ pieces, List.Forall₂ (PatternToken.Takes same) ts pieces
        ∧ pieces.flatten ++ rest ∈ rests := by
  -- on the steps, for all rests that are in order: each step keeps them so
  induction ts generalizing rests with
  | nil => simp
  | cons t ts ih =>
    rw [List.foldl_cons, ih (h.advance t)]
    simp only [mem_advance_iff h]
    constructor
    · rintro ⟨pieces, htakes, piece, htake, hmem⟩
      exact ⟨piece :: pieces, .cons htake htakes, by rwa [List.flatten_cons, List.append_assoc]⟩
    · rintro ⟨_, hall, hmem⟩
      obtain ⟨piece, pieces, htake, htakes, rfl⟩ := List.forall₂_cons_left_iff.1 hall
      exact ⟨pieces, htakes, piece, htake, by rwa [List.flatten_cons, List.append_assoc] at hmem⟩

/-- **The matcher accepts a text exactly if it can be cut into pieces that the steps take.** -/
theorem accepts_iff {ts : List PatternToken} {text : List Char} :
    accepts same ts text = true
      ↔ ∃ pieces, List.Forall₂ (PatternToken.Takes same) ts pieces ∧ pieces.flatten = text := by
  have hended : accepts same ts text = true ↔ [] ∈ ts.foldl (Pattern.advance same) [text] := by
    simp [accepts, List.isEmpty_iff]
  rw [hended, mem_foldl_advance_iff (List.pairwise_singleton _ text)]
  simp

/-! ## The operators on texts -/

theorem accepts_like (type : ColumnType) (pattern text : String) :
    Operator.like.accepts type (.string text) (.string pattern) = matchesExactly pattern text := rfl

theorem begins_iff {beginning text : String} :
    beginning.toList.isPrefixOf text.toList = true ↔ ∃ rest, text = beginning ++ rest := by
  rw [List.isPrefixOf_iff_prefix]
  constructor
  · rintro ⟨rest, hrest⟩
    exact ⟨String.ofList rest,
      String.toList_injective (by rw [String.toList_append, String.toList_ofList, hrest])⟩
  · rintro ⟨rest, rfl⟩
    exact ⟨rest.toList, String.toList_append.symm⟩

/-- **The texts that `like` accepts.** A pattern stands for one sequence of steps: a percent sign
for any run of characters, an underscore for one, a backslash for the character behind it or for
nothing at the end, and any other character for itself. A text satisfies `like` with the pattern
exactly if it can be cut into consecutive pieces, one for each step, that the steps take in order;
neither a line break nor any other character is left out. -/
theorem like_iff_pieces (type : ColumnType) (pattern text : String) :
    ∃ ts, (∀ us, Spells pattern.toList us ↔ us = ts)
      ∧ (Operator.like.accepts type (.string text) (.string pattern) = true
        ↔ ∃ pieces, List.Forall₂ (PatternToken.Takes (· == ·)) ts pieces
          ∧ pieces.flatten = text.toList) :=
  ⟨tokens pattern.toList, fun _ => spells_iff, accepts_iff⟩

example : Operator.like.accepts .text (.string "a.b\n50%c") (.string "_._%50\\%c\\") = true := by
  decide +kernel

/-- **A beginning is found alike with a pattern and without one.** The condition of a statement
compares the column by `like` with a pattern that it puts into the parameters: the escaped beginning
with a run behind it. A text satisfies `like` with this pattern exactly if it has the beginning, and
so it does the operator `startsWith`, which looks for the beginning itself. -/
theorem beginnings_found_alike (c : Column) (type : ColumnType) (beginning text : String)
    (earlier : List Sql.Bind) :
    ∃ pattern, Sql.Condition.ofComparison c .startsWith (.string beginning) earlier
        = .ok (.compare c.name .like (earlier.length + 1), earlier ++ [.text (some pattern)])
      ∧ pattern = escape beginning ++ "%"
      ∧ (Operator.like.accepts type (.string text) (.string pattern) = true
        ↔ ∃ rest, text = beginning ++ rest)
      ∧ (Operator.startsWith.accepts type (.string text) (.string beginning) = true
        ↔ ∃ rest, text = beginning ++ rest) := by
  refine ⟨escape beginning ++ "%", rfl, rfl, ?_, begins_iff⟩
  rw [accepts_like, matchesExactly_beginning, begins_iff]

end Pattern

end RecordStore.Text
