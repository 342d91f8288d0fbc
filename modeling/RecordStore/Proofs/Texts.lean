import RecordStore.Json.Printer
import RecordStore.Json.Token
import RecordStore.Proofs.Decimals

/-!
# Values as texts

The text of a value can be taken apart again: its first character tells which kind of value it is, a
string ends at the first quote that is not escaped, a number where no character of a number follows,
and an array or an object where the bracket that it began with is closed. So a value is known by its
text.

* **`Json.quoted_append_inj`** — a text between quotes is told from what follows it.
* **`Value.render_append_inj`** — so is the text of every value.
* **`Value.text_injective`** — different values have different texts.
-/

namespace RecordStore

/-! ## Texts between quotes -/

namespace Json

open Token

/-- The unit of a string that stands for one character. -/
def StandsFor (u : StringUnit) (c : Char) : Prop :=
  ∀ units, characters? (u :: units) = (characters? units).map (c :: ·)

theorem standsFor_char (c : Char) : StandsFor (.char c) c := fun _ => rfl

/-- A code unit below the surrogates is a character. -/
theorem standsFor_code {c : Char} (h : c.toNat < 0x20) : StandsFor (.code c.toNat) c := by
  have hhigh : isHighSurrogate c.toNat = false := by simp [isHighSurrogate]; omega
  have hlow : isLowSurrogate c.toNat = false := by simp [isLowSurrogate]; omega
  intro units
  cases units with
  | nil => simp [characters?, hhigh, hlow]
  | cons u units => cases u <;> simp [characters?, hhigh, hlow]

/-- The digits of a control character are read as its number. -/
theorem codeUnit?_hexDigits :
    ∀ n < 0x20, codeUnit? '0' '0' (hexDigit (n / 16)) (hexDigit (n % 16)) = some n := by
  decide

/-- An escaped character is read as one unit that stands for it. -/
theorem stringUnits_escapedChar (c : Char) {cs after : List Char} {units : List StringUnit}
    (h : stringUnits cs = some (units, after)) :
    ∃ u, StandsFor u c ∧ stringUnits (escapedChar c ++ cs) = some (u :: units, after) := by
  unfold escapedChar
  split
  iterate 7 exact ⟨_, standsFor_char _, by simp [stringUnits, escaped?, h]⟩
  -- no other character has a short escape
  rename_i hquote hbackslash _ _ _ _ _
  split
  · rename_i hcontrol
    refine ⟨_, standsFor_code hcontrol, ?_⟩
    simp [stringUnits, codeUnit?_hexDigits c.toNat hcontrol, h]
  · rename_i hplain
    refine ⟨_, standsFor_char c, ?_⟩
    rw [List.singleton_append, stringUnits]
    · simp [hplain, h]
    · exact hquote
    · exact fun _ _ _ _ _ hc _ => hbackslash hc
    · exact fun _ _ hc _ => hbackslash hc

/-- **What stands in a text is read up to its closing quote.** -/
theorem stringUnits_escaped (cs rest : List Char) :
    ∃ units, stringUnits (cs.flatMap escapedChar ++ '"' :: rest) = some (units, rest)
      ∧ characters? units = some cs := by
  induction cs with
  | nil => exact ⟨[], rfl, rfl⟩
  | cons c cs ih =>
    obtain ⟨units, hread, hchars⟩ := ih
    obtain ⟨u, hstands, hread'⟩ := stringUnits_escapedChar c hread
    refine ⟨u :: units, ?_, by rw [hstands, hchars, Option.map_some]⟩
    rw [List.flatMap_cons, List.append_assoc, hread']

/-- **A text between quotes is told from what follows it.** -/
theorem quoted_append_inj {s t : String} {xs ys : List Char} (h : quoted s ++ xs = quoted t ++ ys) :
    s = t ∧ xs = ys := by
  obtain ⟨units, hread, hchars⟩ := stringUnits_escaped s.toList xs
  obtain ⟨units', hread', hchars'⟩ := stringUnits_escaped t.toList ys
  have htail : s.toList.flatMap escapedChar ++ '"' :: xs
    = t.toList.flatMap escapedChar ++ '"' :: ys := by
    simpa [quoted] using h
  rw [htail, hread'] at hread
  cases hread
  rw [hchars', Option.some.injEq] at hchars
  exact ⟨String.toList_injective hchars.symm, rfl⟩

end Json

/-! ## The texts of numbers -/

namespace Text

/-- The characters that numbers are written with. -/
def isNumeral (c : Char) : Bool := isDigit c || c == '-' || c == '+' || c == '.' || c == 'e'

theorem isNumeral_of_isDigit {c : Char} (h : isDigit c = true) : isNumeral c = true := by
  simp [isNumeral, h]

theorem isNumeral_ofInteger (n : Int) : ∀ c ∈ ofInteger n, isNumeral c = true := by
  intro c hc
  rcases isDigit_of_mem_ofInteger hc with rfl | hdigit
  · decide
  · exact isNumeral_of_isDigit hdigit

end Text

namespace Double

open Text

section Notation

variable {ds : List Char}

/-- All characters of a number that is written out are those of numerals. -/
theorem isNumeral_positional (hds : ∀ c ∈ ds, isNumeral c = true) (p : Int) :
    ∀ c ∈ positional ds p, isNumeral c = true := by
  have hzeros {n : Nat} : ∀ c ∈ List.replicate n '0', isNumeral c = true := fun _ hc =>
    isNumeral_of_isDigit (isDigit_of_mem_zeros hc)
  have hzero : isNumeral '0' = true := by decide
  have hpoint : isNumeral '.' = true := by decide
  unfold positional
  dsimp only
  split
  · exact List.forall_mem_append.2 ⟨List.forall_mem_append.2 ⟨by simp [hzero, hpoint], hzeros⟩, hds⟩
  split
  · exact List.forall_mem_append.2 ⟨List.forall_mem_append.2 ⟨hds, hzeros⟩, by simp [hzero, hpoint]⟩
  · exact List.forall_mem_append.2 ⟨List.forall_mem_append.2
      ⟨fun c hc => hds c (List.mem_of_mem_take hc), by simp [hpoint]⟩,
      fun c hc => hds c (List.mem_of_mem_drop hc)⟩

theorem isNumeral_scientific (hds : ∀ c ∈ ds, isNumeral c = true) (n : Int) :
    ∀ c ∈ scientific ds n, isNumeral c = true := by
  have hdigits : ∀ c ∈ Nat.toDigits 10 n.natAbs, isNumeral c = true := fun _ hc =>
    isNumeral_of_isDigit (isDigit_of_mem_digitsOf hc)
  have hexponent : ∀ c ∈ 'e' :: (if n < 0 then '-' else '+') :: Nat.toDigits 10 n.natAbs,
      isNumeral c = true :=
    List.forall_mem_cons.2 ⟨by decide, List.forall_mem_cons.2 ⟨by split <;> decide, hdigits⟩⟩
  refine List.forall_mem_append.2 ⟨?_, hexponent⟩
  rcases ds with _ | ⟨c, _ | ⟨c', rest⟩⟩
  · exact hds
  · exact hds
  · obtain ⟨hc, hrest⟩ := List.forall_mem_cons.1 hds
    exact List.forall_mem_cons.2 ⟨hc, List.forall_mem_cons.2 ⟨by decide, hrest⟩⟩

end Notation

/-- A magnitude is written with the characters of numbers. -/
theorem isNumeral_magnitudeText (d : Decimal) : ∀ c ∈ magnitudeText d, isNumeral c = true := by
  unfold magnitudeText
  split
  · simp [isNumeral, isDigit]
  rename_i hsome
  have hds : ∀ c ∈ d.significant, isNumeral c = true := fun _ hc =>
    isNumeral_of_isDigit (Decimal.isDigit_of_mem_significant hsome hc)
  split
  · exact isNumeral_positional hds _
  · exact isNumeral_scientific hds _

/-- A magnitude begins with a digit. -/
theorem isDigit_head_magnitudeText (d : Decimal) :
    ∀ c ∈ (magnitudeText d).head?, isDigit c = true := by
  unfold magnitudeText
  split
  · exact fun c hc => Option.some.inj hc ▸ rfl
  rename_i hsome
  have hds : ∀ c ∈ d.significant, isDigit c = true :=
    fun c hc => Decimal.isDigit_of_mem_significant hsome hc
  obtain ⟨c, rest, hsignificant⟩ := List.exists_cons_of_ne_nil (Decimal.exists_significant hsome).1
  have hc : isDigit c = true := hds c (hsignificant ▸ List.mem_cons_self)
  rw [hsignificant]
  split
  · unfold positional
    split
    · exact fun d hd => Option.some.inj hd ▸ rfl
    · rename_i hpositive
      obtain ⟨n, hn⟩ : ∃ n, d.point.toNat = n + 1 := ⟨d.point.toNat - 1, by omega⟩
      dsimp only
      split <;> simpa [hn] using hc
  · unfold scientific
    cases rest <;> simpa using hc

/-- The text of a double has a point or an exponent. -/
theorem mark_mem_text (x : Double) : '.' ∈ x.text.toList ∨ 'e' ∈ x.text.toList := by
  have hmagnitude (d : Decimal) : '.' ∈ magnitudeText d ∨ 'e' ∈ magnitudeText d := by
    unfold magnitudeText
    split
    · exact .inl (by decide)
    · split
      · refine .inl ?_
        unfold positional
        dsimp only
        split
        · simp
        · split <;> simp
      · refine .inr ?_
        unfold scientific
        simp
  rw [text, String.toList_ofList]
  split
  · exact (hmagnitude _).imp (List.mem_cons_of_mem _) (List.mem_cons_of_mem _)
  · exact hmagnitude _

theorem isNumeral_text (x : Double) : ∀ c ∈ x.text.toList, isNumeral c = true := by
  rw [text, String.toList_ofList]
  split
  · exact List.forall_mem_cons.2 ⟨by decide, isNumeral_magnitudeText _⟩
  · exact isNumeral_magnitudeText _

theorem text_ne_nil (x : Double) : x.text.toList ≠ [] := by
  intro h
  have hmark := x.mark_mem_text
  rw [h] at hmark
  exact hmark.elim List.not_mem_nil List.not_mem_nil

end Double

/-! ## The texts of values -/

namespace Value

open Text

/-- What follows the text of a value does not continue a number. -/
def Ends (cs : List Char) : Prop := ∀ c ∈ cs.head?, isNumeral c = false

/-- What the first character of a text tells of it: all numbers begin alike. -/
def lead (c : Char) : Char := if isNumeral c then '0' else c

/-- The lead of the texts of values of one kind. -/
def mark : Value → Char
  | .null => 'n'
  | .bool true => 't'
  | .bool false => 'f'
  | .int _ => '0'
  | .float _ => '0'
  | .string _ => '"'
  | .array _ => '['
  | .object _ => '{'

theorem lead_of_numerals {cs : List Char} (hsome : cs ≠ []) (h : ∀ c ∈ cs, isNumeral c = true) :
    ∃ c rest, cs = c :: rest ∧ lead c = '0' := by
  obtain ⟨c, rest, rfl⟩ := List.exists_cons_of_ne_nil hsome
  exact ⟨c, rest, rfl, if_pos (h c List.mem_cons_self)⟩

theorem lead_render (v : Value) : ∃ c cs, render v = c :: cs ∧ lead c = v.mark := by
  cases v with
  | null => exact ⟨_, _, rfl, rfl⟩
  | bool b => cases b <;> exact ⟨_, _, rfl, rfl⟩
  | int n => exact lead_of_numerals (ofInteger_ne_nil n) (isNumeral_ofInteger n)
  | float x => exact lead_of_numerals x.text_ne_nil x.isNumeral_text
  | string s => exact ⟨_, _, rfl, rfl⟩
  | array items => exact ⟨_, _, rfl, rfl⟩
  | object members => exact ⟨_, _, rfl, rfl⟩

/-- Values whose texts may begin with the same character. -/
inductive Alike : Value → Value → Prop
  | null : Alike .null .null
  | bool (b : Bool) : Alike (.bool b) (.bool b)
  | ints (m n : Int) : Alike (.int m) (.int n)
  | intFloat (m : Int) (y : Double) : Alike (.int m) (.float y)
  | floatInt (x : Double) (n : Int) : Alike (.float x) (.int n)
  | floats (x y : Double) : Alike (.float x) (.float y)
  | strings (s t : String) : Alike (.string s) (.string t)
  | arrays (vs ws : List Value) : Alike (.array vs) (.array ws)
  | objects (vs ws : List (String × Value)) : Alike (.object vs) (.object ws)

theorem alike_of_mark {v w : Value} (h : v.mark = w.mark) : Alike v w := by
  rcases v with _ | (_ | _) | _ | _ | _ | _ | _ <;> rcases w with _ | (_ | _) | _
    | _ | _ | _ | _ <;>
    first
      | constructor
      | simp [mark] at h

/-- Texts that begin alike are those of values of one kind. -/
theorem alike_of_render {v w : Value} {xs ys : List Char} (h : render v ++ xs = render w ++ ys) :
    Alike v w := by
  obtain ⟨c, cs, hv, hmark⟩ := lead_render v
  obtain ⟨d, ds, hw, hmark'⟩ := lead_render w
  rw [hv, hw, List.cons_append, List.cons_append, List.cons.injEq] at h
  exact alike_of_mark (by rw [← hmark, ← hmark', h.1])

/-- No value begins with the bracket that closes an array. -/
theorem render_append_ne_bracket (v : Value) (xs ys : List Char) : render v ++ xs ≠ ']' :: ys := by
  intro h
  obtain ⟨c, cs, hv, hmark⟩ := lead_render v
  rw [hv, List.cons_append, List.cons.injEq] at h
  rw [h.1] at hmark
  rw [show lead ']' = ']' from by decide] at hmark
  cases v with
  | bool b => cases b <;> simp [mark] at hmark
  | _ => simp [mark] at hmark

/-- Numbers of one text are told from what follows them. -/
theorem numerals_append_inj {cs ds xs ys : List Char} (hcs : ∀ c ∈ cs, isNumeral c = true)
    (hds : ∀ c ∈ ds, isNumeral c = true) (hx : Ends xs) (hy : Ends ys) (h : cs ++ xs = ds ++ ys) :
    cs = ds ∧ xs = ys := by
  obtain ⟨htake, hdrop⟩ := span_append hcs hx
  obtain ⟨htake', hdrop'⟩ := span_append hds hy
  exact ⟨by rw [← htake, ← htake', h], by rw [← hdrop, ← hdrop', h]⟩

/-- A whole number is not written like a double. -/
theorem ofInteger_ne_text (n : Int) (x : Double) : ofInteger n ≠ x.text.toList := by
  intro h
  have hmark := x.mark_mem_text
  rw [← h] at hmark
  rcases hmark with hpoint | hexponent
  · exact absurd (isDigit_of_mem_ofInteger hpoint) (by decide)
  · exact absurd (isDigit_of_mem_ofInteger hexponent) (by decide)

/-- What follows an item of an array or a member of an object, up to the closing bracket. -/
def following {α : Type} (renderAll : List α → List Char) : List α → List Char
  | [] => []
  | rest => ',' :: renderAll rest

section Following

variable {α : Type} {renderAll : List α → List Char} {c : Char}

theorem ends_following (hc : isNumeral c = false) (rest : List α) (xs : List Char) :
    Ends (following renderAll rest ++ c :: xs) := by
  cases rest with
  | nil => simpa [Ends, following] using hc
  | cons v rest => simp [Ends, following, isNumeral, isDigit]

/-- Where the same follows, nothing does or the same ones do. -/
theorem of_following_append (hc : c ≠ ',') {us vs : List α} {xs ys : List Char}
    (h : following renderAll us ++ c :: xs = following renderAll vs ++ c :: ys) :
    (us = [] ∧ vs = [] ∧ xs = ys) ∨ renderAll us ++ c :: xs = renderAll vs ++ c :: ys := by
  cases us with
  | nil =>
    cases vs with
    | nil => exact .inl ⟨rfl, rfl, (List.cons.inj h).2⟩
    | cons v vs => exact absurd (List.cons.inj h).1 hc
  | cons u us =>
    cases vs with
    | nil => exact absurd (List.cons.inj h).1.symm hc
    | cons v vs => exact .inr (List.cons.inj h).2

end Following

theorem renderItems_cons (v : Value) (rest : List Value) :
    renderItems (v :: rest) = render v ++ following renderItems rest := by
  cases rest with
  | nil => rw [renderItems, following, List.append_nil]
  | cons w rest => rw [renderItems, following] <;> simp

theorem renderMembers_cons (name : String) (v : Value) (rest : List (String × Value)) :
    renderMembers ((name, v) :: rest)
      = Json.quoted name ++ ':' :: (render v ++ following renderMembers rest) := by
  cases rest with
  | nil => rw [renderMembers, following, List.append_nil]
  | cons w rest => rw [renderMembers, following] <;> simp

mutual

/-- **The text of a value is told from what follows it.** -/
theorem render_append_inj : ∀ (v w : Value) {xs ys : List Char}, Ends xs → Ends ys →
    render v ++ xs = render w ++ ys → v = w ∧ xs = ys
  | .null, _, _, _, _, _, h => by
    have halike := alike_of_render h
    cases halike with
    | null => exact ⟨rfl, List.append_cancel_left h⟩
  | .bool _, _, _, _, _, _, h => by
    have halike := alike_of_render h
    cases halike with
    | bool b => exact ⟨rfl, List.append_cancel_left h⟩
  | .int m, _, _, _, hx, hy, h => by
    have halike := alike_of_render h
    cases halike with
    | ints _ n =>
      obtain ⟨hchars, hrest⟩ :=
        numerals_append_inj (isNumeral_ofInteger m) (isNumeral_ofInteger n) hx hy h
      exact ⟨congrArg _ (ofInteger_injective hchars), hrest⟩
    | intFloat _ y =>
      exact absurd (numerals_append_inj (isNumeral_ofInteger m) y.isNumeral_text hx hy h).1
        (ofInteger_ne_text m y)
  | .float x, _, _, _, hx, hy, h => by
    have halike := alike_of_render h
    cases halike with
    | floats _ y =>
      obtain ⟨hchars, hrest⟩ := numerals_append_inj x.isNumeral_text y.isNumeral_text hx hy h
      exact ⟨congrArg _ (Double.text_injective (String.toList_injective hchars)), hrest⟩
    | floatInt _ n =>
      exact absurd (numerals_append_inj x.isNumeral_text (isNumeral_ofInteger n) hx hy h).1.symm
        (ofInteger_ne_text n x)
  | .string s, _, _, _, _, _, h => by
    have halike := alike_of_render h
    cases halike with
    | strings _ t =>
      obtain ⟨rfl, hrest⟩ := Json.quoted_append_inj h
      exact ⟨rfl, hrest⟩
  | .array vs, _, xs, ys, _, _, h => by
    have halike := alike_of_render h
    cases halike with
    | arrays _ ws =>
      have hitems : renderItems vs ++ ']' :: xs = renderItems ws ++ ']' :: ys := by
        simpa [render] using h
      obtain ⟨rfl, hrest⟩ := renderItems_append_inj vs ws hitems
      exact ⟨rfl, hrest⟩
  | .object vs, _, xs, ys, _, _, h => by
    have halike := alike_of_render h
    cases halike with
    | objects _ ws =>
      have hmembers : renderMembers vs ++ '}' :: xs = renderMembers ws ++ '}' :: ys := by
        simpa [render] using h
      obtain ⟨rfl, hrest⟩ := renderMembers_append_inj vs ws hmembers
      exact ⟨rfl, hrest⟩

/-- Lists of values are told apart by their texts, up to the closing bracket. -/
theorem renderItems_append_inj : ∀ (vs ws : List Value) {xs ys : List Char},
    renderItems vs ++ ']' :: xs = renderItems ws ++ ']' :: ys → vs = ws ∧ xs = ys
  | [], ws, xs, ys, h => by
    cases ws with
    | nil => exact ⟨rfl, (List.cons.inj h).2⟩
    | cons w ws =>
      rw [renderItems_cons, List.append_assoc] at h
      exact absurd h.symm (render_append_ne_bracket w _ _)
  | v :: vs, ws, xs, ys, h => by
    cases ws with
    | nil =>
      rw [renderItems_cons, List.append_assoc] at h
      exact absurd h (render_append_ne_bracket v _ _)
    | cons w ws =>
      rw [renderItems_cons, renderItems_cons, List.append_assoc, List.append_assoc] at h
      obtain ⟨rfl, htail⟩ := render_append_inj v w (ends_following (by decide) vs xs)
        (ends_following (by decide) ws ys) h
      rcases of_following_append (by decide) htail with ⟨rfl, rfl, hrest⟩ | hitems
      · exact ⟨rfl, hrest⟩
      · obtain ⟨rfl, hrest⟩ := renderItems_append_inj vs ws hitems
        exact ⟨rfl, hrest⟩

/-- Members of objects are told apart by their texts, up to the closing brace. -/
theorem renderMembers_append_inj : ∀ (vs ws : List (String × Value)) {xs ys : List Char},
    renderMembers vs ++ '}' :: xs = renderMembers ws ++ '}' :: ys → vs = ws ∧ xs = ys
  | [], ws, xs, ys, h => by
    cases ws with
    | nil => exact ⟨rfl, (List.cons.inj h).2⟩
    | cons w ws =>
      rw [renderMembers_cons] at h
      exact absurd (List.cons.inj h).1 (by decide)
  | (m, v) :: vs, ws, xs, ys, h => by
    cases ws with
    | nil =>
      rw [renderMembers_cons] at h
      exact absurd (List.cons.inj h).1 (by decide)
    | cons w ws =>
      obtain ⟨n, w⟩ := w
      rw [renderMembers_cons, renderMembers_cons, List.append_assoc, List.append_assoc] at h
      obtain ⟨rfl, hvalue⟩ := Json.quoted_append_inj h
      rw [List.cons_append, List.cons_append, List.cons.injEq, List.append_assoc, List.append_assoc]
        at hvalue
      obtain ⟨rfl, htail⟩ := render_append_inj v w (ends_following (by decide) vs xs)
        (ends_following (by decide) ws ys) hvalue.2
      rcases of_following_append (by decide) htail with ⟨rfl, rfl, hrest⟩ | hmembers
      · exact ⟨rfl, hrest⟩
      · obtain ⟨rfl, hrest⟩ := renderMembers_append_inj vs ws hmembers
        exact ⟨rfl, hrest⟩

end

/-- **Different values have different texts.** -/
theorem text_injective {v w : Value} (h : v.text = w.text) : v = w := by
  have hchars : render v ++ [] = render w ++ [] := congrArg (· ++ []) (String.ofList_injective h)
  exact (render_append_inj v w (by simp [Ends]) (by simp [Ends]) hchars).1

end Value

end RecordStore
