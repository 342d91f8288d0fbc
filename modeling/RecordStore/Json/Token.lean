import RecordStore.Text.Integer

/-!
# The tokens of a JSON text

A text is cut into tokens without looking at how they fit together. A token keeps what its text
says: a number keeps its literal, and a string whose escapes name half of a surrogate pair is a
token all the same, though it stands for no text. So a reader that skips a value need not ask what
it means.

Where the text cannot be cut any further stands the token `fault`, and nothing after it; all that
was written before the fault can still be read.
-/

namespace RecordStore.Json

open Text

/-- A number as it is written: the digits before and after the point, and the exponent. -/
structure NumberLiteral where
  negative : Bool
  whole : List Char
  fraction : Option (List Char)
  exponent : Option Int
deriving DecidableEq

inductive Token where
  | openBrace
  | closeBrace
  | openBracket
  | closeBracket
  | colon
  | comma
  | null
  | bool (b : Bool)
  | number (literal : NumberLiteral)
  | string (text : Option String)
  | fault
deriving DecidableEq

namespace Token

/-- The blanks between tokens. -/
def isSpace (c : Char) : Bool := c == ' ' || c == '\t' || c == '\n' || c == '\r'

def punctuation? : Char → Option Token
  | '{' => some .openBrace
  | '}' => some .closeBrace
  | '[' => some .openBracket
  | ']' => some .closeBracket
  | ':' => some .colon
  | ',' => some .comma
  | _ => none

/-! ## Strings -/

/-- A character of a string, or a code unit written with `\u`. -/
inductive StringUnit where
  | char (c : Char)
  | code (n : Nat)

def hexDigit? (c : Char) : Option Nat :=
  if isDigit c then some (c.toNat - '0'.toNat)
  else if 'a' ≤ c && c ≤ 'f' then some (c.toNat - 'a'.toNat + 10)
  else if 'A' ≤ c && c ≤ 'F' then some (c.toNat - 'A'.toNat + 10)
  else none

/-- The code unit that four hexadecimal digits write. -/
def codeUnit? (a b c d : Char) : Option Nat := do
  let a ← hexDigit? a
  let b ← hexDigit? b
  let c ← hexDigit? c
  let d ← hexDigit? d
  return ((a * 16 + b) * 16 + c) * 16 + d

/-- The character that a short escape stands for. -/
def escaped? : Char → Option Char
  | '"' => some '"'
  | '\\' => some '\\'
  | '/' => some '/'
  | 'b' => some '\x08'
  | 'f' => some '\x0c'
  | 'n' => some '\n'
  | 'r' => some '\r'
  | 't' => some '\t'
  | _ => none

/-- The units of a string up to its closing quote, and what follows the quote. -/
def stringUnits : List Char → Option (List StringUnit × List Char)
  | [] => none
  | '"' :: rest => some ([], rest)
  | '\\' :: 'u' :: a :: b :: c :: d :: rest => do
    let n ← codeUnit? a b c d
    let (units, after) ← stringUnits rest
    return (.code n :: units, after)
  | '\\' :: c :: rest => do
    let c ← escaped? c
    let (units, after) ← stringUnits rest
    return (.char c :: units, after)
  | c :: rest =>
    if c.toNat < 0x20 then none
    else do
      let (units, after) ← stringUnits rest
      return (.char c :: units, after)

def isHighSurrogate (n : Nat) : Bool := 0xD800 ≤ n && n < 0xDC00

def isLowSurrogate (n : Nat) : Bool := 0xDC00 ≤ n && n < 0xE000

/-- The characters that the units stand for. A pair of surrogates is one character; half of a pair
is none. -/
def characters? : List StringUnit → Option (List Char)
  | [] => some []
  | .char c :: rest => (characters? rest).map (c :: ·)
  | .code high :: .code low :: rest =>
    if isHighSurrogate high then
      if isLowSurrogate low then
        (characters? rest).map
          (Char.ofNat (0x10000 + (high - 0xD800) * 0x400 + (low - 0xDC00)) :: ·)
      else none
    else if isLowSurrogate high then none
    else (characters? (.code low :: rest)).map (Char.ofNat high :: ·)
  | .code n :: rest =>
    if isHighSurrogate n || isLowSurrogate n then none
    else (characters? rest).map (Char.ofNat n :: ·)

/-- The rest of a string after its opening quote. -/
def string? (cs : List Char) : Option (Token × List Char) :=
  (stringUnits cs).map fun (units, rest) => (.string ((characters? units).map String.ofList), rest)

/-! ## Numbers -/

/-- The digits after a decimal point, of which there is at least one. -/
def fraction? : List Char → Option (Option (List Char) × List Char)
  | '.' :: rest =>
    let digits := rest.takeWhile isDigit
    if digits.isEmpty then none else some (some digits, rest.dropWhile isDigit)
  | rest => some (none, rest)

/-- The digits of an exponent, of which there is at least one. -/
def exponentDigits? (negative : Bool) (cs : List Char) : Option (Option Int × List Char) :=
  let digits := cs.takeWhile isDigit
  let magnitude : Int := digitsValue digits
  if digits.isEmpty then none
  else some (some (if negative then -magnitude else magnitude), cs.dropWhile isDigit)

/-- The exponent after its mark, if a mark follows. -/
def exponent? : List Char → Option (Option Int × List Char)
  | c :: rest =>
    if c == 'e' || c == 'E' then
      match rest with
      | '+' :: digits => exponentDigits? false digits
      | '-' :: digits => exponentDigits? true digits
      | digits => exponentDigits? false digits
    else some (none, c :: rest)
  | [] => some (none, [])

/-- A number after its sign. The digits before the point have no leading zero. -/
def number? (negative : Bool) (cs : List Char) : Option (Token × List Char) :=
  let whole := cs.takeWhile isDigit
  if whole.isEmpty || (whole.head? == some '0' && whole.length != 1) then none
  else do
    let (fraction, rest) ← fraction? (cs.dropWhile isDigit)
    let (exponent, rest) ← exponent? rest
    return (.number ⟨negative, whole, fraction, exponent⟩, rest)

/-! ## Texts -/

/-- The token with which a text begins, where it begins with no punctuation. -/
def lexeme? : List Char → Option (Token × List Char)
  | '"' :: rest => string? rest
  | '-' :: rest => number? true rest
  | 'n' :: 'u' :: 'l' :: 'l' :: rest => some (.null, rest)
  | 't' :: 'r' :: 'u' :: 'e' :: rest => some (.bool true, rest)
  | 'f' :: 'a' :: 'l' :: 's' :: 'e' :: rest => some (.bool false, rest)
  | cs => number? false cs

/-- Reading the characters of a string takes at least one of them, its closing quote. -/
theorem length_stringUnits {cs : List Char} {units : List StringUnit} {rest : List Char}
    (h : stringUnits cs = some (units, rest)) : rest.length < cs.length := by
  fun_induction stringUnits cs generalizing units rest with
  | case1 => simp at h
  | case2 => simp at h; simp [← h.2]
  | case3 a b c d r ih =>
    simp only [Option.bind_eq_bind, Option.bind_eq_some_iff, Option.pure_def, Option.some.injEq,
      Prod.mk.injEq] at h
    obtain ⟨n, _, ⟨us, after⟩, hu, _, rfl⟩ := h
    have := ih hu
    simp only [List.length_cons]; omega
  | case4 c r _ ih =>
    simp only [Option.bind_eq_bind, Option.bind_eq_some_iff, Option.pure_def, Option.some.injEq,
      Prod.mk.injEq] at h
    obtain ⟨n, _, ⟨us, after⟩, hu, _, rfl⟩ := h
    have := ih hu
    simp only [List.length_cons]; omega
  | case5 => simp at h
  | case6 c r _ _ _ _ ih =>
    simp only [Option.bind_eq_bind, Option.bind_eq_some_iff, Option.pure_def, Option.some.injEq,
      Prod.mk.injEq] at h
    obtain ⟨⟨us, after⟩, hu, _, rfl⟩ := h
    have := ih hu
    simp only [List.length_cons]; omega

theorem length_dropWhile_le (p : Char → Bool) (cs : List Char) :
    (cs.dropWhile p).length ≤ cs.length :=
  (List.dropWhile_sublist p).length_le

theorem length_dropWhile_lt {p : Char → Bool} {cs : List Char}
    (h : (cs.takeWhile p).isEmpty = false) :
    (cs.dropWhile p).length < cs.length := by
  have hsum : (cs.takeWhile p).length + (cs.dropWhile p).length = cs.length := by
    rw [← List.length_append, List.takeWhile_append_dropWhile]
  have hpos : 0 < (cs.takeWhile p).length := by
    cases ht : cs.takeWhile p with
    | nil => simp [ht] at h
    | cons c rest => simp
  omega

/-- Reading a fraction takes characters or none. -/
theorem length_fraction {cs rest : List Char} {f : Option (List Char)}
    (h : fraction? cs = some (f, rest)) : rest.length ≤ cs.length := by
  unfold fraction? at h
  split at h
  · rename_i r
    dsimp only at h
    split at h
    · simp at h
    · simp at h
      rw [← h.2]
      have := length_dropWhile_le isDigit r
      simp only [List.length_cons]; omega
  · simp at h; simp [h.2]

theorem length_exponentDigits {negative : Bool} {cs rest : List Char} {e : Option Int}
    (h : exponentDigits? negative cs = some (e, rest)) : rest.length ≤ cs.length := by
  unfold exponentDigits? at h
  dsimp only at h
  split at h
  · simp at h
  · simp only [Option.some.injEq, Prod.mk.injEq] at h
    rw [← h.2]
    exact length_dropWhile_le isDigit cs

theorem length_exponent {cs rest : List Char} {e : Option Int}
    (h : exponent? cs = some (e, rest)) : rest.length ≤ cs.length := by
  unfold exponent? at h
  split at h
  · split at h
    · split at h
      all_goals
        have := length_exponentDigits h
        simp only [List.length_cons] at *
        omega
    · simp at h; simp [← h.2]
  · simp at h; simp [h.2]

/-- A numeral has at least one character, so the scan of a text ends. -/
theorem length_number {negative : Bool} {cs rest : List Char} {t : Token}
    (h : number? negative cs = some (t, rest)) : rest.length < cs.length := by
  unfold number? at h
  dsimp only at h
  split at h
  · simp at h
  · rename_i hw
    have hne : (cs.takeWhile isDigit).isEmpty = false := by
      simp only [Bool.or_eq_true, not_or] at hw
      simpa using hw.1
    simp only [Option.bind_eq_bind, Option.bind_eq_some_iff, Option.pure_def, Option.some.injEq,
      Prod.mk.injEq] at h
    obtain ⟨⟨f, r₁⟩, hf, ⟨e, r₂⟩, he, _, rfl⟩ := h
    have h₁ := length_fraction hf
    have h₂ : r₂.length ≤ r₁.length := length_exponent he
    have h₃ := length_dropWhile_lt hne
    dsimp only at *
    omega

/-- A token takes at least one character. -/
theorem length_lexeme {cs rest : List Char} {t : Token} (h : lexeme? cs = some (t, rest)) :
    rest.length < cs.length := by
  unfold lexeme? at h
  split at h
  · simp only [string?, Option.map_eq_some_iff, Prod.mk.injEq] at h
    obtain ⟨⟨us, r⟩, hu, _, rfl⟩ := h
    have := length_stringUnits hu
    simp only [List.length_cons]; omega
  · have := length_number h
    simp only [List.length_cons]; omega
  · simp at h; simp [← h.2]; omega
  · simp at h; simp [← h.2]; omega
  · simp at h; simp [← h.2]; omega
  · exact length_number h

-- `h` is used by `decreasing_by` alone, which the linter does not see.
set_option linter.unusedVariables false in
/-- The tokens of a text. -/
def scan : List Char → List Token
  | [] => []
  | c :: rest =>
    if isSpace c then scan rest
    else match punctuation? c with
      | some t => t :: scan rest
      | none =>
        match h : lexeme? (c :: rest) with
        | some (t, after) => t :: scan after
        | none => [.fault]
termination_by cs => cs.length
decreasing_by
  · exact Nat.lt_succ_self _
  · exact Nat.lt_succ_self _
  · exact length_lexeme h

end Token

end RecordStore.Json
