import RecordStore.Proofs.DatabaseText
import RecordStore.Proofs.Digits
import RecordStore.Sql.Condition

/-!
# Conditions as a database evaluates them

What a database makes of the text of a condition, for one row and the parameters of the statement. A
comparison with null is neither true nor false; of a conjunction, one part that is false decides.
Values of different types are not compared at all, and documents have no order here, so the
evaluation of a text may give no truth value; nor does it where the text names no column or
parameter, or is no condition.

Texts are compared by their bytes, dates by their instants, documents as values, and patterns are
those of `Text.Pattern`.

* **`evaluate`** — the truth value of a text: its characters are read as tokens, the tokens as
  comparisons and conjunctions, which are evaluated on the way.
* **`Condition.evaluate_render`** — the text of a condition has the truth value of the condition.
-/

namespace RecordStore.Sql

/-! ## Truth values -/

inductive Truth where
  | yes
  | no
  | unknown
deriving DecidableEq

namespace Truth

def ofBool (b : Bool) : Truth := if b then .yes else .no

protected def and : Truth → Truth → Truth
  | .no, _ => .no
  | _, .no => .no
  | .yes, .yes => .yes
  | _, _ => .unknown

protected def or : Truth → Truth → Truth
  | .yes, _ => .yes
  | _, .yes => .yes
  | .no, .no => .no
  | _, _ => .unknown

@[simp] theorem yes_and (t : Truth) : Truth.yes.and t = t := by cases t <;> rfl

@[simp] theorem and_yes (t : Truth) : t.and .yes = t := by cases t <;> rfl

theorem and_assoc (s t u : Truth) : (s.and t).and u = s.and (t.and u) := by
  cases s <;> cases t <;> cases u <;> rfl

theorem and_eq_yes_iff {s t : Truth} : s.and t = .yes ↔ s = .yes ∧ t = .yes := by
  cases s <;> cases t <;> simp [Truth.and]

theorem or_eq_yes_iff {s t : Truth} : s.or t = .yes ↔ s = .yes ∨ t = .yes := by
  cases s <;> cases t <;> simp [Truth.or]

theorem ofBool_eq_yes_iff {b : Bool} : ofBool b = .yes ↔ b = true := by cases b <;> simp [ofBool]

end Truth

/-! ## Values -/

/-- A value in a database. Where there may be none, there may be null. -/
inductive Datum where
  | text (s : String)
  | bool (b : Bool)
  | integer (n : Int)
  | float (x : Double)
  | timestamp (i : Time.Instant)
  | json (v : Value)

namespace Datum

/-- How two values of one type compare. -/
def order? : Datum → Datum → Option Ordering
  | .text s, .text t => some (Text.compareBytes s t)
  | .bool p, .bool q => some (compare p q)
  | .integer m, .integer n => some (compare m n)
  | .float x, .float y => some (compare x y)
  | .timestamp i, .timestamp j => some (compare i j)
  | _, _ => none

/-- Whether two values of one type are equal. -/
def equals? : Datum → Datum → Option Bool
  | .json v, .json w => some (v.same w)
  | a, b => (a.order? b).map (· == .eq)

end Datum

/-- What a parameter holds that is no list. -/
def Bind.cell? : Bind → Option (Option Datum)
  | .text v => some (v.map .text)
  | .bool v => some (v.map .bool)
  | .integer v => some (v.map .integer)
  | .float v => some (v.map .float)
  | .timestamp v => some (v.map .timestamp)
  | .json v => some (v.map .json)
  | _ => none

/-- What a list holds. -/
def Bind.items? : Bind → Option (List Datum)
  | .texts vs => some (vs.map .text)
  | .bools vs => some (vs.map .bool)
  | .integers vs => some (vs.map .integer)
  | .floats vs => some (vs.map .float)
  | .timestamps vs => some (vs.map .timestamp)
  | _ => none

/-! ## Comparisons -/

namespace Comparator

/-- Whether a comparison holds of two values. -/
def holds? : Comparator → Datum → Datum → Option Bool
  | .eq, a, b => a.equals? b
  | .ne, a, b => (a.equals? b).map not
  | .lt, a, b => (a.order? b).map (· == .lt)
  | .lte, a, b => (a.order? b).map (· != .gt)
  | .gt, a, b => (a.order? b).map (· == .gt)
  | .gte, a, b => (a.order? b).map (· != .lt)
  | .like, .text s, .text pattern => some (Text.Pattern.matchesExactly pattern s)
  | .ilike, .text s, .text pattern => some (Text.Pattern.matchesAnyCase pattern s)
  | _, _, _ => none

/-- The truth of a comparison, which is unknown where a side is null. -/
def truth? (comparator : Comparator) : Option Datum → Option Datum → Option Truth
  | some a, some b => (comparator.holds? a b).map .ofBool
  | _, _ => some .unknown

end Comparator

/-- The truth of a comparison with the items of a list, one of which is to be equal. -/
def anyTruth? (cell : Option Datum) : List Datum → Option Truth
  | [] => some .no
  | item :: rest => do return (← Comparator.eq.truth? cell (some item)).or (← anyTruth? cell rest)

/-- What the names and places in a condition stand for. -/
structure Scope where
  /-- the cell of a column, if there is such a column -/
  cell? : String → Option (Option Datum)
  params : List Bind

namespace Scope

variable (scope : Scope)

/-- Places are counted from one. -/
def param? : Nat → Option Bind
  | 0 => none
  | place + 1 => scope.params[place]?

def nullTruth? (column : String) : Option Truth :=
  (scope.cell? column).map fun cell => .ofBool cell.isNone

def notNullTruth? (column : String) : Option Truth :=
  (scope.cell? column).map fun cell => .ofBool cell.isSome

def compareTruth? (column : String) (comparator : Comparator) (place : Nat) : Option Truth := do
  comparator.truth? (← scope.cell? column) (← (← scope.param? place).cell?)

def anyTruth? (column : String) (place : Nat) : Option Truth := do
  Sql.anyTruth? (← scope.cell? column) (← (← scope.param? place).items?)

end Scope

namespace Condition

mutual

/-- The truth of a condition. -/
def truth? (scope : Scope) : Condition → Option Truth
  | .always => some .yes
  | .never => some .no
  | .isNull column => scope.nullTruth? column
  | .isNotNull column => scope.notNullTruth? column
  | .isAny column place => scope.anyTruth? column place
  | .compare column comparator place => scope.compareTruth? column comparator place
  | .and parts => truthOfAll? scope parts

def truthOfAll? (scope : Scope) : List Condition → Option Truth
  | [] => some .yes
  | c :: cs => do return (← truth? scope c).and (← truthOfAll? scope cs)

end

end Condition

/-! ## Tokens -/

inductive Token where
  | name (s : String)
  | place (n : Nat)
  | comparator (c : Comparator)
  | truth (b : Bool)
  | is
  | not
  | null
  | any
  | and
  | opening
  | closing
deriving DecidableEq

/-- What is written with one kind of characters. -/
inductive Run where
  | word
  | sign
  | digits

namespace Run

def takes : Run → Char → Bool
  | .word, c => c.isAlpha
  | .sign, c => c == '<' || c == '=' || c == '>'
  | .digits, c => Text.isDigit c

def words : List (String × Token) := [
  ("TRUE", .truth true), ("FALSE", .truth false), ("IS", .is), ("NOT", .not),
    ("NULL", .null), ("ANY", .any),
  ("AND", .and), ("LIKE", .comparator .like), ("ILIKE", .comparator .ilike)]

def signs : List (String × Token) := [
  ("=", .comparator .eq), ("<>", .comparator .ne), ("<", .comparator .lt), ("<=", .comparator .lte),
  (">", .comparator .gt), (">=", .comparator .gte)]

/-- The token that the characters of a run make up. -/
def token? (chars : List Char) : Run → Option Token
  | .word => words.lookup (String.ofList chars)
  | .sign => signs.lookup (String.ofList chars)
  | .digits => (Text.natural? chars).map .place

end Run

/-- Where the reader of characters is; what it has read of a token stands last first. -/
inductive Lexing where
  | between
  | run (kind : Run) (read : List Char)
  | name (read : List Char)
  /-- after a quote in a name, which ends the name unless it is written twice -/
  | quoted (read : List Char)

namespace Lexing

/-- Where the reader is after one more character of the same token. -/
def continue? : Lexing → Char → Option Lexing
  | .between, _ => none
  | .run kind read, c => if kind.takes c then some (.run kind (c :: read)) else none
  | .name read, c => if c = '"' then some (.quoted read) else some (.name (c :: read))
  | .quoted read, c => if c = '"' then some (.name ('"' :: read)) else none

/-- The token that ends here, if one ends, or nothing between tokens. -/
def ended? : Lexing → Option (List Token)
  | .between => some []
  | .run kind read => (kind.token? read.reverse).map fun t => [t]
  | .name _ => none
  | .quoted read => some [.name (String.ofList read.reverse)]

/-- What begins with a character: a token that it is, or a longer one. -/
def begin? (c : Char) : Option (List Token × Lexing) :=
  if c = ' ' then some ([], .between)
  else if c = '(' then some ([.opening], .between)
  else if c = ')' then some ([.closing], .between)
  else if c = '"' then some ([], .name [])
  else if c = '$' then some ([], .run .digits [])
  else if Run.word.takes c then some ([], .run .word [c])
  else if Run.sign.takes c then some ([], .run .sign [c])
  else none

end Lexing

/-- The tokens of a text, read on from a state. -/
def tokens? (state : Lexing) : List Char → Option (List Token)
  | [] => state.ended?
  | c :: rest =>
    match state.continue? c with
    | some next => tokens? next rest
    | none => do
      let ended ← state.ended?
      let (begun, next) ← Lexing.begin? c
      (tokens? next rest).map (ended ++ begun ++ ·)

/-- What comes behind a token: nothing, a blank or a bracket. -/
def Apart (rest : List Char) : Prop := ∀ c ∈ rest.head?, c = ' ' ∨ c = '(' ∨ c = ')'

/-- The text is read as the tokens, and what follows it stays. -/
def Reads (text : List Char) (ts : List Token) : Prop :=
  ∀ rest, Apart rest → tokens? .between (text ++ rest) = (tokens? .between rest).map (ts ++ ·)

section Reading

variable {text rest : List Char} {ts : List Token}

/-- A token that ends here comes before those of the rest. -/
theorem tokens?_of_ended {state : Lexing} {ended : List Token} (hended : state.ended? = some ended)
    (hrest : ∀ c ∈ rest.head?, state.continue? c = none) :
    tokens? state rest = (tokens? .between rest).map (ended ++ ·) := by
  cases rest with
  | nil =>
    rw [tokens?, hended, tokens?, Lexing.ended?, Option.map_some, List.append_nil]
  | cons c rest =>
    have hbetween : Lexing.continue? .between c = none := rfl
    rw [tokens?, tokens?, hrest c rfl, hbetween, hended, Lexing.ended?]
    cases Lexing.begin? c <;> simp [Function.comp_def]

/-! Blanks and brackets. -/

theorem reads_nil : Reads [] [] := fun rest _ => by simp

theorem Reads.append {more : List Char} {us : List Token} (htext : Reads text ts)
    (hmore : Reads more us) (hapart : ∀ rest, Apart rest → Apart (more ++ rest)) :
    Reads (text ++ more) (ts ++ us) := by
  intro rest hrest
  rw [List.append_assoc, htext _ (hapart rest hrest), hmore rest hrest, Option.map_map]
  simp [Function.comp_def]

/-- A text behind a blank or a bracket is apart from what stands before it. -/
theorem Reads.append_cons {c : Char} {more : List Char} {us : List Token} (htext : Reads text ts)
    (hmore : Reads (c :: more) us) (hc : c = ' ' ∨ c = '(' ∨ c = ')') :
    Reads (text ++ c :: more) (ts ++ us) :=
  htext.append hmore fun rest _ => by
    intro d hd
    obtain rfl : c = d := Option.some.inj hd
    exact hc

theorem Reads.blank (h : Reads text ts) : Reads (' ' :: text) ts := by
  intro rest hrest
  rw [List.cons_append, tokens?]
  simp [Lexing.continue?, Lexing.begin?, Lexing.ended?, h rest hrest, Function.comp_def]

theorem Reads.opening (h : Reads text ts) : Reads ('(' :: text) (.opening :: ts) := by
  intro rest hrest
  rw [List.cons_append, tokens?]
  simp [Lexing.continue?, Lexing.begin?, Lexing.ended?, h rest hrest, Function.comp_def]

theorem Reads.closing (h : Reads text ts) : Reads (')' :: text) (.closing :: ts) := by
  intro rest hrest
  rw [List.cons_append, tokens?]
  simp [Lexing.continue?, Lexing.begin?, Lexing.ended?, h rest hrest, Function.comp_def]

/-! Words, signs and numbers. -/

/-- The characters of a run are read one by one. -/
theorem tokens?_run_append {kind : Run} {read cs : List Char}
    (hcs : ∀ c ∈ cs, kind.takes c = true) :
    tokens? (.run kind read) (cs ++ rest) = tokens? (.run kind (cs.reverse ++ read)) rest := by
  induction cs generalizing read with
  | nil => rfl
  | cons c cs ih =>
    rw [List.cons_append, tokens?, Lexing.continue?, if_pos (hcs c List.mem_cons_self)]
    dsimp only
    rw [ih fun d hd => hcs d (List.mem_cons_of_mem c hd), List.reverse_cons, List.append_assoc,
      List.singleton_append]

theorem Run.not_takes_of_apart (kind : Run) {c : Char} (h : c = ' ' ∨ c = '(' ∨ c = ')') :
    kind.takes c = false := by
  rcases h with rfl | rfl | rfl <;> cases kind <;> decide

/-- What a run of characters has taken is one token where the run ends. -/
theorem tokens?_run {kind : Run} {read cs : List Char} {t : Token}
    (hcs : ∀ c ∈ cs, kind.takes c = true) (ht : kind.token? (read.reverse ++ cs) = some t)
    (hrest : Apart rest) :
    tokens? (.run kind read) (cs ++ rest) = (tokens? .between rest).map (t :: ·) := by
  have hended : (Lexing.run kind (cs.reverse ++ read)).ended? = some [t] := by
    rw [Lexing.ended?, List.reverse_append, List.reverse_reverse, ht]
    rfl
  rw [tokens?_run_append hcs, tokens?_of_ended hended fun c hc => ?_]
  · rfl
  · rw [Lexing.continue?, kind.not_takes_of_apart (hrest c hc)]
    rfl

/-- A word or a sign is read up to its end. -/
theorem reads_run {kind : Run} {c : Char} {cs : List Char} {t : Token}
    (hc : Lexing.begin? c = some ([], .run kind [c])) (hcs : cs.all kind.takes = true)
    (ht : kind.token? (c :: cs) = some t) : Reads (c :: cs) [t] := by
  intro rest hrest
  have hbetween : Lexing.continue? .between c = none := rfl
  rw [List.cons_append, tokens?, hbetween, hc, Lexing.ended?]
  have htokens : tokens? (.run kind [c]) (cs ++ rest) = (tokens? .between rest).map (t :: ·) :=
    tokens?_run (List.all_eq_true.1 hcs) ht hrest
  simpa using htokens

theorem reads_word {w : String} {t : Token} (h : (w, t) ∈ Run.words) : Reads w.toList [t] := by
  simp only [Run.words, List.mem_cons, Prod.mk.injEq, List.not_mem_nil, or_false] at h
  rcases h with ⟨rfl, rfl⟩ | ⟨rfl, rfl⟩ | ⟨rfl, rfl⟩ | ⟨rfl, rfl⟩ | ⟨rfl, rfl⟩
    | ⟨rfl, rfl⟩ | ⟨rfl, rfl⟩
    | ⟨rfl, rfl⟩ | ⟨rfl, rfl⟩ <;> exact reads_run rfl (by decide) (by decide)

theorem reads_sign {w : String} {t : Token} (h : (w, t) ∈ Run.signs) : Reads w.toList [t] := by
  simp only [Run.signs, List.mem_cons, Prod.mk.injEq, List.not_mem_nil, or_false] at h
  rcases h with ⟨rfl, rfl⟩ | ⟨rfl, rfl⟩ | ⟨rfl, rfl⟩ | ⟨rfl, rfl⟩ | ⟨rfl, rfl⟩ | ⟨rfl, rfl⟩ <;>
    exact reads_run rfl (by decide) (by decide)

theorem reads_place (n : Nat) : Reads ('$' :: Nat.toDigits 10 n) [.place n] := by
  intro rest hrest
  have htoken : Run.token? (Nat.toDigits 10 n) .digits = some (.place n) := by
    rw [Run.token?, Text.natural?_digitsOf]
    rfl
  have htokens : tokens? (.run .digits []) (Nat.toDigits 10 n ++ rest)
    = (tokens? .between rest).map (.place n :: ·) :=
    tokens?_run (fun c hc => Text.isDigit_of_mem_digitsOf hc) htoken hrest
  rw [List.cons_append, tokens?]
  simpa [Lexing.continue?, Lexing.begin?, Lexing.ended?] using htokens

theorem reads_comparator (c : Comparator) :
    Reads (c.symbol.toList) [.comparator c] := by
  cases c
  iterate 6 exact reads_sign (by decide)
  iterate 2 exact reads_word (by decide)

/-! Names. -/

/-- A name is read up to the quote that is not written twice. -/
theorem tokens?_name_append {read cs : List Char} :
    tokens? (.name read) (doubled '"' cs ++ rest) = tokens? (.name (cs.reverse ++ read)) rest := by
  induction cs generalizing read with
  | nil => rfl
  | cons c cs ih =>
    rw [doubled]
    split
    · rename_i hquote
      subst hquote
      simp [tokens?, Lexing.continue?, ih]
    · rename_i hplain
      simp [tokens?, Lexing.continue?, hplain, ih]

/-- A name between double quotes is read back, the quotes in it taken as one where they stand
twice. -/
theorem reads_name (s : String) : Reads (enclosed '"' s) [.name s] := by
  intro rest hrest
  have hended : (Lexing.quoted s.toList.reverse).ended? = some [.name s] := by
    rw [Lexing.ended?, List.reverse_reverse, String.ofList_toList]
  have hrest' : ∀ c ∈ rest.head?, (Lexing.quoted s.toList.reverse).continue? c = none := by
    intro c hc
    have hplain : c ≠ '"' := by rcases hrest c hc with rfl | rfl | rfl <;> decide
    rw [Lexing.continue?, if_neg hplain]
  have hbegin : tokens? .between ('"' :: (doubled '"' s.toList ++ ('"' :: rest)))
      = tokens? (.name []) (doubled '"' s.toList ++ ('"' :: rest)) := by
    rw [tokens?]
    simp [Lexing.continue?, Lexing.begin?, Lexing.ended?]
  rw [enclosed, List.cons_append, List.append_assoc, List.singleton_append, hbegin,
    tokens?_name_append, List.append_nil, tokens?, Lexing.continue?, if_pos rfl]
  exact tokens?_of_ended hended hrest'

end Reading

/-! ## Evaluation of tokens -/

/-- The truth of the innermost conjunction that is open, with one part more. -/
def conjoin (t : Truth) : List Truth → List Truth
  | [] => []
  | outer :: stack => outer.and t :: stack

mutual

/-- Evaluate tokens that begin with a part of a conjunction. The stack holds the truth of the parts
read so far of every conjunction that is open, the innermost first. -/
def evaluatePart (scope : Scope) (stack : List Truth) : List Token → Option Truth
  | .opening :: rest => evaluatePart scope (.yes :: stack) rest
  | .truth b :: rest => evaluateRest scope (conjoin (.ofBool b) stack) rest
  | .name column :: .is :: .null :: rest => do
    evaluateRest scope (conjoin (← scope.nullTruth? column) stack) rest
  | .name column :: .is :: .not :: .null :: rest => do
    evaluateRest scope (conjoin (← scope.notNullTruth? column) stack) rest
  | .name column :: .comparator .eq :: .any :: .opening :: .place n :: .closing :: rest => do
    evaluateRest scope (conjoin (← scope.anyTruth? column n) stack) rest
  | .name column :: .comparator c :: .place n :: rest => do
    evaluateRest scope (conjoin (← scope.compareTruth? column c n) stack) rest
  | _ => none

/-- Evaluate tokens that come after a part of a conjunction. -/
def evaluateRest (scope : Scope) (stack : List Truth) : List Token → Option Truth
  | [] =>
    match stack with
    | [t] => some t
    | _ => none
  | .and :: rest => evaluatePart scope stack rest
  | .closing :: rest =>
    match stack with
    | inner :: outer :: stack => evaluateRest scope (conjoin inner (outer :: stack)) rest
    | _ => none
  | _ => none

end

/-- The truth of the text of a condition. -/
def evaluate (scope : Scope) (text : String) : Option Truth :=
  (tokens? .between text.toList).bind (evaluatePart scope [.yes])

/-! ## Texts of conditions -/

namespace Condition

mutual

/-- The tokens of a condition. -/
def tokens : Condition → List Token
  | .always => [.truth true]
  | .never => [.truth false]
  | .isNull column => [.name column, .is, .null]
  | .isNotNull column => [.name column, .is, .not, .null]
  | .isAny column place => [.name column, .comparator .eq, .any, .opening, .place place, .closing]
  | .compare column comparator place => [.name column, .comparator comparator, .place place]
  | .and parts => tokensOfAll parts

def tokensOfAll : List Condition → List Token
  | [] => []
  | [c] => .opening :: (tokens c ++ [.closing])
  | c :: cs => .opening :: (tokens c ++ .closing :: .and :: tokensOfAll cs)

end

mutual

/-- **The text of a condition is read as its tokens.** -/
theorem reads_pieces : ∀ c : Condition, Reads (c.pieces.flatMap Piece.render) c.tokens
  | .always => reads_word (w := "TRUE") (by decide)
  | .never => reads_word (w := "FALSE") (by decide)
  | .isNull column => by
    have his : Reads " IS NULL".toList [.is, .null] :=
      (reads_word (w := "IS") (by decide)).append_cons
        (reads_word (w := "NULL") (by decide)).blank (.inl rfl)
        |>.blank
    exact (reads_name column).append_cons his (.inl rfl)
  | .isNotNull column => by
    have hnot : Reads " NOT NULL".toList [.not, .null] :=
      (reads_word (w := "NOT") (by decide)).append_cons (reads_word (w := "NULL") (by decide)).blank
        (.inl rfl) |>.blank
    have his : Reads " IS NOT NULL".toList [.is, .not, .null] :=
      (reads_word (w := "IS") (by decide)).append_cons hnot (.inl rfl) |>.blank
    exact (reads_name column).append_cons his (.inl rfl)
  | .isAny column place => by
    have hlist := ((reads_place place).append_cons reads_nil.closing (.inr (.inr rfl))).opening
    have hany :=
      ((reads_word (w := "ANY") (t := .any) (by decide)).append_cons hlist (.inr (.inl rfl))).blank
    have heq := ((reads_comparator .eq).append_cons hany (.inl rfl)).blank
    exact (reads_name column).append_cons heq (.inl rfl)
  | .compare column comparator place => by
    have hplace := (reads_place place).blank
    have hcomparator := ((reads_comparator comparator).append_cons hplace (.inl rfl)).blank
    have htext := (reads_name column).append_cons hcomparator (.inl rfl)
    rw [pieces, tokens]
    simpa [Piece.render] using htext
  | .and parts => reads_conjunction parts

theorem reads_conjunction : ∀ cs : List Condition,
    Reads ((conjunction cs).flatMap Piece.render) (tokensOfAll cs)
  | [] => reads_nil
  | [c] => by
    have htext := ((reads_pieces c).append_cons reads_nil.closing (.inr (.inr rfl))).opening
    rw [conjunction, tokensOfAll]
    simpa [Piece.render] using htext
  | c :: d :: cs => by
    have hrest := (reads_conjunction (d :: cs)).blank
    have hand :=
      ((reads_word (w := "AND") (t := .and) (by decide)).append_cons hrest (.inl rfl)).blank.closing
    have htext := ((reads_pieces c).append_cons hand (.inr (.inr rfl))).opening
    rw [conjunction, tokensOfAll]
    · simpa [Piece.render] using htext
    · exact fun h => nomatch h
    · exact fun h => nomatch h

end

/-! ## Evaluation of conditions -/

mutual

/-- Whether no conjunction in the condition is empty. -/
def isSolid : Condition → Bool
  | .and parts => !parts.isEmpty && allSolid parts
  | _ => true

def allSolid : List Condition → Bool
  | [] => true
  | c :: cs => isSolid c && allSolid cs

end

mutual

/-- The tokens of a condition are evaluated to its truth, as one more part of the innermost
conjunction. -/
theorem evaluatePart_tokens (scope : Scope) : ∀ (c : Condition) (outer : Truth) (stack : List Truth)
    (rest : List Token), c.isSolid = true →
      evaluatePart scope (outer :: stack) (c.tokens ++ rest)
        = (c.truth? scope).bind fun t => evaluateRest scope (outer.and t :: stack) rest
  | .always, outer, stack, rest, _ => by rfl
  | .never, outer, stack, rest, _ => by rfl
  | .isNull column, outer, stack, rest, _ => by rfl
  | .isNotNull column, outer, stack, rest, _ => by rfl
  | .isAny column place, outer, stack, rest, _ => by rfl
  | .compare column comparator place, outer, stack, rest, _ => by cases comparator <;> rfl
  | .and parts, outer, stack, rest, h => by
    rw [isSolid, Bool.and_eq_true, Bool.not_eq_true', List.isEmpty_eq_false_iff] at h
    exact evaluatePart_tokensOfAll scope parts outer stack rest h.1 h.2

/-- The parts of a conjunction are evaluated one after the other, and the result so far is kept on
the stack. -/
theorem evaluatePart_tokensOfAll (scope : Scope) : ∀ (cs : List Condition) (outer : Truth)
    (stack : List Truth) (rest : List Token), cs ≠ [] → allSolid cs = true →
      evaluatePart scope (outer :: stack) (tokensOfAll cs ++ rest)
        = (truthOfAll? scope cs).bind fun t => evaluateRest scope (outer.and t :: stack) rest
  | [], _, _, _, h, _ => absurd rfl h
  | [c], outer, stack, rest, _, h => by
    rw [allSolid, Bool.and_eq_true] at h
    have hpart := evaluatePart_tokens scope c .yes (outer :: stack) (.closing :: rest) h.1
    rw [tokensOfAll, List.cons_append, List.append_assoc, List.singleton_append, evaluatePart,
      hpart]
    simp [truthOfAll?, evaluateRest, conjoin]
  | c :: d :: cs, outer, stack, rest, _, h => by
    rw [allSolid, Bool.and_eq_true] at h
    have hpart := evaluatePart_tokens scope c .yes (outer :: stack)
      (.closing :: .and :: (tokensOfAll (d :: cs) ++ rest)) h.1
    have hrest (t : Truth) := evaluatePart_tokensOfAll scope (d :: cs) (outer.and t) stack rest
      (List.cons_ne_nil d cs) h.2
    rw [tokensOfAll, List.cons_append, List.append_assoc, List.cons_append, List.cons_append,
      evaluatePart, hpart, truthOfAll?]
    · simp [evaluateRest, conjoin, hrest, Truth.and_assoc, Option.bind_assoc]
    · exact fun h => nomatch h

end

/-- **The text of a condition has the truth value of the condition.** -/
theorem evaluate_render {scope : Scope} {c : Condition} (h : c.isSolid = true) :
    evaluate scope (render c.pieces) = c.truth? scope := by
  have htokens : tokens? .between (c.pieces.flatMap Piece.render) = some c.tokens := by
    simpa [tokens?, Lexing.ended?] using reads_pieces c [] (by simp [Apart])
  rw [evaluate, render, String.toList_ofList, htokens, Option.bind_some]
  simpa [evaluateRest] using evaluatePart_tokens scope c .yes [] [] h

end Condition

end RecordStore.Sql
