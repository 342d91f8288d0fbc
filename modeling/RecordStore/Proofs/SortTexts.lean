import RecordStore.Proofs.Constraints
import RecordStore.Proofs.Texts
import RecordStore.Request

/-!
# The ways to write a sort

A sort can be written as a list of pairs in round brackets, whose names stand in quotes of either
kind, as such a list in JSON, or as names with commas between them, of which the descending ones
begin with a minus. Spaces may stand around the whole and between its parts.

The lists are read as JSON after their round brackets and single quotes have been replaced
throughout the text, the names are cut at commas and trimmed: two readers that have nothing in
common. A text in any of the three forms is a row of lexemes with gaps between them (`spaced`), and
what a reader makes of it is followed lexeme by lexeme.

* **`Json.Token.scan_spaces`**, **`Json.Token.scan_quoted`** — how JSON texts are cut into tokens.
* **`SortText.read_listed`**, **`SortText.read_named`** — what the readers make of lists and of
  names.
* **`SortText.sorts_read_alike`** — the three forms are read as the sort that they write.
-/

namespace RecordStore

/-! ## Tokens of a JSON text -/

namespace Json.Token

theorem scan_spaces (n : Nat) (cs : List Char) : scan (List.replicate n ' ' ++ cs) = scan cs := by
  induction n with
  | zero => rfl
  | succ n ih =>
    rw [List.replicate_succ, List.cons_append, scan]
    exact ih

theorem scan_nil : scan [] = [] := by rw [scan]

theorem scan_punctuation {c : Char} {t : Token} (h : punctuation? c = some t) (cs : List Char) :
    scan (c :: cs) = t :: scan cs := by
  have hspace : isSpace c = false := by
    unfold punctuation? at h
    split at h <;> first | rfl | cases h
  rw [scan, hspace, h]
  rfl

/-- The scan goes on behind a word or a numeral. -/
theorem scan_lexeme {c : Char} {cs after : List Char} {t : Token} (hspace : isSpace c = false)
    (hword : punctuation? c = none) (h : lexeme? (c :: cs) = some (t, after)) :
    scan (c :: cs) = t :: scan after := by
  rw [scan, hspace, hword, if_neg Bool.false_ne_true]
  dsimp only
  split
  · rename_i hread
    cases h.symm.trans hread
    rfl
  · rename_i hread
    cases h.symm.trans hread

/-- A text between quotes is one token. -/
theorem scan_quoted (s : String) (rest : List Char) :
    scan (quoted s ++ rest) = .string (some s) :: scan rest := by
  obtain ⟨units, hread, hchars⟩ := stringUnits_escaped s.toList rest
  have hlexeme : lexeme? ('"' :: (s.toList.flatMap escapedChar ++ '"' :: rest))
      = some (.string (some s), rest) := by
    rw [lexeme?, string?, hread, Option.map_some]
    dsimp only
    rw [hchars, Option.map_some, String.ofList_toList]
  rw [quoted, List.cons_append, List.append_assoc]
  exact scan_lexeme rfl rfl hlexeme

end Json.Token

/-! ## Characters of names -/

namespace Text

/-- The characters of an identifier stand between the digits and the small letters, where neither
brackets nor blanks nor any sign of a sort stand. -/
theorem toNat_of_continuesIdentifier {c : Char} (h : continuesIdentifier c = true) :
    48 ≤ c.toNat ∧ c.toNat ≤ 122 ∧ c.toNat ≠ 91 ∧ c.toNat ≠ 92 := by
  have hle (a b : Char) : a ≤ b ↔ a.toNat ≤ b.toNat := by
    rw [Char.le_def, UInt32.le_iff_toNat_le]
    rfl
  unfold continuesIdentifier startsIdentifier isLetter isDigit at h
  simp only [Bool.or_eq_true, Bool.and_eq_true, decide_eq_true_eq, beq_iff_eq, hle] at h
  have hsmall : 'a'.toNat = 97 ∧ 'z'.toNat = 122 ∧ 'A'.toNat = 65 ∧ 'Z'.toNat = 90 := by decide
  have hdigits : '0'.toNat = 48 ∧ '9'.toNat = 57 := by decide
  rcases h with ((h | h) | rfl) | h
  · omega
  · omega
  · decide
  · omega

variable {c : Char}

theorem ne_of_continuesIdentifier (h : continuesIdentifier c = true) {d : Char}
    (hd : d.toNat < 48 ∨ d.toNat = 91 ∨ d.toNat = 92) : c ≠ d := by
  have hrange := toNat_of_continuesIdentifier h
  rintro rfl
  omega

theorem isBlank_of_continuesIdentifier (h : continuesIdentifier c = true) : isBlank c = false := by
  have hrange := toNat_of_continuesIdentifier h
  simp [isBlank]
  omega

/-! ## Blanks around a text -/

/-- Spaces around a text that neither begins nor ends with a blank are taken off, and nothing else
is. -/
theorem trimChars_spaces {cs : List Char} (hfirst : ∀ c ∈ cs.head?, isBlank c = false)
    (hlast : ∀ c ∈ cs.getLast?, isBlank c = false) (m n : Nat) :
    trimChars (List.replicate m ' ' ++ (cs ++ List.replicate n ' ')) = cs := by
  have hblanks (k : Nat) : ∀ c ∈ List.replicate k ' ', isBlank c = true := by
    intro c hc
    rw [List.eq_of_mem_replicate hc]
    rfl
  exact trimChars_append (hblanks m) (hblanks n) hfirst hlast

end Text

namespace SortText

/-! ## How sorts are written -/

/-- A quote around a name. -/
inductive Quote where
  | single
  | double

def Quote.mark : Quote → Char
  | .single => '\''
  | .double => '"'

/-- Parts with a separator between them. -/
def separated {α : Type} (separator : α) : List (List α) → List α
  | [] => []
  | part :: rest => part ++ rest.flatMap (separator :: ·)

/-- Lexemes one after the other, each behind a number of spaces. -/
def spaced (gaps : Nat → Nat) : List (List Char) → List Char
  | [] => []
  | lexeme :: rest => List.replicate (gaps 0) ' ' ++ (lexeme ++ spaced (fun i => gaps (i + 1)) rest)

/-- The text of lexemes with spaces before, between and behind them. -/
def written (gaps : Nat → Nat) (lexemes : List (List Char)) : String :=
  String.ofList (spaced gaps lexemes ++ List.replicate (gaps lexemes.length) ' ')

/-- A direction as a number. -/
def direction : SortDirection → List Char
  | .asc => ['1']
  | .desc => ['-', '1']

/-- A pair of a name and a direction. -/
def pair (opening quote closing : Char) (entry : String × SortDirection) : List (List Char) :=
  [[opening], quote :: (entry.1.toList ++ [quote]), [','], direction entry.2, [closing]]

/-- The pairs of a sort in round brackets, with a kind of quotes for each. -/
def roundPairs (quotes : Nat → Quote) : List (String × SortDirection) → List (List (List Char))
  | [] => []
  | entry :: rest => pair '(' (quotes 0).mark ')' entry :: roundPairs (fun i => quotes (i + 1)) rest

/-- The pairs of a sort as they stand in JSON. -/
def jsonPairs (entries : List (String × SortDirection)) : List (List (List Char)) :=
  entries.map (pair '[' '"' ']')

/-- A list of pairs. -/
def listed (pairs : List (List (List Char))) : List (List Char) :=
  ['['] :: (separated [','] pairs ++ [[']']])

/-- A name, behind a minus if it is a descending one. -/
def signed : String × SortDirection → List Char
  | (field, .asc) => field.toList
  | (field, .desc) => '-' :: field.toList

/-- The names of a sort. -/
def named (entries : List (String × SortDirection)) : List (List Char) :=
  separated [','] (entries.map fun entry => [signed entry])

/-! ## Rows of lexemes -/

theorem spaced_append (gaps : Nat → Nat) (front back : List (List Char)) :
    spaced gaps (front ++ back)
      = spaced gaps front ++ spaced (fun i => gaps (i + front.length)) back := by
  induction front generalizing gaps with
  | nil => rfl
  | cons lexeme rest ih =>
    rw [List.cons_append, spaced, spaced, ih, List.append_assoc, List.append_assoc,
      List.length_cons]
    simp only [Nat.add_assoc]

theorem map_spaced {f : Char → Char} (hspace : f ' ' = ' ') (gaps : Nat → Nat)
    (lexemes : List (List Char)) :
    (spaced gaps lexemes).map f = spaced gaps (lexemes.map (List.map f)) := by
  induction lexemes generalizing gaps with
  | nil => rfl
  | cons lexeme rest ih =>
    rw [spaced, List.map_append, List.map_append, List.map_replicate, hspace, ih, List.map_cons,
      spaced]

theorem map_separated {α β : Type} (f : α → β) (separator : α) (parts : List (List α)) :
    (separated separator parts).map f = separated (f separator) (parts.map (List.map f)) := by
  cases parts with
  | nil => rfl
  | cons part rest => simp [separated, List.flatMap_map, List.map_flatMap]

/-- The spaces around a row of lexemes are taken off. -/
theorem trim_written {gaps : Nat → Nat} {lexeme : List Char} {rest : List (List Char)}
    (hfirst : ∀ c ∈ lexeme.head?, Text.isBlank c = false) (hne : lexeme ≠ [])
    (hlast : ∀ c ∈ (lexeme ++ spaced (fun i => gaps (i + 1)) rest).getLast?,
      Text.isBlank c = false) :
    Text.trim (written gaps (lexeme :: rest))
      = String.ofList (lexeme ++ spaced (fun i => gaps (i + 1)) rest) := by
  rw [Text.trim, written, String.toList_ofList, spaced, List.append_assoc,
    Text.trimChars_spaces ?_ hlast]
  rwa [List.head?_append_of_ne_nil _ hne]

/-! ## Lists of pairs -/

section Lists

open Json

theorem jsonChar_of_continuesIdentifier {c : Char} (h : Text.continuesIdentifier c = true) :
    jsonChar c = c := by
  unfold jsonChar
  split
  · exact absurd rfl (Text.ne_of_continuesIdentifier h (by decide))
  · exact absurd rfl (Text.ne_of_continuesIdentifier h (by decide))
  · exact absurd rfl (Text.ne_of_continuesIdentifier h (by decide))
  · rfl

variable {entries : List (String × SortDirection)} {entry : String × SortDirection}

/-- A pair becomes one of JSON when its brackets and quotes do. -/
theorem map_jsonChar_pair (hname : Text.isIdentifier entry.1 = true) {opening quote closing : Char}
    (hopening : jsonChar opening = '[') (hquote : jsonChar quote = '"')
    (hclosing : jsonChar closing = ']') :
    (pair opening quote closing entry).map (List.map jsonChar) = pair '[' '"' ']' entry := by
  have hchars : entry.1.toList.map jsonChar = entry.1.toList := by
    rw [List.map_congr_left fun c hc =>
      jsonChar_of_continuesIdentifier (Text.continues_of_isIdentifier hname c hc), List.map_id']
  have hdirection : (direction entry.2).map jsonChar = direction entry.2 := by cases entry.2 <;> rfl
  have hcomma : jsonChar ',' = ',' := rfl
  simp only [pair, List.map_cons, List.map_append, List.map_nil, hchars, hopening, hquote, hclosing,
    hdirection, hcomma]

theorem map_jsonChar_jsonPairs (hnames : ∀ entry ∈ entries, Text.isIdentifier entry.1 = true) :
    (jsonPairs entries).map (List.map (List.map jsonChar)) = jsonPairs entries := by
  rw [jsonPairs, List.map_map]
  exact List.map_congr_left fun entry hentry => map_jsonChar_pair (hnames entry hentry) rfl rfl rfl

theorem map_jsonChar_roundPairs (hnames : ∀ entry ∈ entries, Text.isIdentifier entry.1 = true)
    (quotes : Nat → Quote) :
    (roundPairs quotes entries).map (List.map (List.map jsonChar)) = jsonPairs entries := by
  induction entries generalizing quotes with
  | nil => rfl
  | cons entry rest ih =>
    rw [List.forall_mem_cons] at hnames
    have hquote : jsonChar (quotes 0).mark = '"' := by cases quotes 0 <;> rfl
    rw [roundPairs, List.map_cons, map_jsonChar_pair hnames.1 rfl hquote rfl, ih hnames.2]
    rfl

/-- The literal of a direction. -/
def literal : SortDirection → NumberLiteral
  | .asc => ⟨false, ['1'], none, none⟩
  | .desc => ⟨true, ['1'], none, none⟩

def pairTokens (entry : String × SortDirection) : List Token :=
  [.openBracket, .string (some entry.1), .comma, .number (literal entry.2), .closeBracket]

def pairNode (entry : String × SortDirection) : Node :=
  .array [.string (some entry.1), .number (literal entry.2)] true

/-- The number of a direction. -/
def number : SortDirection → Int
  | .asc => 1
  | .desc => -1

theorem escapedChar_of_continuesIdentifier {c : Char} (h : Text.continuesIdentifier c = true) :
    escapedChar c = [c] := by
  have hrange := Text.toNat_of_continuesIdentifier h
  unfold escapedChar
  split
  iterate 7 exact absurd rfl (Text.ne_of_continuesIdentifier h (by decide))
  rw [if_neg (by omega)]

theorem quoted_of_isIdentifier {name : String} (h : Text.isIdentifier name = true) :
    '"' :: (name.toList ++ ['"']) = quoted name := by
  have hchars : name.toList.flatMap escapedChar = name.toList := by
    rw [List.flatMap_congr fun c hc =>
      escapedChar_of_continuesIdentifier (Text.continues_of_isIdentifier h c hc)]
    exact List.flatMap_singleton' _
  rw [quoted, hchars]

/-- The number of a direction ends where a space or a bracket follows. -/
theorem scan_direction (d : SortDirection) {c : Char} (hc : c = ' ' ∨ c = ']') (rest : List Char) :
    Token.scan (direction d ++ c :: rest) = .number (literal d) :: Token.scan (c :: rest) := by
  cases d with
  | asc => rcases hc with rfl | rfl <;> exact Token.scan_lexeme rfl rfl rfl
  | desc => rcases hc with rfl | rfl <;> exact Token.scan_lexeme rfl rfl rfl

/-- A pair is scanned to its tokens, whatever blanks stand between them. -/
theorem scan_pair (hname : Text.isIdentifier entry.1 = true) (gaps : Nat → Nat) (rest : List Char) :
    Token.scan (spaced gaps (pair '[' '"' ']' entry) ++ rest)
      = pairTokens entry ++ Token.scan rest := by
  have hclose (n : Nat) :
    Token.scan (List.replicate n ' ' ++ ']' :: rest) = .closeBracket :: Token.scan rest :=
    (Token.scan_spaces n _).trans (Token.scan_punctuation rfl rest)
  -- only the end of a number depends on what comes behind it: a space, or the bracket at once
  have hend (n : Nat) : Token.scan (direction entry.2 ++ (List.replicate n ' ' ++ ']' :: rest))
      = .number (literal entry.2) :: .closeBracket :: Token.scan rest := by
    rw [← hclose n]
    cases n with
    | zero => exact scan_direction entry.2 (.inr rfl) rest
    | succ n => exact scan_direction entry.2 (.inl rfl) _
  simp only [pair, spaced, quoted_of_isIdentifier hname, List.append_assoc, List.cons_append,
    List.nil_append, Token.scan_spaces, Token.scan_quoted, Token.scan_punctuation (c := '[') rfl,
    Token.scan_punctuation (c := ',') rfl, hend]
  rfl

/-- The rest of a list of pairs, from the first comma on. -/
theorem scan_morePairs (hnames : ∀ entry ∈ entries, Text.isIdentifier entry.1 = true)
    (gaps : Nat → Nat) :
    Token.scan (spaced gaps ((jsonPairs entries).flatMap ([','] :: ·) ++ [[']']]))
      = (entries.map pairTokens).flatMap (.comma :: ·) ++ [.closeBracket] := by
  induction entries generalizing gaps with
  | nil =>
    have hclose : Token.scan [']'] = [.closeBracket] :=
      (Token.scan_punctuation rfl []).trans (congrArg _ Token.scan_nil)
    rw [jsonPairs, List.map_nil, List.flatMap_nil, List.nil_append, spaced, Token.scan_spaces]
    exact hclose
  | cons entry rest ih =>
    rw [List.forall_mem_cons] at hnames
    have hstep : (jsonPairs (entry :: rest)).flatMap ([','] :: ·) ++ [[']']]
        = [','] :: (pair '[' '"' ']' entry
          ++ ((jsonPairs rest).flatMap ([','] :: ·) ++ [[']']])) := by
      simp [jsonPairs]
    rw [hstep, spaced, Token.scan_spaces, List.singleton_append,
      Token.scan_punctuation (c := ',') rfl, spaced_append, scan_pair hnames.1, ih hnames.2]
    simp

/-- **The tokens of a list of pairs.** -/
theorem scan_pairs (hnames : ∀ entry ∈ entries, Text.isIdentifier entry.1 = true)
    (gaps : Nat → Nat) :
    Token.scan (spaced gaps (separated [','] (jsonPairs entries) ++ [[']']]))
      = separated .comma (entries.map pairTokens) ++ [.closeBracket] := by
  cases entries with
  | nil => exact scan_morePairs hnames gaps
  | cons entry rest =>
    rw [List.forall_mem_cons] at hnames
    have hfirst : separated [','] (jsonPairs (entry :: rest)) ++ [[']']]
        = pair '[' '"' ']' entry ++ ((jsonPairs rest).flatMap ([','] :: ·) ++ [[']']]) := by
      simp [jsonPairs, separated]
    rw [hfirst, spaced_append, scan_pair hnames.1, scan_morePairs hnames.2, List.map_cons,
      separated, List.append_assoc]

/-- The tree of the tokens, from the first comma on. -/
theorem run_morePairs (node : Node) (done : List Node) :
    Node.run (.after node [.items done])
      ((entries.map pairTokens).flatMap (.comma :: ·) ++ [.closeBracket])
      = (some (.array (done.reverse ++ node :: entries.map pairNode) true), []) := by
  induction entries generalizing node done with
  | nil => simp [Node.run, Node.State.next, Node.Frame.close]
  | cons entry rest ih =>
    -- the tokens of a pair leave the reader where it was, with one more node that is done
    refine (ih (pairNode entry) (node :: done)).trans ?_
    rw [List.reverse_cons, List.append_assoc]
    rfl

theorem ofTokens_pairs :
    Document.ofTokens
      (.openBracket :: (separated .comma (entries.map pairTokens) ++ [.closeBracket]))
    = ⟨some (.array (entries.map pairNode) true), true⟩ := by
  cases entries with
  | nil => rfl
  | cons entry rest =>
    have hrun : Node.run (.value [])
        (.openBracket :: (separated .comma ((entry :: rest).map pairTokens) ++ [.closeBracket]))
        = (some (.array ((entry :: rest).map pairNode) true), []) :=
          run_morePairs (pairNode entry) []
    rw [Document.ofTokens, hrun]
    rfl

-- of the permitted depth the list takes one level and each pair another
theorem values?_pairs (entries : List (String × SortDirection)) :
    Node.values? 126 (entries.map pairNode)
    = some (entries.map fun entry => .array [.string entry.1, .int (number entry.2)]) := by
  induction entries with
  | nil => rfl
  | cons entry rest ih =>
    have hpair : Node.value? 126 (pairNode entry)
      = some (.array [.string entry.1, .int (number entry.2)]) := by
      obtain ⟨field, d⟩ := entry
      cases d <;> rfl
    rw [List.map_cons, Node.values?, hpair, ih]
    rfl

/-- The pairs of a list are taken from its values. -/
theorem mapM_pair? (entries : List (String × SortDirection)) :
    (entries.map fun entry => Value.array [.string entry.1, .int (number entry.2)]).mapM pair?
      = some (entries.map fun entry => (entry.1, number entry.2)) := by
  induction entries with
  | nil => rfl
  | cons entry rest ih =>
    have hpair : pair? (.array [.string entry.1, .int (number entry.2)])
      = some (entry.1, number entry.2) := by
      obtain ⟨field, d⟩ := entry
      cases d <;> rfl
    rw [List.map_cons, List.mapM_cons, hpair, ih]
    rfl

/-- **A list of pairs is read as its pairs.** -/
theorem pairs?_written {pairs : List (List (List Char))}
    (hnames : ∀ entry ∈ entries, Text.isIdentifier entry.1 = true)
    (hpairs : pairs.map (List.map (List.map jsonChar)) = jsonPairs entries) (gaps : Nat → Nat) :
    pairs? (String.ofList (['['] ++ spaced gaps (separated [','] pairs ++ [[']']])))
      = some (entries.map fun entry => (entry.1, number entry.2)) := by
  have hjson : (['['] ++ spaced gaps (separated [','] pairs ++ [[']']])).map jsonChar
      = '[' :: spaced gaps (separated [','] (jsonPairs entries) ++ [[']']]) := by
    rw [List.map_append, map_spaced rfl, List.map_append, map_separated, hpairs]
    rfl
  have hread :
    Json.read (String.ofList ('[' :: spaced gaps (separated [','] (jsonPairs entries) ++ [[']']])))
      = some
        (.array (entries.map fun entry => .array [.string entry.1, .int (number entry.2)])) := by
    have hdocument : Document.ofText
        (String.ofList ('[' :: spaced gaps (separated [','] (jsonPairs entries) ++ [[']']])))
        = ⟨some (.array (entries.map pairNode) true), true⟩ := by
      rw [Document.ofText, String.toList_ofList, Token.scan_punctuation (c := '[') rfl,
        scan_pairs hnames, ofTokens_pairs]
    have hvalue : Node.value? maxDepth (.array (entries.map pairNode) true)
        = (Node.values? 126 (entries.map pairNode)).map .array := rfl
    rw [Json.read, hdocument]
    exact hvalue.trans (by rw [values?_pairs]; rfl)
  rw [pairs?, String.toList_ofList, hjson, hread]
  exact mapM_pair? entries

/-- **A list of pairs is read as the sort that it writes.** -/
theorem read_listed {pairs : List (List (List Char))}
    (hnames : ∀ entry ∈ entries, Text.isIdentifier entry.1 = true)
    (hpairs : pairs.map (List.map (List.map jsonChar)) = jsonPairs entries) (gaps : Nat → Nat) :
    read (written gaps (listed pairs)) = .ok entries := by
  have htrim : Text.trim (written gaps (listed pairs))
      = String.ofList (['[']
        ++ spaced (fun i => gaps (i + 1)) (separated [','] pairs ++ [[']']])) := by
    refine trim_written (fun c hc => ?_) (List.cons_ne_nil _ _) fun c hc => ?_
    · obtain rfl : '[' = c := Option.some.inj hc
      rfl
    · have hend (k : Nat) (cs : List Char) :
          (['['] ++ (cs ++ (List.replicate k ' ' ++ ([']'] ++ [])))).getLast? = some ']' := by
        rw [List.append_nil, ← List.append_assoc, ← List.append_assoc, List.getLast?_concat]
      rw [spaced_append, spaced, spaced, hend] at hc
      obtain rfl : ']' = c := Option.some.inj hc
      rfl
  have hdirect :
    (entries.map fun entry => (entry.1, number entry.2)).mapM direct = .ok entries := by
    rw [mapM_eq_ok_iff, List.forall₂_map_left_iff, List.forall₂_same]
    rintro ⟨field, d⟩ -
    cases d <;> rfl
  unfold read
  simp only [htrim, String.toList_ofList, pairs?_written hnames hpairs]
  exact hdirect

end Lists

/-! ## Names -/

section Names

variable {entries rest : List (String × SortDirection)} {entry : String × SortDirection}

theorem commaParts_of_notMem {cs : List Char} (h : ',' ∉ cs) : commaParts cs = [cs] := by
  induction cs with
  | nil => rfl
  | cons c rest ih =>
    rw [List.mem_cons, not_or] at h
    have hc : (c == ',') = false := beq_eq_false_iff_ne.2 (Ne.symm h.1)
    rw [commaParts, ih h.2]
    simp [hc]

theorem commaParts_ne_nil (cs : List Char) : commaParts cs ≠ [] := by
  cases cs with
  | nil => exact List.cons_ne_nil _ _
  | cons c rest =>
    rw [commaParts]
    split
    · exact List.cons_ne_nil _ _
    · split <;> exact List.cons_ne_nil _ _

/-- A text is cut at its first comma. -/
theorem commaParts_append {cs : List Char} (h : ',' ∉ cs) (rest : List Char) :
    commaParts (cs ++ ',' :: rest) = cs :: commaParts rest := by
  induction cs with
  | nil =>
    obtain ⟨part, parts, hparts⟩ := List.exists_cons_of_ne_nil (commaParts_ne_nil rest)
    rw [List.nil_append, commaParts, hparts]
    rfl
  | cons c cs ih =>
    rw [List.mem_cons, not_or] at h
    have hc : (c == ',') = false := beq_eq_false_iff_ne.2 (Ne.symm h.1)
    rw [List.cons_append, commaParts, ih h.2]
    simp [hc]

theorem signed_chars (hname : Text.isIdentifier entry.1 = true) :
    ∀ c ∈ signed entry, Text.isBlank c = false ∧ c ≠ ',' := by
  have hchars : ∀ c ∈ entry.1.toList, Text.isBlank c = false ∧ c ≠ ',' := fun c hc =>
    have hcontinues := Text.continues_of_isIdentifier hname c hc
    ⟨Text.isBlank_of_continuesIdentifier hcontinues,
      Text.ne_of_continuesIdentifier hcontinues (by decide)⟩
  obtain ⟨field, d⟩ := entry
  cases d with
  | asc => exact hchars
  | desc => exact List.forall_mem_cons.2 ⟨by decide, hchars⟩

theorem field_begins (hname : Text.isIdentifier entry.1 = true) :
    ∃ first others, entry.1.toList = first :: others ∧ first ≠ '-' ∧ first ≠ '[' := by
  obtain ⟨-, first, others, hlist, hfirst, -⟩ := Text.isIdentifier_iff.1 hname
  have hcontinues : Text.continuesIdentifier first = true := by
    rw [Text.continuesIdentifier, hfirst, Bool.true_or]
  exact ⟨first, others, hlist, Text.ne_of_continuesIdentifier hcontinues (by decide),
    Text.ne_of_continuesIdentifier hcontinues (by decide)⟩

theorem signed_begins (hname : Text.isIdentifier entry.1 = true) :
    ∃ first others, signed entry = first :: others ∧ first ≠ '[' := by
  obtain ⟨first, others, hlist, -, hbracket⟩ := field_begins hname
  obtain ⟨field, d⟩ := entry
  cases d with
  | asc => exact ⟨first, others, hlist, hbracket⟩
  | desc => exact ⟨'-', field.toList, rfl, by decide⟩

/-- A name is read from a part of a text, whatever spaces are around it. -/
theorem name_spaces (hname : Text.isIdentifier entry.1 = true) (text : String) (m n : Nat) :
    name text (List.replicate m ' ' ++ (signed entry ++ List.replicate n ' ')) = .ok entry := by
  have hblank : ∀ c ∈ signed entry, Text.isBlank c = false :=
    fun c hc => (signed_chars hname c hc).1
  have htrim := Text.trimChars_spaces (fun c hc => hblank c (List.mem_of_head? hc))
    (fun c hc => hblank c (List.mem_of_getLast? hc)) m n
  obtain ⟨first, others, hlist, hminus, -⟩ := field_begins hname
  obtain ⟨field, d⟩ := entry
  dsimp only at hlist
  have hfield : String.ofList (first :: others) = field := by rw [← hlist, String.ofList_toList]
  unfold name
  rw [htrim]
  cases d with
  | asc =>
    -- a field does not begin with a minus, so nothing is taken off
    rw [signed, hlist]
    split
    rename_i chars d hsigned
    split at hsigned
    · rename_i hcons
      exact absurd (List.cons.inj hcons).1 hminus
    · cases hsigned
      rw [hfield]
      rfl
  | desc =>
    rw [signed, hlist, ← hfield]
    rfl

/-- The names behind a first one, each behind its comma. -/
def otherNames (rest : List (String × SortDirection)) : List (List Char) :=
  rest.flatMap fun entry => [[','], signed entry]

theorem named_cons (entry : String × SortDirection) (rest : List (String × SortDirection)) :
    named (entry :: rest) = signed entry :: otherNames rest := by
  simp [named, otherNames, separated, List.flatMap_map]

theorem spaced_otherNames (gaps : Nat → Nat) (next : String × SortDirection)
    (rest : List (String × SortDirection)) :
    spaced gaps (otherNames (next :: rest)) = List.replicate (gaps 0) ' ' ++ ',' ::
      (List.replicate (gaps 1) ' '
        ++ (signed next ++ spaced (fun i => gaps (i + 1 + 1)) (otherNames rest))) := by
  simp [otherNames, spaced]

/-- **The parts of a row of names**, cut at its commas, are read as the names one after the
other. -/
theorem commaParts_named (hname : Text.isIdentifier entry.1 = true)
    (hnames : ∀ entry ∈ rest, Text.isIdentifier entry.1 = true) (m : Nat) (gaps : Nat → Nat) :
    List.Forall₂ (fun part entry => ∀ text, name text part = .ok entry)
      (commaParts (List.replicate m ' ' ++ (signed entry ++ spaced gaps (otherNames rest))))
        (entry :: rest) := by
  have hcomma {entry : String × SortDirection}
      (hname : Text.isIdentifier entry.1 = true) (m n : Nat) :
      ',' ∉ List.replicate m ' ' ++ (signed entry ++ List.replicate n ' ') := by
    have hblank (k : Nat) : ',' ∉ List.replicate k ' ' :=
      fun hc => absurd (List.eq_of_mem_replicate hc) (by decide)
    simp only [List.mem_append, not_or]
    exact ⟨hblank m, fun hc => (signed_chars hname _ hc).2 rfl, hblank n⟩
  induction rest generalizing entry m gaps with
  | nil =>
    have hpart := hcomma hname m 0
    rw [List.replicate_zero] at hpart
    rw [otherNames, List.flatMap_nil, spaced, commaParts_of_notMem hpart]
    exact .cons (fun text => name_spaces hname text m 0) .nil
  | cons next rest ih =>
    rw [List.forall_mem_cons] at hnames
    -- the first comma stands behind the first name and the spaces that follow it
    rw [spaced_otherNames, ← List.append_assoc (signed entry),
      ← List.append_assoc (List.replicate m ' '), commaParts_append (hcomma hname m (gaps 0))]
    exact .cons (fun text => name_spaces hname text m (gaps 0)) (ih hnames.1 hnames.2 (gaps 1) _)

/-- A row of names does not end in a blank. -/
theorem getLast?_named (hname : Text.isIdentifier entry.1 = true)
    (hnames : ∀ entry ∈ rest, Text.isIdentifier entry.1 = true) (gaps : Nat → Nat) :
    ∀ c ∈ (signed entry ++ spaced gaps (otherNames rest)).getLast?, Text.isBlank c = false := by
  induction rest generalizing entry gaps with
  | nil =>
    intro c hc
    rw [otherNames, List.flatMap_nil, spaced, List.append_nil] at hc
    exact (signed_chars hname c (List.mem_of_getLast? hc)).1
  | cons next rest ih =>
    rw [List.forall_mem_cons] at hnames
    obtain ⟨first, others, hsigned, -⟩ := signed_begins hnames.1
    have hnext : signed next ++ spaced (fun i => gaps (i + 1 + 1)) (otherNames rest) ≠ [] := by
      rw [hsigned]
      exact List.cons_ne_nil _ _
    -- the last character is one of the next name or stands behind it
    rw [spaced_otherNames, ← List.cons_append, ← List.append_assoc, ← List.append_assoc,
      List.getLast?_append_of_ne_nil _ hnext]
    exact ih hnames.1 hnames.2 _

theorem read_of_trim {text : String} {c : Char} {cs : List Char}
    (h : (Text.trim text).toList = c :: cs) (hc : c ≠ '[') :
    read text = (commaParts (c :: cs)).mapM (name (Text.trim text)) := by
  unfold read
  dsimp only
  rw [h]
  split
  · rename_i hnil
    cases hnil
  · rename_i hcons
    exact absurd (List.cons.inj hcons).1 hc
  · rfl

/-- **Names are read as the sort that they write.** -/
theorem read_named (hnames : ∀ entry ∈ entries, Text.isIdentifier entry.1 = true)
    (gaps : Nat → Nat) :
    read (written gaps (named entries)) = .ok entries := by
  cases entries with
  | nil =>
    -- spaces alone are a sort without entries
    have htrim : Text.trim (written gaps (named [])) = "" := by
      have hnone : ∀ c ∈ ([] : List Char).head?, Text.isBlank c = false := nofun
      have hblank :
        Text.trimChars (List.replicate 0 ' ' ++ ([] ++ List.replicate (gaps 0) ' ')) = [] :=
        Text.trimChars_spaces hnone hnone 0 (gaps 0)
      rw [Text.trim, written, String.toList_ofList]
      exact congrArg String.ofList hblank
    rw [read, htrim]
    rfl
  | cons entry rest =>
    rw [List.forall_mem_cons] at hnames
    obtain ⟨first, others, hsigned, hbracket⟩ := signed_begins hnames.1
    have hparts := commaParts_named hnames.1 hnames.2 0 fun i => gaps (i + 1)
    have htrim : Text.trim (written gaps (signed entry :: otherNames rest)) = _ :=
      trim_written (fun c hc => (signed_chars hnames.1 c (List.mem_of_head? hc)).1)
        (hsigned ▸ List.cons_ne_nil _ _) (getLast?_named hnames.1 hnames.2 fun i => gaps (i + 1))
    rw [List.replicate_zero, List.nil_append, hsigned] at hparts
    rw [← named_cons, hsigned] at htrim
    rw [read_of_trim (htrim ▸ String.toList_ofList) hbracket, mapM_eq_ok_iff]
    exact hparts.imp fun _ _ hread => hread _

end Names

/-- **The three forms of a sort are read alike.** A sort of identifiers may be written as a list of
pairs in round brackets, each name in quotes of either kind, as a list of pairs in JSON, or as names
with commas between them, a minus before each descending one. However many spaces stand before,
between and behind the parts, each of the three texts is read as exactly the sort, in its order and
with its repetitions; a sort without entries is no exception. -/
theorem sorts_read_alike {entries : List (String × SortDirection)}
    (hnames : ∀ entry ∈ entries, Text.isIdentifier entry.1 = true) (quotes : Nat → Quote)
    (gaps : Nat → Nat) :
    read (written gaps (listed (roundPairs quotes entries))) = .ok entries
      ∧ read (written gaps (listed (jsonPairs entries))) = .ok entries
      ∧ read (written gaps (named entries)) = .ok entries :=
  ⟨read_listed hnames (map_jsonChar_roundPairs hnames quotes) gaps,
    read_listed hnames (map_jsonChar_jsonPairs hnames) gaps, read_named hnames gaps⟩

/-- A sort that repeats a name. -/
def repeatedSort : List (String × SortDirection) := [("f", .asc), ("g", .desc), ("f", .desc)]

def firstDouble (i : Nat) : Quote := if i = 0 then .double else .single

/-- Two spaces before each pair of a list and behind it. -/
def pairGaps (i : Nat) : Nat := if i % 6 = 1 then 2 else 0

theorem repeated_sort_read_alike :
    (∀ entry ∈ repeatedSort, Text.isIdentifier entry.1 = true)
      ∧ written pairGaps (listed (roundPairs firstDouble repeatedSort))
        = "[  (\"f\",1),  ('g',-1),  ('f',-1)]  "
      ∧ written pairGaps (named repeatedSort) = "f  ,-g,-f"
      ∧ read (written pairGaps (listed (roundPairs firstDouble repeatedSort))) = .ok repeatedSort
      ∧ read (written pairGaps (listed (jsonPairs repeatedSort))) = .ok repeatedSort
      ∧ read (written pairGaps (named repeatedSort)) = .ok repeatedSort := by
  have hnames : ∀ entry ∈ repeatedSort, Text.isIdentifier entry.1 = true := by decide
  exact ⟨hnames, by decide, by decide, sorts_read_alike hnames firstDouble pairGaps⟩

end SortText

end RecordStore
