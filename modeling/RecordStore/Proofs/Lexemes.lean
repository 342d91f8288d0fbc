import RecordStore.Proofs.StatementText
import RecordStore.Proofs.Texts

/-!
# The lexemes of a statement

A database takes the text of a statement apart before it looks at what it means: into keywords,
names between double quotes, texts between single ones, numbers and signs. The rules are those of
the lexical structure of SQL. A quote that is written twice stands for itself; a text goes on where
another one follows after a line break; and a word right before a quote would be the mark of another
kind of text. The reader here knows the part of the language in which tables are defined and refuses
everything else, comments among it, so what it reads it reads as a database does.

* **`quotedText?`** — what stands between quotes, and what follows the closing one.
* **`quotedText?_enclosed_iff`** — a text that is put between quotes is read back, unless a quote
  follows.
* **`lexemes?`** — the lexemes of a text, read character by character.
* **`lexemes?_quoted`** — the reader ends a name or a text where `unquote?` does.
* **`ReadsAs.append`** — texts that stand apart are read one after the other.
-/

namespace RecordStore.Sql

/-! ## Texts between quotes -/

/-- What stands before the quote that closes a text, and what follows it. A quote that is written
twice stands for itself. -/
def unquote? (quote : Char) : List Char → Option (List Char × List Char)
  | [] => none
  | [c] => if c = quote then some ([], []) else none
  | c :: d :: rest =>
    if c = quote then
      if d = quote then (unquote? quote rest).map (Prod.map (quote :: ·) id)
        else some ([], d :: rest)
    else (unquote? quote (d :: rest)).map (Prod.map (c :: ·) id)

/-- A text between quotes, and what follows it. -/
def quotedText? (quote : Char) : List Char → Option (String × List Char)
  | [] => none
  | c :: rest => if c = quote then (unquote? quote rest).map (Prod.map String.ofList id) else none

/-- Where nothing is put in front, a result stays as it is. -/
theorem map_nil_append {α β : Type} (result : Option (List α × β)) :
    result.map (Prod.map ([] ++ ·) id) = result := by
  cases result <;> rfl

section Quotes

variable {quote c : Char} {rest : List Char}

theorem unquote?_cons (h : c ≠ quote) :
    unquote? quote (c :: rest) = (unquote? quote rest).map (Prod.map (c :: ·) id) := by
  cases rest <;> simp [unquote?, h]

theorem unquote?_twice :
    unquote? quote (quote :: quote :: rest)
      = (unquote? quote rest).map (Prod.map (quote :: ·) id) := by
  simp [unquote?]

theorem unquote?_close (h : rest.head? ≠ some quote) :
    unquote? quote (quote :: rest) = some ([], rest) := by
  cases rest with
  | nil => simp [unquote?]
  | cons d rest =>
    have hd : d ≠ quote := fun heq => h (congrArg some heq)
    simp [unquote?, hd]

/-- What is written with its quotes doubled is read as it was. -/
theorem unquote?_doubled_append (cs : List Char) :
    unquote? quote (doubled quote cs ++ rest)
      = (unquote? quote rest).map (Prod.map (cs ++ ·) id) := by
  induction cs with
  | nil => rw [map_nil_append, doubled, List.nil_append]
  | cons c cs ih =>
    have hcons (result : Option (List Char × List Char)) :
        (result.map (Prod.map (cs ++ ·) id)).map (Prod.map (c :: ·) id)
          = result.map (Prod.map (c :: cs ++ ·) id) := by
      rw [Option.map_map]
      rfl
    rw [doubled]
    split
    · rename_i hquote
      subst hquote
      rw [List.cons_append, List.cons_append, unquote?_twice, ih, hcons]
    · rename_i hplain
      rw [List.cons_append, unquote?_cons hplain, ih, hcons]

/-- **A text between quotes is read back, and nothing after it,** just when no further quote
follows. -/
theorem quotedText?_enclosed_iff (quote : Char) (s : String) (rest : List Char) :
    quotedText? quote (enclosed quote s ++ rest) = some (s, rest) ↔ rest.head? ≠ some quote := by
  have hread : quotedText? quote (enclosed quote s ++ rest)
      = ((unquote? quote (quote :: rest)).map (Prod.map (s.toList ++ ·) id)).map
        (Prod.map String.ofList id) := by
    rw [enclosed, List.cons_append, List.append_assoc, List.singleton_append, quotedText?,
      if_pos rfl, unquote?_doubled_append]
  constructor
  · rintro h hquote
    -- with one more quote the text would go on, and be longer
    obtain ⟨more, rfl⟩ : ∃ more, rest = quote :: more := List.head?_eq_some_iff.1 hquote
    rw [hread, unquote?_twice] at h
    simp only [Option.map_map, Option.map_eq_some_iff] at h
    obtain ⟨⟨body, after⟩, -, hsame⟩ := h
    have hlength := congrArg (fun result => result.1.toList.length) hsame
    simp at hlength
  · intro h
    simp [hread, unquote?_close h]

end Quotes

/-! ## The reader -/

/-- What a statement is made of. -/
inductive Lexeme where
  /-- a keyword or the name of a type or of a function -/
  | word (text : String)
  /-- a name between double quotes -/
  | name (name : String)
  /-- a text between single quotes -/
  | text (text : String)
  | number (value : ℚ)
  | sign (text : String)
deriving DecidableEq

/-- What stands between quotes. -/
inductive Quoting where
  | name
  | text
deriving DecidableEq

namespace Quoting

def quote : Quoting → Char
  | name => '"'
  | text => '\''

def lexeme : Quoting → String → Lexeme
  | name => .name
  | text => .text

end Quoting

/-- The characters that keep lexemes apart. -/
def isSpace (c : Char) : Bool :=
  c == ' ' || c == '\t' || c == '\n' || c == '\r' || c == '\x0b' || c == '\x0c'

def isLineBreak (c : Char) : Bool := c == '\n' || c == '\r'

/-- The signs that are lexemes each. -/
def isBracket (c : Char) : Bool := c == '(' || c == ')' || c == ',' || c == '.'

/-- Where the reader is in a text; what it has read of a lexeme stands last first. -/
inductive Scanner where
  | between
  | word (read : List Char)
  | number (read : List Char)
  | sign (read : List Char)
  | quoted (kind : Quoting) (read : List Char)
  /-- after a quote, which ends what is quoted unless it is written twice -/
  | closing (kind : Quoting) (read : List Char)
  /-- in the space after a text, which goes on in another one if there is a line break between the
  two -/
  | gap (read : List Char) (broken : Bool)

namespace Scanner

/-- Where the reader is after one more character that belongs to what it reads. -/
def continue? : Scanner → Char → Option Scanner
  | between, _ => none
  -- a quote right behind a word is taken with it, and then it is no word
  | word read, c => if Text.continuesIdentifier c || c == '"' || c == '\''
      then some (word (c :: read)) else none
  | number read, c => if Text.isNumeral c || Text.continuesIdentifier c
      then some (number (c :: read)) else none
  | sign read, c => if c == '-' || c == ':' then some (sign (c :: read)) else none
  | quoted kind read, c =>
    some (if c = kind.quote then closing kind read else quoted kind (c :: read))
  | closing kind read, c =>
    if c = kind.quote then some (quoted kind (c :: read))
    else if kind = .text && isSpace c then some (gap read (isLineBreak c))
    else none
  | gap read broken, c =>
    if isSpace c then some (gap read (broken || isLineBreak c))
    else if broken && c == '\'' then some (quoted .text read)
    else none

/-- What ends here, if something may. -/
def ended? : Scanner → Option (List Lexeme)
  | between => some []
  | word read => if Text.hasIdentifierShape read.reverse
      then some [.word (String.ofList read.reverse)] else none
  | number read => (Decimal.read read.reverse).map fun d => [.number d.value]
  -- two minus signs would begin a comment
  | sign read => if read = ['-'] || read = [':', ':']
      then some [.sign (String.ofList read.reverse)] else none
  | quoted _ _ => none
  | closing kind read => some [kind.lexeme (String.ofList read.reverse)]
  | gap read _ => some [.text (String.ofList read.reverse)]

/-- What is read of a character between two lexemes, and where the reader is after it. -/
def begin? (c : Char) : Option (List Lexeme × Scanner) :=
  if isSpace c then some ([], between)
  else if isBracket c then some ([.sign (String.ofList [c])], between)
  else if c = '"' then some ([], quoted .name [])
  else if c = '\'' then some ([], quoted .text [])
  else if Text.isDigit c then some ([], number [c])
  else if Text.startsIdentifier c then some ([], word [c])
  else if c == '-' || c == ':' then some ([], sign [c])
  else none

/-- What is read at a character, and where the reader is after it. -/
def step? (s : Scanner) (c : Char) : Option (List Lexeme × Scanner) :=
  match s.continue? c with
  | some next => some ([], next)
  | none => s.ended?.bind fun ts => (begin? c).map (Prod.map (ts ++ ·) id)

end Scanner

/-- What is read of a text that goes on, and where the reader is after it. -/
def scan? (s : Scanner) : List Char → Option (List Lexeme × Scanner)
  | [] => some ([], s)
  | c :: rest => (s.step? c).bind fun (ts, next) => (scan? next rest).map (Prod.map (ts ++ ·) id)

/-- The lexemes of a text, read on from a state, if it is made of lexemes. -/
def lexemes? (s : Scanner) (cs : List Char) : Option (List Lexeme) :=
  (scan? s cs).bind fun (ts, last) => last.ended?.map (ts ++ ·)

/-- A text goes on in another one behind a line break; with a word before it, it may be of another
kind. -/
example : lexemes? .between "'it' \n '''s'".toList = some [.text "it's"]
    ∧ lexemes? .between "E'it''s'".toList = none := ⟨rfl, rfl⟩

section Reading

variable {s next : Scanner} {c : Char} {ts : List Lexeme} {cs rest : List Char}

theorem lexemes?_nil (s : Scanner) : lexemes? s [] = s.ended? := by
  cases hended : s.ended? <;> simp [lexemes?, scan?, hended]

theorem lexemes?_cons (s : Scanner) (c : Char) (rest : List Char) :
    lexemes? s (c :: rest) = (s.step? c).bind fun (ts, next) =>
      (lexemes? next rest).map (ts ++ ·) := by
  unfold lexemes?
  rw [scan?, Option.bind_assoc]
  congr 1
  funext ⟨ts, next⟩
  dsimp only
  cases scan? next rest <;> simp [Function.comp_def]

/-- A text is read from where the reader is after its beginning. -/
theorem lexemes?_of_scan (h : scan? s cs = some (ts, next)) :
    lexemes? s (cs ++ rest) = (lexemes? next rest).map (ts ++ ·) := by
  induction cs generalizing s ts with
  | nil =>
    obtain ⟨rfl, rfl⟩ := Prod.mk.inj (Option.some.inj h)
    simp
  | cons c cs ih =>
    obtain ⟨⟨first, middle⟩, hstep, h⟩ := Option.bind_eq_some_iff.1 h
    obtain ⟨⟨more, last⟩, hscan, hsame⟩ := Option.map_eq_some_iff.1 h
    obtain ⟨rfl, rfl⟩ := Prod.mk.inj hsame
    rw [List.cons_append, lexemes?_cons, hstep, Option.bind_some]
    dsimp only
    rw [ih hscan, Option.map_map]
    simp [Function.comp_def]

/-- What is a lexeme up to here comes before what is read of the rest. -/
theorem lexemes?_of_ended (hended : s.ended? = some ts)
    (hstop : ∀ c ∈ rest.head?, s.continue? c = none) :
    lexemes? s rest = (lexemes? .between rest).map (ts ++ ·) := by
  cases rest with
  | nil => rw [lexemes?_nil, lexemes?_nil, hended, Scanner.ended?, Option.map_some, List.append_nil]
  | cons c rest =>
    have hbetween : Scanner.step? .between c = Scanner.begin? c := map_nil_append _
    have hstep : s.step? c = (Scanner.begin? c).map (Prod.map (ts ++ ·) id) := by
      rw [Scanner.step?, hstop c rfl, hended, Option.bind_some]
    rw [lexemes?_cons, lexemes?_cons, hstep, hbetween]
    cases Scanner.begin? c with
    | none => rfl
    | some begun => simp [Function.comp_def]

/-- What belongs to what is being read is read with it. -/
theorem lexemes?_of_continue (h : s.continue? c = some next) :
    lexemes? s (c :: rest) = lexemes? next rest := by
  simp [lexemes?_cons, Scanner.step?, h]

/-- Where something begins between two lexemes, the reader goes on with it. -/
theorem lexemes?_of_begin (h : Scanner.begin? c = some (ts, next)) :
    lexemes? .between (c :: rest) = (lexemes? next rest).map (ts ++ ·) := by
  simp [lexemes?_cons, Scanner.step?, Scanner.continue?, Scanner.ended?, h]

/-! ### Quoted lexemes -/

/-- **The reader ends a name or a text where the rules of quoting do.** -/
theorem lexemes?_quoted (kind : Quoting) (read cs : List Char) :
    lexemes? (.quoted kind read) cs = (unquote? kind.quote cs).bind fun (body, rest) =>
      lexemes? (.closing kind (body.reverse ++ read)) rest := by
  have hquote {read rest : List Char} :
      lexemes? (.quoted kind read) (kind.quote :: rest) = lexemes? (.closing kind read) rest :=
    lexemes?_of_continue (congrArg some (if_pos rfl))
  have hplain {c : Char} {read rest : List Char} (h : c ≠ kind.quote) :
      lexemes? (.quoted kind read) (c :: rest) = lexemes? (.quoted kind (c :: read)) rest :=
    lexemes?_of_continue (congrArg some (if_neg h))
  have htwice {read rest : List Char} : lexemes? (.closing kind read) (kind.quote :: rest)
      = lexemes? (.quoted kind (kind.quote :: read)) rest :=
    lexemes?_of_continue (if_pos rfl)
  have hmore (c : Char) (read : List Char) (result : Option (List Char × List Char)) :
      (result.bind fun (body, rest) => lexemes? (.closing kind (body.reverse ++ c :: read)) rest)
        = (result.map (Prod.map (c :: ·) id)).bind fun (body, rest) =>
          lexemes? (.closing kind (body.reverse ++ read)) rest := by
    cases result <;> simp
  generalize hq : kind.quote = quote at *
  fun_induction unquote? quote cs generalizing read with
  | case1 => rfl
  | case2 => exact hquote
  | case3 c hc => exact hplain hc
  | case4 rest ih => rw [hquote, htwice, ih, hmore]
  | case5 d rest hd => exact hquote
  | case6 c d rest hc ih => rw [hplain hc, ih, hmore]

theorem lexemes?_enclosed (kind : Quoting) (s : String) (h : rest.head? ≠ some kind.quote) :
    lexemes? .between (enclosed kind.quote s ++ rest)
      = lexemes? (.closing kind s.toList.reverse) rest := by
  have hbegin : Scanner.begin? kind.quote = some ([], .quoted kind []) := by cases kind <;> rfl
  rw [enclosed, List.cons_append, List.append_assoc, List.singleton_append,
    lexemes?_of_begin hbegin, lexemes?_quoted, unquote?_doubled_append, unquote?_close h]
  simp

/-- A name is read up to its closing quote. -/
theorem lexemes?_name (s : String) (h : rest.head? ≠ some '"') :
    lexemes? .between (enclosed '"' s ++ rest) = (lexemes? .between rest).map (.name s :: ·) := by
  have hended : Scanner.ended? (.closing .name s.toList.reverse) = some [.name s] := by
    rw [Scanner.ended?, List.reverse_reverse, String.ofList_toList, Quoting.lexeme]
  refine (lexemes?_enclosed .name s h).trans (lexemes?_of_ended hended fun c hc => ?_)
  have hquote : c ≠ Quoting.quote .name := by
    rintro rfl
    exact h hc
  rw [Scanner.continue?, if_neg hquote]
  rfl

/-- No text follows, not even after a space. -/
def NoText (rest : List Char) : Prop := (rest.dropWhile isSpace).head? ≠ some '\''

theorem noText_space (hspace : isSpace c = true) : NoText (c :: rest) ↔ NoText rest := by
  rw [NoText, NoText, List.dropWhile_cons_of_pos hspace]

theorem ne_of_noText (h : NoText (c :: rest)) : c ≠ '\'' := by
  rintro rfl
  exact h rfl

/-- The space after a text is passed over. -/
theorem lexemes?_gap {read : List Char} {broken : Bool} (h : NoText rest) :
    lexemes? (.gap read broken) rest
    = (lexemes? .between rest).map (.text (String.ofList read.reverse) :: ·) := by
  induction rest generalizing broken with
  | nil => rfl
  | cons c rest ih =>
    by_cases hspace : isSpace c = true
    · have hbegin : Scanner.begin? c = some ([], .between) := if_pos hspace
      have hgap : Scanner.continue? (.gap read broken) c
        = some (.gap read (broken || isLineBreak c)) :=
        if_pos hspace
      rw [lexemes?_of_begin hbegin, lexemes?_of_continue hgap, ih ((noText_space hspace).1 h)]
      simp
    · refine lexemes?_of_ended (s := .gap read broken) rfl fun d hd => ?_
      obtain rfl : c = d := Option.some.inj hd
      simp [Scanner.continue?, hspace, ne_of_noText h]

theorem lexemes?_closing {read : List Char} (h : NoText rest) : lexemes? (.closing .text read) rest
    = (lexemes? .between rest).map (.text (String.ofList read.reverse) :: ·) := by
  cases rest with
  | nil => rfl
  | cons c rest =>
    have hquote : c ≠ Quoting.quote .text := ne_of_noText h
    -- with no further quote, the reader goes on as in a gap that has just begun
    have hsame : Scanner.step? (.closing .text read) c = Scanner.step? (.gap read false) c := by
      simp [Scanner.step?, Scanner.continue?, Scanner.ended?, Quoting.lexeme, hquote]
    rw [lexemes?_cons, hsame, ← lexemes?_cons, lexemes?_gap h]

/-- A text is read up to its closing quote. -/
theorem lexemes?_text (s : String) (h : NoText rest) :
    lexemes? .between (enclosed '\'' s ++ rest) = (lexemes? .between rest).map (.text s :: ·) := by
  have hquote : rest.head? ≠ some (Quoting.quote .text) := by
    intro hhead
    obtain ⟨more, rfl⟩ := List.head?_eq_some_iff.1 hhead
    exact ne_of_noText h rfl
  refine (lexemes?_enclosed .text s hquote).trans ((lexemes?_closing h).trans ?_)
  rw [List.reverse_reverse, String.ofList_toList]

/-! ### Texts that stand apart -/

/-- Characters that end a lexeme before them. -/
def isApart (c : Char) : Bool := isSpace c || c == ',' || c == ')'

/-- A text before which every lexeme ends. -/
def opens (cs : List Char) : Bool :=
  cs.head?.any isApart && (cs.dropWhile isSpace).head?.any (· != '\'')

/-- What follows does not go on with what has been read. -/
def StandsApart (rest : List Char) : Prop := rest = [] ∨ opens rest = true

theorem opens_append (h : opens cs = true) (rest : List Char) : opens (cs ++ rest) = true := by
  rw [opens, Bool.and_eq_true, Option.any_eq_true, Option.any_eq_true] at h ⊢
  obtain ⟨⟨c, hc, hapart⟩, d, hd, hquote⟩ := h
  obtain ⟨ds, hds⟩ := List.head?_eq_some_iff.1 hd
  refine ⟨⟨c, ?_, hapart⟩, d, ?_, hquote⟩
  · rw [List.head?_append, hc, Option.some_or]
  · rw [List.dropWhile_append, hds]
    rfl

theorem noText_of_standsApart (h : StandsApart rest) : NoText rest := by
  rcases h with rfl | h
  · exact nofun
  · rw [opens, Bool.and_eq_true, Option.any_eq_true, Option.any_eq_true] at h
    obtain ⟨-, d, hd, hquote⟩ := h
    rw [NoText, hd]
    simpa using hquote

theorem isApart_of_standsApart (h : StandsApart rest) : ∀ c ∈ rest.head?, isApart c = true := by
  rcases h with rfl | h
  · exact nofun
  · rw [opens, Bool.and_eq_true, Option.any_eq_true] at h
    obtain ⟨⟨c, hc, hapart⟩, -⟩ := h
    intro d hd
    rwa [← Option.some.inj (hc.symm.trans hd)]

/-- What may end ends before what stands apart. -/
theorem lexemes?_of_standsApart (hended : s.ended? = some ts) (h : StandsApart rest) :
    lexemes? s rest = (lexemes? .between rest).map (ts ++ ·) := by
  have hstop
      (hnone : ∀ c ∈ [' ', '\t', '\n', '\r', '\x0b', '\x0c', ',', ')'], s.continue? c = none) :
      lexemes? s rest = (lexemes? .between rest).map (ts ++ ·) := by
    refine lexemes?_of_ended hended fun c hc => hnone c ?_
    simpa [isApart, isSpace, or_assoc] using isApart_of_standsApart h c hc
  cases s with
  | between => exact hstop fun _ _ => rfl
  | word read => exact hstop (by simp [Scanner.continue?]; decide)
  | number read => exact hstop (by simp [Scanner.continue?]; decide)
  | sign read => exact hstop (by simp [Scanner.continue?])
  | quoted => cases hended
  | closing kind read =>
    cases kind with
    | name => exact hstop (by simp [Scanner.continue?, Quoting.quote])
    | text =>
      cases hended
      exact lexemes?_closing (noText_of_standsApart h)
  | gap read broken =>
    cases hended
    exact lexemes?_gap (noText_of_standsApart h)

end Reading

/-- A text is read as lexemes. -/
def ReadsAs (cs : List Char) (ts : List Lexeme) : Prop := lexemes? .between cs = some ts

/-- So is a text behind others. -/
structure ReadsApart (cs : List Char) (ts : List Lexeme) : Prop where
  reads : ReadsAs cs ts
  apart : StandsApart cs

/-- A text is read as lexemes to its end, whatever follows. -/
def Leads (cs : List Char) (ts : List Lexeme) : Prop := scan? .between cs = some (ts, .between)

section Texts

variable {cs rest : List Char} {ts us : List Lexeme}

theorem ReadsAs.append (h : ReadsAs cs ts) (hrest : ReadsApart rest us) :
    ReadsAs (cs ++ rest) (ts ++ us) := by
  obtain ⟨⟨first, last⟩, hscan, h⟩ := Option.bind_eq_some_iff.1 h
  obtain ⟨ended, hended, rfl⟩ := Option.map_eq_some_iff.1 h
  rw [ReadsAs, lexemes?_of_scan hscan, lexemes?_of_standsApart hended hrest.apart, hrest.reads]
  simp

theorem ReadsApart.nil : ReadsApart [] [] := ⟨rfl, .inl rfl⟩

theorem ReadsApart.append (h : ReadsApart cs ts) (hrest : ReadsApart rest us) :
    ReadsApart (cs ++ rest) (ts ++ us) where
  reads := h.reads.append hrest
  apart := by
    rcases h.apart with rfl | hopens
    · exact hrest.apart
    · exact .inr (opens_append hopens rest)

theorem Leads.reads (h : Leads cs ts) (hrest : ReadsAs rest us) :
    ReadsAs (cs ++ rest) (ts ++ us) := by
  rw [ReadsAs, lexemes?_of_scan h, hrest, Option.map_some]

theorem Leads.readsApart (h : Leads cs ts) (hopens : opens cs = true) (hrest : ReadsAs rest us) :
    ReadsApart (cs ++ rest) (ts ++ us) :=
  ⟨h.reads hrest, .inr (opens_append hopens rest)⟩

theorem readsAs_name (s : String) : ReadsAs (enclosed '"' s) [.name s] := by
  have hread : lexemes? .between (enclosed '"' s ++ []) = _ := lexemes?_name s nofun
  rwa [List.append_nil] at hread

theorem readsAs_text (s : String) : ReadsAs (enclosed '\'' s) [.text s] := by
  have hread : lexemes? .between (enclosed '\'' s ++ []) = _ := lexemes?_text s nofun
  rwa [List.append_nil] at hread

/-! ### Numbers -/

/-- The characters of numbers belong to one number. -/
theorem lexemes?_numerals (h : ∀ c ∈ cs, Text.isNumeral c = true) (read : List Char) :
    lexemes? (.number read) cs = Scanner.ended? (.number (cs.reverse ++ read)) := by
  induction cs generalizing read with
  | nil => exact lexemes?_nil _
  | cons c cs ih =>
    obtain ⟨hc, hcs⟩ := List.forall_mem_cons.1 h
    have hcontinue : Scanner.continue? (.number read) c = some (.number (c :: read)) :=
      if_pos (by simp [hc])
    rw [lexemes?_of_continue hcontinue, ih hcs, List.reverse_cons, List.append_assoc]
    rfl

/-- A number begins with a digit. -/
theorem begin?_of_isDigit {c : Char} (h : Text.isDigit c = true) :
    Scanner.begin? c = some ([], .number [c]) := by
  have hnone :
    ∀ d ∈ [' ', '\t', '\n', '\r', '\x0b', '\x0c', '(', ')', ',', '.', '"', '\''], c ≠ d := by
    have hothers : ∀ d ∈ [' ', '\t', '\n', '\r', '\x0b', '\x0c', '(', ')', ',', '.', '"', '\''],
        Text.isDigit d = false := by simp [Text.isDigit]
    rintro d hd rfl
    exact Bool.false_ne_true ((hothers c hd).symm.trans h)
  simp only [List.forall_mem_cons, List.not_mem_nil] at hnone
  simp [Scanner.begin?, isSpace, isBracket, h, hnone]

/-- A number is read with its value. -/
theorem readsAs_number {d : Decimal} (hread : Decimal.read cs = some d)
    (hfirst : ∀ c ∈ cs.head?, Text.isDigit c = true) (hcs : ∀ c ∈ cs, Text.isNumeral c = true) :
    ReadsAs cs [.number d.value] := by
  cases cs with
  | nil => cases hread
  | cons c cs =>
    rw [ReadsAs, lexemes?_of_begin (begin?_of_isDigit (hfirst c rfl)),
      lexemes?_numerals fun d hd => hcs d (List.mem_cons_of_mem c hd), Scanner.ended?]
    simp [hread]

/-- A number with a sign in front. -/
def Lexeme.signed (negative : Bool) (q : ℚ) : List Lexeme :=
  (if negative then [.sign "-"] else []) ++ [.number q]

/-- The sign of a numeral is a sign of its own. -/
theorem readsAs_signed {d : Decimal} (negative : Bool) (hread : Decimal.read cs = some d)
    (hfirst : ∀ c ∈ cs.head?, Text.isDigit c = true) (hcs : ∀ c ∈ cs, Text.isNumeral c = true) :
    ReadsAs (if negative then '-' :: cs else cs) (Lexeme.signed negative d.value) := by
  have hnumber := readsAs_number hread hfirst hcs
  cases negative with
  | false => exact hnumber
  | true =>
    have hbegin : Scanner.begin? '-' = some ([], .sign ['-']) := rfl
    have hstop : ∀ c ∈ cs.head?, Scanner.continue? (.sign ['-']) c = none := by
      intro c hc
      have hdigit := hfirst c hc
      refine if_neg fun hsign => ?_
      simp only [Bool.or_eq_true, beq_iff_eq] at hsign
      rcases hsign with rfl | rfl <;> cases hdigit
    show lexemes? .between ('-' :: cs) = some ([.sign "-"] ++ [.number d.value])
    rw [lexemes?_of_begin hbegin, lexemes?_of_ended (s := .sign ['-']) rfl hstop, hnumber]
    rfl

end Texts

/-! ### Lists -/

/-- Texts with commas between them are read as their lexemes with commas between them. -/
theorem readsAs_joined {separator : String} (hcomma : Leads separator.toList [.sign ","])
    (hopens : opens separator.toList = true) {parts : List (List Piece)} {read : List (List Lexeme)}
    (h : List.Forall₂ (fun pieces ts => ReadsAs (pieces.flatMap Piece.render) ts) parts read) :
    ReadsAs ((joined separator parts).flatMap Piece.render)
      (List.intercalate [.sign ","] read) := by
  induction h with
  | nil => rfl
  | @cons part ts parts read hpart hrest ih =>
    cases hrest with
    | nil =>
      rw [joined, List.intercalate_singleton, List.intercalate_singleton]
      exact hpart
    | @cons next us parts read hnext hrest =>
      rw [joined_cons_cons, List.flatMap_append, List.flatMap_cons, Piece.render]
      have hall := hpart.append (hcomma.readsApart hopens ih)
      simpa [List.intercalate] using hall

end RecordStore.Sql
