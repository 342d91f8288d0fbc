import RecordStore.Proofs.Digits
import RecordStore.Sql.Statement

/-!
# Names, places and numbers in a text

What a statement is about stands in its text as names between double quotes, as places of parameters
behind a dollar sign, and as numbers. All of this can be read back from the text, whatever
characters there are in a name: a reader goes over the text once and need not know anything of the
rest of it, which is fixed.

* **`items`** — the names, places and numbers of a text, read character by character.
* **`Framed`** — pieces of which each that stands for something has fixed text in front of it.
* **`items_render`** — from the text of framed pieces is read what the pieces stand for.
-/

namespace RecordStore.Sql

/-! ## Reading a text -/

/-- What may be read from a text. -/
inductive Item where
  | name (s : String)
  | place (n : Nat)
  | number (n : Nat)
deriving DecidableEq

/-- Where the reader of a text is; what it has read of a name or of a number stands last first. -/
inductive Reader where
  | between
  | name (read : List Char)
  /-- after a quote in a name, which ends the name unless it is written twice -/
  | quoted (read : List Char)
  /-- in the digits of a number, and what the number stands for -/
  | digits (item : Nat → Item) (read : List Char)

namespace Reader

/-- Where the reader is after one more character that belongs to what it reads. -/
def continue? : Reader → Char → Option Reader
  | .between, _ => none
  | .name read, c => some (if c = '"' then .quoted read else .name (c :: read))
  | .quoted read, c => if c = '"' then some (.name ('"' :: read)) else none
  | .digits item read, c => if Text.isDigit c then some (.digits item (c :: read)) else none

/-- What ends here. -/
def ended : Reader → List Item
  | .between => []
  | .name _ => []
  | .quoted read => [.name (String.ofList read.reverse)]
  | .digits item read => ((Text.natural? read.reverse).map item).toList

/-- What begins with a character. -/
def begun (c : Char) : Reader :=
  if c = '"' then .name []
  else if c = '$' then .digits .place []
  else if Text.isDigit c then .digits .number [c]
  else .between

end Reader

/-- The names, places and numbers of a text, read on from a state. -/
def items (state : Reader) : List Char → List Item
  | [] => state.ended
  | c :: rest =>
    match state.continue? c with
    | some next => items next rest
    | none => state.ended ++ items (.begun c) rest

/-- A character with which nothing begins that is read. -/
def isPlain (c : Char) : Bool := c != '"' && c != '$' && !Text.isDigit c

/-- What comes next is plain, if anything does. -/
def PlainAhead (rest : List Char) : Prop := ∀ c ∈ rest.head?, isPlain c = true

section Reading

variable {rest : List Char}

theorem isPlain_iff {c : Char} : isPlain c = true ↔ c ≠ '"' ∧ c ≠ '$' ∧ Text.isDigit c = false := by
  simp [isPlain, and_assoc]

/-- What ends here comes before what is read of the rest. -/
theorem items_of_ended {state : Reader} (h : ∀ c ∈ rest.head?, state.continue? c = none) :
    items state rest = state.ended ++ items .between rest := by
  cases rest with
  | nil => rw [items, items, Reader.ended, List.append_nil]
  | cons c rest =>
    have hbetween : Reader.continue? .between c = none := rfl
    rw [items, items, h c rfl, hbetween]
    rfl

/-- Nothing is read from fixed text. -/
theorem items_plain_append {cs : List Char} (hcs : ∀ c ∈ cs, isPlain c = true) :
    items .between (cs ++ rest) = items .between rest := by
  induction cs with
  | nil => rfl
  | cons c cs ih =>
    obtain ⟨hquote, hdollar, hdigit⟩ := isPlain_iff.1 (hcs c List.mem_cons_self)
    have hbegun : Reader.begun c = .between := by
      rw [Reader.begun, if_neg hquote, if_neg hdollar, hdigit]
      rfl
    have hbetween : Reader.continue? .between c = none := rfl
    rw [List.cons_append, items, hbetween, hbegun]
    exact ih fun d hd => hcs d (List.mem_cons_of_mem c hd)

/-- A name is read up to the quote that is not written twice. -/
theorem items_name_append {read cs : List Char} :
    items (.name read) (doubled '"' cs ++ rest) = items (.name (cs.reverse ++ read)) rest := by
  induction cs generalizing read with
  | nil => rfl
  | cons c cs ih =>
    rw [doubled]
    split
    · rename_i hquote
      subst hquote
      simp [items, Reader.continue?, ih]
    · rename_i hplain
      simp [items, Reader.continue?, hplain, ih]

theorem items_name (s : String) (hrest : PlainAhead rest) :
    items .between (enclosed '"' s ++ rest) = .name s :: items .between rest := by
  have hended : (Reader.quoted s.toList.reverse).ended = [.name s] := by
    rw [Reader.ended, List.reverse_reverse, String.ofList_toList]
  have hnext : ∀ c ∈ rest.head?, (Reader.quoted s.toList.reverse).continue? c = none := by
    intro c hc
    rw [Reader.continue?, if_neg (isPlain_iff.1 (hrest c hc)).1]
  have hbegun : items .between ('"' :: (doubled '"' s.toList ++ ('"' :: rest)))
      = items (.name []) (doubled '"' s.toList ++ ('"' :: rest)) := rfl
  rw [enclosed, List.cons_append, List.append_assoc, List.singleton_append, hbegun,
    items_name_append, List.append_nil, items, Reader.continue?, if_pos rfl]
  dsimp only
  rw [items_of_ended hnext, hended]
  rfl

/-- A number is read up to its last digit. -/
theorem items_digits {item : Nat → Item} {read ds : List Char}
    (hds : ∀ c ∈ ds, Text.isDigit c = true) (hrest : PlainAhead rest) :
    items (.digits item read) (ds ++ rest)
      = ((Text.natural? (read.reverse ++ ds)).map item).toList ++ items .between rest := by
  induction ds generalizing read with
  | nil =>
    have hnext : ∀ c ∈ rest.head?, (Reader.digits item read).continue? c = none := by
      intro c hc
      rw [Reader.continue?, (isPlain_iff.1 (hrest c hc)).2.2]
      rfl
    rw [List.nil_append, items_of_ended hnext, Reader.ended, List.append_nil]
  | cons d ds ih =>
    rw [List.cons_append, items, Reader.continue?, if_pos (hds d List.mem_cons_self)]
    dsimp only
    rw [ih fun c hc => hds c (List.mem_cons_of_mem d hc), List.reverse_cons, List.append_assoc,
      List.singleton_append]

theorem items_place (n : Nat) (hrest : PlainAhead rest) :
    items .between ('$' :: Nat.toDigits 10 n ++ rest) = .place n :: items .between rest := by
  have hbegun : items .between ('$' :: (Nat.toDigits 10 n ++ rest))
      = items (.digits .place []) (Nat.toDigits 10 n ++ rest) := rfl
  rw [List.cons_append, hbegun, items_digits (fun c hc => Text.isDigit_of_mem_digitsOf hc) hrest,
    List.reverse_nil, List.nil_append, Text.natural?_digitsOf]
  rfl

/-- A number is read as one item, as long as what follows it is not read on as a part of it. -/
theorem items_number (n : Nat) (hrest : PlainAhead rest) :
    items .between (Nat.toDigits 10 n ++ rest) = .number n :: items .between rest := by
  have hdigits : ∀ c ∈ Nat.toDigits 10 n, Text.isDigit c = true :=
    fun c hc => Text.isDigit_of_mem_digitsOf hc
  have hnumber := Text.natural?_digitsOf n
  -- the first digit begins the number
  cases hds : Nat.toDigits 10 n with
  | nil =>
    rw [hds] at hnumber
    cases hnumber
  | cons d ds =>
    rw [hds] at hdigits hnumber
    have hd := hdigits d List.mem_cons_self
    have hbegun : Reader.begun d = .digits .number [d] := by
      rw [Reader.begun, if_neg (by rintro rfl; cases hd),
        if_neg (by rintro rfl; cases hd), if_pos hd]
    have hbetween : Reader.continue? .between d = none := rfl
    rw [List.cons_append, items, hbetween, hbegun]
    dsimp only
    rw [items_digits (fun c hc => hdigits c (List.mem_cons_of_mem d hc)) hrest,
      List.reverse_singleton,
      List.singleton_append, hnumber]
    rfl

end Reading

/-! ## Pieces with fixed text between them -/

/-- What is to be read from the text of a piece. -/
def Piece.item? : Piece → Option Item
  | .word _ => none
  | .name s => some (.name s)
  | .literal _ => none
  | .number text => (Text.natural? text.toList).map .number
  | .placeholder n => some (.place n)

/-- The pieces that stand for something. -/
inductive Piece.Stands : Piece → Prop where
  | name (s : String) : Stands (.name s)
  | placeholder (n : Nat) : Stands (.placeholder n)
  | number (n : Nat) : Stands (.number (toString n))

/-- Fixed text from which nothing is read, and which keeps apart what stands around it. -/
structure Separates (w : String) : Prop where
  plain : ∀ c ∈ w.toList, isPlain c = true
  nonempty : w ≠ ""

instance (w : String) : Decidable (Separates w) :=
  decidable_of_iff (w.toList.all isPlain = true ∧ w ≠ "") <| by
    rw [List.all_eq_true]
    exact ⟨fun h => ⟨h.1, h.2⟩, fun h => ⟨h.plain, h.nonempty⟩⟩

/-- Pieces of which each that stands for something has fixed text in front of it. -/
inductive Framed : List Piece → Prop where
  | nil : Framed []
  | word {w : String} {rest : List Piece} (hw : Separates w) (h : Framed rest) :
      Framed (.word w :: rest)
  | piece {w : String} {p : Piece} {rest : List Piece}
      (hw : Separates w) (hp : p.Stands) (h : Framed rest) :
      Framed (.word w :: p :: rest)

theorem toList_toString (n : Nat) : (toString n).toList = Nat.toDigits 10 n := by
  show (Nat.repr n).toList = _
  rw [Nat.repr, String.toList_ofList]

theorem Piece.item?_number (n : Nat) : (Piece.number (toString n)).item? = some (.number n) := by
  rw [item?, toList_toString, Text.natural?_digitsOf]
  rfl

theorem items_piece {p : Piece} (hp : p.Stands) {rest : List Char} (hrest : PlainAhead rest) :
    items .between (p.render ++ rest) = p.item?.toList ++ items .between rest := by
  cases hp with
  | name s => exact items_name s hrest
  | placeholder n => exact items_place n hrest
  | number n =>
    rw [Piece.item?_number, Piece.render, toList_toString, items_number n hrest]
    rfl

namespace Framed

variable {pieces more : List Piece} {w : String}

theorem append (h : Framed pieces) (hmore : Framed more) : Framed (pieces ++ more) := by
  induction h with
  | nil => exact hmore
  | word hw _ ih => exact .word hw ih
  | piece hw hp _ ih => exact .piece hw hp ih

/-- Framed pieces begin with fixed text. -/
theorem plainAhead (h : Framed pieces) : PlainAhead (pieces.flatMap Piece.render) := by
  have hword {w : String} (hw : Separates w) (rest : List Char) :
    PlainAhead (w.toList ++ rest) := by
    obtain ⟨c, cs, hcs⟩ := List.exists_cons_of_ne_nil (mt String.toList_eq_nil_iff.1 hw.nonempty)
    intro d hd
    rw [hcs] at hd
    obtain rfl : c = d := Option.some.inj hd
    exact hw.plain c (hcs ▸ List.mem_cons_self)
  cases h with
  | nil => exact nofun
  | word hw _ => exact hword hw _
  | piece hw _ _ => exact hword hw _

end Framed

/-- **What is read from the text of framed pieces is what the pieces stand for.** -/
theorem items_render {pieces : List Piece} (h : Framed pieces) :
    items .between (render pieces).toList = pieces.filterMap Piece.item? := by
  rw [render, String.toList_ofList]
  induction h with
  | nil => rfl
  | word hw _ ih =>
    rw [List.flatMap_cons, Piece.render, items_plain_append hw.plain, ih]
    rfl
  | @piece w p rest hw hp hrest ih =>
    rw [List.flatMap_cons, List.flatMap_cons, Piece.render, items_plain_append hw.plain,
      items_piece hp hrest.plainAhead, ih, List.filterMap_cons, List.filterMap_cons]
    cases hitem : p.item? <;> rfl

/-! ## Parts of a statement -/

/-- Pieces that are framed as soon as there is fixed text in front of them. -/
def Follows (pieces : List Piece) : Prop := ∀ w, Separates w → Framed (.word w :: pieces)

section Parts

variable {p : Piece} {pieces more : List Piece}

theorem Framed.follows (h : Framed pieces) : Follows pieces := fun _ hw => .word hw h

theorem follows_cons (hp : p.Stands) (h : Framed pieces) : Follows (p :: pieces) :=
  fun _ hw => .piece hw hp h

theorem Follows.append (h : Follows pieces) (hmore : Framed more) : Follows (pieces ++ more) :=
  fun w hw => (h w hw).append hmore

theorem joined_cons_cons (separator : String) (part next : List Piece) (rest : List (List Piece)) :
    joined separator (part :: next :: rest)
      = part ++ .word separator :: joined separator (next :: rest) := by
  simp [joined, List.intercalate]

theorem follows_joined {separator : String} (hseparator : Separates separator)
    {parts : List (List Piece)} (h : ∀ part ∈ parts, Follows part) :
    Follows (joined separator parts) := by
  induction parts with
  | nil => exact Framed.nil.follows
  | cons part rest ih =>
    obtain ⟨hpart, hrest⟩ := List.forall_mem_cons.1 h
    cases rest with
    | nil =>
      rw [joined, List.intercalate_singleton]
      exact hpart
    | cons next rest =>
      rw [joined_cons_cons]
      exact hpart.append (ih hrest _ hseparator)

/-- From joined parts is read what is read from each. -/
theorem items_joined (separator : String) (parts : List (List Piece)) :
    (joined separator parts).filterMap Piece.item?
      = parts.flatMap (List.filterMap Piece.item?) := by
  induction parts with
  | nil => rfl
  | cons part rest ih =>
    cases rest with
    | nil => rw [joined, List.intercalate_singleton, List.flatMap_singleton]
    | cons next rest =>
      rw [joined_cons_cons, List.filterMap_append, List.filterMap_cons, ih, List.flatMap_cons]
      rfl

/-- Fixed text joins what follows it to framed pieces. -/
theorem Framed.joins {w : String} (h : Framed pieces) (hw : Separates w) (hmore : Follows more) :
    Framed (pieces ++ [.word w] ++ more) := by
  rw [List.append_assoc]
  exact h.append (hmore w hw)

theorem follows_qualified (schema table : String) : Follows (qualified schema table) :=
  follows_cons (.name _) (.piece (by decide) (.name _) .nil)

theorem items_word (w : String) : [Piece.word w].filterMap Piece.item? = [] := rfl

theorem items_qualified (schema table : String) :
    (qualified schema table).filterMap Piece.item? = [.name schema, .name table] := rfl

/-- Names, each alone in a part of a list. -/
theorem follows_names {α : Type} (name : α → String) (xs : List α) :
    Follows (joined ", " (xs.map fun x => [.name (name x)])) := by
  refine follows_joined (by decide) fun part hpart => ?_
  obtain ⟨x, -, rfl⟩ := List.mem_map.1 hpart
  exact follows_cons (.name _) .nil

theorem items_names {α : Type} (name : α → String) (xs : List α) :
    (joined ", " (xs.map fun x => [.name (name x)])).filterMap Piece.item? = xs.map fun x =>
      .name (name x) := by
  rw [items_joined, List.flatMap_map]
  exact List.map_eq_flatMap.symm

/-- The order, the limit and the offset of a plan. -/
theorem framed_orderClause (keys : List SortKey) : Framed (orderClause keys) := by
  unfold orderClause
  split
  · exact .nil
  · refine follows_joined (by decide) (fun part hpart => ?_) _ (by decide)
    obtain ⟨key, -, rfl⟩ := List.mem_map.1 hpart
    refine follows_cons (.name _) (.word ?_ .nil)
    cases key.direction <;> decide

theorem items_orderClause (keys : List SortKey) :
    (orderClause keys).filterMap Piece.item? = keys.map fun key => .name key.column := by
  cases keys with
  | nil => rfl
  | cons key rest =>
    show (joined ", " _).filterMap Piece.item? = _
    rw [items_joined, List.flatMap_map]
    exact List.map_eq_flatMap.symm

theorem framed_limitClause (limit : Option Nat) : Framed (limitClause limit) := by
  cases limit with
  | none => exact .nil
  | some n => exact .piece (by decide) (.number n) .nil

theorem items_limitClause (limit : Option Nat) :
    (limitClause limit).filterMap Piece.item? = limit.toList.map .number := by
  cases limit with
  | none => rfl
  | some n => exact congrArg (fun item? => item?.toList) (Piece.item?_number n)

theorem framed_offsetClause (offset : Nat) : Framed (offsetClause offset) := by
  unfold offsetClause
  split
  · exact .nil
  · exact .piece (by decide) (.number offset) .nil

theorem items_offsetClause (offset : Nat) :
    (offsetClause offset).filterMap Piece.item? = if offset = 0 then [] else [.number offset] := by
  unfold offsetClause
  split
  · rfl
  · rw [List.filterMap_cons, List.filterMap_cons, Piece.item?_number]
    rfl

/-- What an upsert does with the columns that it overwrites. -/
theorem framed_conflictClause (assigned : List String) : Framed (conflictClause assigned) := by
  unfold conflictClause
  split
  · exact .word (by decide) .nil
  · refine follows_joined (by decide) (fun part hpart => ?_) _ (by decide)
    obtain ⟨name, -, rfl⟩ := List.mem_map.1 hpart
    exact follows_cons (.name _) (.piece (by decide) (.name _) .nil)

theorem items_conflictClause (assigned : List String) :
    (conflictClause assigned).filterMap Piece.item?
    = assigned.flatMap fun name => [.name name, .name name] := by
  cases assigned with
  | nil => rfl
  | cons name rest =>
    show (joined ", " _).filterMap Piece.item? = _
    rw [items_joined, List.flatMap_map]
    rfl

namespace Condition

mutual

/-- The text of a condition is framed where fixed text stands in front of it. -/
theorem follows_pieces : ∀ c : Condition, Follows c.pieces
  | .always => Framed.follows (.word (by decide) .nil)
  | .never => Framed.follows (.word (by decide) .nil)
  | .isNull _ => follows_cons (.name _) (.word (by decide) .nil)
  | .isNotNull _ => follows_cons (.name _) (.word (by decide) .nil)
  | .isAny _ _ =>
    follows_cons (.name _) (.piece (by decide) (.placeholder _) (.word (by decide) .nil))
  | .compare _ comparator _ => by
    refine follows_cons (.name _)
      (.word (by decide) (.word ?_ (.piece (by decide) (.placeholder _) .nil)))
    cases comparator <;> decide
  | .and parts => (framed_conjunction parts).follows

theorem framed_conjunction : ∀ cs : List Condition, Framed (conjunction cs)
  | [] => .nil
  | [c] => ((follows_pieces c).append (.word (by decide) .nil)) _ (by decide)
  | c :: d :: cs =>
    ((follows_pieces c).append (.word (by decide) (framed_conjunction (d :: cs)))) _ (by decide)

end

end Condition

end Parts

end RecordStore.Sql
