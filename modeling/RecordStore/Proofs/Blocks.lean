import Mathlib.Data.List.Infix
import RecordStore.Proofs.Constraints
import RecordStore.Proofs.StatementText

/-!
# Blocks between dollar signs

A foreign key is added by a block of statements, and the block stands in the text between two pairs
of dollar signs. To the database everything between the first two dollar signs in a row and the next
two is the block, and nothing in it is read before its end is found. So the double quotes of a name
do not keep the dollar signs in it from ending the block. Names of tables and columns have none,
since they are identifiers; but the name of the database schema comes from the settings, is not
checked, and stands in the block twice.

Inside a block that ends where it should, what stands between double quotes is what the quotes were
put around. As an identifier the database takes it if it has a character and none of code zero, and
keeps the beginning of one that is too long.

* **`Sql.blockBody?`**, **`Sql.blockNames?`** — the block of a statement and the names in it, as the
  database reads them.
* **`Sql.Framed.hasDollars_iff`** — in a text, two dollar signs in a row stand in names only.
* **`Catalog.foreign_key_blocks`** — when the block of a foreign key ends where it should, and when
  its names are read as they are meant.
-/

namespace RecordStore

open Compile

/-! ## Two dollar signs in a row -/

namespace Sql

/-- Whether there are two dollar signs in a row. -/
def HasDollars (cs : List Char) : Prop := ['$', '$'] <:+: cs

instance (cs : List Char) : Decidable (HasDollars cs) := List.decidableInfix ..

variable {c : Char} {cs rest : List Char}

theorem hasDollars_cons :
    HasDollars (c :: rest) ↔ (c = '$' ∧ rest.head? = some '$') ∨ HasDollars rest := by
  rw [HasDollars, List.infix_cons_iff]
  refine or_congr ?_ .rfl
  cases rest <;> simp [eq_comm]

theorem not_hasDollars_nil : ¬ HasDollars [] := by decide

theorem hasDollars_cons_of_ne (hc : c ≠ '$') : HasDollars (c :: rest) ↔ HasDollars rest := by
  rw [hasDollars_cons, or_iff_right fun h => hc h.1]

theorem hasDollars_append_of_forall_ne (hcs : ∀ c ∈ cs, c ≠ '$') :
    HasDollars (cs ++ rest) ↔ HasDollars rest := by
  induction cs with
  | nil => rfl
  | cons c cs ih =>
    rw [List.forall_mem_cons] at hcs
    rw [List.cons_append, hasDollars_cons_of_ne hcs.1, ih hcs.2]

theorem not_hasDollars_of_forall_ne (hcs : ∀ c ∈ cs, c ≠ '$') : ¬ HasDollars cs := by
  have h : HasDollars (cs ++ []) ↔ HasDollars [] := hasDollars_append_of_forall_ne hcs
  rw [List.append_nil] at h
  exact fun hcs => not_hasDollars_nil (h.1 hcs)

/-- No two dollar signs in a row are put together over another character. -/
theorem hasDollars_append_cons (hc : c ≠ '$') :
    HasDollars (cs ++ c :: rest) ↔ HasDollars cs ∨ HasDollars rest := by
  induction cs with
  | nil => rw [List.nil_append, hasDollars_cons_of_ne hc, or_iff_right not_hasDollars_nil]
  | cons d cs ih =>
    have hhead : (cs ++ c :: rest).head? = some '$' ↔ cs.head? = some '$' := by
      cases cs <;> simp [hc]
    rw [List.cons_append, hasDollars_cons, hasDollars_cons, ih, hhead, or_assoc]

theorem head?_doubled (quote : Char) (cs : List Char) : (doubled quote cs).head? = cs.head? := by
  cases cs with
  | nil => rfl
  | cons c rest =>
    rw [doubled]
    split
    · rename_i hquote
      rw [hquote]
      rfl
    · rfl

/-- Quotes that are written twice put no dollar signs together. -/
theorem hasDollars_doubled : HasDollars (doubled '"' cs) ↔ HasDollars cs := by
  induction cs with
  | nil => rfl
  | cons c rest ih =>
    rw [doubled]
    split
    · rename_i hquote
      subst hquote
      rw [hasDollars_cons_of_ne (by decide), hasDollars_cons_of_ne (by decide),
        hasDollars_cons_of_ne (by decide), ih]
    · rw [hasDollars_cons, hasDollars_cons, ih, head?_doubled]

theorem hasDollars_enclosed (s : String) :
    HasDollars (enclosed '"' s ++ rest) ↔ HasDollars s.toList ∨ HasDollars rest := by
  rw [enclosed, List.cons_append, List.append_assoc, hasDollars_cons_of_ne (by decide),
    List.singleton_append,
    hasDollars_append_cons (by decide), hasDollars_doubled]

/-- In framed pieces two dollar signs in a row stand in names only. -/
theorem Framed.hasDollars_iff {pieces : List Piece} (h : Framed pieces) :
    HasDollars (pieces.flatMap Piece.render)
      ↔ ∃ s, Piece.name s ∈ pieces ∧ HasDollars s.toList := by
  have hword {w : String} (hw : Separates w) : ∀ c ∈ w.toList, c ≠ '$' := fun c hc =>
    (isPlain_iff.1 (hw.plain c hc)).2.1
  have hdigits (n : Nat) : ∀ c ∈ Nat.toDigits 10 n, c ≠ '$' := by
    rintro c hc rfl
    cases Text.isDigit_of_mem_digitsOf hc
  induction h with
  | nil => simp [not_hasDollars_nil]
  | word hw _ ih =>
    rw [List.flatMap_cons, Piece.render, hasDollars_append_of_forall_ne (hword hw)]
    simp [ih]
  | @piece w p rest hw hp _ ih =>
    rw [List.flatMap_cons, List.flatMap_cons, Piece.render,
      hasDollars_append_of_forall_ne (hword hw)]
    cases hp with
    | name s =>
      rw [Piece.render, hasDollars_enclosed]
      simp [ih]
    | placeholder n =>
      -- behind the sign stands the first digit of the place
      have hnext : (Nat.toDigits 10 n ++ rest.flatMap Piece.render).head? ≠ some '$' := by
        intro hnext
        obtain ⟨d, ds, hds⟩ := List.exists_cons_of_ne_nil (Nat.toDigits_ne_nil (n := n) (b := 10))
        rw [hds, List.cons_append, List.head?_cons, Option.some.injEq] at hnext
        exact hdigits n d (hds ▸ List.mem_cons_self) hnext
      rw [Piece.render, List.cons_append, hasDollars_cons, or_iff_right fun h => hnext h.2,
        hasDollars_append_of_forall_ne (hdigits n)]
      simp [ih]
    | number n =>
      rw [Piece.render, toList_toString, hasDollars_append_of_forall_ne (hdigits n)]
      simp [ih]

/-! ## Blocks -/

/-- What stands before the first two dollar signs in a row, and what stands behind them. -/
def cutAtDollars : List Char → Option (List Char × List Char)
  | [] => none
  | c :: rest =>
    if c = '$' ∧ rest.head? = some '$' then some ([], rest.tail)
    else (cutAtDollars rest).map fun (before, after) => (c :: before, after)

/-- The block of a statement that is nothing but one: it stands between the first two dollar signs
in a row and the next ones, and nothing follows these. -/
def blockBody? (text : List Char) : Option (List Char) := do
  let (before, rest) ← cutAtDollars text
  let (body, after) ← cutAtDollars rest
  if before = "DO ".toList ∧ after = [] then some body else none

theorem cutAtDollars_append (h : ¬ HasDollars (cs ++ ['$'])) (rest : List Char) :
    cutAtDollars (cs ++ '$' :: '$' :: rest) = some (cs, rest) := by
  induction cs with
  | nil => rfl
  | cons c cs ih =>
    rw [List.cons_append, hasDollars_cons, not_or] at h
    have hhead : (cs ++ '$' :: '$' :: rest).head? = (cs ++ ['$']).head? := by cases cs <;> rfl
    rw [List.cons_append, cutAtDollars, hhead, if_neg h.1, ih h.2]
    rfl

/-- A text with two dollar signs in a row is cut at the first of them, whatever follows it. -/
theorem exists_cutAtDollars (h : HasDollars cs) (more : List Char) :
    ∃ before after, cutAtDollars (cs ++ more) = some (before, after ++ more) := by
  induction cs with
  | nil => exact absurd h not_hasDollars_nil
  | cons c rest ih =>
    rw [List.cons_append, cutAtDollars]
    by_cases hhere : c = '$' ∧ rest.head? = some '$'
    · cases rest with
      | nil => cases hhere.2
      | cons d rest => exact ⟨[], rest, if_pos hhere⟩
    · have hrest := (hasDollars_cons.1 h).resolve_left hhere
      obtain ⟨before, after, hcut⟩ := ih hrest
      have hhead : (rest ++ more).head? = rest.head? := by
        cases rest with
        | nil => exact absurd hrest not_hasDollars_nil
        | cons d rest => rfl
      exact ⟨c :: before, after, by rw [hhead, if_neg hhere, hcut]; rfl⟩

/-- A block ends where it should if there are no two dollar signs in a row in it, and else too
early. -/
theorem blockBody?_block {body : List Char} (hend : HasDollars (body ++ ['$']) ↔ HasDollars body) :
    blockBody? ("DO $$".toList ++ (body ++ ['$', '$'])) = if HasDollars body
      then none else some body := by
  have hopen : cutAtDollars ("DO $$".toList ++ (body ++ ['$', '$']))
    = some ("DO ".toList, body ++ ['$', '$']) := by
    have hnone : ¬ HasDollars ("DO ".toList ++ ['$']) := by decide
    exact cutAtDollars_append hnone _
  rw [blockBody?, hopen, Option.bind_eq_bind, Option.bind_some]
  by_cases hdollars : HasDollars body
  · obtain ⟨before, after, hcut⟩ := exists_cutAtDollars hdollars ['$', '$']
    simp [hcut, hdollars]
  · have hclose : cutAtDollars (body ++ ['$', '$']) = some (body, []) :=
      cutAtDollars_append (fun h => hdollars (hend.1 h)) []
    simp [hclose, hdollars]

/-! ## Names between quotes -/

/-- What can stand between double quotes and be read back. -/
structure IsQuotable (s : String) : Prop where
  nonempty : s ≠ ""
  no_zero : '\x00' ∉ s.toList
  short : s.utf8ByteSize ≤ Text.maxIdentifierBytes

instance (s : String) : Decidable (IsQuotable s) :=
  decidable_of_iff (s ≠ "" ∧ '\x00' ∉ s.toList ∧ s.utf8ByteSize ≤ Text.maxIdentifierBytes)
    ⟨fun h => ⟨h.1, h.2.1, h.2.2⟩, fun h => ⟨h.nonempty, h.no_zero, h.short⟩⟩

/-- The identifier that a text between double quotes is to the database, which keeps the beginning
of a long one. -/
def delimited? (s : String) : Option String :=
  if s = "" ∨ '\x00' ∈ s.toList then none else some (Text.keptName s)

/-- The identifiers of a block, unless one is none. -/
def blockNames? (text : List Char) : Option (List String) := do
  let body ← blockBody? text
  (items .between body).mapM fun
    | .name s => delimited? s
    | _ => none

/-- A text is cut to a room exactly if it has not enough bytes for it already. -/
theorem fitting_eq_self_iff {room : Nat} :
    Text.fitting room cs = cs ↔ (String.ofList cs).utf8ByteSize ≤ room := by
  induction cs generalizing room with
  | nil => simp [Text.fitting]
  | cons c rest ih =>
    rw [Text.fitting, String.ofList_cons, String.utf8ByteSize_append, String.utf8ByteSize_singleton]
    split
    · rename_i hfits
      rw [List.cons.injEq, and_iff_right rfl, ih]
      omega
    · rename_i hlong
      exact iff_of_false (List.cons_ne_nil c rest).symm (by omega)

/-- A name is not cut if there is room for it. -/
theorem keptName_eq_self_iff {s : String} :
    Text.keptName s = s ↔ s.utf8ByteSize ≤ Text.maxIdentifierBytes := by
  rw [Text.keptName, ← String.toList_inj, String.toList_ofList, fitting_eq_self_iff,
    String.ofList_toList]

/-- A name that stands between double quotes is read back as it is exactly if a database can have
it. -/
theorem delimited?_eq_some_iff {s : String} : delimited? s = some s ↔ IsQuotable s := by
  unfold delimited?
  split
  · rename_i hnone
    refine iff_of_false nofun fun h => ?_
    exact hnone.elim h.nonempty h.no_zero
  · rename_i hsome
    rw [not_or] at hsome
    rw [Option.some.injEq, keptName_eq_self_iff]
    exact ⟨fun h => ⟨hsome.1, hsome.2, h⟩, IsQuotable.short⟩

theorem mapM_delimited?_eq_some_iff {names : List String} :
    (names.map Item.name).mapM (fun | .name s => delimited? s | _ => none) = some names
      ↔ ∀ s ∈ names, IsQuotable s := by
  induction names with
  | nil => simp
  | cons s rest ih =>
    rw [List.forall_mem_cons, ← ih, ← delimited?_eq_some_iff, List.map_cons, List.mapM_cons]
    simp [Option.bind_eq_some_iff]

/-- Some characters of identifiers can stand between quotes if there is room for them. -/
theorem isQuotable_iff_of_continues {s : String}
    (hs : ∀ c ∈ s.toList, Text.continuesIdentifier c = true) (hne : s ≠ "") :
    IsQuotable s ↔ s.utf8ByteSize ≤ Text.maxIdentifierBytes :=
  ⟨IsQuotable.short, fun hshort => ⟨hne, fun hzero => absurd (hs _ hzero) (by decide), hshort⟩⟩

theorem not_hasDollars_of_continues {s : String}
    (hs : ∀ c ∈ s.toList, Text.continuesIdentifier c = true) :
    ¬ HasDollars s.toList := by
  refine not_hasDollars_of_forall_ne fun c hc => ?_
  rintro rfl
  exact absurd (hs _ hc) (by decide)

theorem not_hasDollars_of_isIdentifier {s : String} (h : Text.isIdentifier s = true) :
    ¬ HasDollars s.toList :=
  not_hasDollars_of_continues (Text.continues_of_isIdentifier h)

theorem isQuotable_of_isIdentifier {s : String} (h : Text.isIdentifier s = true) :
    IsQuotable s := by
  obtain ⟨hshort, first, rest, hlist, -, -⟩ := Text.isIdentifier_iff.1 h
  refine (isQuotable_iff_of_continues (Text.continues_of_isIdentifier h) ?_).2 hshort
  rintro rfl
  cases hlist

/-! ## The block of a foreign key -/

/-- What stands in the block of a foreign key. -/
def foreignKeyBody (schema : String) (table : Table) (c : Column) (key : ForeignKey) : List Piece :=
  [.word " BEGIN\n  ALTER TABLE "] ++ qualified schema table.name
    ++ [.word " ADD CONSTRAINT ", .name (constraintName table c), .word " FOREIGN KEY (",
      .name c.name, .word ") REFERENCES "]
    ++ qualified schema key.table
    ++ [.word " (", .name key.column, .word ") ON DELETE ", .word (onDelete table.kind),
      .word ";\nEXCEPTION WHEN duplicate_object THEN NULL;\nEND "]

/-- The names that are meant in it. -/
def foreignKeyNames (schema : String) (table : Table) (c : Column) (key : ForeignKey) :
    List String :=
  [schema, table.name, constraintName table c, c.name, schema, key.table, key.column]

section ForeignKey

variable (schema : String) (table : Table) (c : Column) (key : ForeignKey)

theorem toList_foreignKey : (render (foreignKey schema table c key)).toList
    = "DO $$".toList ++ ((render (foreignKeyBody schema table c key)).toList ++ ['$', '$']) := by
  have hbegin : "DO $$ BEGIN\n  ALTER TABLE ".toList
    = "DO $$".toList ++ " BEGIN\n  ALTER TABLE ".toList := by decide
  have hend : ";\nEXCEPTION WHEN duplicate_object THEN NULL;\nEND $$".toList
      = ";\nEXCEPTION WHEN duplicate_object THEN NULL;\nEND ".toList ++ ['$', '$'] := by decide
  simp only [render, String.toList_ofList, foreignKey, foreignKeyBody, List.flatMap_append,
    List.flatMap_cons, List.flatMap_nil, Piece.render, hbegin, hend, List.append_assoc,
    List.append_nil]

theorem framed_foreignKeyBody : Framed (foreignKeyBody schema table c key) := by
  have hdelete : Separates (onDelete table.kind) := by cases table.kind <;> decide
  exact .piece (by decide) (.name _) (.piece (by decide) (.name _) (.piece (by decide) (.name _)
    (.piece (by decide) (.name _) (.piece (by decide) (.name _) (.piece (by decide) (.name _)
      (.piece (by decide) (.name _)
        (.word (by decide) (.word hdelete (.word (by decide) .nil)))))))))

/-- The names in the block are read as they are meant. -/
theorem items_foreignKeyBody : items .between (render (foreignKeyBody schema table c key)).toList
    = (foreignKeyNames schema table c key).map .name :=
  items_render (framed_foreignKeyBody schema table c key)

/-- The block ends in a blank, so the dollar signs behind it are the two that end it. -/
theorem hasDollars_foreignKeyBody_append :
    HasDollars ((render (foreignKeyBody schema table c key)).toList ++ ['$'])
    ↔ HasDollars (render (foreignKeyBody schema table c key)).toList := by
  obtain ⟨front, hfront⟩ :
    ∃ front, (render (foreignKeyBody schema table c key)).toList = front ++ [' '] := by
    have hlast : ";\nEXCEPTION WHEN duplicate_object THEN NULL;\nEND ".toList
        = ";\nEXCEPTION WHEN duplicate_object THEN NULL;\nEND".toList ++ [' '] := by decide
    have hpieces : foreignKeyBody schema table c key = (foreignKeyBody schema table c key).dropLast
        ++ [.word ";\nEXCEPTION WHEN duplicate_object THEN NULL;\nEND "] := rfl
    rw [render, String.toList_ofList, hpieces, List.flatMap_append, List.flatMap_singleton,
      Piece.render, hlast, ← List.append_assoc]
    exact ⟨_, rfl⟩
  rw [hfront, List.append_assoc, List.singleton_append, hasDollars_append_cons (by decide),
    hasDollars_append_cons (by decide)]
  exact or_congr_right (by decide)

theorem hasDollars_foreignKeyBody_iff :
    HasDollars (render (foreignKeyBody schema table c key)).toList
    ↔ ∃ s ∈ foreignKeyNames schema table c key, HasDollars s.toList := by
  rw [render, String.toList_ofList, (framed_foreignKeyBody schema table c key).hasDollars_iff]
  simp [foreignKeyBody, foreignKeyNames, qualified]

end ForeignKey

end Sql

/-! ## Compiled tables -/

namespace Compile.Assembly

variable {settings : Settings} {domain : Domain} {schema : Schema} {parts : List Part}
  {links : List BuiltLink}

/-- Beside the schema and the constraint all names of a foreign key are identifiers. -/
theorem foreignKey_identifiers (h : Assembly settings domain schema parts links) {t : Table}
    (ht : t ∈ schema.physical) {c : Column} (hc : c ∈ t.columns) {key : ForeignKey}
    (hkey : c.references = some key) :
    Text.isIdentifier t.name = true ∧ Text.isIdentifier c.name = true
      ∧ Text.isIdentifier key.table = true
      ∧ Text.isIdentifier key.column = true := by
  obtain ⟨-, htable, hcolumns⟩ := h.referring_names ht
  have hcolumn := hcolumns c (List.mem_filter.2 ⟨hc, by rw [hkey]; rfl⟩)
  obtain ⟨-, -, target, htarget, k, rfl, hk, -⟩ := h.references ht hc hkey
  obtain ⟨hname, hnames⟩ := h.base_identifiers htarget
  exact ⟨htable, hcolumn, hname, hnames _ (List.mem_map_of_mem (Table.mem_of_column? hk).1)⟩

/-- The same of the tables by which resources are read, which have the columns of the tables in the
store. -/
theorem identifiers_of_shown (h : Assembly settings domain schema parts links) {t : Table}
    (ht : t ∈ schema.physical ∨ t ∈ schema.resources) {c : Column} (hc : c ∈ t.columns)
    {key : ForeignKey} (hkey : c.references = some key) :
    Text.isIdentifier t.name = true ∧ Text.isIdentifier c.name = true
      ∧ Text.isIdentifier key.table = true
      ∧ Text.isIdentifier key.column = true := by
  rcases ht with ht | ht
  · exact h.foreignKey_identifiers ht hc hkey
  · obtain ⟨base, hbase, hshares⟩ : ∃ base ∈ schema.bases, t.SharesRows base := by
      rcases List.mem_append.1 ht with hbase | halias
      · exact ⟨t, hbase, .refl t⟩
      · exact h.aliases t halias
    rw [hshares.name]
    exact h.foreignKey_identifiers (Schema.mem_physical_of_base hbase) (hshares.columns ▸ hc) hkey

end Compile.Assembly

namespace Catalog

variable {settings : Settings} {domain : Domain} {catalog : Catalog}

open Sql

/-- **When the block of a foreign key ends where it should, and when its names are read as they are
meant.** Each statement that adds a foreign key of a table is one block exactly if there are no two
dollar signs in a row in the name of the database schema; otherwise the block ends inside of that
name. What then stands between double quotes in the block is the name of the schema, of the table,
of the constraint, of the column, of the schema again, and of the table and the column that are
referred to. The database takes these for just those identifiers if the name of the schema can stand
between quotes and the name of the constraint is not too long. -/
theorem foreign_key_blocks (hcompiles : Catalog.ofDomain settings domain = .ok catalog)
    (db : String) {t : Table} (ht : t ∈ catalog.schema.physical ∨ t ∈ catalog.schema.resources) :
    ∀ statement ∈ foreignKeys db t, ∃ c ∈ t.columns, ∃ key, c.references = some key
      ∧ statement = foreignKey db t c key
      ∧ blockBody? (render statement).toList
        = (if HasDollars db.toList then none else some (render (foreignKeyBody db t c key)).toList)
      ∧ items .between (render (foreignKeyBody db t c key)).toList
        = (foreignKeyNames db t c key).map .name
      ∧ (blockNames? (render statement).toList = some (foreignKeyNames db t c key)
        ↔ ¬ HasDollars db.toList ∧ IsQuotable db
          ∧ (constraintName t c).utf8ByteSize ≤ Text.maxIdentifierBytes) := by
  obtain ⟨schema, hschema, rfl⟩ := map_eq_ok_iff.1 hcompiles
  obtain ⟨parts, links, h⟩ := exists_assembly hschema
  intro statement hstatement
  obtain ⟨c, hc, hmap⟩ := List.mem_filterMap.1 hstatement
  obtain ⟨key, hkey, rfl⟩ := Option.map_eq_some_iff.1 hmap
  refine ⟨c, hc, key, hkey, rfl, ?_⟩
  obtain ⟨htable, hcolumn, hkeyTable, hkeyColumn⟩ := h.identifiers_of_shown ht hc hkey
  have hconstraint : ∀ x ∈ (constraintName t c).toList, Text.continuesIdentifier x = true := by
    simp only [constraintName, String.toList_append, List.forall_mem_append]
    exact ⟨⟨⟨Text.continues_of_isIdentifier htable, List.all_eq_true.1 rfl⟩,
      Text.continues_of_isIdentifier hcolumn⟩, List.all_eq_true.1 rfl⟩
  have hdollars : HasDollars (render (foreignKeyBody db t c key)).toList
    ↔ HasDollars db.toList := by
    rw [hasDollars_foreignKeyBody_iff]
    simp [foreignKeyNames, not_hasDollars_of_continues hconstraint,
      not_hasDollars_of_isIdentifier htable, not_hasDollars_of_isIdentifier hcolumn,
      not_hasDollars_of_isIdentifier hkeyTable, not_hasDollars_of_isIdentifier hkeyColumn]
  have hbody : blockBody? (render (foreignKey db t c key)).toList
      = if HasDollars db.toList
        then none else some (render (foreignKeyBody db t c key)).toList := by
    rw [toList_foreignKey, blockBody?_block (hasDollars_foreignKeyBody_append ..)]
    simp only [hdollars]
  have hitems := items_foreignKeyBody db t c key
  refine ⟨hbody, hitems, ?_⟩
  have hnonempty : constraintName t c ≠ "" := by
    simp [constraintName]
  rw [blockNames?, hbody]
  by_cases hdb : HasDollars db.toList
  · rw [if_pos hdb, Option.bind_eq_bind, Option.bind_none]
    exact iff_of_false (Option.some_ne_none _).symm fun h => h.1 hdb
  · rw [if_neg hdb, Option.bind_eq_bind, Option.bind_some, hitems, mapM_delimited?_eq_some_iff,
      ← isQuotable_iff_of_continues hconstraint hnonempty]
    simp [foreignKeyNames, hdb, isQuotable_of_isIdentifier htable,
      isQuotable_of_isIdentifier hcolumn, isQuotable_of_isIdentifier hkeyTable,
      isQuotable_of_isIdentifier hkeyColumn, and_comm]

/-- The blocks of the link table of crews and sailors end where they should, and the database reads
the names that are meant. -/
theorem blocks_of_crew_read : ∃ t ∈ (crewCatalog {}).schema.physical, t.name = "crew_sailor"
    ∧ (foreignKeys "public" t).length = 2
    ∧ ∀ statement ∈ foreignKeys "public" t, ∃ c ∈ t.columns, ∃ key, c.references = some key
      ∧ blockNames? (render statement).toList = some (foreignKeyNames "public" t c key) := by
  have hcompiles : Catalog.ofDomain {} crewDomain = .ok (crewCatalog {}) :=
    Catalog.ofDomain_compiled rfl
  have hlink : ∃ t ∈ (crewCatalog {}).schema.physical, t.name = "crew_sailor"
      ∧ (foreignKeys "public" t).length = 2
      ∧ ∀ c ∈ t.columns, (constraintName t c).utf8ByteSize ≤ Text.maxIdentifierBytes := by
    decide +kernel
  obtain ⟨t, ht, hname, hcount, hshort⟩ := hlink
  refine ⟨t, ht, hname, hcount, fun statement hstatement => ?_⟩
  obtain ⟨c, hc, key, hkey, -, -, -, hread⟩ :=
    foreign_key_blocks hcompiles "public" (.inl ht) statement hstatement
  exact ⟨c, hc, key, hkey, hread.2 ⟨by decide, by decide, hshort c hc⟩⟩

/-- The settings with a schema whose name has two dollar signs in a row. -/
def dollarSettings : Settings := { databaseSchema := "a$$b" }

/-- The blocks of the same table end behind the first character of the name of the schema, and are
none. -/
theorem blocks_end_in_schema_name :
    Catalog.ofDomain dollarSettings crewDomain = .ok (crewCatalog dollarSettings)
      ∧ ∃ t ∈ (crewCatalog dollarSettings).schema.physical, t.name = "crew_sailor"
        ∧ (foreignKeys dollarSettings.databaseSchema t).length = 2
        ∧ ∀ statement ∈ foreignKeys dollarSettings.databaseSchema t,
          blockBody? (render statement).toList = none
            ∧ ((cutAtDollars (render statement).toList).bind fun cut =>
              cutAtDollars cut.2).map Prod.fst
              = some " BEGIN\n  ALTER TABLE \"a".toList := by
  refine ⟨ofDomain_compiled rfl, ?_⟩
  -- a text need not be put together to be taken apart again
  simp only [render, String.toList_ofList]
  decide +kernel

end Catalog

end RecordStore
