import Mathlib.Algebra.Order.Ring.Abs
import Mathlib.Algebra.Order.Ring.Rat
import RecordStore.Proofs.Coherent
import RecordStore.Proofs.Lexemes
import RecordStore.Sql.Definition

/-!
# Tables as a database reads them

The statement that creates a table has no parameters: the name of the database schema, the names of
the table and of its columns, and the default values all stand in its text. The text is read as the
definition that is meant, whatever characters there are in a name or in a default. A default is read
as a constant, and the constant denotes the value that was declared: a text by its characters, a
whole number exactly, a double by a number that it is the nearest one to, and a document of a column
of JSON by its compact text. The compact text tells documents apart (`Value.text_injective`).

What a database makes of a name that it has read, empty or too long as it may be, is not a matter of
quoting.

* **`Sql.Lexeme.ofTable`** — the definition that is meant.
* **`Sql.Constant.Denotes`** — a constant stands for a value in a column of a type.
* **`Sql.readsAs_createTable`** — the text of a table is read as its definition.
* **`Sql.exists_denoted`** — a default that its column takes is read as a constant that denotes it.
* **`Sql.tables_read_as_declared`** — both, with what holds of texts between quotes.
-/

namespace RecordStore

open Sql

/-! ## Constants -/

/-- The double nearest to a number, if it does not overflow. -/
def Double.nearest? (q : ℚ) : Option Double := ofUnits (q < 0) (q.num.natAbs * unitsPerOne) q.den

namespace Sql

/-- A constant in a statement. -/
inductive Constant where
  | null
  | truth (b : Bool)
  | number (q : ℚ)
  | text (s : String)
  /-- a JSON document, by its text -/
  | json (text : String)
deriving DecidableEq

namespace Constant

/-- The constant that lexemes write. -/
def ofLexemes? : List Lexeme → Option Constant
  | [.word "NULL"] => some .null
  | [.word "TRUE"] => some (.truth true)
  | [.word "FALSE"] => some (.truth false)
  | [.number q] => some (.number q)
  | [.sign "-", .number q] => some (.number (-q))
  | [.text s] => some (.text s)
  | [.text s, .sign "::", .word "jsonb"] => some (.json s)
  | _ => none

/-- A constant stands for a value in a column of a type. A number in a column of doubles is rounded
to the nearest one, and there is no zero with a sign. -/
inductive Denotes : ColumnType → Constant → Value → Prop
  | null (type : ColumnType) : Denotes type .null .null
  | truth (b : Bool) : Denotes .boolean (.truth b) (.bool b)
  | int (n : Int) : Denotes .integer (.number n) (.int n)
  | whole (n : Int) : Denotes .float (.number n) (.int n)
  | float {q : ℚ} {x : Double} (h : Double.nearest? q = some x.withoutZeroSign) :
      Denotes .float (.number q) (.float x)
  | text (s : String) : Denotes .text (.text s) (.string s)
  | time (s : String) : Denotes .datetime (.text s) (.string s)
  | json {v : Value} (h : v ≠ .null) : Denotes .json (.json v.text) v

end Constant

/-! ## What a table is to be read as -/

namespace Lexeme

/-- The constant of a default value. -/
def ofDefault : ColumnType → Value → List Lexeme
  | _, .null => [.word "NULL"]
  | .json, v => [.text v.text, .sign "::", .word "jsonb"]
  | _, .bool b => [.word (if b then "TRUE" else "FALSE")]
  | _, .int n => signed (n < 0) n.natAbs
  | _, .float x => signed x.negative x.shortest.value
  | _, .string s => [.text s]
  | _, v => [.text v.text]

def ofType : ColumnType → List Lexeme
  | .text => [.word "TEXT"]
  | .boolean => [.word "BOOLEAN"]
  | .integer => [.word "BIGINT"]
  | .float => [.word "DOUBLE", .word "PRECISION"]
  | .datetime => [.word "TIMESTAMPTZ"]
  | .json => [.word "JSONB"]

def ofRules (c : Column) : List Lexeme :=
  if c.primaryKey then [.word "PRIMARY", .word "KEY"]
  else (if c.nullable then [] else [.word "NOT", .word "NULL"])
    ++ (if c.unique then [.word "UNIQUE"] else [])

/-- What a column does with a missing value. -/
def ofMissing (c : Column) : List Lexeme :=
  match c.default? with
  | some v => .word "DEFAULT" :: ofDefault c.type v
  | none => if c.defaultNow then [.word "DEFAULT", .word "NOW", .sign "(", .sign ")"] else []

def ofColumn (c : Column) : List Lexeme :=
  .name c.name :: ((if c.autoIncrement then [.word "BIGSERIAL"] else ofType c.type)
    ++ ofRules c ++ ofMissing c)

/-- Lists of lexemes with commas between them. -/
def commas (parts : List (List Lexeme)) : List Lexeme := List.intercalate [.sign ","] parts

def ofGroup (columns : List String) : List Lexeme :=
  [.word "UNIQUE", .sign "("] ++ commas (columns.map fun name => [.name name]) ++ [.sign ")"]

/-- The definition of a table in a database schema. -/
def ofTable (db : String) (t : Table) : List Lexeme :=
  [.word "CREATE", .word "TABLE", .word "IF", .word "NOT", .word "EXISTS", .name db,
    .sign ".", .name t.name]
    ++ [.sign "("] ++ commas (t.columns.map ofColumn ++ t.uniqueGroups.map ofGroup) ++ [.sign ")"]

end Lexeme

/-! ## Reading the text of a table -/

section Numbers

open Text

theorem readsAs_int (n : Int) :
    ReadsAs (Value.int n).text.toList (Lexeme.signed (n < 0) n.natAbs) := by
  have hdigits : ∀ c ∈ Nat.toDigits 10 n.natAbs, isDigit c = true :=
    fun _ hc => isDigit_of_mem_digitsOf hc
  have hread := Decimal.read_whole (Nat.toDigits 10 n.natAbs) [] hdigits nofun (by simp)
  rw [List.append_nil, Decimal.readExponent, Option.map_some] at hread
  have hvalue : (Decimal.ofDigits (Nat.toDigits 10 n.natAbs) [] 0).value = n.natAbs := by
    simp [Decimal.ofDigits, Decimal.value, digitsValue_digitsOf]
  have hsigned :=
    readsAs_signed (decide (n < 0)) hread (fun c hc => hdigits c (List.mem_of_mem_head? hc))
    fun c hc => isNumeral_of_isDigit (hdigits c hc)
  rw [hvalue] at hsigned
  rw [Value.text, String.toList_ofList, Value.render, ofInteger, digitsOf]
  simpa using hsigned

theorem readsAs_float (x : Double) :
    ReadsAs x.text.toList (Lexeme.signed x.negative x.shortest.value) := by
  obtain ⟨d, hread, hvalue⟩ := Decimal.read_magnitudeText x.shortest
  have hsigned := readsAs_signed x.negative hread
    (Double.isDigit_head_magnitudeText _) (Double.isNumeral_magnitudeText _)
  rw [hvalue] at hsigned
  rwa [Double.text, String.toList_ofList]

end Numbers

/-- The default of a column is read back as a constant of its type. -/
theorem readsAs_defaultLiteral (type : ColumnType) (v : Value) :
    ReadsAs ((defaultLiteral type v).flatMap Piece.render) (Lexeme.ofDefault type v) := by
  have hone (p : Piece) : [p].flatMap Piece.render = p.render := List.append_nil _
  fun_cases Lexeme.ofDefault type v
  next => exact (rfl : lexemes? .between _ = _)
  next hnull =>
    rw [defaultLiteral]
    · have hjsonb : lexemes? .between "::jsonb".toList = some [.sign "::", .word "jsonb"] := rfl
      have hnone : NoText "::jsonb".toList := by rw [NoText]; decide
      rw [List.flatMap_cons, hone]
      exact (lexemes?_text v.text hnone).trans (by rw [hjsonb, Option.map_some])
    · exact hnull
  next b hjson =>
    rw [defaultLiteral, hone]
    · cases b <;> exact (rfl : lexemes? .between _ = _)
    · exact hjson
  next n hjson =>
    rw [defaultLiteral, hone]
    · exact readsAs_int n
    · exact hjson
  next x hjson =>
    rw [defaultLiteral, hone]
    · exact readsAs_float x
    · exact hjson
  next s hjson =>
    rw [defaultLiteral, hone]
    · exact readsAs_text s
    · exact hjson
  next =>
    rw [defaultLiteral, hone]
    · exact readsAs_text v.text
    all_goals assumption

section Columns

variable (c : Column)

theorem readsApart_type :
    ReadsApart (" ".toList ++ (if c.autoIncrement then "BIGSERIAL" else c.type.sqlName).toList)
      (if c.autoIncrement then [.word "BIGSERIAL"] else Lexeme.ofType c.type) := by
  split
  · exact ⟨rfl, .inr rfl⟩
  · cases c.type <;> exact ⟨rfl, .inr rfl⟩

theorem readsApart_rules :
    ReadsApart ((columnRules c).flatMap Piece.render) (Lexeme.ofRules c) := by
  unfold columnRules Lexeme.ofRules
  split
  · exact ⟨rfl, .inr rfl⟩
  · rw [List.flatMap_append]
    refine ReadsApart.append ?_ ?_
    · split
      · exact .nil
      · exact ⟨rfl, .inr rfl⟩
    · split
      · exact ⟨rfl, .inr rfl⟩
      · exact .nil

theorem readsApart_missing :
    ReadsApart ((defaultClause c).flatMap Piece.render) (Lexeme.ofMissing c) := by
  have hdefault : Leads " DEFAULT ".toList [.word "DEFAULT"] := rfl
  unfold defaultClause Lexeme.ofMissing
  cases c.default? with
  | some v => exact hdefault.readsApart rfl (readsAs_defaultLiteral c.type v)
  | none =>
    dsimp only
    split
    · exact ⟨rfl, .inr rfl⟩
    · exact .nil

theorem readsAs_columnDefinition :
    ReadsAs ((columnDefinition c).flatMap Piece.render) (Lexeme.ofColumn c) := by
  have hcolumn := (readsAs_name c.name).append
    (((readsApart_type c).append (readsApart_rules c)).append (readsApart_missing c))
  simpa [columnDefinition, Lexeme.ofColumn, Piece.render] using hcolumn

end Columns

/-- Parts of a text that are made of things are read as what is made of them. -/
theorem forall₂_readsAs {α : Type} {pieces : α → List Piece} {read : α → List Lexeme}
    (h : ∀ x, ReadsAs ((pieces x).flatMap Piece.render) (read x)) (xs : List α) :
    List.Forall₂ (fun pieces ts => ReadsAs (pieces.flatMap Piece.render) ts)
      (xs.map pieces) (xs.map read) :=
  List.forall₂_map_left_iff.2 (List.forall₂_map_right_iff.2 (List.forall₂_same.2 fun x _ => h x))

theorem readsAs_groupDefinition (columns : List String) :
    ReadsAs ((groupDefinition columns).flatMap Piece.render) (Lexeme.ofGroup columns) := by
  have hname (name : String) : ReadsAs ([.name name].flatMap Piece.render) [.name name] := by
    simpa [Piece.render] using readsAs_name name
  have hcomma : Leads ", ".toList [.sign ","] := rfl
  have hopen : Leads "UNIQUE (".toList [.word "UNIQUE", .sign "("] := rfl
  have hclose : ReadsApart ")".toList [.sign ")"] := ⟨rfl, .inr rfl⟩
  have hgroup :=
    hopen.reads ((readsAs_joined hcomma rfl (forall₂_readsAs hname columns)).append hclose)
  simpa [groupDefinition, Lexeme.ofGroup, Lexeme.commas, Piece.render] using hgroup

/-- **The text of a table is read as its definition.** -/
theorem readsAs_createTable (db : String) (t : Table) :
    ReadsAs ((createTable db t).flatMap Piece.render) (Lexeme.ofTable db t) := by
  have hcomma : Leads ",\n  ".toList [.sign ","] := rfl
  have hparts := List.rel_append (forall₂_readsAs readsAs_columnDefinition t.columns)
    (forall₂_readsAs readsAs_groupDefinition t.uniqueGroups)
  have hclose : ReadsApart "\n)".toList [.sign ")"] := ⟨rfl, .inr rfl⟩
  have hopen : Leads " (\n  ".toList [.sign "("] := rfl
  have hpoint : Leads ".".toList [.sign "."] := rfl
  have hcreate : Leads "CREATE TABLE IF NOT EXISTS ".toList
      [.word "CREATE", .word "TABLE", .word "IF", .word "NOT", .word "EXISTS"] := rfl
  have hname := (readsAs_name t.name).append
    (hopen.readsApart rfl ((readsAs_joined hcomma rfl hparts).append hclose))
  have hqualified := (lexemes?_name db (by simp)).trans (congrArg _ (hpoint.reads hname))
  have htable := hcreate.reads hqualified
  simpa [createTable, qualified, Lexeme.ofTable, Lexeme.commas, Piece.render] using htable

end Sql

/-! ## What a default denotes -/

namespace Double

/-- A number is rounded as every quotient that is worth its magnitude. -/
theorem nearest?_eq_ofUnits {q : ℚ} {num den : Nat} (hden : 0 < den)
    (hnum : (num : ℚ) = |q| * unitsPerOne * den) : nearest? q = ofUnits (q < 0) num den := by
  have hmagnitude : (q.num.natAbs : ℚ) = |q| * q.den := by
    rw [Nat.cast_natAbs, Int.cast_abs, ← Rat.mul_den_eq_num, abs_mul, Nat.abs_cast]
  have hquotient : (q.num.natAbs : ℚ) * unitsPerOne * den = num * q.den := by
    rw [hmagnitude, hnum]
    ring
  exact ofUnits_congr q.pos hden (by exact_mod_cast hquotient)

/-- The decimal number of a double is rounded to it, or to the zero without a sign. -/
theorem nearest?_shortest (x : Double) :
    nearest? (if x.negative then -x.shortest.value else x.shortest.value)
      = some x.withoutZeroSign := by
  by_cases hx : x.mantissa = 0
  · have hzero : nearest? 0 = some (zero false) := by
      rw [nearest?, Rat.num_zero, Rat.den_zero, Int.natAbs_zero, Nat.zero_mul,
        decide_eq_false (lt_irrefl 0)]
      rfl
    rw [value_shortest_eq_zero_iff.2 hx, neg_zero, ite_self, hzero, withoutZeroSign, if_pos hx]
  · obtain ⟨num, den, hden, hnum, hround⟩ := ofUnits_of_ofDecimal (ofDecimal_shortest hx) hx
    have hpositive : 0 < x.shortest.value := by
      have hne : x.shortest.value ≠ 0 := mt value_shortest_eq_zero_iff.1 hx
      exact lt_of_le_of_ne (mul_nonneg (Nat.cast_nonneg _) (zpow_nonneg (by norm_num) _)) hne.symm
    generalize x.shortest.value = value at *
    generalize hq : (if x.negative then -value else value) = q
    have hsign : decide (q < 0) = x.negative := by
      cases hn : x.negative <;> simp [← hq, hn, hpositive, hpositive.le]
    have hmagnitude : |q| = value := by
      cases hn : x.negative <;> simp [← hq, hn, abs_of_pos hpositive]
    rw [nearest?_eq_ofUnits hden (hmagnitude ▸ hnum), hsign, hround, withoutZeroSign, if_neg hx]

end Double

namespace Sql

theorem Constant.ofLexemes?_signed (negative : Bool) (q : ℚ) :
    Constant.ofLexemes? (Lexeme.signed negative q)
      = some (.number (if negative then -q else q)) := by
  cases negative <;> rfl

/-- **The default of a column denotes the value that was declared.** -/
theorem exists_denoted {type : ColumnType} {v : Value} (h : type.accepts v = true) :
    ∃ constant, Constant.ofLexemes? (Lexeme.ofDefault type v) = some constant
      ∧ constant.Denotes type v := by
  have hint (n : Int) : (if decide (n < 0) then -(n.natAbs : ℚ) else n.natAbs) = n := by
    rw [Nat.cast_natAbs]
    split
    · rename_i hsign
      rw [abs_of_neg (of_decide_eq_true hsign), Int.cast_neg, neg_neg]
    · rename_i hsign
      rw [abs_of_nonneg (by simpa using hsign)]
  have hjson {v : Value} (hnull : v ≠ .null) : ∃ constant,
      Constant.ofLexemes? (Lexeme.ofDefault .json v) = some constant
        ∧ constant.Denotes .json v := by
    refine ⟨.json v.text, ?_, .json hnull⟩
    rw [Lexeme.ofDefault]
    · rfl
    · exact hnull
  revert h
  fun_cases ColumnType.accepts type v
  all_goals intro h
  next => exact ⟨_, rfl, .null type⟩
  next s => exact ⟨_, rfl, .text s⟩
  next b => exact ⟨_, by cases b <;> rfl, .truth b⟩
  next n => exact ⟨_, (Constant.ofLexemes?_signed _ _).trans (by rw [hint]), .int n⟩
  next n => exact ⟨_, (Constant.ofLexemes?_signed _ _).trans (by rw [hint]), .whole n⟩
  next x => exact ⟨_, Constant.ofLexemes?_signed _ _, .float x.nearest?_shortest⟩
  next hnull =>
    cases v with
    | string s => exact ⟨_, rfl, .time s⟩
    | null => exact absurd rfl hnull
    | _ => cases h
  next hnull => exact hjson hnull
  next => cases h

end Sql

/-! ## The tables of a domain -/

namespace Catalog

variable {settings : Settings} {domain : Domain} {catalog : Catalog}

/-- The defaults in the tables of a domain are taken by their columns. -/
theorem default_accepted (hcompiles : Catalog.ofDomain settings domain = .ok catalog) {t : Table}
    (ht : t ∈ catalog.schema.resources ++ catalog.schema.links) {c : Column} (hc : c ∈ t.columns)
    {v : Value} (hv : c.default? = some v) : c.type.accepts v = true := by
  rcases List.mem_append.1 ht with hresource | hlink
  · have hco := coherent_of_ofDomain hcompiles
    obtain ⟨base, hbase, hshares⟩ := hco.shared t hresource
    exact hco.default_accepted base hbase c (hshares.columns ▸ hc) v hv
  · obtain ⟨schema, hschema, rfl⟩ := map_eq_ok_iff.1 hcompiles
    obtain ⟨parts, links, hassembly⟩ := Compile.exists_assembly hschema
    rw [hassembly.linkTables_eq] at hlink
    obtain ⟨link, hbuilt, rfl⟩ := List.mem_map.1 hlink
    obtain ⟨_, _, _, _, hlinks⟩ := Compile.tableFor_eq_ok (hassembly.allLinks.1.links link hbuilt)
    exact absurd ((hlinks.default_eq_none hc).symm.trans hv) nofun

end Catalog

namespace Sql

/-- **Tables are read as they are declared.** A text that is put between quotes is read back to its
last character and no further, just when no further quote follows. So the text of every table, in a
database schema of any name, is read as the words, names and signs of its definition and the
constants of its defaults; the constant of a default that its column takes denotes the value; and
the defaults in the tables of a domain are taken by their columns. -/
theorem tables_read_as_declared :
    (∀ (quote : Char) (s : String) (rest : List Char),
      quotedText? quote (enclosed quote s ++ rest) = some (s, rest) ↔ rest.head? ≠ some quote)
    ∧ (∀ (db : String) (t : Table),
      lexemes? .between (render (createTable db t)).toList = some (Lexeme.ofTable db t))
    ∧ (∀ (type : ColumnType) (v : Value), type.accepts v = true →
      ∃ constant, Constant.ofLexemes? (Lexeme.ofDefault type v) = some constant
        ∧ constant.Denotes type v)
    ∧ ∀ settings domain catalog, Catalog.ofDomain settings domain = .ok catalog →
      ∀ t ∈ catalog.schema.resources ++ catalog.schema.links, ∀ c ∈ t.columns, ∀ v,
        c.default? = some v →
        c.type.accepts v = true := by
  refine ⟨quotedText?_enclosed_iff, fun db t => ?_, fun type v => exists_denoted, ?_⟩
  · rw [render, String.toList_ofList]
    exact readsAs_createTable db t
  · intro settings domain catalog hcompiles t ht c hc v hv
    exact Catalog.default_accepted hcompiles ht hc hv

/-- Cups with a motto full of quotes, a rank below zero, and tags. -/
def cupDomain : Domain := .ofList [
  ("cup", { fields := .ofList [
    ("motto", { typeName := "string", default? := some (.string "''it''s'") }),
    ("rank", { typeName := "integer", default? := some (.int (-5)) }),
    ("tags", { typeName := "list", default? := some (.array [.string "it's"]) })] })]

def cupCatalog : Catalog := .compiled {} cupDomain

theorem ofDomain_cup : Catalog.ofDomain {} cupDomain = .ok cupCatalog :=
  Catalog.ofDomain_compiled rfl

/-- The table of cups, in a schema with quotes at both ends of its name. -/
theorem cups_read_as_declared :
    quotedText? '"' (enclosed '"' "\"cups\"" ++ ['.']) = some ("\"cups\"", ['.'])
    ∧ (∃ t, cupCatalog.schema.table "cup" = .ok t
      ∧ lexemes? .between (render (createTable "\"cups\"" t)).toList = some
        [.word "CREATE", .word "TABLE", .word "IF", .word "NOT", .word "EXISTS",
          .name "\"cups\"", .sign ".",
          .name "cup", .sign "(",
          .name "id", .word "BIGSERIAL", .word "PRIMARY", .word "KEY", .sign ",",
          .name "motto", .word "TEXT", .word "DEFAULT", .text "''it''s'", .sign ",",
          .name "rank", .word "BIGINT", .word "DEFAULT", .sign "-", .number 5, .sign ",",
          .name "tags", .word "JSONB", .word "DEFAULT", .text "[\"it's\"]", .sign "::",
            .word "jsonb", .sign ",",
          .name "_created", .word "TIMESTAMPTZ", .word "NOT", .word "NULL",
            .word "DEFAULT", .word "NOW",
          .sign "(", .sign ")", .sign ",",
          .name "_updated", .word "TIMESTAMPTZ", .word "NOT", .word "NULL",
            .word "DEFAULT", .word "NOW",
          .sign "(", .sign ")", .sign ")"])
    ∧ (∃ constant, Constant.ofLexemes? (Lexeme.ofDefault .text (.string "''it''s'")) = some constant
      ∧ constant.Denotes .text (.string "''it''s'"))
    ∧ ∀ t ∈ cupCatalog.schema.resources ++ cupCatalog.schema.links, ∀ c ∈ t.columns, ∀ v,
      c.default? = some v →
        c.type.accepts v = true :=
  ⟨(tables_read_as_declared.1 _ _ _).2 (by decide),
    ⟨_, rfl, (tables_read_as_declared.2.1 _ _).trans rfl⟩,
    tables_read_as_declared.2.2.1 _ _ rfl,
    tables_read_as_declared.2.2.2 _ _ _ ofDomain_cup⟩

end Sql

end RecordStore
