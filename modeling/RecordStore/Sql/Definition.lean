import RecordStore.Sql.Statement

/-!
# Definitions

The statements that create the schema and the tables of a database, and what keeps its numbering in
step. Foreign keys are added once every table exists, one statement each, which does nothing when
the constraint is there already.
-/

namespace RecordStore.Sql

def createSchema (schema : String) : List Piece :=
  [.word "CREATE SCHEMA IF NOT EXISTS ", .name schema]

/-- A default value of a column. -/
def defaultLiteral (type : ColumnType) (v : Value) : List Piece :=
  match type, v with
  | _, .null => [.word "NULL"]
  | .json, v => [.literal v.text, .word "::jsonb"]
  | _, .bool b => [.word (if b then "TRUE" else "FALSE")]
  | _, .int n => [.number (Value.int n).text]
  | _, .float x => [.number x.text]
  | _, .string s => [.literal s]
  | _, v => [.literal v.text]

/-- What a column does with a missing value. -/
def defaultClause (c : Column) : List Piece :=
  match c.default? with
  | some v => .word " DEFAULT " :: defaultLiteral c.type v
  | none => if c.defaultNow then [.word " DEFAULT NOW()"] else []

/-- The rules of a column. -/
def columnRules (c : Column) : List Piece :=
  if c.primaryKey then [.word " PRIMARY KEY"]
  else (if c.nullable then [] else [.word " NOT NULL"])
    ++ (if c.unique then [.word " UNIQUE"] else [])

def columnDefinition (c : Column) : List Piece :=
  [.name c.name, .word " ", .word (if c.autoIncrement then "BIGSERIAL" else c.type.sqlName)]
    ++ columnRules c ++ defaultClause c

def groupDefinition (columns : List String) : List Piece :=
  .word "UNIQUE (" :: (joined ", " (columns.map fun name => [.name name]) ++ [.word ")"])

/-- Create a table, without its foreign keys, unless it exists. -/
def createTable (schema : String) (table : Table) : List Piece :=
  [.word "CREATE TABLE IF NOT EXISTS "] ++ qualified schema table.name ++ [.word " (\n  "]
    ++ joined ",\n  " (table.columns.map columnDefinition ++ table.uniqueGroups.map groupDefinition)
    ++ [.word "\n)"]

/-- What becomes of a row whose target is removed: a link goes with either end, a plain reference
keeps its target from being removed. -/
def onDelete : TableKind → String
  | .link => "CASCADE"
  | .resource => "NO ACTION"

def constraintName (table : Table) (c : Column) : String := table.name ++ "_" ++ c.name ++ "_fkey"

/-- Add one foreign key, unless it exists. -/
def foreignKey (schema : String) (table : Table) (c : Column) (key : ForeignKey) : List Piece :=
  [.word "DO $$ BEGIN\n  ALTER TABLE "] ++ qualified schema table.name
    ++ [.word " ADD CONSTRAINT ", .name (constraintName table c), .word " FOREIGN KEY (",
      .name c.name, .word ") REFERENCES "]
    ++ qualified schema key.table
    ++ [.word " (", .name key.column, .word ") ON DELETE ", .word (onDelete table.kind),
      .word ";\nEXCEPTION WHEN duplicate_object THEN NULL;\nEND $$"]

/-- Add the foreign keys of a table. -/
def foreignKeys (schema : String) (table : Table) : List (List Piece) :=
  table.columns.filterMap fun c => c.references.map (foreignKey schema table c)

/-- Move the numbering of a table past every key in it, for keys that were written and not
generated. A table whose keys are not generated needs no such statement. -/
def syncNumbering (schema : String) (table : Table) : Option Statement :=
  (table.keyColumn?.filter Column.autoIncrement).map fun key =>
    let target := qualified schema table.name
    { text :=
        [.word "SELECT setval(s.seq, COALESCE(GREATEST(m.top, pg_sequence_last_value(s.seq)), 1), ",
          .word "GREATEST(m.top, pg_sequence_last_value(s.seq)) IS NOT NULL) ",
          .word "FROM (SELECT pg_get_serial_sequence(", .placeholder 1, .word ", ", .placeholder 2,
          .word ")::regclass AS seq) s, ", .word "(SELECT MAX(", .name key.name,
          .word ") AS top FROM "] ++ target ++ [.word ") m"]
      params := [.text (some (render target)), .text (some key.name)] }

end RecordStore.Sql
