import RecordStore.Proofs.ReadOptions
import RecordStore.Proofs.SafeNames
import RecordStore.Sql.Definition

/-!
# Foreign keys under names that are cut

A database keeps the beginning of a name that is too long. The name of a foreign key is put together
from the name of its table, the name of its column and a suffix; each of the two names may be as
long as a name can be, and the whole is not checked. Two columns of a table may then have foreign
keys under one kept name. The statement that adds a foreign key does nothing where a constraint of
its name stands, so the second of them is not added, now or when the statements are run again.

* **`Sql.constraint?`**, **`Sql.constraintsAfter`** — what the statements say, and what stands after
  them.
* **`Table.KeepsReferencesApart`** — what is left of the columns' names tells them apart.
* **`Catalog.foreign_keys_added_iff`** — when all foreign keys are added.
* **`Catalog.auditors_not_constrained`** — a domain of which one is skipped.
-/

namespace RecordStore

open Compile

/-! ## Names that are kept -/

namespace Text

/-- The characters that fit into a number of bytes, from the first on. -/
def fitting : Nat → List Char → List Char
  | _, [] => []
  | room, c :: rest => if c.utf8Size ≤ room then c :: fitting (room - c.utf8Size) rest else []

/-- A name as the database keeps it. -/
def keptName (name : String) : String := String.ofList (fitting maxIdentifierBytes name.toList)

theorem utf8Size_of_continuesIdentifier {c : Char} (h : continuesIdentifier c = true) :
    c.utf8Size = 1 := by
  unfold continuesIdentifier startsIdentifier isLetter isDigit at h
  simp only [Bool.or_eq_true, Bool.and_eq_true, decide_eq_true_eq, beq_iff_eq, Char.le_def] at h
  rw [Char.utf8Size_eq_one_iff]
  rcases h with ((⟨-, h⟩ | ⟨-, h⟩) | rfl) | ⟨-, h⟩
  · exact UInt32.le_trans h (by decide)
  · exact UInt32.le_trans h (by decide)
  · decide
  · exact UInt32.le_trans h (by decide)

theorem continues_of_isIdentifier {name : String} (h : isIdentifier name = true) :
    ∀ c ∈ name.toList, continuesIdentifier c = true := by
  obtain ⟨-, first, rest, hlist, hfirst, hrest⟩ := isIdentifier_iff.1 h
  rw [hlist, List.forall_mem_cons]
  exact ⟨by rw [continuesIdentifier, hfirst, Bool.true_or], hrest⟩

/-- Of characters of one byte each, as many are kept as there are bytes. -/
theorem fitting_eq_take {room : Nat} {cs : List Char} (h : ∀ c ∈ cs, continuesIdentifier c = true) :
    fitting room cs = cs.take room := by
  induction cs generalizing room with
  | nil => rw [fitting, List.take_nil]
  | cons c rest ih =>
    rw [List.forall_mem_cons] at h
    rw [fitting, utf8Size_of_continuesIdentifier h.1]
    cases room with
    | zero => rfl
    | succ room =>
      rw [if_pos (Nat.le_add_left 1 room), Nat.add_sub_cancel, ih h.2, List.take_succ_cons]

/-- Two names that begin alike are kept under one name if the room that is left holds no
difference. -/
theorem keptName_append_eq_iff {before a b : String}
    (ha : ∀ c ∈ (before ++ a).toList, continuesIdentifier c = true)
    (hb : ∀ c ∈ (before ++ b).toList, continuesIdentifier c = true) :
    keptName (before ++ a) = keptName (before ++ b)
      ↔ a.toList.take (maxIdentifierBytes - before.length)
        = b.toList.take (maxIdentifierBytes - before.length) := by
  rw [keptName, keptName, fitting_eq_take ha, fitting_eq_take hb, String.ofList_inj,
    String.toList_append, String.toList_append, List.take_append, List.take_append,
    List.append_cancel_left_eq, String.length_toList]

end Text

/-! ## Constraints -/

namespace Sql

/-- A foreign key of a table, by the column that refers to a row. -/
structure Constraint where
  name : String
  column : String
deriving DecidableEq

/-- The name that stands right after a fixed text of a statement. -/
def nameAfter? (text : String) : List Piece → Option String
  | .word word :: .name name :: rest => if word = text then some name else nameAfter? text rest
  | _ :: rest => nameAfter? text rest
  | [] => none

/-- The foreign key that a statement adds. -/
def constraint? (statement : List Piece) : Option Constraint := do
  let name ← nameAfter? " ADD CONSTRAINT " statement
  let column ← nameAfter? " FOREIGN KEY (" statement
  return ⟨name, column⟩

/-- The foreign keys of a table after one more is added: it does nothing where a constraint of its
name stands. -/
def addConstraint (standing : List Constraint) (c : Constraint) : List Constraint :=
  if Text.keptName c.name ∈ standing.map Constraint.name then standing
  else standing ++ [⟨Text.keptName c.name, c.column⟩]

/-- The foreign keys of a table after some statements. -/
def constraintsAfter (standing : List Constraint) (statements : List (List Piece)) :
    List Constraint :=
  (statements.filterMap constraint?).foldl addConstraint standing

/-- What is kept of the names of constraints. -/
def keptNames (cs : List Constraint) : List String := cs.map fun c => Text.keptName c.name

variable {standing : List Constraint} {c : Constraint} {cs : List Constraint}

theorem mem_addConstraint {k : Constraint} (hk : k ∈ standing) : k ∈ addConstraint standing c := by
  unfold addConstraint
  split
  · exact hk
  · exact List.mem_append_left _ hk

theorem mem_foldl_addConstraint {k : Constraint} (hk : k ∈ standing) :
    k ∈ cs.foldl addConstraint standing := by
  induction cs generalizing standing with
  | nil => exact hk
  | cons c rest ih => exact ih (mem_addConstraint hk)

/-- A constraint that stands at last stood before or was added. -/
theorem column_of_mem_foldl {k : Constraint} (hk : k ∈ cs.foldl addConstraint standing) :
    k ∈ standing ∨ k.column ∈ cs.map Constraint.column := by
  induction cs generalizing standing with
  | nil => exact .inl hk
  | cons c rest ih =>
    rw [List.map_cons, List.mem_cons]
    rcases ih hk with hk | hk
    · unfold addConstraint at hk
      split at hk
      · exact .inl hk
      · rcases List.mem_append.1 hk with hk | hk
        · exact .inl hk
        · rw [List.mem_singleton.1 hk]
          exact .inr (.inl rfl)
    · exact .inr (.inr hk)

/-- All of some foreign keys are added if their names are kept apart, from each other and from those
that stand. -/
theorem forall_added_iff (hnodup : (cs.map Constraint.column).Nodup)
    (hnew : ∀ c ∈ cs, c.column ∉ standing.map Constraint.column) :
    (∀ c ∈ cs, ∃ k ∈ cs.foldl addConstraint standing, k.column = c.column)
      ↔ (keptNames cs).Nodup ∧ ∀ name ∈ keptNames cs, name ∉ standing.map Constraint.name := by
  induction cs generalizing standing with
  | nil => simp [keptNames]
  | cons c rest ih =>
    rw [List.map_cons, List.nodup_cons] at hnodup
    rw [List.forall_mem_cons] at hnew
    rw [List.forall_mem_cons, keptNames, List.map_cons, List.nodup_cons, List.forall_mem_cons,
      List.foldl_cons]
    by_cases hstands : Text.keptName c.name ∈ standing.map Constraint.name
    -- the name stands, so the constraint of this column is skipped, and no later one is of this
    -- column
    · refine iff_of_false ?_ fun h => h.2.1 hstands
      rintro ⟨⟨k, hk, hcolumn⟩, -⟩
      rw [addConstraint, if_pos hstands] at hk
      rcases column_of_mem_foldl hk with hk | hk
      · exact hnew.1 (hcolumn ▸ List.mem_map_of_mem hk)
      · exact hnodup.1 (hcolumn ▸ hk)
    · have hadded : addConstraint standing c
        = standing ++ [⟨Text.keptName c.name, c.column⟩] := if_neg hstands
      have hlater : ∀ d ∈ rest, d.column ∉ (addConstraint standing c).map Constraint.column := by
        intro d hd hmem
        rw [hadded, List.map_append, List.mem_append] at hmem
        rcases hmem with hmem | hmem
        · exact hnew.2 d hd hmem
        · exact hnodup.1 (List.mem_singleton.1 hmem ▸ List.mem_map_of_mem hd)
      have hfirst : ∃ k ∈ rest.foldl addConstraint
          (addConstraint standing c), k.column = c.column :=
        ⟨⟨Text.keptName c.name, c.column⟩, mem_foldl_addConstraint (by simp [hadded]), rfl⟩
      rw [and_iff_right hfirst, ih hnodup.2 hlater, hadded]
      simp only [keptNames, List.map_append, List.map_cons, List.map_nil, List.mem_append,
        List.mem_singleton, not_or, forall_and]
      constructor
      · rintro ⟨hrest, hapart, hother⟩
        exact ⟨⟨fun hmem => hother _ hmem rfl, hrest⟩, hstands, hapart⟩
      · rintro ⟨⟨hfresh, hrest⟩, -, hapart⟩
        exact ⟨hrest, hapart, fun name hmem heq => hfresh (heq ▸ hmem)⟩

/-- What stands is not added again. -/
theorem foldl_addConstraint_of_stands
    (h : ∀ c ∈ cs, Text.keptName c.name ∈ standing.map Constraint.name) :
    cs.foldl addConstraint standing = standing := by
  induction cs with
  | nil => rfl
  | cons c rest ih =>
    rw [List.forall_mem_cons] at h
    rw [List.foldl_cons, addConstraint, if_pos h.1, ih h.2]

/-- The name of each constraint stands in the end, be it its own or that of one that stood
before. -/
theorem stands_foldl (cs standing : List Constraint) :
    ∀ c ∈ cs, Text.keptName c.name ∈ (cs.foldl addConstraint standing).map Constraint.name := by
  induction cs generalizing standing with
  | nil => exact nofun
  | cons c rest ih =>
    rw [List.forall_mem_cons]
    refine ⟨?_, fun d hd => ih _ d hd⟩
    obtain ⟨k, hk, hname⟩ : ∃ k ∈ addConstraint standing c, k.name = Text.keptName c.name := by
      unfold addConstraint
      split
      · rename_i hstands
        exact List.mem_map.1 hstands
      · exact ⟨_, List.mem_append_right _ (List.mem_singleton_self _), rfl⟩
    have hlast : k ∈ rest.foldl addConstraint (addConstraint standing c) :=
      mem_foldl_addConstraint hk
    exact hname ▸ List.mem_map_of_mem hlast

/-- Statements that are run again add nothing. -/
theorem constraintsAfter_twice (standing : List Constraint) (statements : List (List Piece)) :
    constraintsAfter (constraintsAfter standing statements) statements
      = constraintsAfter standing statements :=
  foldl_addConstraint_of_stands (stands_foldl _ _)

end Sql

/-! ## Tables -/

namespace Table

/-- The columns that point at rows. -/
def referring (t : Table) : List Column := t.columns.filter (·.references.isSome)

/-- The characters of a name that are left for a column, after the name of the table and an
underscore. -/
def roomForColumn (t : Table) : Nat := Text.maxIdentifierBytes - (t.name.length + 1)

/-- Columns that point at rows differ in what is kept of their names and the suffix of a
constraint. -/
def KeepsReferencesApart (t : Table) : Prop :=
  ∀ c ∈ t.referring, ∀ d ∈ t.referring, c.name ≠ d.name →
    (c.name ++ "_fkey").toList.take t.roomForColumn
      ≠ (d.name ++ "_fkey").toList.take t.roomForColumn

/-- Names that are not cut are kept apart. -/
theorem keepsReferencesApart_of_short {t : Table}
    (h : ∀ c ∈ t.referring, t.name.length + c.name.length ≤ 57) : t.KeepsReferencesApart := by
  have hwhole (c : Column) (hc : c ∈ t.referring) :
      (c.name ++ "_fkey").toList.take t.roomForColumn = c.name.toList ++ "_fkey".toList := by
    have hshort := h c hc
    have hsuffix : "_fkey".length = 5 := by decide
    rw [String.toList_append, List.take_of_length_le]
    rw [List.length_append, String.length_toList, String.length_toList, roomForColumn,
      Text.maxIdentifierBytes]
    omega
  intro c hc d hd hne heq
  rw [hwhole c hc, hwhole d hd, List.append_cancel_right_eq] at heq
  exact hne (String.toList_injective heq)

end Table

namespace Sql

variable {t : Table}

theorem constraint?_foreignKey (db : String) (t : Table) (c : Column) (key : ForeignKey) :
    constraint? (foreignKey db t c key) = some ⟨t.name ++ "_" ++ c.name ++ "_fkey", c.name⟩ := by
  simp [constraint?, foreignKey, qualified, nameAfter?, constraintName]

/-- The statements of a table add one foreign key for each of its columns that points at rows. -/
theorem constraints_of_foreignKeys (db : String) (t : Table) :
    (foreignKeys db t).filterMap constraint?
      = t.referring.map fun c => ⟨t.name ++ "_" ++ c.name ++ "_fkey", c.name⟩ := by
  unfold foreignKeys Table.referring
  induction t.columns with
  | nil => rfl
  | cons c rest ih => cases hkey : c.references <;> simp [hkey, constraint?_foreignKey, ih]

end Sql

namespace Compile.Assembly

variable {settings : Settings} {domain : Domain} {schema : Schema} {parts : List Part}
  {links : List BuiltLink}

/-- The columns of a table that point at rows are named by identifiers, all different. -/
theorem referring_names (h : Assembly settings domain schema parts links) {t : Table}
    (ht : t ∈ schema.physical) :
    (t.referring.map Column.name).Nodup ∧ Text.isIdentifier t.name = true
      ∧ ∀ c ∈ t.referring, Text.isIdentifier c.name = true := by
  rcases List.mem_append.1 ht with hbase | hlink
  · obtain ⟨hname, hcolumns⟩ := h.base_identifiers hbase
    refine ⟨?_, hname, fun c hc => hcolumns _ (List.mem_map_of_mem (List.mem_of_mem_filter hc))⟩
    obtain ⟨part, hpart, rfl⟩ := h.mem_bases.1 hbase
    have hcompiled := h.compiled part hpart
    have hplain : part.plain.columns.filter (·.references.isSome) = [] := by
      rw [List.filter_eq_nil_iff]
      intro c hc
      rw [references_of_ownTable hcompiled.plain_eq c hc]
      exact Bool.false_ne_true
    have hsub :
      (part.base links).referring.Sublist (part.references.filterMap Reference.column?) := by
      show (List.filter _ (part.plain.columns
        ++ part.references.filterMap Reference.column?)).Sublist _
      rw [List.filter_append, hplain]
      exact List.filter_sublist
    have hnames := (Part.reference_names (refers_of_relate hcompiled.references_eq)).1
    exact ((hsub.map Column.name).trans hnames).nodup part.entry.2.fields.nodup
  · rw [h.linkTables_eq] at hlink
    obtain ⟨built, hbuilt, rfl⟩ := List.mem_map.1 hlink
    have htable := h.allLinks.1.links built hbuilt
    obtain ⟨hname, howner, hmember⟩ := identifiers_of_tableFor htable
    obtain ⟨owner, target, ownerKey, targetKey, hlinks⟩ := tableFor_eq_ok htable
    have hreferring : built.table.referring = [linkColumn built.list.ownerColumn owner ownerKey,
        linkColumn built.list.memberColumn target targetKey] := by
      rw [Table.referring, hlinks.columns_eq]
      rfl
    obtain ⟨-, htarget, hfield⟩ := h.need_names hbuilt
    obtain ⟨hown, name, -, hother, hne⟩ := @linkColumnNames_eq settings built.need htarget hfield
    have hapart : built.list.ownerColumn ≠ built.list.memberColumn := by
      rw [show built.list.ownerColumn = _ from (congrArg Prod.fst hlinks.names_eq).trans hown,
        show built.list.memberColumn = _ from (congrArg Prod.snd hlinks.names_eq).trans hother]
      exact fun heq => hne (keyName_inj heq).symm
    rw [hreferring]
    refine ⟨List.nodup_cons.2
      ⟨fun hmem => hapart (List.mem_singleton.1 hmem), List.nodup_singleton _⟩, hname,
      List.forall_mem_cons.2 ⟨howner, List.forall_mem_singleton.2 hmember⟩⟩

/-- The kept names of the foreign keys of a table are different if it keeps its references apart. -/
theorem keptNames_nodup_iff (h : Assembly settings domain schema parts links) {t : Table}
    (ht : t ∈ schema.physical) (db : String) :
    (Sql.keptNames ((Sql.foreignKeys db t).filterMap Sql.constraint?)).Nodup
      ↔ t.KeepsReferencesApart := by
  obtain ⟨hnodup, htable, hcolumns⟩ := h.referring_names ht
  have hsuffix : ∀ x ∈ "_fkey".toList, Text.continuesIdentifier x = true := List.all_eq_true.1 rfl
  have hchars (c : Column) (hc : c ∈ t.referring) :
      ∀ x ∈ (t.name ++ "_" ++ (c.name ++ "_fkey")).toList, Text.continuesIdentifier x = true := by
    simp only [String.toList_append, List.forall_mem_append]
    exact ⟨⟨Text.continues_of_isIdentifier htable, List.all_eq_true.1 rfl⟩,
      Text.continues_of_isIdentifier (hcolumns c hc), hsuffix⟩
  have hsame (c d : Column) (hc : c ∈ t.referring) (hd : d ∈ t.referring) :
      Text.keptName (t.name ++ "_" ++ c.name ++ "_fkey")
        = Text.keptName (t.name ++ "_" ++ d.name ++ "_fkey")
        ↔ (c.name ++ "_fkey").toList.take t.roomForColumn
          = (d.name ++ "_fkey").toList.take t.roomForColumn := by
    have hsplit (c : Column) :
      t.name ++ "_" ++ c.name ++ "_fkey" = t.name ++ "_" ++ (c.name ++ "_fkey") :=
      String.append_assoc
    rw [hsplit, hsplit, Text.keptName_append_eq_iff (hchars c hc) (hchars d hd),
      String.length_append]
    rfl
  rw [Sql.constraints_of_foreignKeys, Sql.keptNames, List.map_map,
    List.nodup_map_iff_inj_on (hnodup.of_map _)]
  refine forall₂_congr fun c hc => forall₂_congr fun d hd => ?_
  have heq : c = d ↔ c.name = d.name :=
    ⟨congrArg Column.name, List.inj_on_of_nodup_map hnodup hc hd⟩
  rw [heq, Function.comp, Function.comp, hsame c d hc hd, ← not_imp_not]

end Compile.Assembly

namespace Catalog

variable {settings : Settings} {domain : Domain} {catalog : Catalog}

/-- **When all foreign keys are added.** The statements for a table say one constraint for each of
its columns that points at rows, and these columns have different names. What is kept of the
constraints' names is different, and then every one of them is added, exactly if the columns can be
told apart in the room that the name of the table leaves; names that are not cut can. Otherwise some
column has no foreign key after the statements, nor after they are run again. -/
theorem foreign_keys_added_iff (hcompiles : Catalog.ofDomain settings domain = .ok catalog)
    {t : Table} (ht : t ∈ catalog.schema.physical) (db : String) :
    (Sql.foreignKeys db t).filterMap Sql.constraint?
        = t.referring.map (fun c => ⟨t.name ++ "_" ++ c.name ++ "_fkey", c.name⟩)
      ∧ (t.referring.map Column.name).Nodup
      ∧ ((Sql.keptNames ((Sql.foreignKeys db t).filterMap Sql.constraint?)).Nodup
        ↔ t.KeepsReferencesApart)
      ∧ ((∀ c ∈ t.referring, ∃ k ∈ Sql.constraintsAfter [] (Sql.foreignKeys db t),
        k.column = c.name)
        ↔ t.KeepsReferencesApart)
      ∧ ((∀ c ∈ t.referring, t.name.length + c.name.length ≤ 57) → t.KeepsReferencesApart)
      ∧ Sql.constraintsAfter (Sql.constraintsAfter [] (Sql.foreignKeys db t)) (Sql.foreignKeys db t)
        = Sql.constraintsAfter [] (Sql.foreignKeys db t) := by
  obtain ⟨schema, hschema, rfl⟩ := map_eq_ok_iff.1 hcompiles
  obtain ⟨parts, links, h⟩ := exists_assembly hschema
  have hnodup := (h.referring_names ht).1
  have hkept := h.keptNames_nodup_iff ht db
  refine ⟨Sql.constraints_of_foreignKeys db t, hnodup, hkept, ?_,
    Table.keepsReferencesApart_of_short,
    Sql.constraintsAfter_twice _ _⟩
  have hcolumns : ((Sql.foreignKeys db t).filterMap Sql.constraint?).map Sql.Constraint.column
      = t.referring.map Column.name := by
    rw [Sql.constraints_of_foreignKeys, List.map_map]
    rfl
  have hfirst : ∀ c ∈ (Sql.foreignKeys db t).filterMap Sql.constraint?,
      c.column ∉ ([] : List Sql.Constraint).map Sql.Constraint.column := fun _ _ => List.not_mem_nil
  have hadded := (Sql.forall_added_iff (hcolumns ▸ hnodup) hfirst).trans
    (and_iff_left fun _ _ => List.not_mem_nil)
  have hall :
    (∀ c ∈ t.referring, ∃ k ∈ Sql.constraintsAfter [] (Sql.foreignKeys db t), k.column = c.name)
      ↔ ∀ c ∈ (Sql.foreignKeys db t).filterMap Sql.constraint?,
        ∃ k ∈ Sql.constraintsAfter [] (Sql.foreignKeys db t), k.column = c.column := by
    rw [Sql.constraints_of_foreignKeys, List.forall_mem_map]
  exact hall.trans (hadded.trans hkept)

/-- Both foreign keys of the link table of crews and sailors are added. -/
theorem foreign_keys_of_crew_added : ∃ t ∈ (crewCatalog {}).schema.physical, t.name = "crew_sailor"
    ∧ t.referring.map Column.name = ["crew_id", "sailor_id"]
    ∧ ∀ c ∈ t.referring, ∃ k ∈ Sql.constraintsAfter [] (Sql.foreignKeys "public" t),
      k.column = c.name := by
  have hcompiles : Catalog.ofDomain {} crewDomain = .ok (crewCatalog {}) :=
    Catalog.ofDomain_compiled rfl
  have hlink : ∃ t ∈ (crewCatalog {}).schema.physical, t.name = "crew_sailor"
      ∧ t.referring.map Column.name = ["crew_id", "sailor_id"]
      ∧ ∀ c ∈ t.referring, t.name.length + c.name.length ≤ 57 := by
    decide +kernel
  obtain ⟨t, ht, hname, hcolumns, hshort⟩ := hlink
  obtain ⟨-, -, -, hadded, hapart, -⟩ := foreign_keys_added_iff hcompiles ht "public"
  exact ⟨t, ht, hname, hcolumns, hadded.2 (hapart hshort)⟩

/-- Revisions of annotations have an author and an auditor, and their table has a long name. -/
def revision : String := "maintenance_inspection_report_photograph_annotation_revision"

def revisionDomain : Domain := .ofList [
  ("person", {}),
  (revision, { fields := .ofList [
    ("author", { typeName := "integer", target := some "person" }),
    ("auditor", { typeName := "integer", target := some "person" })] })]

def revisionCatalog : Catalog := .compiled {} revisionDomain

/-- Two characters are left for the columns, with which both begin: the foreign key of the author is
added, and that of the auditor is skipped. -/
theorem auditors_not_constrained :
    Catalog.ofDomain {} revisionDomain = .ok revisionCatalog
      ∧ ∃ t ∈ revisionCatalog.schema.physical, t.name = revision
        ∧ t.referring.map Column.name = ["author", "auditor"]
        ∧ Sql.constraintsAfter [] (Sql.foreignKeys "public" t) = [⟨revision ++ "_au", "author"⟩] :=
  ⟨ofDomain_compiled rfl, by decide +kernel⟩

end Catalog

end RecordStore
