import RecordStore.Proofs.ReadOptions
import RecordStore.Proofs.SafeNames

/-!
# Keys of filters

A key of a filter names a field and an operator, and it is read in two ways. A request splits it at
the last double underscore, and only if the suffix of an operator follows. The check of a datasource
takes what stands before the first double underscore, whatever follows. Field names may have double
underscores themselves, or end in an underscore, and then the two readings are not the same; and a
field whose name ends like a key of another operator cannot be asked for equality.

* **`FilterKey.write`** — the key that is written for a field and an operator.
* **`FilterKey.read_cases`** — a key is read as the field and the operator for which it is written,
  or as a field.
* **`FilterEntry.ofKey_write_iff`** — the fields and operators for which the written key is read
  back.
* **`FilterKey.checkedField_eq_iff`** — the keys of which both readings take the same field.
* **`Catalog.filter_key_read_alike_iff`** — those are the keys of which the check says of every
  table what requests find there.
-/

namespace RecordStore

open Compile

/-! ## Suffixes -/

namespace Operator

/-- The suffix with which a key names the operator; equality has none. -/
def suffix? (op : Operator) : Option String := (suffixes.find? (·.2 == op)).map Prod.fst

theorem ofSuffix?_eq_some_iff {op : Operator} {suffixed : String} :
    ofSuffix? suffixed = some op ↔ (suffixed, op) ∈ suffixes :=
  NameMap.get?_eq_some_iff ⟨suffixes, by decide⟩ suffixed op

theorem exists_suffix {op : Operator} (h : op ≠ .eq) : ∃ suffixed, op.suffix? = some suffixed := by
  cases op with
  | eq => exact absurd rfl h
  | _ => exact ⟨_, rfl⟩

/-- No two operators share a suffix, and none has two. -/
theorem suffix?_eq_some_iff {op : Operator} {suffixed : String} :
    op.suffix? = some suffixed ↔ ofSuffix? suffixed = some op := by
  rw [ofSuffix?_eq_some_iff]
  have hall : ∀ entry ∈ suffixes, entry.2.suffix? = some entry.1 := by decide
  constructor
  · intro h
    obtain ⟨⟨_, _⟩, hfound, rfl⟩ := Option.map_eq_some_iff.1 h
    have hop := List.find?_some hfound
    obtain rfl := eq_of_beq hop
    exact List.mem_of_find?_eq_some hfound
  · exact fun h => hall _ h

theorem underscore_not_mem_suffix {op : Operator} {suffixed : String}
    (h : op.suffix? = some suffixed) :
    '_' ∉ suffixed.toList := by
  have hall : ∀ entry ∈ suffixes, '_' ∉ entry.1.toList := by decide
  exact hall _ (ofSuffix?_eq_some_iff.1 (suffix?_eq_some_iff.1 h))

end Operator

namespace FilterKey

/-! ## Writing and reading a key -/

/-- The key of a field and an operator: the field alone for equality, else the field, a double
underscore and the suffix of the operator. -/
def write (field : String) (op : Operator) : String :=
  match op.suffix? with
  | none => field
  | some suffixed => field ++ "__" ++ suffixed

@[simp] theorem write_eq (field : String) : write field .eq = field := rfl

theorem toList_write {field suffixed : String} {op : Operator} (h : op.suffix? = some suffixed) :
    (write field op).toList = field.toList ++ '_' :: '_' :: suffixed.toList := by
  rw [write, h]
  simp

/-- A text that is cut in two is what stands before the two underscores and what follows them. -/
theorem eq_append_of_splitLast {cs before after : List Char}
    (h : splitLast cs = some (before, after)) :
    cs = before ++ '_' :: '_' :: after := by
  fun_induction splitLast cs generalizing before with
  | case1 => cases h
  | case2 c rest before' after' hrest ih =>
    obtain ⟨rfl, rfl⟩ := Prod.mk.inj (Option.some.inj h)
    rw [ih hrest, List.cons_append]
  | case3 =>
    obtain ⟨rfl, rfl⟩ := Prod.mk.inj (Option.some.inj h)
    rfl
  | case4 => cases h

/-- Two underscores that none follows are the last ones. -/
theorem splitLast_append (before : List Char) {after : List Char} (h : '_' ∉ after) :
    splitLast (before ++ '_' :: '_' :: after) = some (before, after) := by
  induction before with
  | nil =>
    -- the second underscore is not the first of two
    have hsecond : splitLast ('_' :: after) = none := by
      cases hsplit : splitLast ('_' :: after) with
      | none => rfl
      | some parts =>
        have happend := eq_append_of_splitLast hsplit
        refine absurd ?_ h
        cases hbefore : parts.1 with
        | nil =>
          rw [hbefore] at happend
          rw [(List.cons.inj happend).2]
          exact List.mem_cons_self
        | cons c before =>
          rw [hbefore] at happend
          rw [(List.cons.inj happend).2]
          exact List.mem_append_right before List.mem_cons_self
    simp only [List.nil_append, splitLast.eq_def ('_' :: '_' :: after), hsecond]
  | cons c before ih => simp only [List.cons_append, splitLast.eq_def (c :: _), ih]

/-- A field is read back from the key that is written for it and an operator with a suffix. -/
theorem read_write {field : String} {op : Operator} (hfield : field ≠ "") (hop : op ≠ .eq) :
    read (write field op) = (field, op) := by
  obtain ⟨suffixed, hsuffix⟩ := Operator.exists_suffix hop
  have hfull : field.toList.isEmpty = false := by simpa using hfield
  rw [read, toList_write hsuffix, splitLast_append _ (Operator.underscore_not_mem_suffix hsuffix)]
  simp only [String.ofList_toList, Operator.suffix?_eq_some_iff.1 hsuffix, hfull,
    Bool.false_eq_true, if_false]

/-- A key is read as a field that is compared for equality, or it is written for another operator on
some field. -/
theorem read_cases (key : String) : read key = (key, .eq)
    ∨ ∃ field op, field ≠ "" ∧ op ≠ .eq ∧ key = write field op := by
  unfold read
  split
  · rename_i before after hsplit
    split
    · rename_i op hop
      split
      · exact .inl rfl
      · rename_i hfull
        have hsuffix := Operator.suffix?_eq_some_iff.2 hop
        refine .inr ⟨String.ofList before, op, ?_, ?_, ?_⟩
        · simpa using hfull
        · rintro rfl
          cases hsuffix
        · rw [← String.toList_inj, toList_write hsuffix, eq_append_of_splitLast hsplit,
            String.toList_ofList, String.toList_ofList]
    · exact .inl rfl
  · exact .inl rfl

/-- What a key names is the beginning of the key, so it is an identifier if the key is one. -/
theorem isIdentifier_of_write {field : String} {op : Operator} (hfield : field ≠ "")
    (h : Text.isIdentifier (write field op) = true) : Text.isIdentifier field = true := by
  cases hsuffix : op.suffix? with
  | none => rwa [write, hsuffix] at h
  | some suffixed =>
    obtain ⟨hsize, first, rest, hlist, hfirst, hrest⟩ := Text.isIdentifier_iff.1 h
    rw [toList_write hsuffix] at hlist
    rw [write, hsuffix, String.utf8ByteSize_append, String.utf8ByteSize_append] at hsize
    cases hchars : field.toList with
    | nil => exact absurd (String.toList_eq_nil_iff.1 hchars) hfield
    | cons c cs =>
      rw [hchars] at hlist
      obtain ⟨rfl, rfl⟩ := List.cons.inj hlist
      exact Text.isIdentifier_iff.2
        ⟨by omega, c, cs, hchars, hfirst, fun d hd => hrest d (List.mem_append_left _ hd)⟩

end FilterKey

/-- **Which filters keys can express.** The key that is written for a column and an operator is read
back as this column and this operator, unless the operator is equality and the name of the column is
itself the key that is written for a column and another operator: then it is read as that column and
that operator. -/
theorem FilterEntry.ofKey_write_iff {field : String} (hfield : Text.isIdentifier field = true)
    (op : Operator) (value : Value) :
    (FilterEntry.ofKey (FilterKey.write field op) value = ⟨field, op, value⟩
      ↔ ¬ (op = .eq ∧ ∃ other op', Text.isIdentifier other = true ∧ op' ≠ .eq
        ∧ field = FilterKey.write other op'))
    ∧ ∀ other op', Text.isIdentifier other = true → op' ≠ .eq → field = FilterKey.write other op' →
        FilterEntry.ofKey (FilterKey.write field .eq) value = ⟨other, op', value⟩ := by
  have hnonempty {name : String} (h : Text.isIdentifier name = true) : name ≠ "" := by
    rintro rfl
    exact absurd h (by decide)
  have hread {other : String} {op' : Operator} (hother : Text.isIdentifier other = true)
      (hop : op' ≠ .eq) :
      FilterEntry.ofKey (FilterKey.write other op') value = ⟨other, op', value⟩ := by
    rw [FilterEntry.ofKey, FilterKey.read_write (hnonempty hother) hop]
  refine ⟨?_, fun other op' hother hop heq => heq ▸ hread hother hop⟩
  by_cases hop : op = .eq
  · subst hop
    rw [FilterKey.write_eq]
    constructor
    · rintro h ⟨-, other, op', hother, hop, rfl⟩
      rw [hread hother hop] at h
      exact hop (FilterEntry.mk.inj h).2.1
    · intro h
      rcases FilterKey.read_cases field with heq | ⟨other, op', hother, hop, rfl⟩
      · rw [FilterEntry.ofKey, heq]
      · exact absurd ⟨rfl, other, op', FilterKey.isIdentifier_of_write hother hfield, hop, rfl⟩ h
  · exact iff_of_true (hread hfield hop) fun h => hop h.1

/-- The name ends in an underscore, and three underscores stand in the key. -/
theorem FilterEntry.key_of_age_read : FilterKey.write "age_" .gte = "age___gte"
    ∧ FilterEntry.ofKey "age___gte" (.int 30) = ⟨"age_", .gte, .int 30⟩ :=
  ⟨by decide, (FilterEntry.ofKey_write_iff
    (show Text.isIdentifier "age_" = true by decide) .gte (.int 30)).1.2
    fun h => nomatch h.1⟩

/-- A column may be named like the key of another operator, and then equality with it cannot be
written. -/
theorem FilterEntry.equality_read_as_inequality : Text.isIdentifier "a__ne" = true
    ∧ FilterEntry.ofKey (FilterKey.write "a__ne" .eq) (.int 1) = ⟨"a", .ne, .int 1⟩
    ∧ FilterEntry.ofKey (FilterKey.write "a__ne" .eq) (.int 1) ≠ ⟨"a__ne", .eq, .int 1⟩ := by
  have hread : FilterEntry.ofKey (FilterKey.write "a__ne" .eq) (.int 1) = ⟨"a", .ne, .int 1⟩ := rfl
  refine ⟨by decide, hread, ?_⟩
  rw [hread]
  exact fun h => nomatch (FilterEntry.mk.inj h).2.1

namespace FilterKey

/-! ## The field that is checked -/

/-- The field of a key as the check of a datasource takes it: what stands before the first double
underscore. -/
def checkedField (key : String) : String := String.ofList (beforeFirst key.toList)

/-- The field of a key as a request takes it. -/
def requestedField (key : String) : String := (read key).1

/-- Whether there are two underscores in a row. -/
def HasMark (cs : List Char) : Prop := ['_', '_'] <:+: cs

instance (cs : List Char) : Decidable (HasMark cs) :=
  inferInstanceAs (Decidable (['_', '_'] <:+: cs))

theorem hasMark_cons_iff {c : Char} {rest : List Char} :
    HasMark (c :: rest) ↔ (c = '_' ∧ ∃ after, rest = '_' :: after) ∨ HasMark rest := by
  rw [HasMark, List.infix_cons_iff, HasMark, List.cons_prefix_cons]
  refine or_congr_left (and_congr eq_comm ⟨?_, ?_⟩)
  · rintro ⟨after, rfl⟩
    exact ⟨after, rfl⟩
  · rintro ⟨after, rfl⟩
    exact ⟨after, rfl⟩

theorem beforeFirst_prefix (cs : List Char) : beforeFirst cs <+: cs := by
  fun_induction beforeFirst cs with
  | case1 => exact List.prefix_refl []
  | case2 => exact List.nil_prefix
  | case3 c rest _ ih => exact (List.cons_prefix_cons).2 ⟨rfl, ih⟩

theorem beforeFirst_eq_self_iff {cs : List Char} : beforeFirst cs = cs ↔ ¬ HasMark cs := by
  fun_induction beforeFirst cs with
  | case1 => exact iff_of_true rfl (by decide)
  | case2 rest =>
    exact iff_of_false nofun (not_not_intro (hasMark_cons_iff.2 (.inl ⟨rfl, rest, rfl⟩)))
  | case3 c rest hfirst ih =>
    rw [List.cons.injEq, eq_self, true_and, ih, hasMark_cons_iff, or_iff_right]
    rintro ⟨rfl, after, rfl⟩
    exact hfirst after rfl rfl

/-- What stands before a double underscore stands before the first one, unless it has one itself,
alone or together with the underscore that follows. -/
theorem beforeFirst_append_eq_iff {field after : List Char} :
    beforeFirst (field ++ '_' :: '_' :: after) = field ↔ ¬ HasMark (field ++ ['_']) := by
  induction field with
  | nil => exact iff_of_true rfl (by decide)
  | cons c rest ih =>
    -- whether a double underscore begins here is seen in the next underscore already
    have hnext : (∃ x, rest ++ '_' :: '_' :: after = '_' :: x) ↔ ∃ x, rest ++ ['_'] = '_' :: x := by
      cases rest with
      | nil => exact iff_of_true ⟨_, rfl⟩ ⟨_, rfl⟩
      | cons d rest => simp
    rw [List.cons_append, List.cons_append, hasMark_cons_iff, ← hnext]
    by_cases hmark : c = '_' ∧ ∃ x, rest ++ '_' :: '_' :: after = '_' :: x
    · obtain ⟨rfl, x, hx⟩ := hmark
      rw [hx]
      exact iff_of_false nofun (not_not_intro (.inl ⟨rfl, x, rfl⟩))
    · rw [beforeFirst.eq_3 _ _ fun x hc hx =>
        hmark ⟨hc, x, hx⟩, List.cons.injEq, eq_self, true_and, ih,
        or_iff_right hmark]

theorem beforeFirst_append_prefix (field after : List Char) :
    beforeFirst (field ++ '_' :: '_' :: after) <+: field := by
  induction field with
  | nil => exact List.nil_prefix
  | cons c rest ih =>
    rw [List.cons_append]
    unfold beforeFirst
    split
    · exact List.nil_prefix
    · exact List.nil_prefix
    · rename_i heq
      obtain ⟨rfl, rfl⟩ := List.cons.inj heq
      exact List.cons_prefix_cons.2 ⟨rfl, ih⟩

/-- The field that is checked is a beginning of the field that is requested. -/
theorem checkedField_prefix (key : String) :
    (checkedField key).toList <+: (requestedField key).toList := by
  rw [checkedField, String.toList_ofList]
  rcases read_cases key with heq | ⟨field, op, hfield, hop, rfl⟩
  · rw [requestedField, heq]
    exact beforeFirst_prefix key.toList
  · obtain ⟨suffixed, hsuffix⟩ := Operator.exists_suffix hop
    rw [requestedField, read_write hfield hop, toList_write hsuffix]
    exact beforeFirst_append_prefix field.toList suffixed.toList

/-- A key without a double underscore but the one before the suffix of its operator. -/
inductive Plain : String → Prop where
  /-- equality with a field -/
  | bare {key : String} (hkey : ¬ HasMark key.toList) : Plain key
  /-- another operator on a field that does not end in an underscore either -/
  | suffixed {field : String} {op : Operator} (hop : op ≠ .eq) (hfield : field ≠ "")
      (hmark : ¬ HasMark (field.toList ++ ['_'])) : Plain (write field op)

/-- The field that is checked is the one that is requested for plain keys, and for no others. -/
theorem checkedField_eq_iff {key : String} : checkedField key = requestedField key ↔ Plain key := by
  rcases read_cases key with heq | ⟨field, op, hfield, hop, rfl⟩
  · rw [requestedField, heq, checkedField, ← String.toList_inj, String.toList_ofList,
      beforeFirst_eq_self_iff]
    refine ⟨.bare, fun h => ?_⟩
    cases h with
    | bare hkey => exact hkey
    | suffixed hop hfield =>
      -- a key with the suffix of an operator is not read as equality
      rw [read_write hfield hop] at heq
      exact absurd (congrArg Prod.snd heq) hop
  · obtain ⟨suffixed, hsuffix⟩ := Operator.exists_suffix hop
    rw [requestedField, read_write hfield hop, checkedField, ← String.toList_inj,
      String.toList_ofList, toList_write hsuffix, beforeFirst_append_eq_iff]
    refine ⟨.suffixed hop hfield, fun h => ?_⟩
    generalize hkey : write field op = key at h
    cases h with
    | bare hbare =>
      rw [← hkey, toList_write hsuffix] at hbare
      exact absurd ⟨field.toList, suffixed.toList, by simp⟩ hbare
    | suffixed hop' hfield' hmark =>
      have hread := read_write hfield hop
      rw [hkey, read_write hfield' hop'] at hread
      obtain ⟨rfl, -⟩ := Prod.mk.inj hread
      exact hmark

/-- A key that is not plain has a double underscore in its field, or at the end of it. -/
theorem hasMark_of_not_plain {key : String} (h : ¬ Plain key) :
    HasMark ((requestedField key).toList ++ ['_']) := by
  rcases read_cases key with heq | ⟨field, op, hfield, hop, rfl⟩
  · rw [requestedField, heq]
    by_contra hmark
    exact h (.bare fun hkey => hmark (hkey.trans (List.prefix_append _ _).isInfix))
  · rw [requestedField, read_write hfield hop]
    by_contra hmark
    exact h (.suffixed hop hfield hmark)

end FilterKey

/-! ## Tables and keys -/

namespace Compile

/-- The datasource that has nothing but a filter of one key. -/
def keyDatasource (key : String) (value : Value) : Datasource :=
  { filter := some (.ofList [(key, value)]) }

/-- A table is asked for the checked field of the key. -/
theorem checkDatasource_key_iff {table : Table} {resource key : String} {value : Value} :
    checkDatasource table resource (keyDatasource key value) = .ok ()
      ↔ table.hasColumn (FilterKey.checkedField key) = true := by
  rw [checkDatasource_eq_ok_iff]
  show (∀ field ∈ [FilterKey.checkedField key], _) ↔ _
  rw [List.forall_mem_singleton]

/-- The columns that every table has under the usual settings, if it declares no key. -/
def ordinaryNames : List String := [createdColumn, updatedColumn, "id"]

theorem isIdentifier_of_ordinary {name : String} (h : name ∈ ordinaryNames) :
    Text.isIdentifier name = true := by
  have hall : ∀ name ∈ ordinaryNames, Text.isIdentifier name = true := by decide
  exact hall name h

theorem not_hasMark_of_ordinary {name : String} (h : name ∈ ordinaryNames) :
    ¬ FilterKey.HasMark (name.toList ++ ['_']) := by
  have hall : ∀ name ∈ ordinaryNames, ¬ FilterKey.HasMark (name.toList ++ ['_']) := by
    decide +kernel
  exact hall name h

/-- One resource, a sheet with the given fields. -/
def sheetDomain (fields : NameMap Field) : Domain := .ofList [("sheet", { fields := fields })]

/-- A sheet with one field of texts has a column for it, if its name is an identifier and no
ordinary one. -/
theorem exists_ownTable_of_field {field : String} (hordinary : field ∉ ordinaryNames) :
    ∃ t, ownTable {} ("sheet", { fields := .ofList [(field, { typeName := "string" })] }) = .ok t
      ∧ t.resource = "sheet" ∧ t.columnNames = ["id", field, createdColumn, updatedColumn] := by
  have hreserved : ordinaryNames.contains field = false := by simpa using hordinary
  have hcolumn : ownColumn "sheet" ordinaryNames (field, { typeName := "string" })
      = .ok (some { name := field, type := .text }) := by
    simp only [ownColumn, hreserved, Bool.false_eq_true, if_false]
    rfl
  have hidentity : identityColumns {} { fields := .ofList [(field, { typeName := "string" })] }
      = .ok [.identity "id"] := rfl
  exact ⟨_, bind_eq_ok_iff.2
    ⟨_, hidentity, bind_eq_ok_iff.2 ⟨_, mapM_eq_ok_iff.2 (.cons hcolumn .nil),
    bind_eq_ok_iff.2 ⟨[], rfl, rfl⟩⟩⟩, rfl, rfl⟩

/-- A field with an ordinary name is a column of a table that compiles. -/
theorem exists_table_of_field {field : String} (hfield : Text.isIdentifier field = true)
    (hordinary : field ∉ ordinaryNames) :
    ∃ schema table, Schema.ofDomain {}
      (sheetDomain (.ofList [(field, { typeName := "string" })])) = .ok schema
      ∧ schema.table "sheet" = .ok table
        ∧ table.columnNames = ["id", field, createdColumn, updatedColumn] := by
  let sheet : Resource := { fields := .ofList [(field, { typeName := "string" })] }
  obtain ⟨t, ht, hresource, hnames⟩ := exists_ownTable_of_field hordinary
  have hcheck : (sheetDomain sheet.fields).check = .ok () := by
    refine forM_eq_ok_iff.2 fun entry hentry => ?_
    obtain rfl : entry = ("sheet", sheet) := List.mem_singleton.1 hentry
    have hname : demandIdentifier "sheet" = .ok () := rfl
    have hfields : sheet.fields.keys.forM demandIdentifier = .ok () :=
      forM_eq_ok_iff.2 (List.forall_mem_singleton.2 (demandIdentifier_eq_ok_iff.2 hfield))
    exact bind_eq_ok_iff.2 ⟨(), hname, bind_eq_ok_iff.2 ⟨(), hfields, rfl⟩⟩
  -- nothing points at another resource, so the table is only finished
  have hschema : Schema.ofDomain {} (sheetDomain sheet.fields)
      = .ok ⟨[withLists [] (withReferences t [])], [], []⟩ :=
    bind_eq_ok_iff.2 ⟨(), hcheck, bind_eq_ok_iff.2 ⟨[t], mapM_eq_ok_iff.2 (.cons ht .nil),
      bind_eq_ok_iff.2 ⟨[[]], mapM_eq_ok_iff.2 (.cons rfl .nil), rfl⟩⟩⟩
  refine ⟨_, withLists [] (withReferences t []), hschema, ?_, ?_⟩
  · simp [Schema.table, Schema.table?, Schema.resources, withLists, withReferences, hresource]
  · rw [← hnames]
    simp [Table.columnNames, withLists, withReferences]

/-- For every identifier there is a table with a column of this name, and all others it has are
ordinary. -/
theorem exists_table_of_identifier {field : String} (hfield : Text.isIdentifier field = true) :
    ∃ domain schema table, Schema.ofDomain {} domain = .ok schema ∧ schema.table "sheet" = .ok table
      ∧ ∀ name, table.hasColumn name = true ↔ name = field ∨ name ∈ ordinaryNames := by
  by_cases hordinary : field ∈ ordinaryNames
  · refine ⟨sheetDomain {}, ⟨[_], [], []⟩, _, rfl, rfl, fun name => ?_⟩
    rw [Table.hasColumn_iff, or_iff_right_of_imp (by rintro rfl; exact hordinary)]
    show name ∈ ["id", createdColumn, updatedColumn] ↔ _
    simp only [ordinaryNames, List.mem_cons, List.not_mem_nil, or_comm, or_left_comm]
  · obtain ⟨schema, table, hschema, htable, hnames⟩ := exists_table_of_field hfield hordinary
    refine ⟨_, schema, table, hschema, htable, fun name => ?_⟩
    rw [Table.hasColumn_iff, hnames]
    simp only [ordinaryNames, List.mem_cons, List.not_mem_nil, or_comm, or_left_comm]

end Compile

namespace Catalog

open FilterKey

variable {settings : Settings} {domain : Domain} {catalog : Catalog}

/-- A column by which a resource is read has an identifier for its name. -/
theorem isIdentifier_of_hasColumn (hcompiles : Catalog.ofDomain settings domain = .ok catalog)
    {resource name : String} {table : Table} (htable : catalog.schema.table resource = .ok table)
    (hcolumn : table.hasColumn name = true) : Text.isIdentifier name = true := by
  obtain ⟨schema, hschema, rfl⟩ := map_eq_ok_iff.1 hcompiles
  obtain ⟨parts, links, h⟩ := exists_assembly hschema
  obtain ⟨part, hpart, hshares⟩ := h.exists_part (Schema.mem_of_table htable).1
  refine (h.base_identifiers (h.mem_bases.2 ⟨part, hpart, rfl⟩)).2 name ?_
  rw [Table.hasColumn_iff, Table.columnNames, hshares.columns] at hcolumn
  exact hcolumn

/-- **When startup and requests read a key alike.** The check of a datasource asks a table for the
field before the first double underscore of a key, which is a beginning of the field that a request
asks for. They are the same field just for plain keys: those that have no double underscore but the
one before the suffix of an operator, and no underscore before that one. Of a plain key the check
says of every table what a request finds there. Of any other key it is wrong about some table,
accepting what no request can read or refusing what every request can, unless neither field is an
identifier, so that no table has a column of either name. -/
theorem filter_key_read_alike_iff (key : String) (value : Value) :
    (∀ table resource, checkDatasource table resource (keyDatasource key value) = .ok ()
        ↔ table.hasColumn (checkedField key) = true)
    ∧ (checkedField key).toList <+: (FilterEntry.ofKey key value).field.toList
    ∧ (checkedField key = (FilterEntry.ofKey key value).field ↔ Plain key)
    ∧ ((∀ settings domain catalog resource table, Catalog.ofDomain settings domain = .ok catalog →
          catalog.schema.table resource = .ok table →
          (checkDatasource table resource (keyDatasource key value) = .ok ()
            ↔ table.hasColumn (FilterEntry.ofKey key value).field = true))
        ↔ Plain key ∨ Text.isIdentifier (checkedField key) = false
            ∧ Text.isIdentifier (FilterEntry.ofKey key value).field = false) := by
  have hfield : (FilterEntry.ofKey key value).field = requestedField key := rfl
  rw [hfield]
  refine ⟨fun _ _ => checkDatasource_key_iff, checkedField_prefix key, checkedField_eq_iff, ?_⟩
  simp only [checkDatasource_key_iff]
  constructor
  · intro hall
    by_contra hneither
    rw [not_or, not_and_or, Bool.not_eq_false, Bool.not_eq_false] at hneither
    obtain ⟨hplain, hidentifier⟩ := hneither
    have hdiffer : checkedField key ≠ requestedField key := mt checkedField_eq_iff.1 hplain
    have hordinary : requestedField key ∉ ordinaryNames := fun hmem =>
      not_hasMark_of_ordinary hmem (hasMark_of_not_plain hplain)
    have hsheet {field : String} (hfield : Text.isIdentifier field = true) :
        (checkedField key = field ∨ checkedField key ∈ ordinaryNames)
          ↔ requestedField key = field ∨ requestedField key ∈ ordinaryNames := by
      obtain ⟨domain, schema, table, hschema, htable, hcolumns⟩ := exists_table_of_identifier hfield
      rw [← hcolumns, ← hcolumns]
      exact hall {} domain ⟨schema, {}⟩ "sheet" table
        (map_eq_ok_iff.2 ⟨schema, hschema, rfl⟩) htable
    -- a table with the checked field if it can be one, else with the requested field, has one and
    -- not the other
    by_cases hchecked : Text.isIdentifier (checkedField key) = true
    · rcases (hsheet hchecked).1 (.inl rfl) with heq | hmem
      · exact hdiffer heq.symm
      · exact hordinary hmem
    · rcases (hsheet (hidentifier.resolve_left hchecked)).2 (.inl rfl) with heq | hmem
      · exact hdiffer heq
      · exact hchecked (isIdentifier_of_ordinary hmem)
  · rintro (hplain | ⟨hchecked, hrequested⟩) settings domain catalog resource table hcompiles htable
    · rw [checkedField_eq_iff.2 hplain]
    · refine iff_of_false (fun h => ?_) (fun h => ?_)
      · exact Bool.false_ne_true
          (hchecked.symm.trans (isIdentifier_of_hasColumn hcompiles htable h))
      · exact Bool.false_ne_true
          (hrequested.symm.trans (isIdentifier_of_hasColumn hcompiles htable h))

/-- A key with one double underscore before the suffix of an operator: what the check says, requests
find. -/
theorem key_of_age_read_alike : Plain "age__gte"
    ∧ ∀ settings domain catalog resource table, Catalog.ofDomain settings domain = .ok catalog →
        catalog.schema.table resource = .ok table →
        (checkDatasource table resource (keyDatasource "age__gte" (.int 30)) = .ok ()
          ↔ table.hasColumn (FilterEntry.ofKey "age__gte" (.int 30)).field = true) := by
  have hwrite : FilterKey.write "age" .gte = "age__gte" := by decide
  have hplain : Plain "age__gte" := hwrite ▸ .suffixed nofun (by decide) (by decide +kernel)
  exact ⟨hplain, (filter_key_read_alike_iff "age__gte" (.int 30)).2.2.2.2 (.inl hplain)⟩

/-- Guests with a first name and an age. -/
def guestDomain (datasource : Option Datasource) : Domain := .ofList [("guest", {
  fields := .ofList [("first__name", { typeName := "string" }), ("age", { typeName := "integer" })]
  datasource := datasource })]

/-- Guests cannot be filtered by their first names at startup, though requests find the column; and
they can be filtered by `age__le`, of which the check takes the age, and for which requests find no
column. -/
theorem keys_of_guests_read_apart :
    (∃ schema table, Schema.ofDomain {} (guestDomain none) = .ok schema
      ∧ schema.table "guest" = .ok table
      ∧ checkDatasource table "guest" (keyDatasource "first__name" (.string "Ann"))
        = .error (.invalidDatasource "guest" (.filterOnUnknownField "first"))
      ∧ table.hasColumn (FilterEntry.ofKey "first__name" (.string "Ann")).field = true
      ∧ checkDatasource table "guest" (keyDatasource "age__le" (.int 30)) = .ok ()
      ∧ table.hasColumn (FilterEntry.ofKey "age__le" (.int 30)).field = false)
    ∧ Schema.ofDomain {} (guestDomain (some (keyDatasource "first__name" (.string "Ann"))))
      = .error (.invalidDatasource "guest" (.filterOnUnknownField "first"))
    ∧ (Schema.ofDomain {} (guestDomain (some (keyDatasource "age__le" (.int 30))))).isOk = true :=
  ⟨⟨⟨[_], [], []⟩, _, rfl, rfl, rfl, rfl, rfl, rfl⟩, rfl, rfl⟩

end Catalog

end RecordStore
