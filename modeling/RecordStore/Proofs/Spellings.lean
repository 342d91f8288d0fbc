import RecordStore.Proofs.Digits
import RecordStore.Proofs.Run

/-!
# Keys that are given as text

An identifier that comes out of a path or a query is text, also where the key of a resource is a
whole number. Such a text stands for the number that it spells: in decimal digits with a sign or
none, with any zeros in front of the digits, and with any blanks around the whole.

Text becomes a number in two places, where a filter is judged against its table and where an
identifier is taken for a key. So two filters that differ in the spelling of keys only are the same
predicate, and with that every operation that looks for a key does the same for the text and for the
number. An identifier that is found nowhere is reported as it was given; this is the one difference.

* **`Text.integer?_of_spells`** — a text is read as the number that it spells.
* **`Predicate.ofFilter_of_spells`** — filters that differ in the spelling of keys are one
  predicate.
* **`Catalog.spelled_keys_act_as_numbers`** — what is done with a text is what is done with the
  number.
-/

namespace RecordStore

open RecordStore.Action

/-! ## Spellings of a whole number -/

namespace Text

/-- The signs that a whole number can be written with: a minus unless it is above zero, a plus or
none unless it is below. -/
inductive Sign : Int → List Char → Prop where
  | minus {n : Int} (h : n ≤ 0) : Sign n ['-']
  | plus {n : Int} (h : 0 ≤ n) : Sign n ['+']
  | none {n : Int} (h : 0 ≤ n) : Sign n []

/-- A text spells a whole number if between blanks it is a sign, zeros and the digits of the
number. -/
inductive Spells (text : String) (n : Int) : Prop where
  | intro (before sign : List Char) (zeros : Nat) (after : List Char) (hbefore : ∀ c ∈ before,
      isBlank c = true)
      (hsign : Sign n sign) (hafter : ∀ c ∈ after, isBlank c = true)
      (htext : text.toList
        = before ++ (sign ++ (List.replicate zeros '0' ++ digitsOf n.natAbs) ++ after))

theorem not_blank_of_isDigit {c : Char} (h : isDigit c = true) : isBlank c = false := by
  have hle (a b : Char) : a ≤ b ↔ a.toNat ≤ b.toNat := by
    rw [Char.le_def, UInt32.le_iff_toNat_le]
    rfl
  have hbounds : '0'.toNat = 48 ∧ '9'.toNat = 57 := by decide
  simp only [isDigit, Bool.and_eq_true, decide_eq_true_eq, hle] at h
  simp only [isBlank, Bool.or_eq_false_iff, Bool.and_eq_false_iff, decide_eq_false_iff_not,
    beq_eq_false_iff_ne]
  omega

/-- Digits without a sign are read as a natural number. -/
theorem integer?_digits {ds : List Char} (h : ∀ c ∈ ds, isDigit c = true) :
    integer? ds = (natural? ds).map Int.ofNat := by
  unfold integer?
  split
  · exact absurd (h _ List.mem_cons_self) (by decide)
  · exact absurd (h _ List.mem_cons_self) (by decide)
  · rfl

/-- Between its blanks a spelling is read as its number. -/
theorem integer?_signed_digits {n : Int} {sign : List Char} (h : Sign n sign) (zeros : Nat) :
    integer? (sign ++ (List.replicate zeros '0' ++ digitsOf n.natAbs)) = some n := by
  have hread := natural?_zeros_append zeros n.natAbs
  have hdigits : ∀ c ∈ List.replicate zeros '0' ++ digitsOf n.natAbs, isDigit c = true :=
    List.forall_mem_append.2 ⟨fun _ => isDigit_of_mem_zeros, fun _ => isDigit_of_mem_digitsOf⟩
  change natural? (List.replicate zeros '0' ++ digitsOf n.natAbs) = _ at hread
  cases h with
  | minus hn =>
    rw [List.singleton_append, integer?, hread]
    show some (-(n.natAbs : Int)) = some n
    rw [Option.some_inj]
    omega
  | plus hn =>
    rw [List.singleton_append, integer?, hread, Option.map_some, Option.some_inj,
      Int.ofNat_eq_natCast]
    omega
  | none hn =>
    rw [List.nil_append, integer?_digits hdigits, hread, Option.map_some, Option.some_inj,
      Int.ofNat_eq_natCast]
    omega

/-- **A text is read as the whole number that it spells**, however great the number is. -/
theorem integer?_of_spells {text : String} {n : Int} (h : Spells text n) :
    integer? (trimChars text.toList) = some n := by
  obtain ⟨before, sign, zeros, after, hbefore, hsign, hafter, htext⟩ := h
  -- what stands between the blanks are signs and digits, so nothing more than the blanks is taken
  -- off
  have hsigns : ∀ c ∈ sign, isBlank c = false := by
    cases hsign <;> simp [isBlank]
  have hdigits : ∀ c ∈ List.replicate zeros '0' ++ digitsOf n.natAbs, isBlank c = false :=
    List.forall_mem_append.2 ⟨fun _ hc => not_blank_of_isDigit (isDigit_of_mem_zeros hc),
      fun _ hc => not_blank_of_isDigit (isDigit_of_mem_digitsOf hc)⟩
  have hchars := List.forall_mem_append.2 ⟨hsigns, hdigits⟩
  rw [htext, trimChars_append hbefore hafter (fun c hc => hchars c (List.mem_of_head? hc))
    (fun c hc => hchars c (List.mem_of_getLast? hc)), integer?_signed_digits hsign]

end Text

/-! ## Filters that differ in the spelling of keys -/

/-- A value, or the whole number for a text that spells it. -/
inductive Value.Spells : Value → Value → Prop where
  | self (v : Value) : Spells v v
  | text {s : String} {n : Int} (h : Text.Spells s n) (hn : isSigned64 n = true) :
      Spells (.string s) (.int n)

/-- The same of what a key is compared with: one value, or the items of a list. -/
inductive Value.SpellsAll : Value → Value → Prop where
  | one {v w : Value} (h : v.Spells w) : SpellsAll v w
  | items {vs ws : List Value} (h : List.Forall₂ Value.Spells vs ws) :
      SpellsAll (.array vs) (.array ws)

/-- Two entries of a filter compare the same field in the same way, with the same value or, if the
field is the key, with a value and a spelling of it. -/
structure FilterEntry.Spells (key : String) (e e' : FilterEntry) : Prop where
  field : e.field = e'.field
  op : e.op = e'.op
  value : e.value = e'.value ∨ e.field = key ∧ e.value.SpellsAll e'.value

/-- Two filters differ in the spelling of keys only. -/
def Filter.Spells (key : String) (filter filter' : Filter) : Prop :=
  List.Forall₂ (FilterEntry.Spells key) filter filter'

theorem ColumnType.interpret_of_spells {v w : Value} (h : v.Spells w) :
    ColumnType.integer.interpret v = ColumnType.integer.interpret w := by
  cases h with
  | self => rfl
  | text hspells hn =>
    rw [interpret, Text.integer?_of_spells hspells]
    dsimp only
    rw [if_pos hn]
    rfl

theorem Filter.references_of_spells {key : String} {filter filter' : Filter}
    (h : filter.Spells key filter') (field : String) :
    filter.references field = filter'.references field := by
  induction h with
  | nil => rfl
  | cons hentry _ ih =>
    rw [references, List.any_cons, hentry.field]
    exact congrArg _ ih

theorem Filter.Spells.isEmpty_eq {key : String} {filter filter' : Filter}
    (h : filter.Spells key filter') :
    filter.isEmpty = filter'.isEmpty := by
  cases h <;> rfl

theorem Change.keyFilter_spells {table : Table} {v w : Value} (op : Operator) (h : v.SpellsAll w) :
    (keyFilter table op v).Spells table.primaryKey (keyFilter table op w) :=
  .cons ⟨rfl, rfl, .inr ⟨rfl, h⟩⟩ .nil

namespace Predicate

variable {field : String} {v w : Value}

theorem scalar_of_spells (h : v.Spells w) : scalar field .integer v = scalar field .integer w := by
  rw [scalar, scalar, ColumnType.interpret_of_spells h]

/-- Every operator does the same with a spelling as with what it spells, also where it takes
neither. -/
theorem operand_of_spells (op : Operator) (h : v.SpellsAll w) :
    operand field .integer op v = operand field .integer op w := by
  unfold operand
  split
  -- lists are taken item by item, and nothing that is spelled is a list
  · cases h with
    | one h =>
      cases h with
      | self => rfl
      | text => rfl
    | items h =>
      rw [listOperand, listOperand, mapM_eq_of_forall₂ (h.imp fun _ _ => scalar_of_spells)]
  · split
    -- a whole number is compared with no pattern
    · have hrejected (v : Value) :
        patternOperand field .integer v = reject (.notTextField field) := by
        cases v <;> rfl
      rw [hrejected, hrejected]
    · cases h with
      | one h => rw [scalarOperand, scalarOperand, scalar_of_spells h]
      | items h => rfl

variable {table : Table} {k : Column}

theorem ofEntry_of_spells (hk : table.keyColumn? = some k) (hinteger : k.type = .integer)
    {e e' : FilterEntry} (h : e.Spells table.primaryKey e') :
    ofEntry table e = ofEntry table e' := by
  obtain ⟨field, op, v⟩ := e
  obtain ⟨field', op', w⟩ := e'
  obtain ⟨rfl, rfl, hvalue⟩ := h
  rcases hvalue with rfl | ⟨rfl, hspells⟩
  · rfl
  · have hcolumn : table.column? table.primaryKey = some k := hk
    rw [ofEntry, ofEntry, hcolumn]
    dsimp only
    rw [hinteger, operand_of_spells op hspells]

/-- **Filters that differ in the spelling of keys are one predicate**, or are refused for the same
reason. -/
theorem ofFilter_of_spells (hk : table.keyColumn? = some k) (hinteger : k.type = .integer)
    {filter filter' : Filter} (h : filter.Spells table.primaryKey filter') (source : FilterSource)
    (showDeleted : Bool) :
    ofFilter table filter source showDeleted = ofFilter table filter' source showDeleted := by
  have hasked : filter.mapM (ofSourceEntry table source)
    = filter'.mapM (ofSourceEntry table source) := by
    refine mapM_eq_of_forall₂ (h.imp fun e e' hentry => ?_)
    rw [ofSourceEntry, ofSourceEntry, hentry.field, ofEntry_of_spells hk hinteger hentry]
  have hvisibility (defaults : Filter) :
      visibility table filter defaults showDeleted
        = visibility table filter' defaults showDeleted := by
    unfold visibility
    simp only [Filter.references_of_spells h]
  rw [ofFilter, ofFilter, hasked]
  simp only [hvisibility]

end Predicate

/-! ## Operations -/

namespace Change

variable {schema : Schema} {table : Table} {k : Column} {v w : Value}

theorem visibleKey_of_spells (hk : table.keyColumn? = some k) (hinteger : k.type = .integer)
    (h : v.Spells w) :
    visibleKey table v = visibleKey table w := by
  rw [visibleKey, visibleKey,
    Predicate.ofFilter_of_spells hk hinteger (keyFilter_spells .eq (.one h))]

theorem keyFor_of_spells (hk : table.keyColumn? = some k) (hinteger : k.type = .integer)
    (h : v.Spells w) :
    keyFor table v = keyFor table w := by
  rw [keyFor, keyFor, hk]
  dsimp only
  rw [hinteger, ColumnType.interpret_of_spells h]

/-- An update does the same for a spelling, or else there is nothing to update, which is reported as
it was asked for. -/
theorem update_of_spells (hk : table.keyColumn? = some k) (hinteger : k.type = .integer)
    (h : v.Spells w) (now : Time.Instant) (doc : Record) (db : Database) :
    db.transact (update schema table now v doc) = db.transact (update schema table now w doc)
      ∨ ∀ id, id = v ∨ id = w →
        db.transact (update schema table now id doc)
          = (.error (.notFound (.row table.resource id)), db) := by
  have hsame := visibleKey_of_spells hk hinteger h
  rcases hfound : outcome (visibleKey table w) (.begin db) with ⟨e | key?, tx⟩
  · left
    rw [Database.transact_eq, Database.transact_eq, update, update, outcome_bind, outcome_bind,
      hsame, hfound]
  · cases key? with
    | some key =>
      left
      rw [Database.transact_eq, Database.transact_eq, update, update, outcome_bind, outcome_bind,
        hsame, hfound]
    | none =>
      right
      have htx : tx = .begin db := (keeps_visibleKey w).of_yields (f := fun tx => tx) hfound
      intro id hid
      have hvisible : outcome (visibleKey table id) (.begin db) = (.ok none, .begin db) := by
        rcases hid with rfl | rfl
        · rw [hsame, hfound, htx]
        · rw [hfound, htx]
      rw [Database.transact_eq, update, outcome_bind, hvisible]
      rfl

end Change

namespace Catalog

variable {catalog : Catalog} {resource : String} {table : Table} {k : Column}

theorem plan_of_spells (htable : catalog.schema.table resource = .ok table)
    (hk : table.keyColumn? = some k) (hinteger : k.type = .integer) {lookup lookup' : Filter}
    (h : lookup.Spells table.primaryKey lookup') (request : Request) :
    catalog.plan resource request lookup = catalog.plan resource request lookup' := by
  have hnarrowed : lookup.mapM (Predicate.ofEntry table) = lookup'.mapM (Predicate.ofEntry table) :=
    mapM_eq_of_forall₂ (h.imp fun _ _ => Predicate.ofEntry_of_spells hk hinteger)
  rw [plan, plan, htable]
  show Plan.ofRequestAndLookup _ _ _ _ = Plan.ofRequestAndLookup _ _ _ _
  rw [Plan.ofRequestAndLookup, Plan.ofRequestAndLookup, hnarrowed, h.isEmpty_eq]

theorem rawPlan_of_spells (htable : catalog.schema.table resource = .ok table)
    (hk : table.keyColumn? = some k) (hinteger : k.type = .integer) {v w : Value} (h : v.Spells w) :
    catalog.rawPlan resource v = catalog.rawPlan resource w := by
  have hkey : ({ table with defaultFilter := {} } : Table).keyColumn? = some k := hk
  have hfilter :
    (Change.keyFilter table .eq v).Spells ({ table with defaultFilter := {} } : Table).primaryKey
      (Change.keyFilter table .eq w) := Change.keyFilter_spells .eq (.one h)
  rw [rawPlan, rawPlan, htable]
  show Predicate.ofFilter _ _ _ _ >>= _ = Predicate.ofFilter _ _ _ _ >>= _
  rw [Predicate.ofFilter_of_spells hkey hinteger hfilter]

theorem listPlan_of_spells (htable : catalog.schema.table resource = .ok table)
    (hk : table.keyColumn? = some k) (hinteger : k.type = .integer) {ids ids' : List Value}
    (h : List.Forall₂ Value.Spells ids ids') (projection : Option Projection) :
    catalog.listPlan resource ids projection = catalog.listPlan resource ids' projection := by
  rw [listPlan, listPlan, htable]
  show Predicate.ofFilter _ _ _ _ >>= _ = Predicate.ofFilter _ _ _ _ >>= _
  rw [Predicate.ofFilter_of_spells hk hinteger (Change.keyFilter_spells .isIn (.items h))]

/-- **A text acts as the whole number that it spells.** Where the key of a resource is a whole
number, everything that can be done with a key gives the same answer and leaves the same database
for a text as for the number of 64 bits that it spells: updates, replacements, reading one record by
its key or many by a list of keys, and finding and removing by a lookup on the key, whatever its
operators are. Where an update finds nothing, it reports the identifier as it was given. -/
theorem spelled_keys_act_as_numbers (htable : catalog.schema.table resource = .ok table)
    (hk : table.keyColumn? = some k) (hinteger : k.type = .integer) (db : Database) :
    (∀ text n, Text.Spells text n → isSigned64 n = true →
      (∀ now doc,
        (catalog.update resource now (.string text) doc db
          = catalog.update resource now (.int n) doc db
          ∨ ∀ id, id = .string text ∨ id = .int n →
            catalog.update resource now id doc db
              = (.error (.notFound (.row table.resource id)), db))
        ∧ catalog.replace resource now (.string text) doc db
          = catalog.replace resource now (.int n) doc db)
      ∧ catalog.findStored resource (.string text) db = catalog.findStored resource (.int n) db)
    ∧ (∀ ids ids', List.Forall₂ Value.Spells ids ids' → ∀ projection,
      catalog.findByKeys resource ids projection db
        = catalog.findByKeys resource ids' projection db)
    ∧ ∀ lookup lookup', Filter.Spells table.primaryKey lookup lookup' →
      (∀ request, catalog.find resource request lookup db = catalog.find resource request lookup' db
        ∧ catalog.findFirst resource request lookup db
          = catalog.findFirst resource request lookup' db)
      ∧ ∀ now, catalog.remove resource now lookup db = catalog.remove resource now lookup' db := by
  refine ⟨fun text n hspells hn => ⟨fun now doc => ⟨?_, ?_⟩, ?_⟩, fun ids ids' h projection => ?_,
    fun lookup lookup' h => ⟨fun request => ⟨?_, ?_⟩, fun now => ?_⟩⟩
  · simp only [update_of_table htable]
    exact Change.update_of_spells hk hinteger (.text hspells hn) now doc db
  · rw [replace_of_table htable, replace_of_table htable, Change.replace, Change.replace,
      Change.keyFor_of_spells hk hinteger (.text hspells hn)]
  · rw [findStored, findStored, rawPlan_of_spells htable hk hinteger (.text hspells hn)]
  · rw [findByKeys, findByKeys, listPlan_of_spells htable hk hinteger h]
  · rw [find, find, plan_of_spells htable hk hinteger h]
  · rw [findFirst, findFirst, plan_of_spells htable hk hinteger h]
  · rw [remove, remove, htable]
    show db.transact (Change.remove _ _ _ _) = db.transact (Change.remove _ _ _ _)
    rw [Change.remove, Change.remove, Predicate.ofFilter_of_spells hk hinteger h]

/-- A person with the least key of 64 bits, and one with a badge and a generated key. -/
def leastSteps : List Step := [
  (⟨0, 0⟩, .createTables),
  (⟨1, 0⟩, .insert "person" [.ofList [("id", .int (-9223372036854775808))]]),
  (⟨2, 0⟩, .insert "person" [.ofList [("badge", .object [])]])]

/-- The least key as it may be given, between blanks and with zeros in front. -/
def leastKey : String := "\u3000-0009223372036854775808 "

theorem spells_leastKey : Text.Spells leastKey (-9223372036854775808) :=
  .intro ['\u3000'] ['-'] 3 [' '] (List.forall_mem_singleton.2 rfl) (.minus (by decide))
    (List.forall_mem_singleton.2 rfl) (by decide)

/-- The person with the least key is updated, read and removed under the text of the key, also in a
list and by an operator of a lookup. -/
theorem least_person_found_by_text : ∃ table k, sampleCatalog.schema.table "person" = .ok table
    ∧ table.keyColumn? = some k ∧ k.type = .integer
    ∧ Text.Spells leastKey (-9223372036854775808) ∧ isSigned64 (-9223372036854775808) = true
    ∧ (sampleCatalog.update "person" ⟨3, 0⟩ (.string leastKey)
      {} (sampleCatalog.run leastSteps)).1.toOption = some ()
    ∧ (sampleCatalog.findStored "person" (.string leastKey)
      (sampleCatalog.run leastSteps)).1.toOption.isSome
    ∧ ((sampleCatalog.findByKeys "person" [.string "+2", .string leastKey, .int 1] none
        (sampleCatalog.run leastSteps)).1.toOption.map List.length) = some 2
    ∧ (sampleCatalog.remove "person" ⟨3, 0⟩ [⟨"id", .lte, .string leastKey⟩]
        (sampleCatalog.run leastSteps)).1.toOption = some 1 := by
  have hparts : ((sampleCatalog.schema.table "person").toOption.bind fun table =>
      table.keyColumn?.map fun k => decide (k.type = .integer ∧ table.primaryKey = "id"))
        = some true := by
    decide +kernel
  obtain ⟨table, htable, hparts⟩ := Option.bind_eq_some_iff.1 hparts
  obtain ⟨k, hk, hfacts⟩ := Option.map_eq_some_iff.1 hparts
  obtain ⟨hinteger, hid⟩ := of_decide_eq_true hfacts
  have htable := eq_ok_of_toOption htable
  have hleast : isSigned64 (-9223372036854775808) = true := by decide
  have htwo : Text.Spells "+2" 2 := .intro [] ['+'] 0 [] nofun (.plus (by decide)) nofun (by decide)
  obtain ⟨hkeys, hlists, hlookups⟩ :=
    spelled_keys_act_as_numbers htable hk hinteger (sampleCatalog.run leastSteps)
  obtain ⟨hchanges, hstored⟩ := hkeys leastKey _ spells_leastKey hleast
  have hlist :=
    hlists [.string "+2", .string leastKey, .int 1] [.int 2, .int (-9223372036854775808), .int 1]
    (.cons (.text htwo (by decide))
      (.cons (.text spells_leastKey hleast) (.cons (.self _) .nil))) none
  have hremoved :=
    (hlookups [⟨"id", .lte, .string leastKey⟩] [⟨"id", .lte, .int (-9223372036854775808)⟩]
    (.cons ⟨rfl, rfl, .inr ⟨hid.symm, .one (.text spells_leastKey hleast)⟩⟩ .nil)).2 ⟨3, 0⟩
  have hupdated : (sampleCatalog.update "person" ⟨3, 0⟩ (.int (-9223372036854775808)) {}
      (sampleCatalog.run leastSteps)).1.toOption = some () := by decide +kernel
  have hanswers : (sampleCatalog.findStored "person" (.int (-9223372036854775808))
        (sampleCatalog.run leastSteps)).1.toOption.isSome
      ∧ ((sampleCatalog.findByKeys "person" [.int 2, .int (-9223372036854775808), .int 1] none
        (sampleCatalog.run leastSteps)).1.toOption.map List.length) = some 2
      ∧ (sampleCatalog.remove "person" ⟨3, 0⟩ [⟨"id", .lte, .int (-9223372036854775808)⟩]
        (sampleCatalog.run leastSteps)).1.toOption = some 1 := by
    decide +kernel
  rw [hstored, hlist, hremoved]
  refine ⟨table, k, htable, hk, hinteger, spells_leastKey, hleast, ?_, hanswers⟩
  rcases (hchanges ⟨3, 0⟩ {}).1 with hsame | hnone
  · rw [hsame]
    exact hupdated
  · rw [hnone _ (.inr rfl)] at hupdated
    cases hupdated

end Catalog

end RecordStore
