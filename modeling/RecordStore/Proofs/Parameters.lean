import RecordStore.Catalog
import RecordStore.Proofs.Encoding

/-!
# Values stay out of the text

Whoever chooses the values of a filter or of a record chooses no part of the text of a statement.
Two commands of one shape, which may differ in all their values, have the same text: the steps that
put them together are followed side by side, with equally many parameters in both runs but any
parameters at all.

* **`Operator.Alike`**, **`Predicate.Alike`**, **`Command.Alike`** — what commands of one shape have
  in common.
* **`Sql.SameResult`** — steps that give the same wherever both succeed, whatever the parameters
  are.
* **`Command.sql_eq_of_alike`** — commands of one shape have the same text.
-/

namespace RecordStore

open Sql

/-! ## Commands of one shape -/

/-- What two operands of an operator have in common that may stand in one place of a text.
Comparisons with null have a text of their own, and so has the membership in the empty list. -/
def Operator.Alike : Operator → Value → Value → Prop
  | .eq, v, w | .ne, v, w => v.isNull = w.isNull
  | .isIn, v, w => v = .array [] ↔ w = .array []
  | _, _, _ => True

namespace Predicate

mutual

/-- The same tree with the same columns and operators. -/
inductive Alike : Predicate → Predicate → Prop where
  | compare {column : String} {op : Operator} {v w : Value} (h : op.Alike v w) :
      Alike (.compare column op v) (.compare column op w)
  | and {ps qs : List Predicate} (h : AllAlike ps qs) : Alike (.and ps) (.and qs)

inductive AllAlike : List Predicate → List Predicate → Prop where
  | nil : AllAlike [] []
  | cons {p q : Predicate} {ps qs : List Predicate} (head : Alike p q) (tail : AllAlike ps qs) :
      AllAlike (p :: ps) (q :: qs)

end

end Predicate

/-- Plans that read the same columns of the same table, in the same order and on the same page. -/
structure Plan.Alike (a b : Plan) : Prop where
  table : a.table = b.table
  columns : a.columns = b.columns
  predicate : a.predicate.Alike b.predicate
  order : a.order = b.order
  limit : a.limit = b.limit
  offset : a.offset = b.offset

/-- What a statement is written for. -/
inductive Command where
  | select (plan : Plan)
  | count (table : Table) (p : Predicate)
  | insert (table : Table) (r : Record)
  | upsert (table : Table) (r : Record)
  | update (table : Table) (p : Predicate) (r : Record)
  | delete (table : Table) (p : Predicate)

namespace Command

/-- The statement for a command. -/
def write (schema : String) : Command → Except StorageError Statement
  | select plan => Sql.select schema plan
  | count table p => Sql.count schema table p
  | insert table r => Sql.insert schema table r
  | upsert table r => Sql.upsert schema table r
  | update table p r => Sql.update schema table p r
  | delete table p => Sql.delete schema table p

/-- Commands of one kind and table, with predicates of one shape and with records that have the same
names in the same order. -/
inductive Alike : Command → Command → Prop where
  | select {a b : Plan} (h : a.Alike b) : Alike (.select a) (.select b)
  | count {table : Table} {p q : Predicate} (h : p.Alike q) :
      Alike (.count table p) (.count table q)
  | insert {table : Table} {r s : Record} (h : r.keys = s.keys) :
      Alike (.insert table r) (.insert table s)
  | upsert {table : Table} {r s : Record} (h : r.keys = s.keys) :
      Alike (.upsert table r) (.upsert table s)
  | update {table : Table} {p q : Predicate}
      {r s : Record} (hp : p.Alike q) (hr : r.keys = s.keys) :
      Alike (.update table p r) (.update table q s)
  | delete {table : Table} {p q : Predicate} (h : p.Alike q) :
      Alike (.delete table p) (.delete table q)

end Command

/-! ## Two runs side by side -/

namespace Sql

/-- From equally many parameters, two steps that succeed give the same and leave equally many
parameters. -/
def SameResult {α : Type} (x y : Binding α) : Prop :=
  ∀ ⦃ps qs : List Bind⦄, ps.length = qs.length → ∀ ⦃a b : α⦄ ⦃ps' qs' : List Bind⦄,
    Binds x ps a ps' → Binds y qs b qs' → a = b ∧ ps'.length = qs'.length

namespace SameResult

variable {α β ι κ : Type}

theorem pure (a : α) : SameResult (Pure.pure a) (Pure.pure a) := by
  intro ps qs hlength a b ps' qs' hx hy
  obtain ⟨rfl, rfl⟩ := binds_pure.1 hx
  obtain ⟨rfl, rfl⟩ := binds_pure.1 hy
  exact ⟨rfl, hlength⟩

theorem symm {x y : Binding α} (h : SameResult x y) : SameResult y x := by
  intro ps qs hlength a b ps' qs' hy hx
  obtain ⟨rfl, hparams⟩ := h hlength.symm hx hy
  exact ⟨rfl, hparams.symm⟩

/-- A step that fails agrees with every other. -/
theorem throw (e : StorageError) (y : Binding α) : SameResult (MonadExcept.throw e) y :=
  fun _ _ _ _ _ _ _ hx _ => absurd hx not_binds_throw

theorem bind {x y : Binding α} {f g : α → Binding β} (hxy : SameResult x y)
    (hfg : ∀ a, SameResult (f a) (g a)) : SameResult (x >>= f) (y >>= g) := by
  intro ps qs hlength b c ps' qs' hx hy
  obtain ⟨a, mid, ha, hb⟩ := binds_bind.1 hx
  obtain ⟨a', mid', ha', hc⟩ := binds_bind.1 hy
  obtain ⟨rfl, hmid⟩ := hxy hlength ha ha'
  exact hfg a hmid hb hc

theorem map {x y : Binding α} (hxy : SameResult x y) (f : α → β) :
    SameResult (f <$> x) (f <$> y) := by
  rw [← bind_pure_comp, ← bind_pure_comp]
  exact hxy.bind fun a => pure (f a)

theorem lift (r : Except StorageError α) : SameResult (r : Binding α) (r : Binding α) := by
  intro ps qs hlength a b ps' qs' hx hy
  obtain ⟨hr, rfl⟩ := binds_lift.1 hx
  obtain ⟨hr', rfl⟩ := binds_lift.1 hy
  exact ⟨Except.ok.inj (hr.symm.trans hr'), hlength⟩

/-- Parameters take the same place, whatever they hold. -/
theorem push (b c : Bind) : SameResult (Sql.push b) (Sql.push c) := by
  intro ps qs hlength m n ps' qs' hx hy
  obtain ⟨rfl, rfl⟩ := binds_push.1 hx
  obtain ⟨rfl, rfl⟩ := binds_push.1 hy
  simp [hlength]

theorem param (r s : Except StorageError Bind) {f g : Nat → Binding α}
    (hfg : ∀ n, SameResult (f n) (g n)) :
    SameResult ((r : Binding Bind) >>= fun b => Sql.push b >>= f)
      ((s : Binding Bind) >>= fun b => Sql.push b >>= g) := by
  intro ps qs hlength x y ps' qs' hx hy
  obtain ⟨b, mid, hr, hxs⟩ := binds_bind.1 hx
  obtain ⟨c, mid', hs, hys⟩ := binds_bind.1 hy
  obtain ⟨-, rfl⟩ := binds_lift.1 hr
  obtain ⟨-, rfl⟩ := binds_lift.1 hs
  exact (push b c).bind hfg hlength hxs hys

theorem mapM {f : ι → Binding α} {g : κ → Binding α} {items : List ι} {others : List κ}
    (h : List.Forall₂ (fun i j => SameResult (f i) (g j)) items others) :
    SameResult (items.mapM f) (others.mapM g) := by
  induction h with
  | nil => exact pure []
  | cons head _ ih =>
    rw [List.mapM_cons, List.mapM_cons]
    exact head.bind fun a => ih.bind fun rest => pure (a :: rest)

theorem forM {f g : ι → Binding Unit} {items : List ι} (h : ∀ i ∈ items, SameResult (f i) (g i)) :
    SameResult (items.forM f) (items.forM g) := by
  induction items with
  | nil => exact pure ()
  | cons i rest ih =>
    exact (h i List.mem_cons_self).bind fun _ => ih fun j hj => h j (List.mem_cons_of_mem i hj)

end SameResult

/-! ## The steps of a statement -/

section Steps

variable {table : Table}

namespace Condition

/-- An operator that compares with one value takes it as a parameter, unless it is compared with
null. -/
theorem ofComparison_of_ofOperator? {c : Column} {op : Operator} {comparator : Comparator}
    {v : Value} (hop : Comparator.ofOperator? op = some comparator)
    (hnull : op = .eq ∨ op = .ne → v.isNull = false) :
    ofComparison c op v = (do
      let place ← push (← Bind.ofValue c.name c.type v)
      return .compare c.name comparator place) := by
  unfold ofComparison
  split
  · cases hnull (.inl rfl)
  · cases hnull (.inr rfl)
  · cases hop
  · cases hop
  · rw [hop]

/-- Comparisons that are alike are rendered alike: what they compare with is a parameter in both. -/
theorem sameResult_ofComparison {c : Column} {op : Operator} {v w : Value} (h : op.Alike v w) :
    SameResult (ofComparison c op v) (ofComparison c op w) := by
  have hcompare {comparator : Comparator} (hop : Comparator.ofOperator? op = some comparator)
      (hv : op = .eq ∨ op = .ne → v.isNull = false) (hw : op = .eq ∨ op = .ne → w.isNull = false) :
      SameResult (ofComparison c op v) (ofComparison c op w) := by
    rw [ofComparison_of_ofOperator? hop hv, ofComparison_of_ofOperator? hop hw]
    exact SameResult.param _ _ fun place => SameResult.pure _
  cases op with
  | eq | ne =>
    have hnull : v.isNull = w.isNull := h
    cases hv : v.isNull with
    | false => exact hcompare rfl (fun _ => hv) fun _ => hnull ▸ hv
    | true =>
      rw [hv] at hnull
      cases v <;> cases hv
      cases w <;> cases hnull
      exact SameResult.pure _
  | isIn =>
    -- what is no list cannot be rendered, so it agrees with everything
    cases v with
    | array items =>
      cases w with
      | array others =>
        have hempty : items.isEmpty = others.isEmpty := by
          rw [Bool.eq_iff_iff]
          simpa [Operator.Alike] using h
        rw [ofComparison, ofComparison, hempty]
        split
        · exact SameResult.pure _
        · exact SameResult.param _ _ fun place => SameResult.pure _
      | _ => exact (SameResult.throw _ _).symm
    | _ => exact SameResult.throw _ _
  | startsWith =>
    cases v with
    | string s =>
      cases w with
      | string t => exact (SameResult.push _ _).bind fun place => SameResult.pure _
      | _ => exact (SameResult.throw _ _).symm
    | _ => exact SameResult.throw _ _
  | _ => exact hcompare rfl nofun nofun

mutual

theorem sameResult_ofPredicate : ∀ {p q : Predicate}, p.Alike q →
    SameResult (ofPredicate table p) (ofPredicate table q)
  | _, _, .compare h => by
    rw [ofPredicate, ofPredicate]
    exact (SameResult.lift _).bind fun c => sameResult_ofComparison h
  | _, _, .and .nil => by
    rw [ofPredicate]
    exact SameResult.pure _
  | _, _, .and (.cons head tail) => by
    rw [ofPredicate.eq_3 _ _ (List.cons_ne_nil _ _), ofPredicate.eq_3 _ _ (List.cons_ne_nil _ _)]
    exact (sameResult_ofPredicates (.cons head tail)).map _

theorem sameResult_ofPredicates : ∀ {ps qs : List Predicate}, Predicate.AllAlike ps qs →
    SameResult (ofPredicates table ps) (ofPredicates table qs)
  | _, _, .nil => by
    rw [ofPredicates]
    exact SameResult.pure _
  | _, _, .cons head tail => by
    rw [ofPredicates, ofPredicates]
    exact (sameResult_ofPredicate head).bind fun c =>
      (sameResult_ofPredicates tail).bind fun cs => SameResult.pure _

end

end Condition

theorem isAlways_of_alike {p q : Predicate} (h : p.Alike q) : p.isAlways = q.isAlways := by
  cases h with
  | compare => rfl
  | and h => cases h <;> rfl

theorem sameResult_whereClause {p q : Predicate} (h : p.Alike q) :
    SameResult (whereClause table p) (whereClause table q) := by
  unfold whereClause
  rw [isAlways_of_alike h]
  split
  · exact SameResult.pure _
  · exact (Condition.sameResult_ofPredicate h).bind fun c => SameResult.pure _

theorem sameResult_columnValue {c : Column} {r s : Record} (h : r.keys = s.keys) :
    SameResult (columnValue r c) (columnValue s c) := by
  have hsome : (r.get? c.name).isSome = (s.get? c.name).isSome := by
    rw [Bool.eq_iff_iff, ← NameMap.mem_keys_iff, ← NameMap.mem_keys_iff, h]
  unfold columnValue
  cases hr : r.get? c.name with
  | none =>
    obtain hs : s.get? c.name = none := by simpa [hr] using hsome.symm
    rw [hs]
    exact SameResult.pure _
  | some v =>
    obtain ⟨w, hs⟩ : ∃ w, s.get? c.name = some w := by
      simpa [hr, Option.isSome_iff_exists] using hsome.symm
    rw [hs]
    exact SameResult.param _ _ fun place => SameResult.pure _

theorem sameResult_valuesOf {r s : Record} (h : r.keys = s.keys) :
    SameResult (valuesOf table r) (valuesOf table s) := by
  unfold valuesOf
  rw [h]
  refine (SameResult.forM fun name _ => (SameResult.lift _).map _).bind fun _ => ?_
  refine (SameResult.mapM ?_).bind fun values => SameResult.pure _
  exact List.forall₂_same.2 fun c _ => sameResult_columnValue h

theorem sameResult_assignment {name : String} {v w : Value} :
    SameResult (assignment table (name, v)) (assignment table (name, w)) :=
  (SameResult.lift _).bind fun _ => SameResult.param _ _ fun _ => SameResult.pure _

theorem sameResult_assignments {r s : Record} (h : r.keys = s.keys) :
    SameResult (r.entries.mapM (assignment table)) (s.entries.mapM (assignment table)) := by
  have hnames : List.Forall₂ (fun e f : String × Value => e.1 = f.1) r.entries s.entries := by
    have hkeys : r.entries.map Prod.fst = s.entries.map Prod.fst := h
    rwa [← List.forall₂_eq_eq_eq, List.forall₂_map_left_iff, List.forall₂_map_right_iff] at hkeys
  refine SameResult.mapM (hnames.imp ?_)
  rintro ⟨name, v⟩ ⟨_, w⟩ rfl
  exact sameResult_assignment

end Steps

/-- Steps that give the same make statements with the same text and with equally many parameters. -/
theorem SameResult.build {x y : Binding (List Piece)} (h : SameResult x y) {s t : Statement}
    (hs : Sql.build x = .ok s) (ht : Sql.build y = .ok t) :
    s.text = t.text ∧ s.params.length = t.params.length := by
  obtain ⟨⟨text, params⟩, hx, rfl⟩ := map_eq_ok_iff.1 hs
  obtain ⟨⟨text', params'⟩, hy, rfl⟩ := map_eq_ok_iff.1 ht
  exact h rfl hx hy

end Sql

/-! ## Statements -/

namespace Command

variable {schema : String} {q q' : Command} {s t : Statement}

/-- Statements that are alike are rendered word for word alike, with as many parameters. -/
theorem text_eq_of_alike (h : q.Alike q') (hs : q.write schema = .ok s)
    (ht : q'.write schema = .ok t) :
    s.text = t.text ∧ s.params.length = t.params.length := by
  cases h with
  | @select a b h =>
    refine SameResult.build ?_ hs ht
    rw [h.table, h.columns, h.order, h.limit, h.offset]
    exact (SameResult.mapM (List.forall₂_same.2 fun name _ => SameResult.lift _)).bind
      fun columns =>
      (sameResult_whereClause h.predicate).bind fun condition => SameResult.pure _
  | count h =>
    exact ((sameResult_whereClause h).bind fun condition => SameResult.pure _).build hs ht
  | insert h =>
    refine ((sameResult_valuesOf h).bind fun values => ?_).build hs ht
    dsimp only
    split <;> exact SameResult.pure _
  | @upsert table r r' h =>
    have hs : Sql.upsert schema table r = .ok s := hs
    have ht : Sql.upsert schema table r' = .ok t := ht
    unfold Sql.upsert at hs ht
    split at hs
    · cases hs
    split at ht
    · cases ht
    exact ((sameResult_valuesOf h).bind fun values => SameResult.pure _).build hs ht
  | @update table p p' r r' hp hr =>
    have hs : Sql.update schema table p r = .ok s := hs
    have ht : Sql.update schema table p' r' = .ok t := ht
    unfold Sql.update at hs ht
    split at hs
    · cases hs
    split at ht
    · cases ht
    exact ((sameResult_assignments hr).bind fun assignments =>
      (sameResult_whereClause hp).bind fun condition => SameResult.pure _).build hs ht
  | delete h =>
    exact ((sameResult_whereClause h).bind fun condition => SameResult.pure _).build hs ht

/-- **Values stay out of the text.** Two commands of one shape that can both be written have the
same text; all that can differ is what the parameters hold. -/
theorem sql_eq_of_alike (h : q.Alike q') (hs : q.write schema = .ok s)
    (ht : q'.write schema = .ok t) :
    s.sql = t.sql := by
  rw [Statement.sql, Statement.sql, (text_eq_of_alike h hs ht).1]

/-- Notes with a text. -/
def noteDomain : Domain :=
  .ofList [("note", { fields := .ofList [("text", { typeName := "string" })] })]

def noteCatalog : Catalog := .compiled {} noteDomain

/-- Write a new text over the others in two of the notes. -/
def rewrite (table : Table) (old new : String) : Command :=
  .update table
    (.and [.compare "id" .isIn (.array [.int 1, .int 2]), .compare "text" .ne (.string old)])
    (.ofList [("text", .string new)])

/-- Texts that look like parts of a statement are parameters like all others. -/
theorem rewrite_written : ∃ table s t, noteCatalog.schema.table "note" = .ok table
    ∧ (rewrite table "old" "new").write "public" = .ok s
    ∧ (rewrite table "' OR '1' = '1" "\"; DROP TABLE note; --").write "public" = .ok t
    ∧ s.sql = t.sql := by
  have hwritten : ((noteCatalog.schema.table "note").toOption.map fun table =>
      decide (((rewrite table "old" "new").write "public").toOption.isSome = true
        ∧ ((rewrite table "' OR '1' = '1" "\"; DROP TABLE note; --").write "public").toOption.isSome
          = true))
      = some true := by
    decide +kernel
  obtain ⟨table, htable, hwritten⟩ := Option.map_eq_some_iff.1 hwritten
  obtain ⟨hs, ht⟩ := of_decide_eq_true hwritten
  obtain ⟨s, hs⟩ := Option.isSome_iff_exists.1 hs
  obtain ⟨t, ht⟩ := Option.isSome_iff_exists.1 ht
  have hs := eq_ok_of_toOption hs
  have ht := eq_ok_of_toOption ht
  have hshape :
    (rewrite table "old" "new").Alike (rewrite table "' OR '1' = '1" "\"; DROP TABLE note; --") :=
    .update (.and (.cons (.compare Iff.rfl) (.cons (.compare rfl) .nil))) rfl
  exact ⟨table, s, t, eq_ok_of_toOption htable, hs, ht, sql_eq_of_alike hshape hs ht⟩

end Command

end RecordStore
