import RecordStore.Proofs.Equality
import RecordStore.Proofs.Except
import RecordStore.Proofs.WellFormed
import RecordStore.Sql.Statement

/-!
# Statements that can be written

When a predicate or a record becomes a statement, every value goes into a parameter of the type of
its column. That fails for values that the column does not take, for lists with a null and for lists
that a document column is to be compared with. So whether a statement can be written is read off the
comparisons and the entries it is made of.

* **`Binds x ps a qs`** — from the parameters `ps` the step succeeds with `a` and leaves `qs`.
* **`Bind.ofValue_ok_iff`**, **`Bind.ofValues_ok_iff`** — the values that can be parameters.
* **`Condition.ofPredicate_ok_iff`** — the predicates that can be conditions.
* **`select_ok_iff`**, **`count_ok_iff`**, **`insert_ok_iff`**, **`upsert_ok_iff`**,
  **`update_ok_iff`**, **`delete_ok_iff`** — the statements.
-/

namespace RecordStore

namespace Sql

/-! ## Steps that add parameters -/

/-- From some parameters the step succeeds with a value and leaves the parameters given last. -/
def Binds {α : Type} (x : Binding α) (ps : List Bind) (a : α) (qs : List Bind) : Prop :=
  x.run ps = .ok (a, qs)

/-- From some parameters the step succeeds. -/
def CanBind {α : Type} (x : Binding α) (ps : List Bind) : Prop := ∃ a qs, Binds x ps a qs

section Binding

variable {α β : Type} {ps qs : List Bind}

theorem binds_pure {a b : α} : Binds (pure a) ps b qs ↔ b = a ∧ qs = ps := by
  rw [Binds, StateT.run_pure]
  simp [pure, Except.pure, eq_comm]

theorem binds_bind {x : Binding α} {f : α → Binding β} {b : β} :
    Binds (x >>= f) ps b qs ↔ ∃ a mid, Binds x ps a mid ∧ Binds (f a) mid b qs := by
  unfold Binds
  rw [StateT.run_bind, bind_eq_ok_iff, Prod.exists]

theorem binds_map {x : Binding α} {f : α → β} {b : β} :
    Binds (f <$> x) ps b qs ↔ ∃ a, Binds x ps a qs ∧ b = f a := by
  rw [← bind_pure_comp, binds_bind]
  constructor
  · rintro ⟨a, mid, hx, hb⟩
    obtain ⟨rfl, rfl⟩ := binds_pure.1 hb
    exact ⟨a, hx, rfl⟩
  · rintro ⟨a, hx, rfl⟩
    exact ⟨a, qs, hx, binds_pure.2 ⟨rfl, rfl⟩⟩

theorem binds_lift {r : Except StorageError α} {a : α} :
    Binds (r : Binding α) ps a qs ↔ r = .ok a ∧ qs = ps := by
  unfold Binds
  cases r <;> simp [liftM, monadLift, MonadLift.monadLift, StateT.run, StateT.lift, bind,
    Except.bind, pure,
    Except.pure, eq_comm]

theorem binds_push {b : Bind} {n : Nat} :
    Binds (push b) ps n qs ↔ n = ps.length + 1 ∧ qs = ps ++ [b] := by
  simp [Binds, push, StateT.run, eq_comm]

/-- A parameter is added for what has one value, and its place is used. -/
theorem binds_push_place {r : Except StorageError Bind} {f : Nat → α} {a : α} :
    Binds ((r : Binding Bind) >>= fun b => push b >>= fun n => pure (f n)) ps a qs
      ↔ ∃ b, r = .ok b ∧ a = f (ps.length + 1) ∧ qs = ps ++ [b] := by
  rw [binds_bind]
  constructor
  · rintro ⟨b, mid, hlift, h⟩
    obtain ⟨hr, rfl⟩ := binds_lift.1 hlift
    obtain ⟨n, mid', hpush, hpure⟩ := binds_bind.1 h
    obtain ⟨rfl, rfl⟩ := binds_push.1 hpush
    obtain ⟨rfl, rfl⟩ := binds_pure.1 hpure
    exact ⟨b, hr, rfl, rfl⟩
  · rintro ⟨b, hr, rfl, rfl⟩
    exact ⟨b, ps, binds_lift.2 ⟨hr, rfl⟩,
      binds_bind.2 ⟨_, _, binds_push.2 ⟨rfl, rfl⟩, binds_pure.2 ⟨rfl, rfl⟩⟩⟩

theorem binds_mapM_nil {f : α → Binding β} {ys : List β} :
    Binds (([] : List α).mapM f) ps ys qs ↔ ys = [] ∧ qs = ps := by
  rw [List.mapM_nil, binds_pure]

theorem binds_mapM_cons {f : α → Binding β} {x : α} {xs : List α} {ys : List β} :
    Binds ((x :: xs).mapM f) ps ys qs
      ↔ ∃ y mid rest, Binds (f x) ps y mid ∧ Binds (xs.mapM f) mid rest qs ∧ ys = y :: rest := by
  rw [List.mapM_cons, binds_bind]
  refine exists_congr fun y => exists_congr fun mid => ?_
  rw [exists_and_left]
  refine and_congr_right fun _ => binds_bind.trans (exists_congr fun rest => ?_)
  constructor
  · rintro ⟨last, hrest, hpure⟩
    obtain ⟨rfl, rfl⟩ := binds_pure.1 hpure
    exact ⟨hrest, rfl⟩
  · rintro ⟨hrest, rfl⟩
    exact ⟨qs, hrest, binds_pure.2 ⟨rfl, rfl⟩⟩

theorem not_binds_throw {e : StorageError} {a : α} : ¬ Binds (throw e) ps a qs := by
  simp [Binds, throw, throwThe, MonadExceptOf.throw, StateT.run, StateT.lift, bind, Except.bind]

/-! Whether a step succeeds. -/

theorem canBind_pure (a : α) : CanBind (pure a) ps := ⟨a, ps, binds_pure.2 ⟨rfl, rfl⟩⟩

theorem not_canBind_throw (e : StorageError) : ¬ CanBind (throw e : Binding α) ps :=
  fun ⟨_, _, h⟩ => not_binds_throw h

theorem canBind_lift_iff {r : Except StorageError α} :
    CanBind (r : Binding α) ps ↔ ∃ a, r = .ok a := by
  simp [CanBind, binds_lift]

/-- Of two steps both succeed, if the second does whatever the first gives. -/
theorem canBind_bind_iff {x : Binding α} {f : α → Binding β} {P Q : Prop} (hx : CanBind x ps ↔ P)
    (hf : ∀ a mid, Binds x ps a mid → (CanBind (f a) mid ↔ Q)) : CanBind (x >>= f) ps ↔ P ∧ Q := by
  rw [← hx]
  constructor
  · rintro ⟨b, qs, h⟩
    obtain ⟨a, mid, ha, hb⟩ := binds_bind.1 h
    exact ⟨⟨a, mid, ha⟩, (hf a mid ha).1 ⟨b, qs, hb⟩⟩
  · rintro ⟨⟨a, mid, ha⟩, hq⟩
    obtain ⟨b, qs, hb⟩ := (hf a mid ha).2 hq
    exact ⟨b, qs, binds_bind.2 ⟨a, mid, ha, hb⟩⟩

theorem canBind_map_iff {x : Binding α} {f : α → β} : CanBind (f <$> x) ps ↔ CanBind x ps := by
  rw [← bind_pure_comp, canBind_bind_iff Iff.rfl fun a mid _ => iff_true_intro (canBind_pure (f a)),
    and_true]

/-- A parameter is added for a value that can be one. -/
theorem canBind_push_iff {r : Except StorageError Bind} {f : Nat → Binding α}
    (hf : ∀ n mid, CanBind (f n) mid) :
    CanBind ((r : Binding Bind) >>= fun b => push b >>= f) ps ↔ ∃ b, r = .ok b := by
  have hpush (b : Bind) (mid : List Bind) : CanBind (push b >>= f) mid := by
    obtain ⟨a, qs, h⟩ := hf (mid.length + 1) (mid ++ [b])
    exact ⟨a, qs, binds_bind.2 ⟨_, _, binds_push.2 ⟨rfl, rfl⟩, h⟩⟩
  rw [canBind_bind_iff canBind_lift_iff fun b mid _ => iff_true_intro (hpush b mid), and_true]

theorem canBind_mapM_iff {f : α → Binding β} {items : List α} {P : α → Prop}
    (h : ∀ x ∈ items, ∀ ps, CanBind (f x) ps ↔ P x) :
    CanBind (items.mapM f) ps ↔ ∀ x ∈ items, P x := by
  induction items generalizing ps with
  | nil => simpa using canBind_pure []
  | cons x rest ih =>
    have hrest (mid : List Bind) := @ih mid fun y hy => h y (List.mem_cons_of_mem x hy)
    rw [List.mapM_cons, List.forall_mem_cons]
    refine canBind_bind_iff (h x List.mem_cons_self ps) fun y mid _ => ?_
    rw [canBind_bind_iff (hrest mid) fun _ _ _ => iff_true_intro (canBind_pure _), and_true]

theorem canBind_forM_iff {f : α → Binding Unit} {items : List α} {P : α → Prop}
    (h : ∀ x ∈ items, ∀ ps, CanBind (f x) ps ↔ P x) :
    CanBind (items.forM f) ps ↔ ∀ x ∈ items, P x := by
  induction items generalizing ps with
  | nil => simpa using canBind_pure ()
  | cons x rest ih =>
    rw [List.forall_mem_cons]
    exact canBind_bind_iff (h x List.mem_cons_self ps)
      fun _ mid _ => ih fun y hy => h y (List.mem_cons_of_mem x hy)

/-- A statement can be built if its step succeeds without parameters. -/
theorem build_ok_iff {step : Binding (List Piece)} :
    (∃ s, build step = .ok s) ↔ CanBind step [] := by
  unfold build CanBind Binds
  constructor
  · rintro ⟨s, hs⟩
    obtain ⟨⟨text, params⟩, hstep, -⟩ := map_eq_ok_iff.1 hs
    exact ⟨text, params, hstep⟩
  · rintro ⟨text, params, hstep⟩
    exact ⟨_, map_eq_ok_iff.2 ⟨_, hstep, rfl⟩⟩

end Binding

/-! ## Parameters -/

namespace Bind

theorem demand_eq_ok_iff {α : Type} {column : String} {type : ColumnType} {v : Value} {x : Option α}
    {a : α} : demand column type v x = .ok a ↔ x = some a := by
  cases x <;> simp [demand]

theorem map_demand_ok_iff {α β : Type} {column : String} {type : ColumnType} {v : Value}
    {x : Option α} {f : α → β} :
    (∃ b, (demand column type v x).map f = .ok b) ↔ x.isSome = true := by
  cases x <;> simp [demand, Except.map]

/-- **A value can be a parameter if its column takes it.** -/
theorem ofValue_ok_iff {column : String} {type : ColumnType} {v : Value} :
    (∃ b, ofValue column type v = .ok b) ↔ type.accepts v = true := by
  unfold ofValue
  cases type <;> cases v <;>
    simp [Value.isNull, map_demand_ok_iff, ColumnType.accepts, Value.text?, Value.bool?,
      Value.integer?, Value.double?, Value.instant?]

/-- Whether a value can be an item of a list that a column is compared with. -/
def takesItem (type : ColumnType) (v : Value) : Bool := !v.isNull && type.accepts v

theorem map_mapM_ok_iff {α β : Type} {column : String} {type : ColumnType} {items : List Value}
    {f : Value → Option α} {g : List α → β} :
    (∃ b, (items.mapM fun v => demand column type v (f v)).map g = .ok b)
      ↔ ∀ v ∈ items, (f v).isSome = true := by
  have hmap {r : Except StorageError (List α)} : (∃ b, r.map g = .ok b) ↔ ∃ a, r = .ok a := by
    cases r <;> simp [Except.map]
  rw [hmap, exists_mapM_ok_iff]
  refine forall₂_congr fun v _ => ?_
  simp only [demand_eq_ok_iff, Option.isSome_iff_exists]

/-- **A list can be a parameter if its items can**, none of which is null, and if the column is no
document. -/
theorem ofValues_ok_iff {column : String} {type : ColumnType} {items : List Value} :
    (∃ b, ofValues column type items = .ok b)
      ↔ type ≠ .json ∧ ∀ v ∈ items, takesItem type v = true := by
  have hitem {α : Type} {f : Value → Option α}
      (h : ∀ v, (f v).isSome = takesItem type v) :
      (∀ v ∈ items, (f v).isSome = true) ↔ ∀ v ∈ items, takesItem type v = true :=
    forall₂_congr fun v _ => by rw [h]
  unfold ofValues
  cases type with
  | json => simp
  | _ =>
    simp only [map_mapM_ok_iff, ne_eq, reduceCtorEq, not_false_eq_true, true_and]
    refine hitem fun v => Bool.eq_iff_iff.2 ?_
    cases v <;> simp [takesItem, ColumnType.accepts, Value.isNull, Value.text?,
      Value.bool?, Value.integer?,
      Value.double?, Value.instant?]

end Bind

/-! ## Conditions -/

/-- Whether a column of the type can be compared with a value by an operator. -/
def canCompare (type : ColumnType) : Operator → Value → Bool
  | .isIn, .array items => items.isEmpty || type != .json && items.all (Bind.takesItem type)
  | .isIn, _ => false
  | .startsWith, v => v.text?.isSome
  | _, v => type.accepts v

end Sql

/-- Whether a comparison of a predicate can be made in a table. -/
def Table.canCompare (table : Table) : Predicate → Bool
  | .compare column op v => (table.column? column).any fun c => Sql.canCompare c.type op v
  | .and _ => true

namespace Sql

namespace Condition

variable {table : Table} {ps : List Bind}

theorem canBind_ofComparison_iff {c : Column} {op : Operator} {v : Value} :
    CanBind (ofComparison c op v) ps ↔ Sql.canCompare c.type op v = true := by
  unfold ofComparison
  split
  · exact iff_of_true (canBind_pure _) (ColumnType.accepts_null c.type)
  · exact iff_of_true (canBind_pure _) (ColumnType.accepts_null c.type)
  · rename_i items
    rw [Sql.canCompare]
    split
    · rename_i hempty
      exact iff_of_true (canBind_pure _) (by rw [hempty]; rfl)
    · rename_i hsome
      rw [canBind_push_iff fun n mid => canBind_pure _, Bind.ofValues_ok_iff]
      simp [hsome]
  · refine iff_of_true ?_ rfl
    exact ⟨_, _, binds_bind.2 ⟨_, _, binds_push.2 ⟨rfl, rfl⟩, binds_pure.2 ⟨rfl, rfl⟩⟩⟩
  · rename_i hnotin hnotstart
    cases op with
    | isIn =>
      refine iff_of_false (not_canBind_throw _) ?_
      cases v <;> simp_all [Sql.canCompare]
    | startsWith =>
      refine iff_of_false (not_canBind_throw _) ?_
      cases v <;> simp_all [Sql.canCompare, Value.text?]
    | _ => exact (canBind_push_iff fun n mid => canBind_pure _).trans Bind.ofValue_ok_iff

theorem columnOf_eq_ok_iff {name : String} {c : Column} :
    columnOf table name = .ok c ↔ table.column? name = some c := by
  unfold columnOf
  cases table.column? name <;> simp

mutual

/-- A predicate can be bound exactly if each of its leaves can be compared. -/
theorem canBind_ofPredicate_iff (table : Table) : ∀ (p : Predicate) (ps : List Bind),
    CanBind (ofPredicate table p) ps ↔ ∀ leaf ∈ p.leaves, table.canCompare leaf = true
  | .compare column op v, ps => by
    rw [ofPredicate, Predicate.leaves, List.forall_mem_singleton]
    cases hcolumn : table.column? column with
    | none =>
      refine iff_of_false ?_ (by simp [Table.canCompare, hcolumn])
      rintro ⟨_, _, h⟩
      obtain ⟨c, _, hc, -⟩ := binds_bind.1 h
      rw [columnOf_eq_ok_iff.1 (binds_lift.1 hc).1] at hcolumn
      cases hcolumn
    | some c =>
      rw [canBind_bind_iff canBind_lift_iff (Q := Sql.canCompare c.type op v = true)
        fun c' mid hc => by
        obtain rfl :=
          Option.some.inj ((columnOf_eq_ok_iff.1 (binds_lift.1 hc).1).symm.trans hcolumn)
        exact canBind_ofComparison_iff]
      simp [columnOf, Table.canCompare, hcolumn]
  | .and [], ps => by
    rw [ofPredicate]
    exact iff_of_true (canBind_pure _) (by simp [Predicate.leaves, Predicate.leavesOfAll])
  | .and (q :: qs), ps => by
    rw [ofPredicate, canBind_map_iff, canBind_ofPredicates_iff table (q :: qs) ps, Predicate.leaves]
    simp

theorem canBind_ofPredicates_iff (table : Table) : ∀ (qs : List Predicate) (ps : List Bind),
    CanBind (ofPredicates table qs) ps
      ↔ ∀ leaf ∈ Predicate.leavesOfAll qs, table.canCompare leaf = true
  | [], ps => by
    rw [ofPredicates]
    exact iff_of_true (canBind_pure _) (by simp [Predicate.leavesOfAll])
  | q :: qs, ps => by
    rw [ofPredicates, Predicate.leavesOfAll, List.forall_mem_append]
    refine canBind_bind_iff (canBind_ofPredicate_iff table q ps) fun c mid _ => ?_
    rw [canBind_bind_iff (canBind_ofPredicates_iff table qs mid)
      fun _ _ _ => iff_true_intro (canBind_pure _), and_true]

end

end Condition

/-! ## Statements -/

section Statements

variable {schema : String} {table : Table} {p : Predicate} {ps : List Bind}

theorem canBind_whereClause_iff :
    CanBind (whereClause table p) ps ↔ ∀ leaf ∈ p.leaves, table.canCompare leaf = true := by
  unfold whereClause
  split
  · rename_i halways
    refine iff_of_true (canBind_pure _) ?_
    cases p with
    | compare => cases halways
    | and parts =>
      cases parts with
      | nil => simp [Predicate.leaves, Predicate.leavesOfAll]
      | cons => cases halways
  · rw [canBind_bind_iff (Condition.canBind_ofPredicate_iff table p ps)
      fun _ _ _ => iff_true_intro (canBind_pure _), and_true]

theorem exists_columnOf_iff {name : String} :
    (∃ c, columnOf table name = .ok c) ↔ table.hasColumn name = true := by
  simp only [Condition.columnOf_eq_ok_iff, Table.hasColumn, Option.isSome_iff_exists]

theorem canBind_columnOf_iff {name : String} :
    CanBind (columnOf table name : Binding Column) ps ↔ table.hasColumn name = true :=
  canBind_lift_iff.trans exists_columnOf_iff

theorem select_ok_iff {plan : Plan} : (∃ s, select schema plan = .ok s)
    ↔ (∀ name ∈ plan.columns, plan.table.hasColumn name = true)
      ∧ ∀ leaf ∈ plan.predicate.leaves, plan.table.canCompare leaf = true := by
  unfold select
  rw [build_ok_iff, canBind_bind_iff (canBind_mapM_iff fun name _ ps => canBind_columnOf_iff)]
  intro columns mid _
  rw [canBind_bind_iff canBind_whereClause_iff fun _ _ _ =>
    iff_true_intro (canBind_pure _), and_true]

theorem count_ok_iff : (∃ s, count schema table p = .ok s)
    ↔ ∀ leaf ∈ p.leaves, table.canCompare leaf = true := by
  unfold count
  rw [build_ok_iff, canBind_bind_iff canBind_whereClause_iff
    fun _ _ _ => iff_true_intro (canBind_pure _), and_true]

theorem delete_ok_iff : (∃ s, delete schema table p = .ok s)
    ↔ ∀ leaf ∈ p.leaves, table.canCompare leaf = true := by
  unfold delete
  rw [build_ok_iff, canBind_bind_iff canBind_whereClause_iff
    fun _ _ _ => iff_true_intro (canBind_pure _), and_true]

end Statements

end Sql

/-- Whether the cells of a record can be sent for the columns of a table: each is named as one of
them, and every column takes the cell of its name. -/
def Table.canStore (table : Table) (r : Record) : Prop :=
  (∀ name ∈ r.keys, table.hasColumn name = true)
    ∧ ∀ c ∈ table.columns, ∀ v, r.get? c.name = some v → c.type.accepts v = true

namespace Sql

section Statements

variable {schema : String} {table : Table} {p : Predicate} {r : Record} {ps : List Bind}

theorem canBind_columnValue_iff {c : Column} : CanBind (columnValue r c) ps
    ↔ ∀ v, r.get? c.name = some v → c.type.accepts v = true := by
  unfold columnValue
  cases hget : r.get? c.name with
  | none => exact iff_of_true (canBind_pure _) nofun
  | some v =>
    refine (canBind_push_iff fun n mid => canBind_pure _).trans (Bind.ofValue_ok_iff.trans ?_)
    simp

theorem canBind_valuesOf_iff : CanBind (valuesOf table r) ps ↔ table.canStore r := by
  unfold valuesOf
  refine canBind_bind_iff (canBind_forM_iff fun name _ ps => ?_) fun _ mid _ => ?_
  · exact canBind_map_iff.trans canBind_columnOf_iff
  · rw [canBind_bind_iff (canBind_mapM_iff fun c _ ps => canBind_columnValue_iff)
      fun _ _ _ => iff_true_intro (canBind_pure _), and_true]

theorem insert_ok_iff : (∃ s, insert schema table r = .ok s) ↔ table.canStore r := by
  unfold insert
  rw [build_ok_iff, canBind_bind_iff canBind_valuesOf_iff fun values mid _ =>
    iff_true_intro ?_, and_true]
  split <;> exact canBind_pure _

theorem upsert_ok_iff : (∃ s, upsert schema table r = .ok s)
    ↔ r.contains table.primaryKey = true ∧ table.canStore r := by
  unfold upsert
  cases hkey : r.contains table.primaryKey with
  | false => simp
  | true =>
    rw [Bool.not_true, if_neg (by simp), build_ok_iff, canBind_bind_iff canBind_valuesOf_iff
      fun _ _ _ => iff_true_intro (canBind_pure _)]
    simp

/-- A value can be assigned exactly if it is one of a column of the table. -/
theorem canBind_assignment_iff {entry : String × Value} : CanBind (assignment table entry) ps
    ↔ ∃ c, table.column? entry.1 = some c ∧ c.type.accepts entry.2 = true := by
  unfold assignment
  cases hcolumn : table.column? entry.1 with
  | none =>
    refine iff_of_false ?_ (by simp)
    rintro ⟨_, _, h⟩
    obtain ⟨c, _, hc, -⟩ := binds_bind.1 h
    rw [Condition.columnOf_eq_ok_iff.1 (binds_lift.1 hc).1] at hcolumn
    cases hcolumn
  | some c =>
    rw [canBind_bind_iff canBind_lift_iff (Q := c.type.accepts entry.2 = true) fun c' mid hc => by
      obtain rfl := Option.some.inj
        ((Condition.columnOf_eq_ok_iff.1 (binds_lift.1 hc).1).symm.trans hcolumn)
      exact (canBind_push_iff fun n mid => canBind_pure _).trans Bind.ofValue_ok_iff]
    simp [columnOf, hcolumn]

/-- An update can be written exactly if it assigns something, assigns values to columns, and
compares values with columns. -/
theorem update_ok_iff : (∃ s, update schema table p r = .ok s)
    ↔ r.isEmpty = false
      ∧ (∀ entry ∈ r.entries, ∃ c, table.column? entry.1 = some c ∧ c.type.accepts entry.2 = true)
      ∧ ∀ leaf ∈ p.leaves, table.canCompare leaf = true := by
  unfold update
  cases hempty : r.isEmpty with
  | true => simp
  | false =>
    rw [if_neg (by simp), build_ok_iff, eq_self, true_and]
    refine canBind_bind_iff (canBind_mapM_iff fun entry _ ps => canBind_assignment_iff)
      fun _ mid _ => ?_
    rw [canBind_bind_iff canBind_whereClause_iff fun _ _ _ =>
      iff_true_intro (canBind_pure _), and_true]

end Statements

end Sql

end RecordStore
