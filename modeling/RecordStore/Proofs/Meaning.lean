import RecordStore.Proofs.Encoding
import RecordStore.Proofs.Evaluation
import RecordStore.Proofs.Sending

/-!
# The meaning of conditions

A predicate is evaluated in two ways: by the store, on the cells of a row, and by a database, which
gets the text of a condition with parameters. For a row that a table may hold, the two agree.

* **`ColumnType.datum?`** — what a value is in the database.
* **`Condition.Means`** — the truth of a condition, whatever parameters are added later.
* **`Predicate.IsTranslated`** — the predicates that come of filters and requests.
* **`Predicate.IsTranslated.evaluate_eq_yes_iff`** — the text of such a predicate is true of the
  rows that satisfy the predicate, and of no others.
-/

namespace RecordStore

open Sql

/-! ## Values in the database -/

namespace Value

variable {v : Value}

theorem string_of_text? {s : String} (h : v.text? = some s) : v = .string s := by
  cases v <;> cases h
  rfl

theorem bool_of_bool? {b : Bool} (h : v.bool? = some b) : v = .bool b := by
  cases v <;> cases h
  rfl

theorem string_of_instant? {i : Time.Instant} (h : v.instant? = some i) : ∃ s, v = .string s := by
  cases v with
  | string s => exact ⟨s, rfl⟩
  | _ => cases h

end Value

theorem Sql.Datum.equals?_of_order? {x y : Datum} {o : Ordering} (h : x.order? y = some o) :
    x.equals? y = some (o == .eq) := by
  unfold equals?
  split
  · cases h
  · rw [h]
    rfl

namespace ColumnType

/-- What a value is in a column of the database, or nothing for null. -/
def datum? (type : ColumnType) (v : Value) : Option Datum :=
  match type with
  | .text => v.text?.map .text
  | .boolean => v.bool?.map .bool
  | .integer => v.integer?.map .integer
  | .float => v.double?.map .float
  | .datetime => v.instant?.map .timestamp
  | .json => if v.isNull then none else some (.json v)

variable {type : ColumnType} {a b v : Value} {x y : Datum}

/-- A parameter holds the value that it is for. -/
theorem cell?_of_ofValue {column : String} {bind : Bind}
    (h : Bind.ofValue column type v = .ok bind) :
    bind.cell? = some (type.datum? v) := by
  unfold Bind.ofValue at h
  split at h
  · rename_i hnull
    obtain rfl := Except.ok.inj h
    cases v <;> cases type <;> first | rfl | cases hnull
  · rename_i hnull
    cases type
    case json =>
      obtain rfl := Except.ok.inj h
      rw [datum?, if_neg hnull]
      rfl
    all_goals
      obtain ⟨a, ha, rfl⟩ := map_eq_ok_iff.1 h
      rw [datum?, Bind.demand_eq_ok_iff.1 ha]
      rfl

/-- A list holds the values that it is for. -/
theorem items?_of_ofValues {column : String} {items : List Value} {bind : Bind}
    (h : Bind.ofValues column type items = .ok bind) :
    ∃ data, bind.items? = some data
      ∧ List.Forall₂ (fun v x => type.datum? v = some x) items data := by
  have hdemand {α : Type} {f : Value → Option α} {g : α → Datum} {as : List α}
      (has : (items.mapM fun v => Bind.demand column type v (f v)) = .ok as)
      (hdatum : ∀ v, type.datum? v = (f v).map g) :
      List.Forall₂ (fun v x => type.datum? v = some x) items (as.map g) := by
    refine List.forall₂_map_right_iff.2 ((mapM_eq_ok_iff.1 has).imp fun v a ha => ?_)
    rw [hdatum, Bind.demand_eq_ok_iff.1 ha]
    rfl
  unfold Bind.ofValues at h
  cases type
  case json => cases h
  all_goals
    obtain ⟨as, has, rfl⟩ := map_eq_ok_iff.1 h
    exact ⟨_, rfl, hdemand has fun _ => rfl⟩

theorem datum?_eq_none_iff (h : type.accepts v = true) :
    type.datum? v = none ↔ v.isNull = true := by
  constructor
  · intro hnone
    cases type <;> cases v <;> simp_all [datum?, accepts, Value.isNull, Value.text?, Value.bool?,
      Value.integer?, Value.double?, Value.instant?]
  · intro hnull
    cases v <;> cases type <;> first | rfl | cases hnull

/-! ## Comparing them -/

/-- In a column that is in an order, values compare in the database as they do in the store, if the
first of two numbers is no whole one where the column holds doubles. -/
theorem order?_of_datum? (hjson : type ≠ .json) (hfloat : type = .float → ∀ n, a ≠ .int n)
    (ha : type.datum? a = some x) (hb : type.datum? b = some y) :
    ∃ o, x.order? y = some o ∧ type.compare? a b = some o := by
  cases type with
  | text =>
    obtain ⟨s, hs, rfl⟩ := Option.map_eq_some_iff.1 ha
    obtain ⟨t, ht, rfl⟩ := Option.map_eq_some_iff.1 hb
    obtain rfl := Value.string_of_text? hs
    obtain rfl := Value.string_of_text? ht
    exact ⟨compare s t, congrArg some (Text.compareBytes_eq s t), rfl⟩
  | boolean =>
    obtain ⟨p, hp, rfl⟩ := Option.map_eq_some_iff.1 ha
    obtain ⟨q, hq, rfl⟩ := Option.map_eq_some_iff.1 hb
    obtain rfl := Value.bool_of_bool? hp
    obtain rfl := Value.bool_of_bool? hq
    exact ⟨compare p q, rfl, rfl⟩
  | integer =>
    obtain ⟨m, hm, rfl⟩ := Option.map_eq_some_iff.1 ha
    obtain ⟨n, hn, rfl⟩ := Option.map_eq_some_iff.1 hb
    obtain ⟨rfl, -⟩ := int_of_integer? hm
    refine ⟨compare m n, rfl, ?_⟩
    rw [compare?, compareNumbers?, hm, hn]
    all_goals simp
  | float =>
    obtain ⟨d, hd, rfl⟩ := Option.map_eq_some_iff.1 ha
    obtain ⟨e, he, rfl⟩ := Option.map_eq_some_iff.1 hb
    refine ⟨compare d e, rfl, ?_⟩
    -- a double on the left: the two are compared as doubles
    cases a with
    | int n => exact absurd rfl (hfloat rfl n)
    | float d' =>
      obtain rfl := Option.some.inj hd
      rw [compare?, compareNumbers?, Value.integer?, hd, he]
      all_goals simp
    | _ => cases hd
  | datetime =>
    obtain ⟨i, hi, rfl⟩ := Option.map_eq_some_iff.1 ha
    obtain ⟨j, hj, rfl⟩ := Option.map_eq_some_iff.1 hb
    obtain ⟨s, rfl⟩ := Value.string_of_instant? hi
    obtain ⟨t, rfl⟩ := Value.string_of_instant? hj
    refine ⟨compare i j, rfl, ?_⟩
    rw [compare?, if_pos rfl, hi, hj]
  | json => exact absurd rfl hjson

/-- Values are equal in the database when they are in the store. -/
theorem equals?_of_datum? (hfloat : type = .float → ∀ n, a ≠ .int n)
    (ha : type.datum? a = some x) (hb : type.datum? b = some y) :
    x.equals? y = some (type.equal a b) := by
  by_cases hjson : type = .json
  · subst hjson
    obtain ⟨-, rfl⟩ : a.isNull = false ∧ .json a = x := by simpa [datum?] using ha
    obtain ⟨-, rfl⟩ : b.isNull = false ∧ .json b = y := by simpa [datum?] using hb
    rw [equal, if_pos rfl]
    rfl
  · obtain ⟨o, ho, hcompare⟩ := order?_of_datum? hjson hfloat ha hb
    rw [equal, if_neg hjson, hcompare, Datum.equals?_of_order? ho]
    rfl

end ColumnType

/-! ## Comparisons -/

/-- Whether an operator can be used in a column, as far as the type tells: documents are in no
order, and only texts are compared with patterns. -/
def Operator.IsFor (type : ColumnType) (op : Operator) : Prop :=
  (op.ordersValues = true → type ≠ .json) ∧ (op.takesPattern = true → type = .text)

/-- Whether a column stores a value: it takes it, and no whole number where it holds doubles. -/
def Column.Stores (c : Column) (v : Value) : Prop :=
  c.type.accepts v = true ∧ (c.type = .float → ∀ n, v ≠ .int n)

theorem ColumnType.compare?_null (type : ColumnType) (a : Value) :
    type.compare? a .null = none := by
  cases a with
  | int n =>
    rw [compare?, compareNumbers?]
    · cases Value.integer? (.int n) <;> rfl
    all_goals simp
  | _ => rfl

namespace Operator

variable {type : ColumnType} {op : Operator} {cell v : Value}

/-- Only the two questions about null itself can be true of null. -/
theorem accepts_eq (heq : op = .eq → v ≠ .null) (hne : op = .ne → v ≠ .null) :
    op.accepts type cell v = (!cell.isNull && op.holds type cell v) := by
  unfold accepts
  split
  · exact absurd rfl (heq rfl)
  · exact absurd rfl (hne rfl)
  · rfl

theorem not_holds_null (heq : op ≠ .eq) (hne : op ≠ .ne) : op.holds type cell .null = false := by
  cases op with
  | eq => exact absurd rfl heq
  | ne => exact absurd rfl hne
  | like | ilike | startsWith => cases cell <;> rfl
  | isIn => rfl
  | _ =>
    rw [holds, ColumnType.compare?_null]
    rfl

end Operator

namespace Sql

variable {type : ColumnType} {op : Operator} {a b : Value} {x y : Datum}

/-- **A comparison holds in the database when it does in the store.** -/
theorem holds?_of_ofOperator {comparator : Comparator}
    (hop : Comparator.ofOperator? op = some comparator) (hfor : op.IsFor type)
    (hfloat : type = .float → ∀ n, a ≠ .int n) (ha : type.datum? a = some x)
    (hb : type.datum? b = some y) :
    comparator.holds? x y = some (op.holds type a b) := by
  have hequal := ColumnType.equals?_of_datum? hfloat ha hb
  have horder (hjson : type ≠ .json) := ColumnType.order?_of_datum? hjson hfloat ha hb
  have hpattern (htext : type = .text) :
    ∃ s t, a = .string s ∧ x = .text s ∧ b = .string t ∧ y = .text t := by
    subst htext
    obtain ⟨s, hs, rfl⟩ := Option.map_eq_some_iff.1 ha
    obtain ⟨t, ht, rfl⟩ := Option.map_eq_some_iff.1 hb
    exact ⟨s, t, Value.string_of_text? hs, rfl, Value.string_of_text? ht, rfl⟩
  cases op with
  | eq =>
    obtain rfl := Option.some.inj hop
    exact hequal
  | ne =>
    obtain rfl := Option.some.inj hop
    rw [Comparator.holds?, hequal]
    rfl
  | like | ilike =>
    obtain rfl := Option.some.inj hop
    obtain ⟨s, t, rfl, rfl, rfl, rfl⟩ := hpattern (hfor.2 rfl)
    rfl
  | startsWith | isIn => cases hop
  | _ =>
    obtain rfl := Option.some.inj hop
    obtain ⟨o, ho, hcompare⟩ := horder (hfor.1 rfl)
    rw [Comparator.holds?, ho, Operator.holds, hcompare]
    cases o <;> rfl

/-- A list holds an item that equals a value when the list of the store does. -/
theorem anyTruth?_of_datum? {items : List Value} {data : List Datum}
    (hfloat : type = .float → ∀ n, a ≠ .int n) (ha : type.datum? a = some x)
    (hdata : List.Forall₂ (fun v y => type.datum? v = some y) items data) :
    anyTruth? (some x) data = some (.ofBool (items.any (type.equal a))) := by
  induction hdata with
  | nil => rfl
  | cons hitem _ ih =>
    rw [anyTruth?, ih, Comparator.truth?, Comparator.holds?,
      ColumnType.equals?_of_datum? hfloat ha hitem, List.any_cons]
    simp only [Option.map_some, bind, Option.bind_some, pure, Option.some.injEq]
    cases type.equal a _ <;> cases List.any _ (type.equal a) <;> rfl

/-- It is not true that a list holds an item that equals null. -/
theorem anyTruth?_null (data : List Datum) : ∃ t, anyTruth? none data = some t ∧ t ≠ .yes := by
  induction data with
  | nil => exact ⟨.no, rfl, nofun⟩
  | cons item rest ih =>
    obtain ⟨t, ht, hyes⟩ := ih
    refine ⟨Truth.unknown.or t, ?_, fun h => ?_⟩
    · rw [anyTruth?, ht]
      rfl
    · rcases Truth.or_eq_yes_iff.1 h with h | h
      · cases h
      · exact hyes h

end Sql

/-! ## Rows -/

/-- Whether the cells of a row are values that their columns store. -/
def Table.Stores (table : Table) (row : Record) : Prop :=
  ∀ c ∈ table.columns, c.Stores (row.cell c.name)

/-- A row as it is in the database, where each cell came with a parameter, beside the parameters of
a statement. -/
def Table.scope (table : Table) (row : Record) (params : List Bind) : Scope where
  cell? name := do
    let c ← table.column? name
    (← (Bind.ofValue c.name c.type (row.cell c.name)).toOption).cell?
  params := params

section Rows

variable {table : Table} {row : Record} {c : Column} {params : List Bind}

theorem Table.cell?_scope (hrow : table.Stores row) {name : String}
    (hc : table.column? name = some c) :
    (table.scope row params).cell? name = some (c.type.datum? (row.cell name)) := by
  obtain ⟨hmem, rfl⟩ := Table.mem_of_column? hc
  obtain ⟨bind, hbind⟩ : ∃ bind, Bind.ofValue c.name c.type (row.cell c.name) = .ok bind :=
    Bind.ofValue_ok_iff.2 (hrow c hmem).1
  simp [scope, hc, hbind, Except.toOption, ColumnType.cell?_of_ofValue hbind]

end Rows

/-- Whether a comparison of a predicate has an operator for its column. -/
def Table.hasOperator (table : Table) : Predicate → Prop
  | .compare column op _ => ∀ c, table.column? column = some c → op.IsFor c.type
  | .and _ => True

namespace Sql.Condition

/-- A condition with its parameters is true of a row or not, whatever parameters are added. -/
def Means (table : Table) (row : Record) (condition : Condition) (params : List Bind) (b : Bool) :
    Prop :=
  ∀ later, ∃ t, condition.truth? (table.scope row (params ++ later)) = some t
    ∧ (t = .yes ↔ b = true)

variable {table : Table} {row : Record} {ps qs : List Bind} {condition : Condition}

/-! No condition of a predicate has an empty conjunction in it. -/

/-- No conjunction in the condition of a comparison is empty. -/
theorem isSolid_of_ofComparison {c : Column} {op : Operator} {v : Value}
    (h : Binds (ofComparison c op v) ps condition qs) : condition.isSolid = true := by
  unfold ofComparison at h
  split at h
  · rw [(binds_pure.1 h).1]
    rfl
  · rw [(binds_pure.1 h).1]
    rfl
  · split at h
    · rw [(binds_pure.1 h).1]
      rfl
    · obtain ⟨-, -, rfl, -⟩ := binds_push_place.1 h
      rfl
  · obtain ⟨n, mid, -, h⟩ := binds_bind.1 h
    rw [(binds_pure.1 h).1]
    rfl
  · split at h
    · exact absurd h not_binds_throw
    · obtain ⟨-, -, rfl, -⟩ := binds_push_place.1 h
      rfl

mutual

theorem isSolid_of_ofPredicate : ∀ (p : Predicate) {ps qs : List Bind} {condition : Condition},
    Binds (ofPredicate table p) ps condition qs → condition.isSolid = true
  | .compare column op v, ps, qs, condition, h => by
    obtain ⟨c, mid, -, hcomparison⟩ := binds_bind.1 h
    exact isSolid_of_ofComparison hcomparison
  | .and [], ps, qs, condition, h => by
    rw [(binds_pure.1 h).1]
    rfl
  | .and (q :: rest), ps, qs, condition, h => by
    obtain ⟨conditions, hconditions, rfl⟩ := binds_map.1 h
    obtain ⟨hempty, hsolid⟩ := allSolid_of_ofPredicates (q :: rest) hconditions
    rw [isSolid, hempty, hsolid]
    rfl

theorem allSolid_of_ofPredicates :
    ∀ (parts : List Predicate) {ps qs : List Bind} {conditions : List Condition},
    Binds (ofPredicates table parts) ps conditions qs →
      conditions.isEmpty = parts.isEmpty ∧ allSolid conditions = true
  | [], ps, qs, conditions, h => by
    rw [(binds_pure.1 h).1]
    exact ⟨rfl, rfl⟩
  | q :: rest, ps, qs, conditions, h => by
    obtain ⟨first, mid, hfirst, h⟩ := binds_bind.1 h
    obtain ⟨others, qs', hothers, h⟩ := binds_bind.1 h
    obtain ⟨rfl, -⟩ := binds_pure.1 h
    rw [allSolid, isSolid_of_ofPredicate q hfirst, (allSolid_of_ofPredicates rest hothers).2]
    exact ⟨rfl, rfl⟩

end

theorem param?_push (scope : Scope) {bind : Bind} {later : List Bind}
    (h : scope.params = ps ++ [bind] ++ later) : scope.param? (ps.length + 1) = some bind := by
  rw [Scope.param?, h]
  simp

section Leaves

variable {c : Column} {op : Operator} {v : Value}

/-- A comparison with a parameter. -/
theorem means_compare (hrow : table.Stores row) (hc : table.column? c.name = some c)
    {comparator : Comparator} {bind : Bind} {operand : Option Datum} {b : Bool}
    (hbind : bind.cell? = some operand)
    (hholds : ∃ t, comparator.truth? (c.type.datum? (row.cell c.name)) operand = some t
      ∧ (t = .yes ↔ b = true)) :
    (compare c.name comparator (ps.length + 1)).Means table row (ps ++ [bind]) b := by
  intro later
  obtain ⟨t, ht, hyes⟩ := hholds
  refine ⟨t, ?_, hyes⟩
  rw [truth?, Scope.compareTruth?, Table.cell?_scope hrow hc, param?_push _ rfl]
  simp [hbind, ht]

/-- A value that is null is no value in the database, and a value that the column stores is one. -/
theorem datum?_cases (hcell : c.Stores v) :
    (v.isNull = true ∧ c.type.datum? v = none)
      ∨ (v.isNull = false ∧ ∃ x, c.type.datum? v = some x) := by
  cases hnull : v.isNull with
  | true => exact .inl ⟨rfl, (ColumnType.datum?_eq_none_iff hcell.1).2 hnull⟩
  | false =>
    refine .inr ⟨rfl, Option.ne_none_iff_exists'.1 fun hnone => ?_⟩
    rw [(ColumnType.datum?_eq_none_iff hcell.1).1 hnone] at hnull
    cases hnull

/-- The test for null means equality with null. -/
theorem means_isNull (hrow : table.Stores row) (hc : table.column? c.name = some c) :
    (isNull c.name).Means table row ps (Operator.eq.accepts c.type (row.cell c.name) .null) := by
  intro later
  refine ⟨_, by rw [truth?, Scope.nullTruth?, Table.cell?_scope hrow hc]; rfl, ?_⟩
  rw [Truth.ofBool_eq_yes_iff, Option.isNone_iff_eq_none,
    ColumnType.datum?_eq_none_iff (hrow c (Table.mem_of_column? hc).1).1]
  rfl

/-- The test for a value means inequality with null. -/
theorem means_isNotNull (hrow : table.Stores row) (hc : table.column? c.name = some c) :
    (isNotNull c.name).Means table row ps (Operator.ne.accepts c.type (row.cell c.name) .null) := by
  intro later
  refine ⟨_, by rw [truth?, Scope.notNullTruth?, Table.cell?_scope hrow hc]; rfl, ?_⟩
  rw [Truth.ofBool_eq_yes_iff, Operator.accepts]
  rcases datum?_cases (hrow c (Table.mem_of_column? hc).1) with ⟨hnull, hnone⟩ | ⟨hnull, x, hx⟩
  · simp [hnull, hnone]
  · simp [hnull, hx]

/-- A comparison with the items of a parameter means membership in the list that it was made of. -/
theorem means_isAny (hrow : table.Stores row) (hc : table.column? c.name = some c)
    {items : List Value} {bind : Bind} (hbind : Bind.ofValues c.name c.type items = .ok bind) :
    (isAny c.name (ps.length + 1)).Means table row (ps ++ [bind])
      (Operator.isIn.accepts c.type (row.cell c.name) (.array items)) := by
  have hstores := hrow c (Table.mem_of_column? hc).1
  obtain ⟨data, hitems, hdata⟩ := ColumnType.items?_of_ofValues hbind
  intro later
  rw [truth?, Scope.anyTruth?, Table.cell?_scope hrow hc, param?_push _ rfl]
  rcases datum?_cases hstores with ⟨hnull, hnone⟩ | ⟨hnull, x, hx⟩
  · obtain ⟨t, ht, hyes⟩ := anyTruth?_null data
    exact ⟨t, by simp [hitems, hnone, ht], by simp [Operator.accepts, hnull, hyes]⟩
  · refine ⟨_, by simp [hitems, hx, anyTruth?_of_datum? hstores.2 hx hdata]; rfl, ?_⟩
    simp [Operator.accepts, Operator.holds, hnull, Truth.ofBool_eq_yes_iff]

/-- On a text column the pattern that a beginning is made into means the beginning. -/
theorem means_beginning (hrow : table.Stores row) (hc : table.column? c.name = some c)
    (htype : c.type = .text) (s : String) :
    (compare c.name .like (ps.length + 1)).Means table row
      (ps ++ [.text (some (Text.Pattern.escape s ++ "%"))])
      (Operator.startsWith.accepts c.type (row.cell c.name) (.string s)) := by
  refine means_compare hrow hc rfl ?_
  rcases datum?_cases (hrow c (Table.mem_of_column? hc).1) with ⟨hnull, hnone⟩ | ⟨hnull, x, hx⟩
  · exact ⟨.unknown, by rw [hnone]; rfl, by simp [Operator.accepts, hnull]⟩
  · have htextx : ColumnType.text.datum? (row.cell c.name) = some x := htype ▸ hx
    obtain ⟨text, htext, rfl⟩ := Option.map_eq_some_iff.1 htextx
    refine ⟨.ofBool (Text.Pattern.matchesExactly (Text.Pattern.escape s ++ "%") text), ?_, ?_⟩
    · rw [hx]
      rfl
    · rw [Truth.ofBool_eq_yes_iff, Text.Pattern.matchesExactly_beginning,
        Value.string_of_text? htext]
      rfl

/-- A comparator means the operator that it stands for, unless that asks for null. -/
theorem means_comparator (hrow : table.Stores row) (hc : table.column? c.name = some c)
    (hfor : op.IsFor c.type) {comparator : Comparator}
    (hop : Comparator.ofOperator? op = some comparator)
    (heq : op = .eq → v ≠ .null) (hne : op = .ne → v ≠ .null)
    {bind : Bind} (hbind : Bind.ofValue c.name c.type v = .ok bind) :
    (compare c.name comparator (ps.length + 1)).Means table row (ps ++ [bind])
      (op.accepts c.type (row.cell c.name) v) := by
  have hstores := hrow c (Table.mem_of_column? hc).1
  refine means_compare hrow hc (ColumnType.cell?_of_ofValue hbind) ?_
  rw [Operator.accepts_eq heq hne]
  rcases datum?_cases hstores with ⟨hnull, hnone⟩ | ⟨hnull, x, hx⟩
  · exact ⟨.unknown, by rw [hnone]; rfl, by simp [hnull]⟩
  · rw [hx, hnull]
    cases hv : c.type.datum? v with
    | none =>
      -- nothing compares with null
      obtain rfl : v = .null := by
        have hnullv := (ColumnType.datum?_eq_none_iff (Bind.ofValue_ok_iff.1 ⟨bind, hbind⟩)).1 hv
        cases v <;> first | rfl | cases hnullv
      refine ⟨.unknown, rfl, ?_⟩
      rw [Operator.not_holds_null (fun h => heq h rfl) (fun h => hne h rfl)]
      simp
    | some y =>
      refine ⟨_, by rw [Comparator.truth?, holds?_of_ofOperator hop hfor hstores.2 hx hv]; rfl,
        ?_⟩
      simp [Truth.ofBool_eq_yes_iff]

/-- **A comparison means in the database what it means in the store**, whichever condition it is
made into. -/
theorem means_of_ofComparison (hrow : table.Stores row)
    (hc : table.column? c.name = some c) (hfor : op.IsFor c.type)
    (h : Binds (ofComparison c op v) ps condition qs) :
    (∃ added, qs = ps ++ added)
      ∧ condition.Means table row qs (op.accepts c.type (row.cell c.name) v) := by
  unfold ofComparison at h
  split at h
  · obtain ⟨rfl, rfl⟩ := binds_pure.1 h
    exact ⟨⟨[], (List.append_nil _).symm⟩, means_isNull hrow hc⟩
  · obtain ⟨rfl, rfl⟩ := binds_pure.1 h
    exact ⟨⟨[], (List.append_nil _).symm⟩, means_isNotNull hrow hc⟩
  · rename_i items
    split at h
    · rename_i hempty
      obtain ⟨rfl, rfl⟩ := binds_pure.1 h
      refine ⟨⟨[], (List.append_nil _).symm⟩, fun later => ⟨.no, rfl, ?_⟩⟩
      simp [Operator.accepts, Operator.holds, List.isEmpty_iff.1 hempty]
    · obtain ⟨bind, hbind, rfl, rfl⟩ := binds_push_place.1 h
      exact ⟨⟨[bind], rfl⟩, means_isAny hrow hc hbind⟩
  · rename_i s
    obtain ⟨n, mid, hpush, h⟩ := binds_bind.1 h
    obtain ⟨rfl, rfl⟩ := binds_push.1 hpush
    obtain ⟨rfl, rfl⟩ := binds_pure.1 h
    exact ⟨⟨_, rfl⟩, means_beginning hrow hc (hfor.2 rfl) s⟩
  · rename_i hneq hnne _ _
    split at h
    · exact absurd h not_binds_throw
    · rename_i comparator hop
      obtain ⟨bind, hbind, rfl, rfl⟩ := binds_push_place.1 h
      exact ⟨⟨[bind], rfl⟩, means_comparator hrow hc hfor hop hneq hnne hbind⟩

end Leaves

/-- The same of the parts of a conjunction. -/
def MeanAll (table : Table) (row : Record) (conditions : List Condition) (params : List Bind)
    (b : Bool) : Prop :=
  ∀ later, ∃ t, truthOfAll? (table.scope row (params ++ later)) conditions = some t
    ∧ (t = .yes ↔ b = true)

mutual

/-- **A predicate means in the database what it means in the store**, if its operators are ones for
their columns. -/
theorem means_of_ofPredicate (hrow : table.Stores row) : ∀ (p : Predicate) {ps qs : List Bind}
    {condition : Condition}, (∀ leaf ∈ p.leaves, table.hasOperator leaf) →
      Binds (ofPredicate table p) ps condition qs →
        (∃ added, qs = ps ++ added) ∧ condition.Means table row qs (p.holds table.columns row)
  | .compare column op v, ps, qs, condition, hfor, h => by
    obtain ⟨c, mid, hlift, hcomparison⟩ := binds_bind.1 h
    obtain ⟨hcolumn, rfl⟩ := binds_lift.1 hlift
    have hc := columnOf_eq_ok_iff.1 hcolumn
    obtain ⟨-, rfl⟩ := Table.mem_of_column? hc
    have htype : typeIn table.columns c.name = c.type := by
      rw [typeIn, ← Table.column?, hc]
      rfl
    rw [Predicate.leaves, List.forall_mem_singleton] at hfor
    rw [Predicate.holds, htype]
    exact means_of_ofComparison hrow hc (hfor c hc) hcomparison
  | .and [], ps, qs, condition, _, h => by
    obtain ⟨rfl, rfl⟩ := binds_pure.1 h
    exact ⟨⟨[], (List.append_nil _).symm⟩, fun _ => ⟨.yes, rfl, iff_of_true rfl rfl⟩⟩
  | .and (q :: rest), ps, qs, condition, hfor, h => by
    obtain ⟨conditions, hconditions, rfl⟩ := binds_map.1 h
    exact means_of_ofPredicates hrow (q :: rest) hfor hconditions

/-- The conditions of a conjunction mean what its parts do, each with the parameters that were bound
for it. -/
theorem means_of_ofPredicates (hrow : table.Stores row) :
    ∀ (parts : List Predicate) {ps qs : List Bind}
    {conditions : List Condition}, (∀ leaf ∈ Predicate.leavesOfAll parts, table.hasOperator leaf) →
      Binds (ofPredicates table parts) ps conditions qs →
        (∃ added, qs = ps ++ added)
          ∧ MeanAll table row conditions qs (Predicate.allHold table.columns row parts)
  | [], ps, qs, conditions, _, h => by
    obtain ⟨rfl, rfl⟩ := binds_pure.1 h
    exact ⟨⟨[], (List.append_nil _).symm⟩, fun _ => ⟨.yes, rfl, iff_of_true rfl rfl⟩⟩
  | q :: rest, ps, qs, conditions, hfor, h => by
    rw [Predicate.leavesOfAll, List.forall_mem_append] at hfor
    obtain ⟨first, mid, hfirst, h⟩ := binds_bind.1 h
    obtain ⟨others, qs', hothers, h⟩ := binds_bind.1 h
    obtain ⟨rfl, rfl⟩ := binds_pure.1 h
    obtain ⟨⟨firstAdded, rfl⟩, hfirstMeans⟩ := means_of_ofPredicate hrow q hfor.1 hfirst
    obtain ⟨⟨added, rfl⟩, hmean⟩ := means_of_ofPredicates hrow rest hfor.2 hothers
    refine ⟨⟨firstAdded ++ added, List.append_assoc ..⟩, fun later => ?_⟩
    -- the parameters of the other parts come later for the first one
    obtain ⟨t, ht, hyes⟩ := hfirstMeans (added ++ later)
    obtain ⟨u, hu, hall⟩ := hmean later
    rw [← List.append_assoc] at ht
    refine ⟨t.and u, by rw [truthOfAll?, ht, hu]; rfl, ?_⟩
    rw [Truth.and_eq_yes_iff, hyes, hall, Predicate.allHold, Bool.and_eq_true]

end

end Sql.Condition

/-! ## Predicates of filters and requests -/

/-- The predicates that come of what a client or a datasource asks for. -/
inductive Predicate.IsTranslated (table : Table) : Predicate → Prop
  /-- that of a filter -/
  | filter {filter : Filter} {source : FilterSource} {showDeleted : Bool} {p : Predicate}
    (h : ofFilter table filter source showDeleted = .ok p) : IsTranslated table p
  /-- that of a request which a lookup narrows -/
  | request {settings : Settings} {request : Request} {lookup : Filter} {plan : Plan}
    (h : Plan.ofRequestAndLookup settings table request lookup = .ok plan) :
    IsTranslated table plan.predicate

theorem Operator.Takes.isFor {type : ColumnType} {op : Operator} {given v : Value}
    (h : op.Takes type given v) : op.IsFor type := by
  cases h with
  | list => exact ⟨nofun, nofun⟩
  | pattern hpattern htext => exact ⟨fun _ => htext ▸ nofun, fun _ => htext⟩
  | scalar _ hpattern horder =>
    exact ⟨fun h => (horder h).1, fun h => absurd h (by simp [hpattern])⟩

namespace Predicate

variable {table : Table} {p : Predicate}

theorem hasOperator_of_ofEntry {entry : FilterEntry} (h : ofEntry table entry = .ok p) :
    ∀ leaf ∈ p.leaves, table.hasOperator leaf := by
  obtain ⟨c, v, hcolumn, rfl, htakes⟩ := takes_of_ofEntry h
  rw [leaves, List.forall_mem_singleton]
  intro c' hc'
  obtain rfl := Option.some.inj (hcolumn.symm.trans hc')
  exact htakes.isFor

theorem hasOperator_of_entries {filter : Filter} {ps : List Predicate}
    (h : filter.mapM (ofEntry table) = .ok ps) :
    ∀ p ∈ ps, ∀ leaf ∈ p.leaves, table.hasOperator leaf := by
  intro p hp
  obtain ⟨entry, -, hentry⟩ := exists_of_mem_right (mapM_eq_ok_iff.1 h) hp
  exact hasOperator_of_ofEntry hentry

/-- A translated filter compares columns of the table, each with an operator that it has. -/
theorem hasOperator_of_ofFilter {filter : Filter} {source : FilterSource} {showDeleted : Bool}
    (h : ofFilter table filter source showDeleted = .ok p) :
    ∀ leaf ∈ p.leaves, table.hasOperator leaf := by
  obtain ⟨asked, given, hasked, hgiven, rfl⟩ := ofFilter_eq_ok_iff.1 h
  rw [forall_leaves_all_iff, List.forall_mem_append, List.forall_mem_append]
  refine ⟨⟨hasOperator_of_entries (mapM_ofEntry_of_ofSourceEntry hasked),
    hasOperator_of_entries hgiven⟩, ?_⟩
  unfold visibility
  split
  · split
    · rw [List.forall_mem_singleton, eq, leaves, List.forall_mem_singleton]
      exact fun _ _ => ⟨fun h => absurd h (by decide), fun h => absurd h (by decide)⟩
    · exact List.forall_mem_nil _
  · exact List.forall_mem_nil _

theorem IsTranslated.hasOperator (h : p.IsTranslated table) :
    ∀ leaf ∈ p.leaves, table.hasOperator leaf := by
  cases h with
  | filter h => exact hasOperator_of_ofFilter h
  | request h =>
    obtain ⟨wide, hwide, hplan⟩ := Plan.ofRequestAndLookup_eq_ok_iff.1 h
    obtain ⟨asked, lists, keys, hasked, -, -, rfl⟩ := Plan.ofRequest_eq_ok_iff.1 hwide
    rcases hplan with ⟨-, rfl⟩ | ⟨-, narrowed, hnarrowed, rfl⟩
    · exact hasOperator_of_ofFilter hasked
    · dsimp only
      rw [forall_leaves_all_iff, List.forall_mem_cons]
      exact ⟨hasOperator_of_ofFilter hasked, hasOperator_of_entries hnarrowed⟩

/-- **The text of a condition means what the predicate means.** The condition of a predicate that
comes of a filter or of a request is evaluated in the database to a truth value, which is true
exactly if the store finds that the row satisfies the predicate. Parameters that stand before or
behind those of the condition make no difference. -/
theorem IsTranslated.evaluate_eq_yes_iff (hp : p.IsTranslated table) {row : Record}
    (hrow : table.Stores row) {earlier params : List Bind} {condition : Condition}
    (hbinds : Binds (Condition.ofPredicate table p) earlier condition params) (later : List Bind) :
    ∃ t, evaluate (table.scope row (params ++ later)) (render condition.pieces) = some t
      ∧ (t = .yes ↔ p.holds table.columns row = true) := by
  obtain ⟨-, hmeans⟩ := Condition.means_of_ofPredicate hrow p hp.hasOperator hbinds
  rw [Condition.evaluate_render (Condition.isSolid_of_ofPredicate p hbinds)]
  exact hmeans later

end Predicate

namespace Catalog

/-- The events since the new year whose titles begin with a text that a pattern would take for
more. -/
def newYearRequest : Request :=
  { filter := [⟨"title", .startsWith, .string "100%"⟩, ⟨"at", .gte, newYear⟩] }

/-- An event at the new year, which was written down in another place. -/
def newYearRow : Record := .ofList [
  ("at", newYearInParis), ("title", .string "100% rain"), (createdColumn, newYear),
    (updatedColumn, newYear),
  ("_deleted", .bool false)]

/-- The text of the condition is true of the event. -/
theorem new_year_evaluated : ∃ plan condition params,
    diaryCatalog.plan "event" newYearRequest [] = .ok plan
      ∧ Binds (Condition.ofPredicate plan.table plan.predicate) [] condition params
      ∧ evaluate (plan.table.scope newYearRow (params ++ [])) (render condition.pieces)
        = some .yes := by
  have hparts : ((diaryCatalog.schema.table "event").toOption.bind fun table =>
      (diaryCatalog.plan "event" newYearRequest []).toOption.map fun plan =>
        decide ((∀ leaf ∈ plan.predicate.leaves, table.canCompare leaf = true)
          ∧ (∀ c ∈ table.columns, c.type.accepts (newYearRow.cell c.name) = true ∧ c.type ≠ .float)
          ∧ plan.predicate.holds table.columns newYearRow = true)) = some true := by
    decide +kernel
  obtain ⟨table, htable, hparts⟩ := Option.bind_eq_some_iff.1 hparts
  obtain ⟨plan, hplan, hfacts⟩ := Option.map_eq_some_iff.1 hparts
  obtain ⟨hcompare, hcells, hholds⟩ := of_decide_eq_true hfacts
  have hplan := eq_ok_of_toOption hplan
  have hrequest := plan_eq_ok (eq_ok_of_toOption htable) hplan
  have htable : plan.table = table := (Plan.projects_of_ofRequestAndLookup hrequest).table_eq
  have hrow : table.Stores newYearRow :=
    fun c hc => ⟨(hcells c hc).1, fun h => absurd h (hcells c hc).2⟩
  obtain ⟨condition, params, hbinds⟩ :=
    (Condition.canBind_ofPredicate_iff table plan.predicate []).2 hcompare
  obtain ⟨t, ht, hyes⟩ :=
    Predicate.IsTranslated.evaluate_eq_yes_iff (.request hrequest) hrow hbinds []
  obtain rfl : t = .yes := hyes.2 hholds
  exact ⟨plan, condition, params, hplan, htable ▸ hbinds, htable ▸ ht⟩

end Catalog

end RecordStore
