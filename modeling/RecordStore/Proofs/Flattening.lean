import Mathlib.Logic.Function.Iterate
import RecordStore.Proofs.Meaning

/-!
# Conjunctions without nesting

A predicate is a tree of conjunctions, and the same comparisons may stand in many trees. Which tree
it is makes no difference to anyone who uses the predicate: the store, the statement that is written
for it, and the database that reads the statement all go through the comparisons from left to right.
`Predicate.all` gives one tree for another. It takes the parts of its parts for its own, but not the
parts of these, and where a single part is left there is no conjunction at all; so its result may
still be nested, and applied again it may give yet another tree.

* **`Predicate.evaluated`**, **`Predicate.evaluatedClause`** — the parameters that are added for a
  predicate, and the truth of its text.
* **`Condition.truth_ofPredicate`** — the condition of a predicate comes to what the conditions of
  its comparisons come to.
* **`Predicate.Agrees`** — predicates that mean the same to everyone.
* **`Predicate.agrees_of_leaves`** — predicates with the same comparisons do.
* **`Predicate.all_agrees_and`** — flattening, once or as often as one likes, changes nothing.
-/

namespace RecordStore

open Sql

namespace Sql

/-! ## Steps side by side -/

section Steps

variable {α β γ δ : Type}

/-- What is made of the results of two steps may be made of what comes of each. -/
theorem map_pair (pair : α → β → γ) (join : δ → δ → δ) {f : α → δ} {g : β → δ} {k : γ → δ}
    (h : ∀ a b, k (pair a b) = join (f a) (g b)) (x : Binding α) (y : Binding β) :
    (k <$> do return pair (← x) (← y)) = do return join (← f <$> x) (← g <$> y) := by
  simp [h]

/-- Two functions make the same of a step if they do of its results. -/
theorem map_congr_of_binds {x : Binding α} {f g : α → β}
    (h : ∀ ps a qs, Binds x ps a qs → f a = g a) :
    f <$> x = g <$> x := by
  funext ps
  show (f <$> x).run ps = (g <$> x).run ps
  rw [StateT.run_map, StateT.run_map]
  cases hx : x.run ps with
  | error e => rfl
  | ok result =>
    obtain ⟨a, qs⟩ := result
    exact congrArg (fun b => Except.ok (b, qs)) (h ps a qs hx)

end Steps

/-! ## Conditions and their comparisons -/

/-- The truth of two parts of a conjunction together, if each has one. -/
def bothTrue? (s t : Option Truth) : Option Truth := do return (← s).and (← t)

theorem bothTrue?_assoc (s t u : Option Truth) :
    bothTrue? (bothTrue? s t) u = bothTrue? s (bothTrue? t u) := by
  cases s <;> cases t <;> cases u <;> simp [bothTrue?, Truth.and_assoc]

namespace Condition

theorem truthOfAll?_append (scope : Scope) (cs ds : List Condition) :
    truthOfAll? scope (cs ++ ds) = bothTrue? (truthOfAll? scope cs) (truthOfAll? scope ds) := by
  induction cs with
  | nil => cases hds : truthOfAll? scope ds <;> simp [truthOfAll?, bothTrue?, hds]
  | cons c cs ih =>
    show bothTrue? (truth? scope c) (truthOfAll? scope (cs ++ ds)) = _
    rw [ih, ← bothTrue?_assoc]
    rfl

mutual

/-- **The condition of a predicate comes to what the conditions of its comparisons come to**: both
add the same parameters in the same order or fail with the same error, and both have the same
truth. -/
theorem truth_ofPredicate (table : Table) (scope : Scope) : ∀ p : Predicate,
    truth? scope <$> ofPredicate table p = truthOfAll? scope <$> p.leaves.mapM (ofPredicate table)
  | .compare column op v => by
    have hone (c : Condition) : truthOfAll? scope [c] = truth? scope c := by simp [truthOfAll?]
    simp [Predicate.leaves, hone]
  | .and [] => rfl
  | .and (q :: rest) => by
    rw [ofPredicate, Functor.map_map, Predicate.leaves,
      ← truthOfAll_ofPredicates table scope (q :: rest)]
    · rfl
    · simp

theorem truthOfAll_ofPredicates (table : Table) (scope : Scope) : ∀ parts : List Predicate,
    truthOfAll? scope <$> ofPredicates table parts
      = truthOfAll? scope <$> (Predicate.leavesOfAll parts).mapM (ofPredicate table)
  | [] => rfl
  | q :: rest => by
    rw [ofPredicates, Predicate.leavesOfAll, List.mapM_append,
      map_pair _ _ (truthOfAll?_append scope), ← truth_ofPredicate table scope q,
      ← truthOfAll_ofPredicates table scope rest]
    exact map_pair List.cons bothTrue? (fun _ _ => rfl) _ _

end

end Condition

/-- The truth of the text of a clause. Without a clause every row is meant. -/
def evaluateClause (scope : Scope) (text : String) : Option Truth :=
  if text.toList = [] then some .yes
  else (" WHERE ".toList.isPrefixOf? text.toList).bind fun condition =>
    evaluate scope (String.ofList condition)

theorem evaluateClause_where (scope : Scope) (pieces : List Piece) :
    evaluateClause scope (render (.word " WHERE " :: pieces)) = evaluate scope (render pieces) := by
  have htext : (render (.word " WHERE " :: pieces)).toList
    = " WHERE ".toList ++ (render pieces).toList := by
    simp only [render, String.toList_ofList, List.flatMap_cons, Piece.render]
  have hprefix (cs : List Char) :
    " WHERE ".toList.isPrefixOf? (" WHERE ".toList ++ cs) = some cs := rfl
  rw [evaluateClause, htext, if_neg (by simp), hprefix, Option.bind_some, String.ofList_toList]

end Sql

namespace Predicate

/-! ## What a predicate means -/

/-- The parameters that are added for the condition of a predicate, and the truth of its text. -/
def evaluated (table : Table) (scope : Scope) (p : Predicate) : Binding (Option Truth) := do
  let condition ← Condition.ofPredicate table p
  return evaluate scope (render condition.pieces)

/-- The same of the clause of a statement. -/
def evaluatedClause (table : Table) (scope : Scope) (p : Predicate) : Binding (Option Truth) := do
  let clause ← whereClause table p
  return evaluateClause scope (render clause)

/-- Two predicates mean the same to everyone: they make the same comparisons in the same order and
hold of the same rows, and in a statement the same parameters are added for them in the same order,
whatever parameters are there already, and their texts have the same truth. Where one cannot be
written, neither can the other, with the same error. -/
structure Agrees (p q : Predicate) : Prop where
  leaves : p.leaves = q.leaves
  holds : ∀ columns row, p.holds columns row = q.holds columns row
  evaluated : ∀ table scope, p.evaluated table scope = q.evaluated table scope
  evaluatedClause : ∀ table scope, p.evaluatedClause table scope = q.evaluatedClause table scope

/-! ## Comparisons are all that counts -/

mutual

/-- A predicate holds of a row when all its comparisons do. -/
theorem holds_eq_leaves (columns : List Column) (row : Record) : ∀ p : Predicate,
    p.holds columns row = p.leaves.all (Predicate.holds columns row)
  | .compare column op v => by rw [leaves, List.all_cons, List.all_nil, Bool.and_true]
  | .and ps => by rw [holds, leaves, allHold_eq_leaves columns row ps]

theorem allHold_eq_leaves (columns : List Column) (row : Record) : ∀ ps : List Predicate,
    allHold columns row ps = (leavesOfAll ps).all (Predicate.holds columns row)
  | [] => rfl
  | p :: ps => by
    rw [allHold, leavesOfAll, List.all_append, holds_eq_leaves columns row p,
      allHold_eq_leaves columns row ps]

end

variable {p q : Predicate}

/-- The text of a predicate comes to what its comparisons come to. -/
theorem evaluated_eq_leaves (table : Table) (scope : Scope) (p : Predicate) :
    p.evaluated table scope
    = Condition.truthOfAll? scope <$> p.leaves.mapM (Condition.ofPredicate table) := by
  rw [← Condition.truth_ofPredicate]
  show (fun c => evaluate scope (render c.pieces)) <$> Condition.ofPredicate table p = _
  exact map_congr_of_binds fun ps c qs h =>
    Condition.evaluate_render (Condition.isSolid_of_ofPredicate p h)

/-- A clause comes to what the condition in it comes to, and so does the missing one. -/
theorem evaluatedClause_eq (table : Table) (scope : Scope) (p : Predicate) :
    p.evaluatedClause table scope = p.evaluated table scope := by
  unfold evaluatedClause whereClause
  split
  · rename_i halways
    obtain rfl : p = .and [] := by
      cases p with
      | compare => cases halways
      | and ps =>
        cases ps with
        | nil => rfl
        | cons => cases halways
    rw [evaluated_eq_leaves]
    rfl
  · simp only [evaluated, bind_assoc, pure_bind, evaluateClause_where]

/-- **Predicates that make the same comparisons in the same order mean the same to everyone.** -/
theorem agrees_of_leaves (h : p.leaves = q.leaves) : p.Agrees q where
  leaves := h
  holds columns row := by rw [holds_eq_leaves, holds_eq_leaves, h]
  evaluated table scope := by rw [evaluated_eq_leaves, evaluated_eq_leaves, h]
  evaluatedClause table scope := by
    rw [evaluatedClause_eq, evaluatedClause_eq, evaluated_eq_leaves, evaluated_eq_leaves, h]

/-! ## Flattening -/

/-- What keeps the comparisons keeps them however often it is applied. -/
theorem leaves_iterate {f : Predicate → Predicate} (h : ∀ p, (f p).leaves = p.leaves) (n : Nat)
    (p : Predicate) :
    (f^[n] p).leaves = p.leaves := by
  induction n with
  | zero => rfl
  | succ n ih => rw [Function.iterate_succ_apply', h, ih]

/-- **Flattening changes nothing.** The flattened conjunction of conditions, which may be nested to
any depth, means the same to everyone as the conjunction itself; and so does what comes of
flattening the result again and again, be it as the single part of a conjunction or with its parts
for parts. -/
theorem all_agrees_and (ps : List Predicate) (n : Nat) :
    ((fun p => all [p])^[n] (all ps)).Agrees (.and ps)
      ∧ ((fun p => all p.parts)^[n] (all ps)).Agrees (.and ps) := by
  have hall : (all ps).leaves = (and ps).leaves := by rw [leaves_all, leaves_and]
  have hone (p : Predicate) : (all [p]).leaves = p.leaves := by
    rw [leaves_all, List.flatMap_singleton]
  have hparts (p : Predicate) : (all p.parts).leaves = p.leaves := by rw [leaves_all, leaves_parts]
  exact ⟨agrees_of_leaves ((leaves_iterate hone n _).trans hall),
    agrees_of_leaves ((leaves_iterate hparts n _).trans hall)⟩

/-- A conjunction inside of two others is still nested after flattening, and is flat after
flattening once more. -/
example (p q r : Predicate) : all [.and [.and [p, q], r]] = .and [.and [p, q], r]
    ∧ all (all [.and [.and [.eq "a" .null, .eq "b" .null], .eq "c" .null]]).parts
      = .and [.eq "a" .null, .eq "b" .null, .eq "c" .null] := ⟨rfl, rfl⟩

end Predicate

end RecordStore
