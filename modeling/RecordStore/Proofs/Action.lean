import RecordStore.Store.Transaction

/-!
# What an action does

An action is read off in two ways.

* **`Yields a tx x tx'`** — from `tx` the action succeeds with `x` and leaves `tx'`. There is one
  lemma per way of building an action, so a success of a whole change is taken apart into the
  successes of its statements, step by step, and nothing is unfolded.
* **`Keeps f a`** — the action leaves what `f` says of the transaction as it is, whether it succeeds
  or fails. This is how reading leaves the copy alone and how every statement leaves the committed
  store alone.
-/

namespace RecordStore

namespace Action

variable {α β : Type} {tx tx' : Transaction}

/-- What becomes of the transaction and of the action. -/
def outcome (a : Action α) (tx : Transaction) : Except Error α × Transaction := a.run.run tx

/-- From a transaction the action succeeds with a value and leaves another transaction. -/
def Yields (a : Action α) (tx : Transaction) (x : α) (tx' : Transaction) : Prop :=
  outcome a tx = (.ok x, tx')

/-- The action leaves what a function says of the transaction as it is, even if it fails. -/
def Keeps (f : Transaction → β) (a : Action α) : Prop := ∀ tx, f (outcome a tx).2 = f tx

/-! ## The ways of building an action -/

@[simp] theorem outcome_pure (x : α) (tx : Transaction) :
    outcome (pure x : Action α) tx = (.ok x, tx) := rfl

@[simp] theorem outcome_throw (e : Error) (tx : Transaction) :
    outcome (throw e : Action α) tx = (.error e, tx) := rfl

@[simp] theorem outcome_result (r : Except Error α) (tx : Transaction) :
    outcome (Transaction.result r) tx = (r, tx) := rfl

@[simp] theorem outcome_get (tx : Transaction) :
    outcome (get : Action Transaction) tx = (.ok tx, tx) := rfl

@[simp] theorem outcome_set (new tx : Transaction) :
    outcome (set new : Action Unit) tx = (.ok (), new) := rfl

@[simp] theorem outcome_modify (f : Transaction → Transaction) (tx : Transaction) :
    outcome (modify f : Action Unit) tx = (.ok (), f tx) := rfl

theorem outcome_bind (a : Action α) (f : α → Action β) (tx : Transaction) :
    outcome (a >>= f) tx
      = match outcome a tx with
        | (.ok x, tx') => outcome (f x) tx'
        | (.error e, tx') => (.error e, tx') := by
  -- the bind of the stacked monads is `bindCont` on the first outcome
  show (match outcome a tx with | (r, tx') => ExceptT.bindCont f r tx') = _
  rcases outcome a tx with ⟨_ | _, _⟩ <;> rfl

/-! ## Successes taken apart -/

@[simp] theorem yields_pure (x y : α) : Yields (pure x) tx y tx' ↔ y = x ∧ tx' = tx := by
  simp [Yields, eq_comm]

@[simp] theorem yields_throw (e : Error) (x : α) : ¬ Yields (throw e) tx x tx' := by
  simp [Yields]

@[simp] theorem yields_result (r : Except Error α) (x : α) :
    Yields (Transaction.result r) tx x tx' ↔ r = .ok x ∧ tx' = tx := by
  simp [Yields, eq_comm]

@[simp] theorem yields_get (x : Transaction) : Yields get tx x tx' ↔ x = tx ∧ tx' = tx := by
  simp [Yields, eq_comm]

@[simp] theorem yields_modify (f : Transaction → Transaction) (x : Unit) :
    Yields (modify f) tx x tx' ↔ tx' = f tx := by
  simp [Yields, eq_comm]

/-- Two steps succeed when the first does and then the second. -/
theorem yields_bind {a : Action α} {f : α → Action β} {y : β} :
    Yields (a >>= f) tx y tx' ↔ ∃ x mid, Yields a tx x mid ∧ Yields (f x) mid y tx' := by
  unfold Yields
  rw [outcome_bind]
  rcases outcome a tx with ⟨_ | x, mid⟩
  -- the first step failed: neither side can hold
  · simp
  · constructor
    · exact fun h => ⟨x, mid, rfl, h⟩
    · rintro ⟨_, _, ⟨⟩, h⟩
      exact h

theorem yields_get_bind {f : Transaction → Action β} {y : β} :
    Yields (get >>= f) tx y tx' ↔ Yields (f tx) tx y tx' := by
  rw [yields_bind]
  constructor
  · rintro ⟨x, mid, hget, h⟩
    -- reading changes nothing, so both the value and what is left are `tx`
    obtain ⟨rfl, rfl⟩ := (yields_get x).1 hget
    exact h
  · exact fun h => ⟨tx, tx, by simp, h⟩

/-- An action whose result is dropped does what it did. -/
theorem yields_discard {a : Action α} {y : Unit} :
    Yields (discard a) tx y tx' ↔ ∃ x, Yields a tx x tx' := by
  show Yields (a >>= fun _ => pure ()) tx y tx' ↔ _
  rw [yields_bind]
  constructor
  · rintro ⟨x, mid, hx, hy⟩
    rw [yields_pure] at hy
    exact ⟨x, hy.2 ▸ hx⟩
  · rintro ⟨x, hx⟩
    exact ⟨x, tx', hx, by simp⟩

theorem yields_forM_cons {f : α → Action Unit} {x : α} {rest : List α} {y : Unit} :
    Yields ((x :: rest).forM f) tx y tx'
      ↔ ∃ mid, Yields (f x) tx () mid ∧ Yields (rest.forM f) mid () tx' := by
  show Yields (f x >>= fun _ => rest.forM f) tx y tx' ↔ _
  rw [yields_bind]
  exact ⟨fun ⟨_, mid, hx, hrest⟩ => ⟨mid, hx, hrest⟩, fun ⟨mid, hx, hrest⟩ => ⟨(), mid, hx, hrest⟩⟩

/-- What every step of a loop preserves, the loop preserves. -/
theorem forM_induction {P : Transaction → Prop} {f : α → Action Unit} {items : List α}
    (step : ∀ x ∈ items, ∀ tx tx', P tx → Yields (f x) tx () tx' → P tx')
    (hstart : P tx) (hrun : Yields (items.forM f) tx () tx') : P tx' := by
  -- on the items; each step starts where the one before it stopped, so `tx` varies
  induction items generalizing tx with
  | nil =>
    obtain ⟨-, rfl⟩ := (yields_pure () ()).1 hrun
    exact hstart
  | cons x rest ih =>
    obtain ⟨mid, hx, hrest⟩ := yields_forM_cons.1 hrun
    exact ih (fun y hy => step y (List.mem_cons_of_mem x hy))
      (step x List.mem_cons_self tx mid hstart hx) hrest

/-! ## What is left as it is -/

section Keeps

variable {γ : Type} {f : Transaction → γ}

theorem keeps_pure (x : α) : Keeps f (pure x : Action α) := fun _ => rfl

theorem keeps_throw (e : Error) : Keeps f (throw e : Action α) := fun _ => rfl

theorem keeps_result (r : Except Error α) : Keeps f (Transaction.result r) := fun _ => rfl

theorem keeps_get : Keeps f (get : Action Transaction) := fun _ => rfl

theorem keeps_modify {g : Transaction → Transaction} (h : ∀ tx, f (g tx) = f tx) :
    Keeps f (modify g : Action Unit) := h

/-- What each of two steps keeps, both of them keep, also when the first fails. -/
theorem keeps_bind {a : Action α} {g : α → Action β} (ha : Keeps f a) (hg : ∀ x, Keeps f (g x)) :
    Keeps f (a >>= g) := by
  intro tx
  have hfirst := ha tx
  rw [outcome_bind]
  rcases hr : outcome a tx with ⟨_ | x, mid⟩
  -- a failure of the first step is the failure of both, at the same transaction
  · rw [hr] at hfirst
    exact hfirst
  · rw [hr] at hfirst
    exact (hg x mid).trans hfirst

theorem keeps_discard {a : Action α} (ha : Keeps f a) : Keeps f (discard a) :=
  keeps_bind ha fun _ => keeps_pure ()

theorem keeps_forM {g : α → Action Unit} {items : List α} (h : ∀ x ∈ items, Keeps f (g x)) :
    Keeps f (items.forM g) := by
  induction items with
  | nil => exact keeps_pure ()
  | cons x rest ih =>
    exact keeps_bind (h x List.mem_cons_self) fun _ =>
      ih fun y hy => h y (List.mem_cons_of_mem x hy)

theorem Keeps.of_yields {a : Action α} (h : Keeps f a) {x : α} (hrun : Yields a tx x tx') :
    f tx' = f tx := by
  have hkept := h tx
  rw [hrun] at hkept
  exact hkept

end Keeps

end Action

/-! ## Steps on a document -/

namespace InPlace

variable {α β : Type}

/-- What becomes of the steps, of the document and of the transaction. -/
def outcome (a : InPlace α) (doc : Record) (tx : Transaction) :
    (Except Error α × Record) × Transaction :=
  (a.run.run doc).run tx

@[simp] theorem outcome_pure (x : α) (doc : Record) (tx : Transaction) :
    outcome (pure x : InPlace α) doc tx = ((.ok x, doc), tx) := rfl

@[simp] theorem outcome_get (doc : Record) (tx : Transaction) :
    outcome (get : InPlace Record) doc tx = ((.ok doc, doc), tx) := rfl

@[simp] theorem outcome_modify (f : Record → Record) (doc : Record) (tx : Transaction) :
    outcome (modify f : InPlace Unit) doc tx = ((.ok (), f doc), tx) := rfl

@[simp] theorem outcome_lift (step : Action α) (doc : Record) (tx : Transaction) :
    outcome (lift step) doc tx = (((step.outcome tx).1, doc), (step.outcome tx).2) := rfl

/-- A failure keeps the document of the step that failed. -/
theorem outcome_bind (a : InPlace α) (f : α → InPlace β) (doc : Record) (tx : Transaction) :
    outcome (a >>= f) doc tx
      = match outcome a doc tx with
        | ((.ok x, doc'), tx') => outcome (f x) doc' tx'
        | ((.error e, doc'), tx') => ((.error e, doc'), tx') := by
  -- the bind of the stacked monads is `bindCont` on the first outcome
  show (match outcome a doc tx with | ((r, doc'), tx') => (ExceptT.bindCont f r doc') tx') = _
  rcases outcome a doc tx with ⟨⟨_ | _, _⟩, _⟩ <;> rfl

end InPlace

end RecordStore
