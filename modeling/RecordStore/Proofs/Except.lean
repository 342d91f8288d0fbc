import Mathlib.Data.List.Forall2

/-!
# Steps that may fail

How the success of a chain of steps is taken apart: of two steps both succeed, of a list of steps
each.
-/

namespace RecordStore

variable {α β ε : Type}

theorem bind_eq_ok_iff {r : Except ε α} {f : α → Except ε β} {b : β} :
    (r >>= f) = .ok b ↔ ∃ a, r = .ok a ∧ f a = .ok b := by
  cases r with
  | error e => simp [bind, Except.bind]
  | ok a => simp [bind, Except.bind]

theorem map_eq_ok_iff {r : Except ε α} {f : α → β} {b : β} :
    r.map f = .ok b ↔ ∃ a, r = .ok a ∧ f a = b := by
  cases r <;> simp [Except.map]

theorem map_eq_error_iff {r : Except ε α} {f : α → β} {e : ε} :
    r.map f = .error e ↔ r = .error e := by
  cases r <;> simp [Except.map]

theorem bind_eq_error_iff {r : Except ε α} {f : α → Except ε β} {e : ε} :
    (r >>= f) = .error e ↔ r = .error e ∨ ∃ a, r = .ok a ∧ f a = .error e := by
  cases r with
  | error e => simp [bind, Except.bind]
  | ok a => simp [bind, Except.bind]

/-- A step whose success was computed. -/
theorem eq_ok_of_toOption {r : Except ε α} {a : α} (h : r.toOption = some a) : r = .ok a := by
  cases r with
  | error e => cases h
  | ok b => rw [Option.some.inj h]

/-- The same of a step that returns a state beside its result. -/
theorem eq_ok_of_fst_toOption {r : Except ε α × β} {a : α} (h : r.1.toOption = some a) :
    r = (.ok a, r.2) := by
  rw [← eq_ok_of_toOption h]

/-- A list of checks fails in one of them. -/
theorem exists_of_forM_error {f : α → Except ε Unit} {items : List α} {e : ε}
    (h : items.forM f = .error e) : ∃ x ∈ items, f x = .error e := by
  induction items with
  | nil => cases h
  | cons x rest ih =>
    rcases bind_eq_error_iff.1 (show (f x >>= fun _ => rest.forM f) = .error e from h) with h
      | ⟨_, -, h⟩
    · exact ⟨x, List.mem_cons_self, h⟩
    · obtain ⟨y, hy, hfails⟩ := ih h
      exact ⟨y, List.mem_cons_of_mem x hy, hfails⟩

/-- A list of steps that fails does so at one of them. -/
theorem exists_of_mapM_error {f : α → Except ε β} {items : List α} {e : ε}
    (h : items.mapM f = .error e) :
    ∃ x ∈ items, f x = .error e := by
  induction items with
  | nil => cases h
  | cons x rest ih =>
    rw [List.mapM_cons] at h
    rcases bind_eq_error_iff.1 h with h | ⟨y, -, h⟩
    · exact ⟨x, List.mem_cons_self, h⟩
    · rcases bind_eq_error_iff.1 h with h | ⟨ys, -, h⟩
      · obtain ⟨z, hz, hfails⟩ := ih h
        exact ⟨z, List.mem_cons_of_mem x hz, hfails⟩
      · cases h

/-- Where one check of a list fails, the first that fails is that one or one before it. -/
theorem exists_first_error {f : α → Except ε Unit} (before after : List α) {x : α} {e : ε}
    (h : f x = .error e) :
    ∃ y ∈ before ++ [x], ∃ e', f y = .error e' ∧ (before ++ x :: after).forM f = .error e' := by
  induction before with
  | nil =>
    exact ⟨x, List.mem_singleton_self x, e, h, bind_eq_error_iff.2 (.inl h)⟩
  | cons y rest ih =>
    cases hy : f y with
    | error e' => exact ⟨y, List.mem_cons_self, e', hy, bind_eq_error_iff.2 (.inl hy)⟩
    | ok _ =>
      obtain ⟨z, hz, e', hfails, hall⟩ := ih
      exact ⟨z, List.mem_cons_of_mem y hz, e', hfails, bind_eq_error_iff.2 (.inr ⟨(), hy, hall⟩)⟩

/-- A list of checks succeeds when each check does. -/
theorem forM_eq_ok_iff {f : α → Except ε Unit} {items : List α} :
    items.forM f = .ok () ↔ ∀ x ∈ items, f x = .ok () := by
  induction items with
  | nil => simp [pure, Except.pure]
  | cons x rest ih =>
    show (f x >>= fun _ => rest.forM f) = .ok () ↔ _
    rw [bind_eq_ok_iff, List.forall_mem_cons, ← ih]
    exact ⟨fun ⟨(), hx, hrest⟩ => ⟨hx, hrest⟩, fun ⟨hx, hrest⟩ => ⟨(), hx, hrest⟩⟩

/-- Checks that succeed can be left out. -/
theorem forM_filter_of_ok {f : α → Except ε Unit} {keep : α → Bool} {items : List α}
    (h : ∀ x ∈ items, keep x = false → f x = .ok ()) :
    (items.filter keep).forM f = items.forM f := by
  induction items with
  | nil => rfl
  | cons x rest ih =>
    have hrest := ih fun y hy => h y (List.mem_cons_of_mem x hy)
    cases hkeep : keep x with
    | true =>
      rw [List.filter_cons_of_pos hkeep]
      show (f x >>= fun _ => (rest.filter keep).forM f) = f x >>= fun _ => rest.forM f
      rw [hrest]
    | false =>
      rw [List.filter_cons_of_neg (by rw [hkeep]; exact Bool.false_ne_true), hrest]
      show rest.forM f = f x >>= fun _ => rest.forM f
      rw [h x List.mem_cons_self hkeep]
      rfl

/-- A list of steps succeeds with one value for each step. -/
theorem mapM_eq_ok_iff {f : α → Except ε β} {items : List α} {values : List β} :
    items.mapM f = .ok values ↔ List.Forall₂ (fun x y => f x = .ok y) items values := by
  induction items generalizing values with
  | nil =>
    rw [List.mapM_nil]
    constructor
    · rintro ⟨⟩
      exact .nil
    · rintro ⟨⟩
      rfl
  | cons x rest ih =>
    rw [List.mapM_cons, bind_eq_ok_iff]
    constructor
    · rintro ⟨y, hy, h⟩
      obtain ⟨ys, hys, h⟩ := bind_eq_ok_iff.1 h
      obtain rfl : y :: ys = values := by simpa [pure, Except.pure] using h
      exact .cons hy (ih.1 hys)
    · intro h
      cases h with
      | cons hy hys => exact ⟨_, hy, bind_eq_ok_iff.2 ⟨_, ih.2 hys, rfl⟩⟩

/-- Two lists of steps that do the same one by one do the same as a whole. -/
theorem mapM_eq_of_forall₂ {γ : Type} {f : α → Except ε γ} {g : β → Except ε γ} {xs : List α}
    {ys : List β} (h : List.Forall₂ (fun x y => f x = g y) xs ys) : xs.mapM f = ys.mapM g := by
  induction h with
  | nil => rfl
  | cons hstep _ ih => rw [List.mapM_cons, List.mapM_cons, hstep, ih]

/-- A list of steps succeeds when each step does. -/
theorem exists_mapM_ok_iff {f : α → Except ε β} {items : List α} :
    (∃ values, items.mapM f = .ok values) ↔ ∀ x ∈ items, ∃ y, f x = .ok y := by
  simp only [mapM_eq_ok_iff]
  induction items with
  | nil => simp
  | cons x rest ih =>
    rw [List.forall_mem_cons, ← ih]
    constructor
    · rintro ⟨values, h⟩
      cases h with
      | cons hy hys => exact ⟨⟨_, hy⟩, _, hys⟩
    · rintro ⟨⟨y, hy⟩, ys, hys⟩
      exact ⟨y :: ys, .cons hy hys⟩

end RecordStore
