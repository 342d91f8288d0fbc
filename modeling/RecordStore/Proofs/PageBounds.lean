import RecordStore.Proofs.Pages
import RecordStore.Proofs.Placeholders

/-!
# The numbers of a page

The window of a plan stands in the text of its selection as numbers: the limit, which is the size of
the pages, and the offset, unless there is none. A database takes them as signed numbers of 64 bits.
The settings and the client choose numbers up to the greatest unsigned one, and the offset, which is
a product of two of them, is cut at that one: so a page that is too far away for a database is not
asked for as an empty page.

* **`Statement.numbers`** — the numbers in the text of a statement.
* **`Plan.window_fits_iff`** — the pages whose numbers a database takes.
* **`Catalog.last_page_does_not_fit`** — one whose numbers it does not take.
-/

namespace RecordStore

namespace Sql

def Item.number? : Item → Option Nat
  | .number n => some n
  | _ => none

/-- The numbers in the text of a statement, one after the other. -/
def Statement.numbers (s : Statement) : List Nat := s.items.filterMap Item.number?

/-- The greatest number that a database takes as a limit or an offset. -/
def maxRowCount : Nat := Nat.pow 2 63 - 1

/-- The numbers of a selection are the limit and the offset of its plan. -/
theorem numbers_of_select {schema : String} {plan : Plan} {s : Statement}
    (h : select schema plan = .ok s) :
    s.numbers = plan.limit.toList ++ if plan.offset = 0 then [] else [plan.offset] := by
  have hnames {α : Type} (name : α → String) (xs : List α) :
      (xs.map fun x => Item.name (name x)).filterMap Item.number? = [] :=
        filterMap_names (fun _ => rfl) name xs
  have hcolumns : (plan.columns.map Item.name).filterMap Item.number? = [] := hnames id _
  have htable : [Item.name schema, .name plan.table.name].filterMap Item.number? = [] := rfl
  have hslots (slots : List Slot) : (numbered 1 slots).filterMap Item.number? = [] :=
    filterMap_numbered (fun _ => rfl) (fun _ => rfl) 1 slots
  have hlimit : (plan.limit.toList.map Item.number).filterMap Item.number? = plan.limit.toList := by
    simp [List.filterMap_map, Function.comp_def, Item.number?]
  have hoffset : (if plan.offset = 0 then [] else [Item.number plan.offset]).filterMap Item.number?
      = if plan.offset = 0 then [] else [plan.offset] := by
    split <;> rfl
  cases Command.linesUp_select h with
  | select _ _ hitems =>
    simp only [Statement.numbers, hitems, List.filterMap_append, hcolumns, htable, hslots, hnames,
      hlimit, hoffset, List.nil_append]

end Sql

open Sql

/-- The offset of the page of a request. -/
def Settings.offsetFor (settings : Settings) (p : Pagination) : Nat :=
  min ((p.page - 1) * settings.sizeFor p) maxUnsigned64

namespace Plan

variable {settings : Settings} {table : Table} {request : Request} {lookup : Filter} {plan : Plan}
  {schema : String}
  {s : Statement}

theorem window_of_ofRequestAndLookup
    (h : ofRequestAndLookup settings table request lookup = .ok plan) :
    (plan.limit, plan.offset) = windowOf settings table request.pagination := by
  obtain ⟨wide, hwide, hplan⟩ := ofRequestAndLookup_eq_ok_iff.1 h
  obtain ⟨p, lists, keys, -, -, -, rfl⟩ := ofRequest_eq_ok_iff.1 hwide
  rcases hplan with ⟨-, rfl⟩ | ⟨-, narrowed, -, rfl⟩ <;> rfl

/-- The numbers of a page are its size and its offset. -/
theorem numbers_of_plan (hplan : ofRequestAndLookup settings table request lookup = .ok plan)
    (hs : select schema plan = .ok s) : s.numbers = if table.paginated = true then
      settings.sizeFor request.pagination :: (if settings.offsetFor request.pagination = 0 then []
        else [settings.offsetFor request.pagination])
      else [] := by
  have hwindow := window_of_ofRequestAndLookup hplan
  unfold windowOf at hwindow
  rw [numbers_of_select hs]
  cases hpaginated : table.paginated with
  | false =>
    rw [hpaginated] at hwindow
    obtain ⟨hlimit, hoffset⟩ := Prod.mk.inj hwindow
    rw [hlimit, hoffset]
    rfl
  | true =>
    rw [hpaginated] at hwindow
    obtain ⟨hlimit, hoffset⟩ := Prod.mk.inj hwindow
    rw [hlimit, hoffset]
    rfl

/-- **The pages whose numbers a database takes.** A selection of a page has its size for a limit,
and for an offset the number of the rows on the pages before, cut at the greatest unsigned number of
64 bits; there is no number if the resource has no pages, and no offset on the first page. Both
numbers are taken exactly if the size is, and the number of the rows before is without being cut:
that comes too late. -/
theorem window_fits_iff (hplan : ofRequestAndLookup settings table request lookup = .ok plan)
    (hs : select schema plan = .ok s) :
    (s.numbers = if table.paginated = true then
        settings.sizeFor request.pagination :: (if settings.offsetFor request.pagination = 0 then []
          else [settings.offsetFor request.pagination])
        else [])
      ∧ ((∀ n ∈ s.numbers, n ≤ maxRowCount) ↔ (table.paginated = true →
        settings.sizeFor request.pagination ≤ maxRowCount
        ∧ (request.pagination.page - 1) * settings.sizeFor request.pagination ≤ maxRowCount)) := by
  have hnumbers := numbers_of_plan hplan hs
  refine ⟨hnumbers, ?_⟩
  -- the cut is above the greatest number that is taken
  have hoffset : settings.offsetFor request.pagination ≤ maxRowCount
      ↔ (request.pagination.page - 1) * settings.sizeFor request.pagination ≤ maxRowCount := by
    have hcut : ¬ maxUnsigned64 ≤ maxRowCount := by decide
    rw [Settings.offsetFor, min_le_iff, or_iff_left hcut]
  rw [hnumbers, ← hoffset]
  split
  · rename_i hpaginated
    rw [List.forall_mem_cons, forall_prop_of_true hpaginated]
    refine and_congr_right fun _ => ?_
    split
    · rename_i hnone
      simp [hnone]
    · rw [List.forall_mem_singleton]
  · rename_i hplain
    exact iff_of_true nofun fun hpaginated => absurd hpaginated hplain

end Plan

namespace Catalog

/-- The second page of people, and the last one that can be asked for. -/
def peoplePage (page : Nat) : Request := { pagination := { maxResults := some 2, page := page } }

/-- The numbers of the second page are taken. -/
theorem second_page_fits : ∃ plan s, sampleCatalog.plan "person" (peoplePage 2) [] = .ok plan
    ∧ select "public" plan = .ok s ∧ s.numbers = [2, 2] ∧ ∀ n ∈ s.numbers, n ≤ maxRowCount := by
  have hparts : ((sampleCatalog.schema.table "person").toOption.bind fun table =>
      (sampleCatalog.plan "person" (peoplePage 2) []).toOption.bind fun plan =>
      (select "public" plan).toOption.map fun s =>
        decide (table.paginated = true ∧ s.numbers = [2, 2])) = some true := by
    decide +kernel
  obtain ⟨table, htable, hparts⟩ := Option.bind_eq_some_iff.1 hparts
  obtain ⟨plan, hplan, hparts⟩ := Option.bind_eq_some_iff.1 hparts
  obtain ⟨s, hs, hfacts⟩ := Option.map_eq_some_iff.1 hparts
  obtain ⟨hpaginated, hnumbers⟩ := of_decide_eq_true hfacts
  have hplan := eq_ok_of_toOption hplan
  have hs := eq_ok_of_toOption hs
  obtain ⟨-, hfits⟩ := Plan.window_fits_iff (plan_eq_ok (eq_ok_of_toOption htable) hplan) hs
  exact ⟨plan, s, hplan, hs, hnumbers, hfits.2 fun _ => by decide⟩

/-- The last page that can be asked for is empty where the rows are counted off, but a database does
not take the offset that it is asked for with. -/
theorem last_page_does_not_fit :
    (sampleCatalog.find "person" (peoplePage maxUnsigned64)
      [] (sampleCatalog.run peopleSteps)).1.toOption.map
        (fun page => (page.records.length, page.total)) = some (0, 3)
      ∧ ∃ plan ∈ (sampleCatalog.plan "person" (peoplePage maxUnsigned64) []).toOption,
        ∃ s ∈ (select "public" plan).toOption, s.numbers = [2, maxUnsigned64]
          ∧ ¬ maxUnsigned64 ≤ maxRowCount := by
  decide +kernel

end Catalog

end RecordStore
