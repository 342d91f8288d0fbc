import RecordStore.Settings
import RecordStore.Store.Transaction
import RecordStore.Time.Format

/-!
# Records of a plan

The rows of a plan, with the lists that link tables hold for them and with dates in the format of
the settings. The members of a list stand in the order in which they were linked. They are gathered
for all rows at once, under the texts of the keys, and each row is then handed the list under its
own.
-/

namespace RecordStore

/-- The records of one page, and the number of records on all pages. -/
structure Page where
  records : List Record
  total : Nat

namespace Fetch

/-- The keys listed for each owner, under the text of the owner's key. -/
abbrev Members := NameMap (List Value)

/-- The keys listed for an owner. -/
def membersOf (members : Members) (owner : Value) : List Value :=
  (members.get? owner.text).getD []

/-- One more row of a link table. -/
def addMember (m : ListField) (members : Members) (row : Record) : Members :=
  let owner := row.cell m.ownerColumn
  members.insert owner.text (membersOf members owner ++ [row.cell m.memberColumn])

/-- The plan that reads the links of the given owners. -/
def linkPlan (link : Table) (m : ListField) (owners : List Value) : Plan :=
  { Plan.scan link (.compare m.ownerColumn .isIn (.array owners)) with
    columns := [m.ownerColumn, m.memberColumn] }

/-- The keys that are listed for the given owners. -/
def membersByOwner (schema : Schema) (m : ListField) (owners : List Value) : Action Members := do
  let link ← Transaction.result (schema.linkTable m.linkTable)
  let rows ← Transaction.select (linkPlan link m owners)
  return rows.foldl (addMember m) {}

/-- The text of a record's key, under which its members stand; empty without a key. -/
def keyText (table : Table) (r : Record) : String :=
  ((r.get? table.primaryKey).map Value.text).getD ""

/-- Hand the lists out to records, one after the other. A list that was handed out is gone, and a
record for which nothing is left gets the empty list. -/
def handOut (table : Table) (m : ListField) : Members → List Record → List Record
  | _, [] => []
  | members, r :: rest =>
    let key := keyText table r
    r.insert m.field (.array ((members.get? key).getD []))
      :: handOut table m (members.erase key) rest

/-- Records with one of their lists. -/
def withMembers (schema : Schema) (table : Table) (records : List Record) (m : ListField) :
    Action (List Record) := do
  let owners := records.filterMap (·.get? table.primaryKey)
  if owners.isEmpty then return records
  else
    let members ← membersByOwner schema m owners
    return handOut table m members records

/-- **Records whose keys have different texts** get the lists that are found under these texts. -/
theorem handOut_eq_map {table : Table} {m : ListField} {records : List Record}
    (hapart : (records.map (keyText table)).Nodup) (members : Members) :
    handOut table m members records
      = records.map fun r =>
        r.insert m.field (.array ((members.get? (keyText table r)).getD [])) := by
  -- on the records; of those that are left none asks for a list that is gone
  induction records generalizing members with
  | nil => rfl
  | cons r rest ih =>
    rw [List.map_cons, List.nodup_cons] at hapart
    rw [handOut, ih hapart.2, List.map_cons]
    refine congrArg _ (List.map_congr_left fun other hother => ?_)
    have hne : keyText table other ≠ keyText table r := fun heq =>
      hapart.1 (heq ▸ List.mem_map_of_mem hother)
    rw [NameMap.get?_erase_of_ne _ hne]

/-- A record with the date of one column in a format. -/
def formatCell (format : String) (r : Record) (c : Column) : Except Error Record :=
  match (r.cell c.name).text?.bind Time.Timestamp.ofText? with
  | none => .ok r
  | some t =>
    match Time.formatted? format t with
    | some text => .ok (r.insert c.name (.string text))
    | none => .error (.schema (.load (.badDateFormat format)))

/-- A record with its dates in a format. -/
def formatDates (table : Table) (format : String) (r : Record) : Except Error Record :=
  (table.columns.filter (·.type == .datetime)).foldlM (formatCell format) r

/-- The records of a plan. -/
def records (schema : Schema) (settings : Settings) (plan : Plan) : Action (List Record) := do
  let rows ← Transaction.select plan
  let lists := plan.relations.filterMap plan.table.listField?
  let full ← lists.foldlM (withMembers schema plan.table) rows
  match settings.dateFormat with
  | none => return full
  | some format => Transaction.result (full.mapM (formatDates plan.table format))

/-- The records of a plan, with the number that there are without its page. -/
def page (schema : Schema) (settings : Settings) (plan : Plan) : Action Page := do
  let page ← records schema settings plan
  let total ← Transaction.count plan.table plan.predicate
  return ⟨page, total⟩

/-- The first record of a plan, whatever its page. -/
def first? (schema : Schema) (settings : Settings) (plan : Plan) : Action (Option Record) := do
  return (← records schema settings { plan with limit := some 1, offset := 0 }).head?

end Fetch

end RecordStore
