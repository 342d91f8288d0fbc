import RecordStore.Proofs.ReadOptions
import RecordStore.Proofs.Translation

/-!
# Resources that can be read

A datasource applies to every read of its resource, so one that cannot be applied leaves the
resource without a plan for any request. Of a datasource less is checked when the domain is compiled
than is asked of it when a request comes: a key of the filter is cut at its first double underscore
and the field is looked up, while a request splits it at the last one and only before an operator;
the values of the filter and the whole projection are looked at by requests alone.

* **`Table.TakesFilter`**, **`Table.TakesProjection`** — what is asked of a datasource when a
  request comes.
* **`Plan.exists_columnsAndLists_iff`** — when the columns of a plan can be told.
* **`Catalog.plan_exists_iff`** — the resources that can be read.
* **`Catalog.unreadable_resources_compile`** — some that cannot.
-/

namespace RecordStore

open Compile

/-! ## Filters -/

/-- Every entry of a filter compares a column with a value that the operator takes there. -/
def Table.TakesFilter (t : Table) (filter : Record) : Prop :=
  ∀ entry ∈ Filter.ofRecord filter,
    ∃ c v, t.column? entry.field = some c ∧ entry.op.Takes c.type entry.value v

/-! ## Projections -/

/-- The flag for which a value in a projection stands. -/
def Projection.flagOf? : Value → Option Bool
  | .bool b => some b
  | .int n => if n = 1 then some true else if n = 0 then some false else none
  | _ => none

/-- Every entry of a projection names a field, and all of them have the same flag. -/
def Table.TakesProjection (t : Table) (projection : Record) : Prop :=
  ∃ included, ∀ entry ∈ projection.entries,
    t.hasField entry.1 = true ∧ Projection.flagOf? entry.2 = some included

theorem Projection.flag_eq_ok_iff {entry : String × Value} {x : String × Bool} :
    flag entry = .ok x ↔ ∃ included, flagOf? entry.2 = some included ∧ x = (entry.1, included) := by
  obtain ⟨field, v⟩ := entry
  unfold flag flagOf?
  cases v with
  | bool b => simp [eq_comm]
  | int n =>
    by_cases hone : n = 1
    · simp [hone, eq_comm]
    · by_cases hzero : n = 0
      · simp [hzero, eq_comm]
      · simp [hone, hzero, reject]
  | _ => simp [reject]

/-- A projection can be read and then applied if the table takes it. -/
theorem Projection.exists_ofRecord_iff {table : Table} {projection : Record} :
    (∃ p, ofRecord projection = .ok p
        ∧ ∃ included, ∀ entry ∈ p, table.hasField entry.1 = true ∧ entry.2 = included)
      ↔ table.TakesProjection projection := by
  constructor
  · rintro ⟨p, hp, included, hall⟩
    refine ⟨included, fun entry hentry => ?_⟩
    obtain ⟨x, hx, hread⟩ := exists_of_mem_left (mapM_eq_ok_iff.1 hp) hentry
    obtain ⟨read, hflag, rfl⟩ := flag_eq_ok_iff.1 hread
    obtain ⟨hfield, rfl⟩ := hall _ hx
    exact ⟨hfield, hflag⟩
  · rintro ⟨included, hall⟩
    refine ⟨projection.entries.map fun entry => (entry.1, included), ?_, included, fun x hx => ?_⟩
    · rw [ofRecord, mapM_eq_ok_iff, List.forall₂_map_right_iff, List.forall₂_same]
      exact fun entry hentry => flag_eq_ok_iff.2 ⟨included, (hall entry hentry).2, rfl⟩
    · obtain ⟨entry, hentry, rfl⟩ := List.mem_map.1 hx
      exact ⟨(hall entry hentry).1, rfl⟩

namespace Plan

variable {table : Table}

theorem projectionOf_some {p : Projection} (hp : p.isEmpty = false) :
    projectionOf table (some p) = .ok (some p) := by
  unfold projectionOf
  rw [Option.filter_some, hp]
  rfl

theorem columnsAndLists_some {p : Projection} (hp : p.isEmpty = false) :
    columnsAndLists table (some p) =
      match p.find? fun entry => !table.hasField entry.1 with
      | some (field, _) => reject (.unknownProjectionField field)
      | none =>
        if p.any (·.2 != p.head?.any Prod.snd) then reject .mixedProjection
        else .ok (table.columnNames.filter (keeps table p (p.head?.any Prod.snd)),
          table.listNames.filter (keeps table p (p.head?.any Prod.snd))) := by
  rw [columnsAndLists, projectionOf_some hp]
  rfl

/-- Of the names in a projection that are no fields, the first is reported. -/
theorem columnsAndLists_of_unknown {p : Projection}
    (h : ∃ entry ∈ p, table.hasField entry.1 = false) :
    ∃ entry ∈ p, table.hasField entry.1 = false
      ∧ columnsAndLists table (some p) = reject (.unknownProjectionField entry.1) := by
  obtain ⟨other, hother, hunknown⟩ := h
  have hp : p.isEmpty = false := List.isEmpty_eq_false_iff_exists_mem.2 ⟨other, hother⟩
  rw [columnsAndLists_some hp]
  cases hfound : p.find? fun entry => !table.hasField entry.1 with
  | none => simpa [hunknown] using List.find?_eq_none.1 hfound other hother
  | some entry =>
    exact ⟨entry, List.mem_of_find?_eq_some hfound, by simpa using List.find?_some hfound, rfl⟩

/-- A projection of fields that do not all have one flag is rejected. -/
theorem columnsAndLists_of_mixed {p : Projection}
    (hfields : ∀ entry ∈ p, table.hasField entry.1 = true) (hmixed : ∃ x ∈ p, ∃ y ∈ p, x.2 ≠ y.2) :
    columnsAndLists table (some p) = reject .mixedProjection := by
  obtain ⟨x, hx, y, hy, hne⟩ := hmixed
  have hknown : (p.find? fun entry => !table.hasField entry.1) = none :=
    List.find?_eq_none.2 fun entry hentry => by simp [hfields entry hentry]
  -- one of two different flags is not the first
  have hother : p.any (·.2 != p.head?.any Prod.snd) = true := by
    rw [List.any_eq_true]
    by_cases hfirst : x.2 = p.head?.any Prod.snd
    · exact ⟨y, hy, bne_iff_ne.2 fun h => hne (hfirst.trans h.symm)⟩
    · exact ⟨x, hx, bne_iff_ne.2 hfirst⟩
  rw [columnsAndLists_some (List.isEmpty_eq_false_iff_exists_mem.2 ⟨x, hx⟩), hknown]
  exact if_pos hother

/-- A projection of fields that all have one flag keeps what `keeps` says. -/
theorem columnsAndLists_of_uniform {p : Projection} {included : Bool} (hp : p.isEmpty = false)
    (hall : ∀ entry ∈ p, table.hasField entry.1 = true ∧ entry.2 = included) :
    columnsAndLists table (some p) = .ok (table.columnNames.filter (keeps table p included),
      table.listNames.filter (keeps table p included)) := by
  have hknown : (p.find? fun entry => !table.hasField entry.1) = none :=
    List.find?_eq_none.2 fun entry hentry => by simp [(hall entry hentry).1]
  have hfirst : p.head?.any Prod.snd = included := by
    cases p with
    | nil => cases hp
    | cons first rest => exact (hall first List.mem_cons_self).2
  have hsame : p.any (·.2 != included) = false :=
    List.any_eq_false.2 fun entry hentry => by simp [(hall entry hentry).2]
  rw [columnsAndLists_some hp, hknown, hfirst, hsame]
  rfl

/-- A projection applies if it names fields only, and either includes or excludes all of them. -/
theorem exists_columnsAndLists_some_iff {p : Projection} (hp : p.isEmpty = false) :
    (∃ lists, columnsAndLists table (some p) = .ok lists)
      ↔ ∃ included, ∀ entry ∈ p, table.hasField entry.1 = true ∧ entry.2 = included := by
  constructor
  · rintro ⟨lists, hlists⟩
    have hfields : ∀ entry ∈ p, table.hasField entry.1 = true := by
      intro entry hentry
      by_contra hunknown
      obtain ⟨_, -, -, hrejected⟩ :=
        columnsAndLists_of_unknown ⟨entry, hentry, Bool.eq_false_iff.2 hunknown⟩
      cases hlists.symm.trans hrejected
    obtain ⟨first, hfirst⟩ := List.isEmpty_eq_false_iff_exists_mem.1 hp
    refine ⟨first.2, fun entry hentry => ⟨hfields entry hentry, ?_⟩⟩
    by_contra hother
    cases hlists.symm.trans (columnsAndLists_of_mixed hfields ⟨entry, hentry, first,
      hfirst, hother⟩)
  · rintro ⟨included, hall⟩
    exact ⟨_, columnsAndLists_of_uniform hp hall⟩

theorem projectionOf_none {projection : Record}
    (hdefault : table.defaultProjection = some projection) :
    projectionOf table none
      = (Projection.ofRecord projection).map fun p => if p.isEmpty then none else some p := by
  rw [projectionOf, hdefault]
  rfl

/-- The projection of a datasource applies to a request without one as if it were requested. -/
theorem exists_columnsAndLists_default_iff {projection : Record} {p : Projection}
    (hdefault : table.defaultProjection = some projection)
    (hp : Projection.ofRecord projection = .ok p) :
    (∃ lists, columnsAndLists table none = .ok lists)
      ↔ ∃ included, ∀ entry ∈ p, table.hasField entry.1 = true ∧ entry.2 = included := by
  have happlied := projectionOf_none hdefault
  rw [hp] at happlied
  cases hempty : p.isEmpty with
  | true =>
    obtain rfl := List.isEmpty_iff.1 hempty
    refine iff_of_true ⟨(table.columnNames, table.listNames), ?_⟩ ⟨true, nofun⟩
    rw [columnsAndLists, happlied]
    rfl
  | false =>
    have hsame : columnsAndLists table none = columnsAndLists table (some p) := by
      rw [columnsAndLists, columnsAndLists, happlied, projectionOf_some hempty, Except.map, hempty]
      rfl
    rw [hsame, exists_columnsAndLists_some_iff hempty]

/-- A request without a projection takes that of the datasource, if there is one and it can be
applied. -/
theorem exists_columnsAndLists_iff : (∃ lists, columnsAndLists table none = .ok lists)
    ↔ ∀ projection, table.defaultProjection = some projection →
      table.TakesProjection projection := by
  cases hdefault : table.defaultProjection with
  | none =>
    refine iff_of_true ⟨(table.columnNames, table.listNames), ?_⟩ nofun
    rw [columnsAndLists, projectionOf, hdefault]
    rfl
  | some projection =>
    constructor
    · rintro ⟨lists, hlists⟩ _ ⟨⟩
      obtain ⟨applied, happlied, -⟩ := bind_eq_ok_iff.1 hlists
      rw [projectionOf_none hdefault] at happlied
      obtain ⟨p, hp, -⟩ := map_eq_ok_iff.1 happlied
      rw [← Projection.exists_ofRecord_iff]
      exact ⟨p, hp, (exists_columnsAndLists_default_iff hdefault hp).1 ⟨lists, hlists⟩⟩
    · intro htakes
      obtain ⟨p, hp, hall⟩ := Projection.exists_ofRecord_iff.2 (htakes projection rfl)
      exact (exists_columnsAndLists_default_iff hdefault hp).2 hall

end Plan

/-! ## Requests of nothing -/

/-- A request without a filter, a sort and a projection of its own. -/
def Request.plain (page : Pagination) (showDeleted : Bool) : Request :=
  { pagination := page, showDeleted := showDeleted }

theorem Predicate.exists_ofFilter_nil_iff {table : Table} {source : FilterSource}
    {showDeleted : Bool} :
    (∃ p, ofFilter table [] source showDeleted = .ok p)
      ↔ table.TakesFilter table.defaultFilter := by
  rw [exists_ofFilter_iff, and_iff_right nofun]
  rfl

/-- A request of nothing becomes a plan if the filter and the projection of the table can be
applied. -/
theorem Plan.exists_plain_iff (settings : Settings) {table : Table} {page : Pagination}
    {showDeleted : Bool} :
    (∃ plan, ofRequestAndLookup settings table (.plain page showDeleted) [] = .ok plan)
      ↔ table.TakesFilter table.defaultFilter
        ∧ ∀ projection, table.defaultProjection = some projection →
          table.TakesProjection projection := by
  rw [← Predicate.exists_ofFilter_nil_iff, ← exists_columnsAndLists_iff]
  constructor
  · rintro ⟨plan, hplan⟩
    obtain ⟨wide, hwide, -⟩ := ofRequestAndLookup_eq_ok_iff.1 hplan
    obtain ⟨p, lists, -, hp, hlists, -⟩ := ofRequest_eq_ok_iff.1 hwide
    exact ⟨⟨p, hp⟩, lists, hlists⟩
  · rintro ⟨⟨p, hp⟩, lists, hlists⟩
    have hkeys : orderOf table []
      = .ok (withPrimaryKey table (table.defaultSort.map defaultKey)) := rfl
    have hwide : ofRequest settings table (.plain page showDeleted) = _ :=
      ofRequest_eq_ok_iff.2 ⟨p, lists, _, hp, hlists, hkeys, rfl⟩
    exact ⟨_, ofRequestAndLookup_eq_ok_iff.2 ⟨_, hwide, .inl ⟨rfl, rfl⟩⟩⟩

/-! ## What a resource declares -/

/-- The filter that applies to every read of a resource: its own, or for an alias that has none that
of its source. -/
def Domain.filterOf (domain : Domain) (r : Resource) : Record :=
  let inherited := (r.source.bind domain.get?).bind fun source =>
    source.datasource.bind Datasource.filter
  ((r.datasource.bind Datasource.filter).or inherited).getD {}

/-- The projection that applies where a request has none. -/
def Resource.projection (r : Resource) : Option Record := r.datasource.bind Datasource.projection

namespace Compile

variable {settings : Settings} {domain : Domain} {schema : Schema} {parts : List Part}
  {links : List BuiltLink}
  {name : String} {r : Resource}

/-- The table of a resource that is no alias has the options that the resource declares. -/
theorem ownTable_eq_optioned {t : Table} (h : ownTable settings (name, r) = .ok t) :
    t = t.bare.optioned r := by
  obtain ⟨hknown, hother⟩ := options_of_ownTable h
  exact Except.ok.inj (h.symm.trans (hother r ⟨rfl, rfl, rfl⟩ hknown))

/-- So has the finished table. -/
theorem exists_own_optioned (hcompiles : Schema.ofDomain settings domain = .ok schema)
    (hr : domain.get? name = some r) (hown : r.isAlias = false) :
    ∃ t, schema.table name = .ok t ∧ t = t.bare.optioned r := by
  obtain ⟨parts, links, hassembly⟩ := exists_assembly hcompiles
  obtain ⟨part, hpart, hentry, htable⟩ := hassembly.exists_part_of_own hr hown
  have hplain := (hassembly.compiled part hpart).plain_eq
  rw [hentry] at hplain
  -- what is added to the table has nothing to do with its options
  let finished (t : Table) : Table :=
    { t with columns := (part.base links).columns, lists := (part.base links).lists }
  exact ⟨_, htable, congrArg finished (ownTable_eq_optioned hplain)⟩

theorem defaults_of_own (hcompiles : Schema.ofDomain settings domain = .ok schema)
    (hr : domain.get? name = some r) (hown : r.isAlias = false) : ∃ t, schema.table name = .ok t
      ∧ t.defaultFilter = (r.datasource.bind Datasource.filter).getD {}
        ∧ t.defaultProjection = r.projection := by
  obtain ⟨t, htable, hoptioned⟩ := exists_own_optioned hcompiles hr hown
  refine ⟨t, htable, ?_, ?_⟩
  · rw [hoptioned]
    rfl
  · rw [hoptioned]
    cases hd : r.datasource <;> simp [Table.optioned, Table.bare, Resource.projection, hd]

/-- The source of an alias is no alias. -/
theorem exists_own_of_base (hcompiles : Schema.ofDomain settings domain = .ok schema) {t : Table}
    (ht : schema.table name = .ok t) (hbase : t ∈ schema.bases) :
    ∃ r, domain.get? name = some r ∧ r.isAlias = false := by
  obtain ⟨parts, links, hassembly⟩ := exists_assembly hcompiles
  obtain ⟨part, hpart, rfl⟩ := hassembly.mem_bases.1 hbase
  obtain ⟨hentry, hown⟩ := hassembly.get?_entry hpart
  have hname : part.entry.1 = name :=
    (hassembly.base_resource hpart).symm.trans (Schema.mem_of_table ht).2
  exact ⟨part.entry.2, hname ▸ hentry, hown⟩

/-- The filter and the projection of a table are those that its resource declares. -/
theorem defaults_of_compiles (hcompiles : Schema.ofDomain settings domain = .ok schema)
    (hr : domain.get? name = some r) :
    ∃ t, schema.table name = .ok t ∧ t.defaultFilter = domain.filterOf r
      ∧ t.defaultProjection = r.projection := by
  cases hsource : r.source with
  | none =>
    have hown : r.isAlias = false := by
      rw [Resource.isAlias, hsource]
      rfl
    obtain ⟨t, ht, hfilter, hprojection⟩ := defaults_of_own hcompiles hr hown
    refine ⟨t, ht, ?_, hprojection⟩
    rw [hfilter, Domain.filterOf, hsource]
    simp
  | some source =>
    obtain ⟨_, base, ht, hbase, hmem, -, rfl⟩ := exists_alias hcompiles hr hsource
    -- the source is no alias, so its table has the options that it declares
    obtain ⟨a, hentry, hown⟩ := exists_own_of_base hcompiles hbase hmem
    obtain ⟨t', ht', hfilter, -⟩ := defaults_of_own hcompiles hentry hown
    obtain rfl := Except.ok.inj (hbase.symm.trans ht')
    refine ⟨_, ht, ?_, ?_⟩
    · show (r.datasource.bind Datasource.filter).getD base.defaultFilter = _
      rw [hfilter, Domain.filterOf, hsource, Option.bind_some, hentry, Option.bind_some]
      cases r.datasource.bind Datasource.filter <;> rfl
    · obtain ⟨d, hd, -⟩ := Option.bind_eq_some_iff.1 hsource
      simp [Table.optioned, Resource.projection, hd]

end Compile

/-! ## Requests -/

namespace Catalog

variable {settings : Settings} {domain : Domain} {catalog : Catalog} {name : String} {r : Resource}

/-- **The resources that can be read.** A request without a filter, a sort and a projection of its
own becomes a plan exactly if the filter that applies compares columns with values that the
operators take there, and the projection of the datasource, if it has one, names fields only and has
one flag for all of them. The sort of a datasource, which is checked when the domain is compiled,
never stands in the way. -/
theorem plan_exists_iff (hcompiles : Catalog.ofDomain settings domain = .ok catalog)
    (hr : domain.get? name = some r) (page : Pagination) (showDeleted : Bool) :
    ∃ t, catalog.schema.table name = .ok t
      ∧ ((∃ plan, catalog.plan name (.plain page showDeleted) [] = .ok plan)
        ↔ t.TakesFilter (domain.filterOf r)
          ∧ ∀ projection, r.projection = some projection → t.TakesProjection projection) := by
  obtain ⟨schema, hschema, rfl⟩ := map_eq_ok_iff.1 hcompiles
  obtain ⟨t, ht, hfilter, hprojection⟩ := defaults_of_compiles hschema hr
  refine ⟨t, ht, ?_⟩
  rw [← hfilter, ← hprojection, ← Plan.exists_plain_iff settings, plan, ht]
  rfl

/-- Voters are the persons of age. -/
def voter : Resource := { datasource := some {
  source := some "person"
  filter := some (.ofList [("age__gte", .int 18)])
  projection := some (.ofList [("age", .bool false)]) } }

def voterDomain : Domain := .ofList [
  ("person", { fields := .ofList [("age", { typeName := "integer" })] }),
  ("voter", voter)]

def voterCatalog : Catalog := .compiled {} voterDomain

/-- Voters can be read, which says that their datasource applies. -/
theorem voters_read : ∃ t plan, voterCatalog.schema.table "voter" = .ok t
    ∧ voterCatalog.plan "voter" (.plain {} false) [] = .ok plan
    ∧ t.TakesFilter (voterDomain.filterOf voter)
      ∧ t.TakesProjection (.ofList [("age", .bool false)]) := by
  have hcompiles : Catalog.ofDomain {} voterDomain = .ok voterCatalog :=
    Catalog.ofDomain_compiled rfl
  have hvoter : voterDomain.get? "voter" = some voter := rfl
  obtain ⟨t, ht, hreads⟩ := plan_exists_iff hcompiles hvoter {} false
  have hplan : (voterCatalog.plan "voter" (.plain {} false) []).toOption.isSome = true := by
    decide +kernel
  obtain ⟨plan, hplan⟩ := Option.isSome_iff_exists.1 hplan
  obtain ⟨hfilter, hprojection⟩ := hreads.1 ⟨plan, eq_ok_of_toOption hplan⟩
  exact ⟨t, plan, ht, eq_ok_of_toOption hplan, hfilter, hprojection _ rfl⟩

/-- A filter with an operator that there is not, one with a value that is no number, and a
projection of a field that there is not. -/
def unreadDomain : Domain := .ofList [
  ("person", {
    fields := .ofList [("age", { typeName := "integer" })]
    datasource := some { filter := some (.ofList [("age__le", .int 30)]) } }),
  ("ship", {
    fields := .ofList [("age", { typeName := "integer" })]
    datasource := some { filter := some (.ofList [("age", .string "old")]) } }),
  ("team", {
    fields := .ofList [("name", { typeName := "string" })]
    datasource := some { projection := some (.ofList [("nam", .int 1)]) } })]

def unreadCatalog : Catalog := .compiled {} unreadDomain

/-- All three are compiled, and none of them can be read. -/
theorem unreadable_resources_compile :
    Catalog.ofDomain {} unreadDomain = .ok unreadCatalog
      ∧ unreadCatalog.plan "person" (.plain {} false) [] = reject (.unknownFilterField "age__le")
      ∧ unreadCatalog.plan "ship" (.plain {} false) [] = reject (.typeMismatch "age")
      ∧ unreadCatalog.plan "team" (.plain {} false) [] = reject (.unknownProjectionField "nam") :=
  ⟨ofDomain_compiled rfl, rfl, rfl, rfl⟩

end Catalog

end RecordStore
