import RecordStore.Proofs.Readable

/-!
# The read options of an alias

An alias reads the table of another resource. Its table starts as a copy of the finished table of
its source, which has the options of the source, and then takes its own: the filters that are
allowed, the automatic fields, paging and the projection replace those of the source whether they
are declared or not, the filter and the sort only if they are declared. So of the options of a
source two reach its aliases, each exactly those that declare none of their own.

* **`Compile.exists_alias_options`** — every option of an alias, and where it comes from.
* **`Schema.alias_keeps_options_iff`** — when an alias does not see that its source takes other
  options.
* **`Schema.guests_take_filter`** — an alias that does.
-/

namespace RecordStore

open Compile

/-! ## What is declared -/

/-- The filter that a resource declares. -/
def Resource.filter (r : Resource) : Option Record := r.datasource.bind Datasource.filter

/-- The sort that a resource declares. -/
def Resource.sort (r : Resource) : Option (List (String × Int)) :=
  r.datasource.bind Datasource.defaultSort

/-- The resource without read options: the same rows, read in the plainest way. -/
def Resource.unread (r : Resource) : Resource where
  fields := r.fields
  softDelete := r.softDelete
  datasource := r.source.map fun source => { source := some source }

theorem Resource.sameRows_unread (r : Resource) : r.unread.SameRows r := by
  refine ⟨rfl, rfl, ?_⟩
  show ((r.source.map fun source => ({ source := some source } : Datasource)).bind
    Datasource.source) = r.source
  cases r.source <;> rfl

theorem Resource.optionFields_unread (r : Resource) : r.unread.optionFields = [] := by
  show ((r.source.map fun source => ({ source := some source } : Datasource)).map
    Datasource.fields).getD [] = []
  cases r.source <;> rfl

/-! ## Tables of aliases -/

/-- The options of an alias, where the source declares a filter and a sort: the alias has its own
options but for these two, which it has from its source if it declares none. -/
structure Table.ReadsAs (t : Table) (own source : Resource) : Prop where
  allowedFilters : t.allowedFilters = .ofList own.allowedFilters
  autoFields : t.autoFields = own.autoFields
  paginated : t.paginated = own.paginated
  defaultProjection : t.defaultProjection = own.projection
  defaultFilter : t.defaultFilter = (own.filter.or source.filter).getD {}
  defaultSort : t.defaultSort = (own.sort.or source.sort).getD []

namespace Compile

variable {settings : Settings} {domain : Domain} {schema schema' : Schema} {name other : String}
  {r r' a : Resource}

/-- Two domains that differ in the options of one resource have the same tables, but for options. -/
theorem bare_eq_of_sameRows (hr : domain.get? name = some r) (hsame : r'.SameRows r)
    (hcompiles : Schema.ofDomain settings domain = .ok schema)
    (hcompiles' : Schema.ofDomain settings (domain.insert name r') = .ok schema') :
    schema'.resources.map Table.bare = schema.resources.map Table.bare := by
  -- both lead to the domain where the resource has no options at all
  obtain ⟨plain, hplain, hbare⟩ :=
    exists_unoptioned hr r.sameRows_unread r.optionFields_unread hcompiles
  have hr' : (domain.insert name r').get? name = some r' := NameMap.get?_insert_self ..
  obtain ⟨plain', hplain', hbare'⟩ :=
    exists_unoptioned hr' (r.sameRows_unread.trans hsame.symm) r.optionFields_unread hcompiles'
  rw [NameMap.insert_insert, hplain] at hplain'
  obtain rfl := Except.ok.inj hplain'
  rw [← hbare', hbare]

/-- An alias is no source, least of all its own. -/
theorem ne_source (hcompiles : Schema.ofDomain settings domain = .ok schema)
    (ha : domain.get? other = some a) (halias : a.source = some name) : other ≠ name := by
  rintro rfl
  obtain ⟨_, _, -, hbase, hmem, -⟩ := exists_alias hcompiles ha halias
  obtain ⟨source, hsource, hown⟩ := exists_own_of_base hcompiles hbase hmem
  obtain rfl := Option.some.inj (hsource.symm.trans ha)
  rw [Resource.isAlias, halias] at hown
  cases hown

/-- The table of an alias has the options of the alias and, where it declares none, the filter and
the sort of its source. All else it has from the table that the two share. -/
theorem exists_alias_options (hcompiles : Schema.ofDomain settings domain = .ok schema)
    (hr : domain.get? name = some r) (ha : domain.get? other = some a)
    (halias : a.source = some name) :
    ∃ t base, schema.table other = .ok t ∧ schema.table name = .ok base
      ∧ t.bare = { base.bare with resource := other } ∧ t.ReadsAs a r := by
  obtain ⟨_, base, ht, hbase, hmem, -, rfl⟩ := exists_alias hcompiles ha halias
  obtain ⟨source, hsource, hown⟩ := exists_own_of_base hcompiles hbase hmem
  obtain rfl := Option.some.inj (hsource.symm.trans hr)
  obtain ⟨base', hbase', hoptioned⟩ := exists_own_optioned hcompiles hr hown
  obtain rfl := Except.ok.inj (hbase.symm.trans hbase')
  obtain ⟨d, hd, -⟩ := Option.bind_eq_some_iff.1 halias
  have hfilter : base.defaultFilter = source.filter.getD {} := by
    rw [hoptioned]
    rfl
  have hsort : base.defaultSort = source.sort.getD [] := by
    rw [hoptioned]
    rfl
  refine ⟨_, base, ht, hbase, rfl, rfl, rfl, rfl, ?_, ?_, ?_⟩
  · simp [Table.optioned, Resource.projection, hd]
  · rw [Option.getD_or, ← hfilter]
    rfl
  · rw [Option.getD_or, ← hsort]
    rfl

end Compile

/-- A table is told by its options and by what is left without them. -/
theorem Table.eq_of_bare {t t' : Table} (hbare : t'.bare = t.bare)
    (hallowed : t'.allowedFilters = t.allowedFilters) (hauto : t'.autoFields = t.autoFields)
    (hpaginated : t'.paginated = t.paginated)
    (hprojection : t'.defaultProjection = t.defaultProjection) :
    t' = { t with defaultFilter := t'.defaultFilter, defaultSort := t'.defaultSort } := by
  obtain ⟨⟩ := t
  obtain ⟨⟩ := t'
  simp_all [Table.bare]

/-- The choice between an alias's own option and that of its source. -/
theorem own_or_eq_iff {α : Type} {own inherited inherited' : Option α} {default : α} :
    (own.or inherited').getD default = (own.or inherited).getD default
      ↔ (own = none → inherited'.getD default = inherited.getD default) := by
  cases own <;> simp

namespace Schema

variable {settings : Settings} {domain : Domain} {schema schema' : Schema} {name other : String}
  {r r' a : Resource}

/-- **What an alias sees of the options of its source.** In two domains that compile and differ in
the read options of one resource, the table of an alias of it has the options that the alias
declares, but for a filter and a sort that it does not declare: these it has from its source. All
else is the same in both, so the two tables are equal exactly if the source has the same filter,
unless the alias has one of its own, and the same sort, unless the alias has one of its own. -/
theorem alias_keeps_options_iff (hr : domain.get? name = some r) (hsame : r'.SameRows r)
    (hcompiles : ofDomain settings domain = .ok schema)
    (hcompiles' : ofDomain settings (domain.insert name r') = .ok schema')
    (ha : domain.get? other = some a) (halias : a.source = some name) :
    ∃ t t', schema.table other = .ok t
      ∧ schema'.table other = .ok t' ∧ t.ReadsAs a r ∧ t'.ReadsAs a r'
      ∧ t' = { t with
          defaultFilter := (a.filter.or r'.filter).getD {}
          defaultSort := (a.sort.or r'.sort).getD [] }
      ∧ (t' = t ↔ (a.filter = none → r'.filter.getD {} = r.filter.getD {})
        ∧ (a.sort = none → r'.sort.getD [] = r.sort.getD [])) := by
  obtain ⟨t, base, ht, hbase, hbare, hreads⟩ := exists_alias_options hcompiles hr ha halias
  have hr' : (domain.insert name r').get? name = some r' := NameMap.get?_insert_self ..
  have ha' : (domain.insert name r').get? other = some a :=
    (NameMap.get?_insert_of_ne domain r' (ne_source hcompiles ha halias)).trans ha
  obtain ⟨t', base', ht', hbase', hbare', hreads'⟩ := exists_alias_options hcompiles' hr' ha' halias
  have hbases : base'.bare = base.bare := by
    obtain ⟨_, hfound, hbase₀⟩ :=
      exists_find?_of_bare (bare_eq_of_sameRows hr hsame hcompiles hcompiles')
      ((Schema.table_eq_ok_iff ..).1 hbase)
    obtain rfl := Except.ok.inj (((Schema.table_eq_ok_iff ..).2 hfound).symm.trans hbase')
    exact hbase₀
  have htables : t' = { t with
      defaultFilter := (a.filter.or r'.filter).getD {}
      defaultSort := (a.sort.or r'.sort).getD [] } := by
    rw [← hreads'.defaultFilter, ← hreads'.defaultSort]
    refine Table.eq_of_bare (by rw [hbare', hbases, hbare]) ?_ ?_ ?_ ?_
    · rw [hreads'.allowedFilters, hreads.allowedFilters]
    · rw [hreads'.autoFields, hreads.autoFields]
    · rw [hreads'.paginated, hreads.paginated]
    · rw [hreads'.defaultProjection, hreads.defaultProjection]
  refine ⟨t, t', ht, ht', hreads, hreads', htables, ?_⟩
  rw [← own_or_eq_iff, ← own_or_eq_iff, ← hreads.defaultFilter, ← hreads.defaultSort, htables]
  constructor
  · intro heq
    exact ⟨congrArg Table.defaultFilter heq, congrArg Table.defaultSort heq⟩
  · rintro ⟨hfilter, hsort⟩
    rw [hfilter, hsort]

/-- Customers have an age. -/
def customer : Resource := { fields := .ofList [("age", { typeName := "integer" })] }

/-- A datasource that leaves minors out. -/
def adultsOnly : Datasource := { filter := some (.ofList [("age__gte", .int 18)]) }

/-- Seniors have a filter and a sort of their own. -/
def senior : Resource := { datasource := some {
  source := some "customer"
  filter := some (.ofList [("age__gte", .int 65)])
  defaultSort := some [("age", -1)] } }

/-- Guests have none. -/
def guest : Resource := { datasource := some { source := some "customer" } }

def shop (d : Datasource) : Domain :=
  .ofList [("customer", customer.readBy d), ("senior", senior), ("guest", guest)]

def shopSchema (d : Datasource) : Schema := .compiled {} (shop d)

/-- Seniors are read the same, whether minors are left out of the customers or not. -/
theorem seniors_keep_options : ∃ t, (shopSchema {}).table "senior" = .ok t
    ∧ (shopSchema adultsOnly).table "senior" = .ok t := by
  have hcompiles' : ofDomain {} ((shop {}).insert "customer" (customer.readBy adultsOnly))
      = .ok (shopSchema adultsOnly) := rfl
  obtain ⟨t, t', ht, ht', -, -, -, hsame⟩ := @alias_keeps_options_iff {} (shop {}) (shopSchema {})
    (shopSchema adultsOnly) "customer" "senior"
      (customer.readBy {}) (customer.readBy adultsOnly) senior
    rfl ⟨rfl, rfl, rfl⟩ rfl hcompiles' rfl rfl
  obtain rfl := hsame.2 ⟨nofun, nofun⟩
  exact ⟨t', ht, ht'⟩

/-- Guests are all customers, until minors are left out of the customers: then they are left out of
the guests. -/
theorem guests_take_filter :
    ofDomain {} (shop {}) = .ok (shopSchema {})
      ∧ ofDomain {} (shop adultsOnly) = .ok (shopSchema adultsOnly)
      ∧ ((shopSchema {}).table "guest").map Table.defaultFilter = .ok {}
      ∧ ((shopSchema adultsOnly).table "guest").map Table.defaultFilter
        = .ok (.ofList [("age__gte", .int 18)]) :=
  ⟨ofDomain_compiled rfl, ofDomain_compiled rfl, rfl, rfl⟩

end Schema

end RecordStore
