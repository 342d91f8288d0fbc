import RecordStore.Domain.Validity
import RecordStore.Proofs.Except
import RecordStore.Proofs.Trees

/-!
# Loading loses no declaration

The resources of a domain are the members of the document, all of them and in their order, and the
fields of a resource are the members of its schema. A map that kept one of two equal names would
show fewer names than the document has; here a document with two equal names is rejected, at either
level.

A resource may be written as an object, in which its schema is looked up by name, or as an array, in
which its schema stands first. In an object the schema may stand anywhere among the other parts and
among members that are no parts at all; what carries the walk over them is that no other part
touches the fields, and that a second schema is a fault.

* **`readEntries_eq_ok_iff`** — a map is read when each member is read, under a name of its own.
* **`fields_of_readResource`** — the fields of a resource are those of its schema, in either
  notation.
* **`declarations_kept`** — the names of a domain and of each of its resources are those that the
  text declares.
-/

namespace RecordStore

open Json

/-- The members of a node that is an object. -/
def Json.Node.members : Node → List (Option String × Node)
  | .object members _ => members
  | _ => []

namespace Domain

variable {α : Type}

/-! ## Named entries -/

/-- Each member was read, as the entry of its own name, and there are no other entries. -/
def ReadFrom (read : Node → Reading α) (members : List (Option String × Node)) (m : NameMap α) :
    Prop :=
  List.Forall₂ (fun member entry => member.1 = some entry.1 ∧ read member.2 = .ok entry.2)
    members m.entries

namespace ReadFrom

variable {read : Node → Reading α} {members : List (Option String × Node)} {m : NameMap α}

theorem names (h : ReadFrom read members m) : members.map Prod.fst = m.keys.map some := by
  rw [NameMap.keys, List.map_map, ← List.forall₂_eq_eq_eq, List.forall₂_map_left_iff,
    List.forall₂_map_right_iff]
  exact List.Forall₂.imp (fun _ _ hentry => hentry.1) h

theorem nodup (h : ReadFrom read members m) : (members.map Prod.fst).Nodup := by
  rw [names h]
  exact List.Pairwise.map some (fun _ _ hne heq => hne (Option.some.inj heq)) m.nodup

end ReadFrom

theorem orUnreadable_eq_ok_iff {x? : Option α} {x : α} : orUnreadable x? = .ok x ↔ x? = some x := by
  cases x? <;> simp [orUnreadable]

theorem expectClosed_eq_ok_iff {closed : Bool} {u : Unit} :
    expectClosed closed = .ok u ↔ closed = true := by
  cases closed <;> simp [expectClosed]

/-- One more entry comes behind the ones that are there. -/
theorem readEntry_eq_ok_iff {read : Node → Reading α} {member : Option String × Node}
    {m m' : NameMap α} :
    readEntry read m member = .ok m'
      ↔ ∃ entry : String × α, (member.1 = some entry.1 ∧ read member.2 = .ok entry.2) ∧
      m'.entries = m.entries ++ [entry] := by
  obtain ⟨name?, node⟩ := member
  constructor
  · intro h
    obtain ⟨name, hname, h⟩ := bind_eq_ok_iff.1 h
    obtain ⟨value, hvalue, h⟩ := bind_eq_ok_iff.1 h
    split at h
    · cases h
    · rename_i hnew
      obtain rfl := Except.ok.inj h
      exact ⟨(name, value), ⟨orUnreadable_eq_ok_iff.1 hname, hvalue⟩,
        NameMap.entries_insert_of_not_contains value hnew⟩
  · rintro ⟨⟨name, value⟩, ⟨hname, hvalue⟩, hentries⟩
    have hnew : ¬ m.contains name = true := by
      have hnodup := m'.nodup
      rw [hentries, List.map_append, List.nodup_append] at hnodup
      rw [NameMap.contains_iff]
      exact fun hmem => hnodup.2.2 name hmem name (by simp) rfl
    refine bind_eq_ok_iff.2
      ⟨name, orUnreadable_eq_ok_iff.2 hname, bind_eq_ok_iff.2 ⟨value, hvalue, ?_⟩⟩
    rw [if_neg hnew]
    exact congrArg Except.ok
      (NameMap.ext ((NameMap.entries_insert_of_not_contains value hnew).trans hentries.symm))

/-- More entries come behind the ones that are there, one from each member. -/
theorem foldlM_readEntry_eq_ok_iff {read : Node → Reading α} {members : List (Option String × Node)}
    {m m' : NameMap α} : members.foldlM (readEntry read) m = .ok m' ↔
      ∃ entries, m'.entries = m.entries ++ entries ∧
        List.Forall₂ (fun member entry => member.1 = some entry.1 ∧ read member.2 = .ok entry.2)
          members entries := by
  induction members generalizing m with
  | nil =>
    simp only [List.foldlM_nil, pure, Except.pure, Except.ok.injEq, List.forall₂_nil_left_iff,
      exists_eq_right, List.append_nil]
    exact ⟨fun h => h ▸ rfl, fun h => NameMap.ext h.symm⟩
  | cons member rest ih =>
    rw [List.foldlM_cons, bind_eq_ok_iff]
    constructor
    · rintro ⟨m₁, hentry, hrest⟩
      obtain ⟨entry, hread, hm₁⟩ := readEntry_eq_ok_iff.1 hentry
      obtain ⟨entries, hm', hall⟩ := ih.1 hrest
      exact ⟨entry :: entries, by rw [hm', hm₁, List.append_assoc, List.singleton_append],
        .cons hread hall⟩
    · rintro ⟨_, hm', hall⟩
      cases hall with
      | @cons _ entry _ entries hread hall =>
        rw [← List.singleton_append, ← List.append_assoc] at hm'
        have hnodup : ((m.entries ++ [entry]).map Prod.fst).Nodup := by
          have hnodup := m'.nodup
          rw [hm', List.map_append] at hnodup
          exact (List.nodup_append.1 hnodup).1
        exact ⟨⟨m.entries ++ [entry], hnodup⟩, readEntry_eq_ok_iff.2 ⟨entry, hread, rfl⟩,
          ih.2 ⟨entries, hm', hall⟩⟩

/-- A map is read when each member is read, under a name of its own. -/
theorem readEntries_eq_ok_iff {read : Node → Reading α} {node : Node} {m : NameMap α} :
    readEntries read node = .ok m
      ↔ ∃ members, node = .object members true ∧ ReadFrom read members m := by
  constructor
  · intro h
    cases node with
    | object members closed =>
      obtain ⟨m', hfold, h⟩ := bind_eq_ok_iff.1 h
      obtain ⟨_, hclosed, h⟩ := bind_eq_ok_iff.1 h
      cases h
      obtain rfl := expectClosed_eq_ok_iff.1 hclosed
      obtain ⟨entries, hentries, hall⟩ := foldlM_readEntry_eq_ok_iff.1 hfold
      exact ⟨members, rfl, show List.Forall₂ _ members m.entries from hentries ▸ hall⟩
    | _ => cases h
  · rintro ⟨members, rfl, h⟩
    exact bind_eq_ok_iff.2 ⟨m, foldlM_readEntry_eq_ok_iff.2 ⟨m.entries, rfl, h⟩, rfl⟩

/-! ## The schema of a resource -/

section Parts

variable {part : Part Resource} {node : Node} {r r' : Resource}

/-- The schema of a resource holds its fields. -/
theorem fields_of_schema (hpart : part ∈ resourceParts) (hname : part.name = "schema")
    (h : part.read node r = .ok r') : readEntries readField node = .ok r'.fields := by
  simp only [resourceParts, List.mem_cons, List.not_mem_nil, or_false] at hpart
  rcases hpart with rfl | rfl | rfl | rfl | rfl | rfl
  · obtain ⟨fields, hfields, rfl⟩ := map_eq_ok_iff.1 h
    exact hfields
  all_goals exact absurd hname (by decide)

/-- No other part touches them. -/
theorem fields_of_other (hpart : part ∈ resourceParts) (hname : part.name ≠ "schema")
    (h : part.read node r = .ok r') : r'.fields = r.fields := by
  simp only [resourceParts, List.mem_cons, List.not_mem_nil, or_false] at hpart
  rcases hpart with rfl | rfl | rfl | rfl | rfl | rfl
  · exact absurd rfl hname
  all_goals
    obtain ⟨v, -, rfl⟩ := map_eq_ok_iff.1 h
    rfl

end Parts

/-- The fields that a resource declares: the members of its schema. -/
def fieldDeclarations : Node → List (Option String × Node)
  | .object members _ => (members.filter (·.1 == some "schema")).flatMap (·.2.members)
  | .array (schema :: _) _ => schema.members
  | _ => []

/-- One member of a resource: it is the first schema, or it leaves the fields as they are. -/
theorem readMember_cases {r r' : Resource} {seen seen' : List String}
    {member : Option String × Node}
    (h : readMember resourceParts (r, seen) member = .ok (r', seen')) :
    (member.1 = some "schema" ∧ "schema" ∉ seen ∧ "schema" ∈ seen'
      ∧ readEntries readField member.2 = .ok r'.fields) ∨
      (member.1 ≠ some "schema" ∧ r'.fields = r.fields ∧ ("schema" ∈ seen' ↔ "schema" ∈ seen)) := by
  obtain ⟨name?, node⟩ := member
  obtain ⟨name, hname, h⟩ := bind_eq_ok_iff.1 h
  obtain rfl := orUnreadable_eq_ok_iff.1 hname
  split at h
  · rename_i hnone
    cases h
    refine .inr ⟨?_, rfl, .rfl⟩
    rintro ⟨⟩
    cases hnone
  · rename_i part hfind
    have hpart := List.mem_of_find?_eq_some hfind
    obtain rfl : part.name = name := by simpa using List.find?_some hfind
    split at h
    · cases h
    · rename_i hseen
      obtain ⟨r₁, hread, h⟩ := bind_eq_ok_iff.1 h
      cases h
      by_cases hschema : part.name = "schema"
      · rw [hschema] at hseen ⊢
        exact .inl ⟨rfl, by simpa using hseen, List.mem_cons_self,
          fields_of_schema hpart hschema hread⟩
      · refine .inr ⟨by simpa using hschema, fields_of_other hpart hschema hread, ?_⟩
        simp [Ne.symm hschema]

/-- The members of a resource have at most one schema, and it holds the fields. -/
theorem foldlM_readMember_cases {members : List (Option String × Node)} {r r' : Resource}
    {seen seen' : List String}
    (h : members.foldlM (readMember resourceParts) (r, seen) = .ok (r', seen')) :
    (members.filter (·.1 == some "schema") = [] ∧ r'.fields = r.fields) ∨
      ("schema" ∉ seen ∧ ∃ schema, members.filter (·.1 == some "schema") = [schema] ∧
        readEntries readField schema.2 = .ok r'.fields) := by
  induction members generalizing r seen with
  | nil =>
    cases h
    exact .inl ⟨rfl, rfl⟩
  | cons member rest ih =>
    obtain ⟨⟨r₁, seen₁⟩, hmember, hrest⟩ := bind_eq_ok_iff.1 h
    rcases readMember_cases hmember with ⟨hname, hnew, hseen, hfields⟩ | ⟨hname, hsame, hseen⟩
    · -- behind the first schema there is none, since a second one is a fault
      rcases ih hrest with ⟨hnone, hkept⟩ | ⟨habsent, -⟩
      · refine .inr ⟨hnew, member, ?_, hkept ▸ hfields⟩
        rw [List.filter_cons_of_pos (by simp [hname]), hnone]
      · exact absurd hseen habsent
    · rw [List.filter_cons_of_neg (by simpa using hname), ← hsame, ← hseen]
      exact ih hrest

/-- The parts behind the schema leave the fields as they are. -/
theorem fields_of_foldlM {parts : List (Part Resource × Node)}
    (hparts : ∀ entry ∈ parts, entry.1 ∈ resourceParts ∧ entry.1.name ≠ "schema") {r r' : Resource}
    (h : parts.foldlM (fun r (part, node) => part.read node r) r = .ok r') :
    r'.fields = r.fields := by
  induction parts generalizing r with
  | nil =>
    cases h
    rfl
  | cons entry rest ih =>
    obtain ⟨r₁, hfirst, hrest⟩ := bind_eq_ok_iff.1 h
    obtain ⟨hpart, hname⟩ := hparts entry List.mem_cons_self
    rw [ih (fun e he => hparts e (List.mem_cons_of_mem _ he)) hrest,
      fields_of_other hpart hname hfirst]

/-- A structure that is given as an object is what its members make of it. -/
theorem foldlM_of_readMembers {σ : Type} {parts : List (Part σ)} {initial s : σ}
    {members : List (Option String × Node)} {closed : Bool}
    (h : readMembers parts initial members closed = .ok s) :
    ∃ names, members.foldlM (readMember parts) (initial, []) = .ok (s, names) := by
  obtain ⟨⟨s', names⟩, hfold, h⟩ := bind_eq_ok_iff.1 h
  obtain ⟨_, -, h⟩ := bind_eq_ok_iff.1 h
  split at h
  · cases h
    exact ⟨names, hfold⟩
  · cases h

/-- A structure that is given as an array is what its items make of it. -/
theorem foldlM_of_readItems {σ : Type} {parts : List (Part σ)} {initial s : σ} {items : List Node}
    {closed : Bool} (h : readItems parts initial items closed = .ok s) :
    (parts.zip items).foldlM (fun s (part, node) => part.read node s) initial = .ok s := by
  obtain ⟨s', hfold, h⟩ := bind_eq_ok_iff.1 h
  obtain ⟨_, -, h⟩ := bind_eq_ok_iff.1 h
  split at h
  · cases h
  · split at h
    · cases h
    · cases h
      exact hfold

/-- The fields of a resource are those of its schema, in either notation. -/
theorem fields_of_readResource {node : Node} {r : Resource} (h : readResource node = .ok r) :
    ReadFrom readField (fieldDeclarations node) r.fields := by
  have hempty : ReadFrom readField [] (∅ : NameMap Field) := .nil
  cases node with
  | object members closed =>
    obtain ⟨names, hfold⟩ := foldlM_of_readMembers h
    rw [fieldDeclarations]
    rcases foldlM_readMember_cases hfold with ⟨hnone, hfields⟩ | ⟨-, schema, hone, hfields⟩
    · rw [hnone, hfields]
      exact hempty
    · obtain ⟨declared, hnode, hread⟩ := readEntries_eq_ok_iff.1 hfields
      rw [hone, List.flatMap_singleton, hnode]
      exact hread
  | array items closed =>
    have hfold := foldlM_of_readItems h
    cases items with
    | nil =>
      cases hfold
      exact hempty
    | cons schema rest =>
      obtain ⟨r₁, hschema, hrest⟩ := bind_eq_ok_iff.1 hfold
      obtain ⟨declared, hnode, hread⟩ :=
        readEntries_eq_ok_iff.1 (fields_of_schema List.mem_cons_self rfl hschema)
      rw [fieldDeclarations, fields_of_foldlM ?_ hrest, hnode]
      · exact hread
      · rintro ⟨part, node⟩ hentry
        have hpart := (List.of_mem_zip hentry).1
        have hothers : ∀ name ∈ resourceParts.tail.map Part.name, name ≠ "schema" := by decide
        exact ⟨List.mem_cons_of_mem _ hpart, hothers _ (List.mem_map_of_mem hpart)⟩
  | _ => cases h

/-! ## The declarations of a text -/

theorem exists_of_forall₂ {β : Type} {R : α → β → Prop} {xs : List α} {ys : List β}
    (h : List.Forall₂ R xs ys) {x : α} (hx : x ∈ xs) : ∃ y, R x y := by
  induction h with
  | nil => cases hx
  | cons hfirst _ ih =>
    rcases List.mem_cons.1 hx with rfl | hx
    · exact ⟨_, hfirst⟩
    · exact ih hx

/-- The document of the tokens of an object. -/
theorem ofText_eq_iff {text : String} {members : List (Option String × Node)} :
    Document.ofText text = ⟨some (.object members true), true⟩ ↔
      (Node.object members true).isWhole = true
        ∧ Token.scan text.toList = (Node.object members true).tokens :=
  Document.ofTokens_eq_iff rfl

/-- What a text says when it is read to its end: an object of resources. -/
theorem ofText_eq_ok {text : String} {domain : Domain} (h : ofText text = .ok domain) :
    ∃ members, Document.ofText text = ⟨some (.object members true), true⟩
      ∧ ReadFrom readResource members domain := by
  obtain ⟨root, hroot, h⟩ := bind_eq_ok_iff.1 h
  obtain ⟨domain', hread, h⟩ := bind_eq_ok_iff.1 h
  obtain ⟨_, hended, h⟩ := bind_eq_ok_iff.1 h
  cases h
  obtain ⟨members, rfl, hall⟩ := readEntries_eq_ok_iff.1 hread
  refine ⟨members, ?_, hall⟩
  generalize Document.ofText text = document at hroot hended
  obtain ⟨root?, ended⟩ := document
  cases root? <;> cases hroot
  cases ended <;> cases hended
  rfl

theorem ofText_of_load {text : String} {domain : Domain} (h : load text = .ok domain) :
    ofText text = .ok domain := by
  obtain ⟨domain', hread, h⟩ := bind_eq_ok_iff.1 h
  obtain ⟨_, -, h⟩ := bind_eq_ok_iff.1 h
  cases h
  cases hof : ofText text with
  | error fault => rw [hof] at hread; cases hread
  | ok d => rw [hof] at hread; exact congrArg Except.ok (Except.ok.inj hread)

/-- The names that a node declares for fields are those of the resource that it is read as. -/
def DeclaresFields (node : Node) (r : Resource) : Prop :=
  (fieldDeclarations node).map Prod.fst = r.fields.keys.map some
    ∧ ((fieldDeclarations node).map Prod.fst).Nodup

/-- Loading loses no declaration. A text that is loaded is the text of an object: its names are
those of the domain, in their order and each of them once, and the names of each schema are those of
the fields of its resource. A text of an object in which a name of a resource is repeated, or a name
in a schema, is rejected. -/
theorem declarations_kept (text : String) :
    (∀ domain, load text = .ok domain → ∃ members,
      ((Node.object members true).isWhole = true
        ∧ Token.scan text.toList = (Node.object members true).tokens) ∧
      members.map Prod.fst = domain.keys.map some ∧ (members.map Prod.fst).Nodup ∧
      List.Forall₂ (fun member entry => DeclaresFields member.2 entry.2) members domain.entries) ∧
    ∀ members, (Node.object members true).isWhole = true →
      Token.scan text.toList = (Node.object members true).tokens →
      (¬ (members.map Prod.fst).Nodup
        ∨ ∃ member ∈ members, ¬ ((fieldDeclarations member.2).map Prod.fst).Nodup) →
      ∃ fault, load text = .error (.load fault) := by
  have hfields : ∀ {members : List (Option String × Node)}
      {domain : Domain}, ReadFrom readResource members domain →
      List.Forall₂ (fun member entry => DeclaresFields member.2 entry.2)
        members domain.entries := by
    intro members domain hread
    refine List.Forall₂.imp (fun member entry hentry => ?_) hread
    have hschema := fields_of_readResource hentry.2
    exact ⟨hschema.names, hschema.nodup⟩
  constructor
  · intro domain hload
    obtain ⟨members, hdocument, hread⟩ := ofText_eq_ok (ofText_of_load hload)
    exact ⟨members, ofText_eq_iff.1 hdocument, hread.names, hread.nodup, hfields hread⟩
  · intro members hwhole htokens hrepeated
    cases hof : ofText text with
    | error fault => exact ⟨fault, bind_eq_error_iff.2 (.inl (by rw [hof]; rfl))⟩
    | ok domain =>
      exfalso
      obtain ⟨members', hdocument, hread⟩ := ofText_eq_ok hof
      rw [ofText_eq_iff.2 ⟨hwhole, htokens⟩] at hdocument
      obtain rfl : members = members' := by simpa using hdocument
      rcases hrepeated with hnames | ⟨member, hmember, hnames⟩
      · exact hnames hread.nodup
      · obtain ⟨entry, hentry⟩ := exists_of_forall₂ (hfields hread) hmember
        exact hnames hentry.2

/-- A person written as an object, and an order written as an array. -/
def bothNotations : String :=
  "\x7b\"person\": \x7b\"soft_delete\": true, \"schema\": " ++
    "\x7b\"name\": \x7b\"type\": \"string\"\x7d, " ++
    "\"age\": \x7b\"type\": \"integer\"\x7d\x7d\x7d, " ++
    "\"order\": [\x7b\"number\": [\"integer\"]\x7d]\x7d"

/-- An order that declares its number twice, the second time with an escape in the name. -/
def numberTwice : String :=
  "\x7b\"order\": [\x7b\"number\": [\"integer\"], \"n\\u0075mber\": [\"string\"]\x7d]\x7d"

/-- The resource of `numberTwice`. -/
def orderTwice : Node :=
  .array [.object [(some "number", .array [.string (some "integer")] true),
    (some "number", .array [.string (some "string")] true)] true] true

theorem both_notations_declare :
    (∃ domain, load bothNotations = .ok domain ∧
      domain.entries.map (fun entry => (entry.1, entry.2.fields.keys)) =
        [("person", ["name", "age"]), ("order", ["number"])] ∧
      ∃ members, members.map Prod.fst = domain.keys.map some ∧
        List.Forall₂ (fun member entry => DeclaresFields member.2 entry.2) members domain.entries) ∧
    ∃ fault, load numberTwice = .error (.load fault) := by
  constructor
  · have hnames : (load bothNotations).toOption.map
        (fun domain => domain.entries.map fun entry => (entry.1, entry.2.fields.keys)) =
          some [("person", ["name", "age"]), ("order", ["number"])] := by decide +kernel
    obtain ⟨domain, hload, hnames⟩ := Option.map_eq_some_iff.1 hnames
    have hload := eq_ok_of_toOption hload
    obtain ⟨members, -, hkeys, -, hfields⟩ := (declarations_kept bothNotations).1 domain hload
    exact ⟨domain, hload, hnames, members, hkeys, hfields⟩
  · refine (declarations_kept numberTwice).2
      [(some "order", orderTwice)] (by decide) (by decide +kernel) (.inr ?_)
    exact ⟨_, List.mem_singleton_self _, by decide⟩

end Domain

end RecordStore
