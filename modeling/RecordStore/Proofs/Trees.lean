import RecordStore.Json.Node

/-!
# Trees and their tokens

A tree can be written back as the tokens that it stands for. The tree of a text that is read to its
end is written with the tokens of the text, all of them and in their order; and no other whole tree
is. So what is said of the tree of a text, of its names and of their order, is said of the text.

A tree that was left when a text broke off has an open container at its root, since a container
cannot be closed around one that is open.

* **`Node.tokens`** — the tokens that a tree is written with.
* **`Node.tokens_of_run`** — what is read is written with the tokens that were taken.
* **`Node.run_tokens`** — a whole tree is read from its tokens.
* **`Document.ofTokens_eq_iff`** — the tree of tokens is the one that is written with them.
-/

namespace RecordStore.Json

namespace Node

/-! ## Writing a tree -/

mutual

/-- The tokens of a tree. -/
def tokens : Node → List Token
  | .null => [.null]
  | .bool b => [.bool b]
  | .number literal => [.number literal]
  | .string text => [.string text]
  | .array items _ => .openBracket :: (itemTokens items ++ [.closeBracket])
  | .object members _ => .openBrace :: (memberTokens members ++ [.closeBrace])

/-- Items with commas between them. -/
def itemTokens : List Node → List Token
  | [] => []
  | [node] => tokens node
  | node :: rest => tokens node ++ .comma :: itemTokens rest

/-- Members with commas between them. -/
def memberTokens : List (Option String × Node) → List Token
  | [] => []
  | [(name, node)] => .string name :: .colon :: tokens node
  | (name, node) :: rest => .string name :: .colon :: (tokens node ++ .comma :: memberTokens rest)

end

mutual

/-- Whether no container of a tree was left open. -/
def isWhole : Node → Bool
  | .array items closed => closed && areWhole items
  | .object members closed => closed && haveWhole members
  | _ => true

def areWhole : List Node → Bool
  | [] => true
  | node :: rest => isWhole node && areWhole rest

def haveWhole : List (Option String × Node) → Bool
  | [] => true
  | (_, node) :: rest => isWhole node && haveWhole rest

end

/-- Whether the root of a tree is no open container. -/
def isClosed : Node → Bool
  | .array _ closed => closed
  | .object _ closed => closed
  | _ => true

/-! ## What is read is written with the tokens that were taken -/

/-- The tokens of items and the commas behind them. -/
def itemsBefore (done : List Node) : List Token :=
  done.reverse.flatMap fun node => node.tokens ++ [.comma]

/-- The tokens of a name. -/
def nameTokens (name : Option String) : List Token := [.string name, .colon]

/-- The tokens of members and the commas behind them. -/
def membersBefore (done : List (Option String × Node)) : List Token :=
  done.reverse.flatMap fun member => nameTokens member.1 ++ (member.2.tokens ++ [.comma])

namespace Frame

/-- The tokens that were taken of an open container. -/
def taken : Frame → List Token
  | .items done => .openBracket :: itemsBefore done
  | .members done name => .openBrace :: (membersBefore done ++ nameTokens name)

def areWhole : Frame → Bool
  | .items done => Node.areWhole done
  | .members done _ => haveWhole done

end Frame

/-- The tokens that were taken of open containers, the innermost first. -/
def takenBefore (outer : List Frame) : List Token := outer.reverse.flatMap Frame.taken

namespace State

/-- The tokens that were taken up to a state. -/
def taken : State → List Token
  | .value outer => takenBefore outer
  | .firstItem outer => takenBefore outer ++ [.openBracket]
  | .firstKey outer => takenBefore outer ++ [.openBrace]
  | .key done outer => takenBefore outer ++ .openBrace :: membersBefore done
  | .colon done name outer =>
    takenBefore outer ++ .openBrace :: (membersBefore done ++ [.string name])
  | .after node outer => takenBefore outer ++ node.tokens

/-- Whether all that is complete in a state is whole. -/
def areWhole : State → Bool
  | .value outer => outer.all Frame.areWhole
  | .firstItem outer => outer.all Frame.areWhole
  | .firstKey outer => outer.all Frame.areWhole
  | .key done outer => haveWhole done && outer.all Frame.areWhole
  | .colon done _ outer => haveWhole done && outer.all Frame.areWhole
  | .after node outer => isWhole node && outer.all Frame.areWhole

end State

theorem takenBefore_cons (frame : Frame) (outer : List Frame) :
    takenBefore (frame :: outer) = takenBefore outer ++ frame.taken := by
  simp [takenBefore]

theorem itemsBefore_cons (node : Node) (done : List Node) :
    itemsBefore (node :: done) = itemsBefore done ++ (node.tokens ++ [.comma]) := by
  simp [itemsBefore]

theorem membersBefore_cons (name : Option String) (node : Node)
    (done : List (Option String × Node)) :
    membersBefore ((name, node) :: done)
      = membersBefore done ++ (nameTokens name ++ (node.tokens ++ [.comma])) := by
  simp [membersBefore]

theorem itemTokens_concat (items : List Node) (last : Node) :
    itemTokens (items ++ [last])
      = (items.flatMap fun node => node.tokens ++ [.comma]) ++ last.tokens := by
  induction items with
  | nil => rfl
  | cons node rest ih =>
    have hmore : itemTokens (node :: rest ++ [last])
      = node.tokens ++ .comma :: itemTokens (rest ++ [last]) := by
      cases rest <;> rfl
    rw [hmore, ih]
    simp

theorem memberTokens_concat (members : List (Option String × Node)) (name : Option String)
    (last : Node) :
    memberTokens (members ++ [(name, last)])
      = (members.flatMap fun member => nameTokens member.1 ++ (member.2.tokens ++ [.comma]))
        ++ (nameTokens name ++ last.tokens) := by
  induction members with
  | nil => rfl
  | cons member rest ih =>
    have hmore : memberTokens (member :: rest ++ [(name, last)])
        = nameTokens member.1
          ++ (member.2.tokens ++ .comma :: memberTokens (rest ++ [(name, last)])) := by
      cases rest <;> rfl
    rw [hmore, ih]
    simp

theorem areWhole_append (items more : List Node) :
    Node.areWhole (items ++ more) = (Node.areWhole items && Node.areWhole more) := by
  induction items with
  | nil => rfl
  | cons node rest ih => rw [List.cons_append, Node.areWhole, Node.areWhole, ih, Bool.and_assoc]

theorem areWhole_reverse (items : List Node) :
    Node.areWhole items.reverse = Node.areWhole items := by
  induction items with
  | nil => rfl
  | cons node rest ih =>
    rw [List.reverse_cons, areWhole_append, ih, Bool.and_comm, Node.areWhole, Node.areWhole,
      Node.areWhole, Bool.and_true]

theorem haveWhole_append (members more : List (Option String × Node)) :
    haveWhole (members ++ more) = (haveWhole members && haveWhole more) := by
  induction members with
  | nil => rfl
  | cons member rest ih => rw [List.cons_append, haveWhole, haveWhole, ih, Bool.and_assoc]

theorem haveWhole_reverse (members : List (Option String × Node)) :
    haveWhole members.reverse = haveWhole members := by
  induction members with
  | nil => rfl
  | cons member rest ih =>
    rw [List.reverse_cons, haveWhole_append, ih, Bool.and_comm, haveWhole, haveWhole, haveWhole,
      Bool.and_true]

/-- A container that ends here is written with the tokens that were taken of it and those of its
last part. -/
theorem tokens_close_items (done : List Node) (node : Node) :
    (Frame.close (.items done) (some node) true).tokens
      = (Frame.items done).taken ++ (node.tokens ++ [.closeBracket]) := by
  show tokens (.array (node :: done).reverse true) = _
  rw [tokens, List.reverse_cons, itemTokens_concat, Frame.taken, itemsBefore]
  simp

theorem tokens_close_members (done : List (Option String × Node)) (name : Option String)
    (node : Node) :
    (Frame.close (.members done name) (some node) true).tokens
      = (Frame.members done name).taken ++ (node.tokens ++ [.closeBrace]) := by
  show tokens (.object ((name, node) :: done).reverse true) = _
  rw [tokens, List.reverse_cons, memberTokens_concat, Frame.taken, membersBefore]
  simp

/-- A value begins with a token that is kept. -/
theorem taken_begin {outer : List Frame} {t : Token} {s : State}
    (h : State.begin outer t = some s) :
    s.taken = takenBefore outer ++ [t] ∧ s.areWhole = outer.all Frame.areWhole := by
  cases t <;> cases h <;> simp [State.taken, State.areWhole, tokens, isWhole]

/-- A step takes one token, and leaves what is complete whole. -/
theorem taken_next {s s' : State} {t : Token} (h : s.next t = some s') :
    s'.taken = s.taken ++ [t] ∧ s'.areWhole = s.areWhole := by
  unfold State.next at h
  split at h
  · exact taken_begin h
  · cases h
    simp [State.taken, State.areWhole, tokens, itemTokens, isWhole, Node.areWhole]
  · obtain ⟨htaken, hwhole⟩ := taken_begin h
    rw [htaken, hwhole, takenBefore_cons]
    simp [State.taken, State.areWhole, Frame.taken, itemsBefore, Frame.areWhole, Node.areWhole]
  · cases h
    simp [State.taken, State.areWhole, tokens, memberTokens, isWhole, haveWhole]
  · cases h
    simp [State.taken, State.areWhole, membersBefore, haveWhole]
  · cases h
    simp [State.taken, State.areWhole]
  · cases h
    simp [State.taken, State.areWhole, takenBefore_cons, Frame.taken, Frame.areWhole, nameTokens]
  · cases h
    simp [State.taken, State.areWhole, takenBefore_cons, Frame.taken, Frame.areWhole,
      itemsBefore_cons, Node.areWhole, Bool.and_assoc]
  · cases h
    simp [State.taken, State.areWhole, takenBefore_cons, Frame.taken, Frame.areWhole,
      membersBefore_cons, haveWhole, Bool.and_assoc]
  · cases h
    rw [State.taken, State.taken, tokens_close_items, takenBefore_cons]
    simp [State.areWhole, Frame.close, isWhole, areWhole_append, areWhole_reverse, Frame.areWhole,
      Node.areWhole, Bool.and_assoc, Bool.and_left_comm]
  · cases h
    rw [State.taken, State.taken, tokens_close_members, takenBefore_cons]
    simp [State.areWhole, Frame.close, isWhole, haveWhole_append, haveWhole_reverse, Frame.areWhole,
      haveWhole, Bool.and_assoc, Bool.and_left_comm]
  · cases h

/-- What is left of an open container is open, and so is all around it. -/
theorem isClosed_of_abandon {last : Option Node} {frame : Frame} {outer : List Frame} {root : Node}
    (h : abandon last (frame :: outer) = some root) : root.isClosed = false := by
  induction outer generalizing last frame with
  | nil => cases frame <;> cases h <;> rfl
  | cons next more ih => exact ih h

theorem isClosed_of_abandon_some {node : Node} {outer : List Frame} {root : Node}
    (hopen : node.isClosed = false) (h : abandon (some node) outer = some root) :
    root.isClosed = false := by
  cases outer with
  | nil =>
    cases h
    exact hopen
  | cons frame outer => exact isClosed_of_abandon h

/-- What is left when a text breaks off is closed only behind a whole root. -/
theorem eq_after_of_abandoned {s : State} {root : Node} (h : s.abandoned = some root)
    (hclosed : root.isClosed = true) :
    s = .after root [] := by
  have hne : ¬ root.isClosed = false := by simp [hclosed]
  match s, h with
  | .value [], h => cases h
  | .value (_ :: _), h => exact absurd (isClosed_of_abandon h) hne
  | .firstItem _, h => exact absurd (isClosed_of_abandon_some rfl h) hne
  | .firstKey _, h => exact absurd (isClosed_of_abandon_some rfl h) hne
  | .key _ _, h => exact absurd (isClosed_of_abandon_some rfl h) hne
  | .colon _ _ _, h => exact absurd (isClosed_of_abandon_some rfl h) hne
  | .after _ (_ :: _), h => exact absurd (isClosed_of_abandon h) hne
  | .after _ [], h =>
    cases h
    rfl

/-- Soundness of reading: a root that is closed is whole, and is written with the tokens taken for
it. -/
theorem tokens_of_run {s : State} {ts rest : List Token} {root : Node}
    (h : run s ts = (some root, rest)) (hclosed : root.isClosed = true)
    (hwhole : s.areWhole = true) :
    root.isWhole = true ∧ s.taken ++ ts = root.tokens ++ rest := by
  have hdone : ∀ {s : State} {ts : List Token}, (s.abandoned, ts) = (some root, rest) →
    s.areWhole = true →
      root.isWhole = true ∧ s.taken ++ ts = root.tokens ++ rest := by
    intro s ts h hwhole
    obtain ⟨hroot, rfl⟩ := Prod.mk.inj h
    rw [eq_after_of_abandoned hroot hclosed] at hwhole ⊢
    exact ⟨by simpa [State.areWhole] using hwhole, rfl⟩
  -- along the tokens that are taken, what was taken grows by what is left to take
  fun_induction run s ts with
  | case1 node => exact hdone h hwhole
  | case2 s => exact hdone h hwhole
  | case3 s t ts _ s' hnext ih =>
    obtain ⟨htaken, hsame⟩ := taken_next hnext
    obtain ⟨hroot, htokens⟩ := ih h (hsame.trans hwhole)
    rw [htaken, List.append_assoc] at htokens
    exact ⟨hroot, htokens⟩
  | case4 s t ts => exact hdone h hwhole

/-! ## A whole tree is read from its tokens -/

theorem run_cons {s s' : State} {t : Token} (h : s.next t = some s') (rest : List Token) :
    run s (t :: rest) = run s' rest := by
  rw [run]
  · rw [h]
  · rintro node rfl
    simp [State.next] at h

/-- Where a value may stand, inside the given containers. -/
def State.TakesValue (s : State) (outer : List Frame) : Prop :=
  ∀ t, t ≠ .closeBracket → s.next t = State.begin outer t

theorem takesValue_value (outer : List Frame) : (State.value outer).TakesValue outer :=
  fun _ _ => rfl

theorem takesValue_firstItem (outer : List Frame) :
    (State.firstItem outer).TakesValue (.items [] :: outer) := by
  intro t ht
  cases t <;> first | rfl | exact absurd rfl ht

mutual

/-- Completeness of reading, for a tree: behind its tokens stands what was read of it. -/
theorem run_tokens (node : Node) (hwhole : node.isWhole = true) {s : State} {outer : List Frame}
    (hs : s.TakesValue outer) (rest : List Token) :
    run s (node.tokens ++ rest) = run (.after node outer) rest := by
  match node with
  | .null => exact run_cons (hs .null (by simp)) rest
  | .bool b => exact run_cons (hs (.bool b) (by simp)) rest
  | .number literal => exact run_cons (hs (.number literal) (by simp)) rest
  | .string text => exact run_cons (hs (.string text) (by simp)) rest
  | .array items closed =>
    rw [isWhole, Bool.and_eq_true] at hwhole
    obtain ⟨rfl, hitems⟩ := hwhole
    have hopen : run s ((array items true).tokens ++ rest)
        = run (.firstItem outer) (itemTokens items ++ .closeBracket :: rest) := by
      simpa [tokens] using run_cons (hs .openBracket (by simp))
        (itemTokens items ++ .closeBracket :: rest)
    rw [hopen]
    by_cases hempty : items = []
    · subst hempty
      exact run_cons rfl rest
    · exact run_itemTokens items hempty hitems (takesValue_firstItem outer) rest
  | .object members closed =>
    rw [isWhole, Bool.and_eq_true] at hwhole
    obtain ⟨rfl, hmembers⟩ := hwhole
    have hopen : run s ((object members true).tokens ++ rest)
        = run (.firstKey outer) (memberTokens members ++ .closeBrace :: rest) := by
      simpa [tokens] using run_cons (hs .openBrace (by simp))
        (memberTokens members ++ .closeBrace :: rest)
    rw [hopen]
    by_cases hempty : members = []
    · subst hempty
      exact run_cons rfl rest
    · have hfirst : ∀ name, (State.firstKey outer).next (.string name)
        = some (.colon [] name outer) := fun _ => rfl
      exact run_memberTokens members hempty hmembers hfirst rest

/-- On the items; a comma stands before each but the first. -/
theorem run_itemTokens (items : List Node) (hne : items ≠ []) (hwhole : areWhole items = true)
    {s : State} {done : List Node} {outer : List Frame} (hs : s.TakesValue (.items done :: outer))
    (rest : List Token) :
    run s (itemTokens items ++ .closeBracket :: rest)
      = run (.after (.array (done.reverse ++ items) true) outer) rest := by
  match items with
  | [] => exact absurd rfl hne
  | [node] =>
    rw [areWhole, Bool.and_eq_true] at hwhole
    rw [itemTokens, run_tokens node hwhole.1 hs, run_cons rfl]
    simp [Frame.close]
  | node :: next :: more =>
    rw [areWhole, Bool.and_eq_true] at hwhole
    have hsplit : itemTokens (node :: next :: more) ++ .closeBracket :: rest
        = node.tokens ++ .comma :: (itemTokens (next :: more) ++ .closeBracket :: rest) := by
      simp [itemTokens]
    rw [hsplit, run_tokens node hwhole.1 hs, run_cons rfl,
      run_itemTokens (next :: more) (by simp) hwhole.2 (takesValue_value _) rest]
    simp

/-- On the members; a comma stands before each but the first. -/
theorem run_memberTokens (members : List (Option String × Node)) (hne : members ≠ [])
    (hwhole : haveWhole members = true) {s : State} {done : List (Option String × Node)}
    {outer : List Frame} (hs : ∀ name, s.next (.string name) = some (.colon done name outer))
    (rest : List Token) :
    run s (memberTokens members ++ .closeBrace :: rest)
      = run (.after (.object (done.reverse ++ members) true) outer) rest := by
  match members with
  | [] => exact absurd rfl hne
  | [(name, node)] =>
    rw [haveWhole, Bool.and_eq_true] at hwhole
    have hsplit : memberTokens [(name, node)] ++ .closeBrace :: rest
        = .string name :: .colon :: (node.tokens ++ .closeBrace :: rest) := by
      simp [memberTokens]
    rw [hsplit, run_cons (hs name), run_cons rfl, run_tokens node hwhole.1 (takesValue_value _),
      run_cons rfl]
    simp [Frame.close]
  | (name, node) :: next :: more =>
    rw [haveWhole, Bool.and_eq_true] at hwhole
    have hsplit : memberTokens ((name, node) :: next :: more) ++ .closeBrace :: rest
        = .string name :: .colon ::
            (node.tokens ++ .comma :: (memberTokens (next :: more) ++ .closeBrace :: rest)) := by
      simp [memberTokens]
    rw [hsplit, run_cons (hs name), run_cons rfl,
      run_tokens node hwhole.1 (takesValue_value _), run_cons rfl,
      run_memberTokens (next :: more) (by simp) hwhole.2 (fun _ => rfl) rest]
    simp

end

end Node

/-- The tree of tokens that are read to their end is the whole tree that is written with them. -/
theorem Document.ofTokens_eq_iff {ts : List Token} {root : Node} (hclosed : root.isClosed = true) :
    ofTokens ts = ⟨some root, true⟩ ↔ root.isWhole = true ∧ ts = root.tokens := by
  constructor
  · intro h
    obtain ⟨hroot, hended⟩ := Document.mk.inj h
    have hrun : Node.run (.value []) ts = (some root, []) :=
      Prod.ext hroot (List.isEmpty_iff.1 hended)
    simpa [Node.State.taken, Node.takenBefore] using Node.tokens_of_run hrun hclosed rfl
  · rintro ⟨hwhole, rfl⟩
    have hrun := Node.run_tokens root hwhole (Node.takesValue_value []) []
    rw [List.append_nil] at hrun
    rw [ofTokens, hrun]
    rfl

end RecordStore.Json
