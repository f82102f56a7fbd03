import TaskBoard.Proofs.Document.Merging
import TaskBoard.Proofs.Document.Misreading

/-!
Which nodes of a document need to be read, and how reading one of them fails. The values that are needed are those of
the outermost node and of what collections are made of. Apart from faults of syntax, a node cannot be read as its text
is misread, as a moment is no scalar, or as its merge keys or its keys `=` lead on too far.
-/

namespace TaskBoard.Document

def Tag.spells : Tag → Bool
  | null | bool | int | float | binary | timestamp | str | defaultValue => true
  | _ => false

def Tag.collects : Tag → Bool
  | seq | omap | pairs | set | map => true
  | _ => false

theorem Tag.collects_of_spells {tag : Tag} (spells : tag.spells = true) : tag.collects = false := by
  cases tag <;> first | rfl | cases spells

namespace Graph

def itemsAt (g : Graph) (id : Nat) : List Nat :=
  match g.node id with
  | .sequence _ items => items
  | _ => []

/-- A text of a node: that of a scalar, or one of what a mapping has under a key `=`. -/
inductive TextOf (g : Graph) : Nat → List Char → Prop where
  | scalar {id : Nat} {tag : Tag} {text : List Char} (node : g.node id = .scalar tag text) : TextOf g id text
  | under {id : Nat} {pair : Nat × Nat} {text : List Char} (given : Gives g id pair)
    (default : g.tagOf pair.1 = .defaultValue) (below : TextOf g pair.2 text) : TextOf g id text

/-- Keys `=` lead on from a mapping to a mapping, so many times. -/
inductive Chain (g : Graph) : Nat → Nat → Prop where
  | none {id : Nat} : Chain g 0 id
  | link {length id : Nat} {pair : Nat × Nat} (given : Gives g id pair) (default : g.tagOf pair.1 = .defaultValue)
    (below : Chain g length pair.2) : Chain g (length + 1) id

/-- The nodes that the value of a collection is made of. -/
inductive Holds (g : Graph) (id : Nat) : Nat → Prop where
  | item {part : Nat} (list : g.tagOf id = .seq) (member : part ∈ g.itemsAt id) : Holds g id part
  | entry {item part : Nat} {pair : Nat × Nat} (list : g.tagOf id = .omap ∨ g.tagOf id = .pairs)
    (member : item ∈ g.itemsAt id) (given : Gives g item pair) (part_eq : part = pair.1 ∨ part = pair.2) :
    Holds g id part
  | part {part : Nat} {pair : Nat × Nat} (map : g.tagOf id = .set ∨ g.tagOf id = .map) (given : Gives g id pair)
    (part_eq : part = pair.1 ∨ part = pair.2) : Holds g id part

/-- The nodes whose values are needed for that of the outermost one. -/
inductive Reached (g : Graph) (root : Nat) : Nat → Prop where
  | root : Reached g root root
  | part {id part : Nat} (reached : Reached g root id) (holds : Holds g id part) : Reached g root part

section Parts

variable {g : Graph} {id part : Nat}

theorem Holds.of_seq (list : g.tagOf id = .seq) (holds : Holds g id part) : part ∈ g.itemsAt id := by
  cases holds with
  | item _ member => exact member
  | entry other => exact absurd other (by rw [list]; exact nofun)
  | part other => exact absurd other (by rw [list]; exact nofun)

theorem Holds.of_entries (list : g.tagOf id = .omap ∨ g.tagOf id = .pairs) (holds : Holds g id part) :
    ∃ item ∈ g.itemsAt id, ∃ pair, Gives g item pair ∧ (part = pair.1 ∨ part = pair.2) := by
  cases holds with
  | item other => exact absurd list (by rw [other]; exact nofun)
  | entry _ member given part_eq => exact ⟨_, member, _, given, part_eq⟩
  | part other => rcases list with list | list <;> exact absurd other (by rw [list]; exact nofun)

theorem Holds.of_map (map : g.tagOf id = .set ∨ g.tagOf id = .map) (holds : Holds g id part) :
    ∃ pair, Gives g id pair ∧ (part = pair.1 ∨ part = pair.2) := by
  cases holds with
  | item other => exact absurd map (by rw [other]; exact nofun)
  | entry other => rcases map with map | map <;> exact absurd other (by rw [map]; exact nofun)
  | part _ given part_eq => exact ⟨_, given, part_eq⟩

end Parts

/-- Why a node cannot be read. -/
inductive Unreadable (g : Graph) (id : Nat) : Failure → Prop where
  | misread {text : List Char} {failure : Failure} (stands : TextOf g id text)
    (wrong : Scalar.Misread text (g.tagOf id) failure) : Unreadable g id failure
  /-- A moment is read from a scalar only. -/
  | misplaced {text : List Char} (moment : g.tagOf id = .timestamp) (mapping : IsMapping g id)
    (stands : TextOf g id text) : Unreadable g id .wrongType
  /-- Keys `=` lead on further than the limit. -/
  | endless (spells : (g.tagOf id).spells = true) (chain : Chain g (linkLimit + 1) id) : Unreadable g id .tooDeep
  | entangled (map : g.tagOf id = .set ∨ g.tagOf id = .map) (beyond : Entangled g id) : Unreadable g id .tooDeep

/-- A node whose value is read from a text has one that is not misread. -/
def Legible (g : Graph) (id : Nat) : Prop :=
  (g.tagOf id).spells = true → ∃ text, TextOf g id text ∧ (∀ failure, ¬Scalar.Misread text (g.tagOf id) failure) ∧
    (g.tagOf id = .timestamp → ¬IsMapping g id)

/-- How making the values fails: with a fault of syntax, or as a node that is needed cannot be read. -/
def Unmade (g : Graph) (root : Nat) (failure : Failure) : Prop :=
  failure = malformed ∨ ∃ id, Reached g root id ∧ Unreadable g id failure

end Graph

namespace Draft

open Document.Graph

variable {g : Graph} {root : Nat}

theorem comes_scalarText {g' : Graph} (descends : Descends g g') (fuel id : Nat) :
    Comes (TextOf g id) (fun failure => failure = malformed ∨ failure = .tooDeep ∧ Chain g fuel id)
      (scalarText g' fuel id) := by
  induction fuel generalizing id with
  | zero => exact .throw (.inr ⟨rfl, .none⟩)
  | succ fuel ih =>
    have kin := descends.kin.node id
    unfold scalarText
    split
    next tag text node =>
      rw [node] at kin
      generalize before : g.node id = n at kin
      cases kin
      exact .pure (.scalar before)
    next => exact .throw (.inl rfl)
    next tag pairs node =>
      split
      next pair value found =>
        have member : (pair, value) ∈ g'.pairsOf id := by
          rw [pairsOf, node]
          exact List.mem_of_find?_eq_some found
        have after : g'.tagOf pair = .defaultValue := by simpa using List.find?_some found
        have default : g.tagOf pair = .defaultValue := by
          rcases descends.kin.tags pair with same | ⟨-, text⟩
          · rw [← same, after]
          · rw [text] at after
            cases after
        have given : Gives g id (pair, value) :=
          (descends.below id _ member).plain fun merge => nomatch default.symm.trans merge
        refine (ih value).mono (fun text below => .under given default below) fun failure failed => ?_
        exact failed.imp_right fun ⟨deep, chain⟩ => ⟨deep, .link given default chain⟩
      next => exact .throw (.inl rfl)

section Nodes

variable {id : Nat} {d : Draft}

/-- How reading one node fails. -/
def Unread (g : Graph) (id : Nat) (failure : Failure) : Prop := failure = malformed ∨ Unreadable g id failure

theorem steps_textOf (descends : Descends g d.graph) (spells : (g.tagOf id).spells = true) :
    Steps (textOf id) d (fun text after => after = d ∧ TextOf g id text) (Unread g id) := by
  unfold textOf
  apply Steps.get_bind
  refine (Steps.lift (comes_scalarText descends _ id)).mono (fun _ _ both => both) ?_
  rintro failure (fault | ⟨rfl, chain⟩)
  · exact .inl fault
  · exact .inr (.endless spells chain)

/-- What is known of the value of a node that was just made; a collection has yet to be filled. -/
structure Fresh (g : Graph) (id : Nat) (d : Draft) (v : Value) (after : Draft) : Prop where
  graph : after.graph = d.graph
  made : after.made = d.made
  waiting : after.waiting.map (·.1) = d.waiting.map (·.1) ++ if (g.tagOf id).collects then [id] else []
  legible : Legible g id
  plain : g.tagOf id ≠ .merge
  nothing : g.tagOf id = .null → v = .nothing

theorem Fresh.spelled {tag : Tag} {v : Value} {text : List Char} {after : Draft} (own : g.tagOf id = tag)
    (spells : tag.spells = true) (stands : TextOf g id text) (read : ∀ failure, ¬Scalar.Misread text tag failure)
    (scalar : tag = .timestamp → ¬IsMapping g id) (graph : after.graph = d.graph) (made : after.made = d.made)
    (waiting : after.waiting = d.waiting) (nothing : tag = .null → v = .nothing) : Fresh g id d v after := by
  subst own
  refine ⟨graph, made, ?_, fun _ => ⟨text, stands, read, scalar⟩, ?_, nothing⟩
  · rw [waiting, Tag.collects_of_spells spells]
    exact (List.append_nil _).symm
  · intro merge
    rw [merge] at spells
    cases spells

theorem Fresh.collection {tag : Tag} {v : Value} {after : Draft} {cell : Nat} (own : g.tagOf id = tag)
    (collects : tag.collects = true) (graph : after.graph = d.graph) (made : after.made = d.made)
    (waiting : after.waiting = d.waiting ++ [(id, cell)]) : Fresh g id d v after := by
  subst own
  refine ⟨graph, made, ?_, fun spells => ?_, ?_, ?_⟩
  · rw [waiting, collects, List.map_append]
    rfl
  · rw [Tag.collects_of_spells spells] at collects
    cases collects
  · intro merge
    rw [merge] at collects
    cases collects
  · intro null
    rw [null] at collects
    cases collects

theorem steps_makeList {tag : Tag} (own : g.tagOf id = tag) (collects : tag.collects = true) (make : Nat → Value) :
    Steps (make <$> makeList id) d (Fresh g id d) (Unread g id) := by
  have made : Steps (makeList id) d (fun cell => Fresh g id d (make cell)) (Unread g id) :=
    .modifyGet (.collection own collects rfl rfl rfl)
  exact made.map fun _ _ fits => fits

theorem steps_makeMap (own : g.tagOf id = .map) : Steps (.map <$> makeMap id) d (Fresh g id d) (Unread g id) := by
  have made : Steps (makeMap id) d (fun cell => Fresh g id d (.map cell)) (Unread g id) :=
    .modifyGet (.collection own rfl rfl rfl rfl)
  exact made.map fun _ _ fits => fits

theorem steps_spelled {tag : Tag} {read : List Char → Except Failure Value} (descends : Descends g d.graph)
    (own : g.tagOf id = tag) (spells : tag.spells = true) (noMoment : tag ≠ .timestamp) (noNull : tag ≠ .null)
    (comes : ∀ text, Comes (fun _ => ∀ failure, ¬Scalar.Misread text tag failure)
      (fun failure => failure = malformed ∨ Scalar.Misread text tag failure) (read text)) :
    Steps (do liftM (read (← textOf id))) d (Fresh g id d) (Unread g id) := by
  refine Steps.bind (steps_textOf descends (own ▸ spells)) fun text after ⟨same, stands⟩ => ?_
  subst same
  refine (Steps.lift (comes text)).mono (fun v after ⟨same, read⟩ => ?_) ?_
  · subst same
    exact .spelled own spells stands read (fun moment => absurd moment noMoment) rfl rfl rfl
      fun null => absurd null noNull
  · exact fun failure => .imp_right fun misread => .misread stands (own ▸ misread)

theorem steps_floating (own : g.tagOf id = .float) {text : List Char} (stands : TextOf g id text) :
    Steps (floating text) d (Fresh g id d) (Unread g id) := by
  unfold floating
  have unread : ∀ failure, Scalar.Misread text .float failure → Unread g id failure :=
    fun failure misread => .inr (.misread stands (own ▸ misread))
  refine Steps.bind (Steps.lift ((Scalar.judges_toFloat text).mono (fun _ read => read) unread)) ?_
  rintro x after ⟨same, read⟩
  subst same
  have fresh : ∀ v heap, Fresh g id after v { after with heap := heap } := fun v heap =>
    .spelled own rfl stands read nofun rfl rfl rfl nofun
  split
  · exact Steps.map (Steps.modifyGet (fresh _ _)) fun _ _ fits => fits
  · exact .pure (fresh _ after.heap)

theorem steps_timestamp (descends : Descends g d.graph) (own : g.tagOf id = .timestamp) :
    Steps (timestamp id) d (Fresh g id d) (Unread g id) := by
  unfold timestamp
  refine Steps.bind (steps_textOf descends (by rw [own]; rfl)) fun text after ⟨same, stands⟩ => ?_
  subst same
  apply Steps.get_bind
  split
  next tag written node =>
    refine (Steps.lift (Scalar.judges_toTimestamp text)).mono (fun v after ⟨same, read⟩ => ?_) ?_
    · subst same
      refine .spelled own rfl stands read (fun _ mapping => ?_) rfl rfl rfl nofun
      obtain ⟨_, _, other⟩ := descends.kin.isMapping mapping
      cases node.symm.trans other
    · exact fun failure misread => .inr (.misread stands (own ▸ misread))
  next noScalar =>
    refine .throw (.inr (.misplaced own ?_ stands))
    cases stands with
    | scalar node =>
      have kin := descends.kin.node id
      rw [node] at kin
      generalize behind : after.graph.node id = n at kin
      cases kin
      exact absurd behind (noScalar _ _)
    | under given => exact given.isMapping

theorem steps_null (descends : Descends g d.graph) (own : g.tagOf id = .null) :
    Steps (do
      let _ ← textOf id
      pure Value.nothing) d (Fresh g id d) (Unread g id) := by
  refine Steps.bind (steps_textOf descends (by rw [own]; rfl)) fun text after ⟨same, stands⟩ => ?_
  subst same
  exact .pure (.spelled own rfl stands nofun nofun rfl rfl rfl fun _ => rfl)

theorem steps_str (descends : Descends g d.graph) (tag : d.graph.tagOf id = .str) :
    Steps (do pure (Value.text (String.ofList (← textOf id)))) d (Fresh g id d) (Unread g id) := by
  have text : ∀ text, Comes (fun _ => ∀ failure, ¬Scalar.Misread text (g.tagOf id) failure)
      (fun failure => failure = malformed ∨ Scalar.Misread text (g.tagOf id) failure)
      (pure (Value.text (String.ofList text))) := by
    refine fun text => .pure fun failure misread => ?_
    rcases descends.kin.tags id with same | ⟨default, -⟩
    · rw [← same, tag] at misread
      cases misread
    · rw [default] at misread
      cases misread
  rcases descends.kin.tags id with same | ⟨default, -⟩
  · have str : g.tagOf id = .str := same.symm.trans tag
    exact steps_spelled descends str rfl nofun nofun (str ▸ text)
  · exact steps_spelled descends default rfl nofun nofun (default ▸ text)

theorem steps_fresh (descends : Descends g d.graph) : Steps (fresh id) d (Fresh g id d) (Unread g id) := by
  unfold fresh
  apply Steps.get_bind
  have own : ∀ tag, d.graph.tagOf id = tag → tag ≠ .defaultValue → tag ≠ .str → g.tagOf id = tag :=
    fun tag same noDefault noText => ((descends.kin.tags id).eq_iff noDefault noText).mp same
  split
  next tag => exact steps_null descends (own _ tag nofun nofun)
  next tag =>
    exact steps_spelled descends (own _ tag nofun nofun) rfl nofun nofun fun text =>
      (Scalar.judges_toBool text).mono (fun _ read => read) fun _ => .inr
  next tag =>
    exact steps_spelled descends (own _ tag nofun nofun) rfl nofun nofun fun text =>
      (Scalar.judges_toInt text).mono (fun _ read => read) fun _ => .inr
  next tag =>
    have float := own _ tag nofun nofun
    refine Steps.bind (steps_textOf descends (by rw [float]; rfl)) fun text after ⟨same, stands⟩ => ?_
    subst same
    exact steps_floating float stands
  next tag =>
    exact steps_spelled descends (own _ tag nofun nofun) rfl nofun nofun fun text =>
      (Scalar.comes_toBinary text).mono (fun _ _ => nofun) fun _ => .inl
  next tag => exact steps_timestamp descends (own _ tag nofun nofun)
  next tag => exact steps_str descends tag
  next tag => exact steps_makeList (own _ tag nofun nofun) rfl _
  next tag => exact steps_makeList (own _ tag nofun nofun) rfl _
  next tag => exact steps_makeList (own _ tag nofun nofun) rfl _
  next tag => exact steps_makeList (own _ tag nofun nofun) rfl _
  next tag => exact steps_makeMap (own _ tag nofun nofun)
  all_goals exact .throw (.inl rfl)

end Nodes

end Draft

end TaskBoard.Document
