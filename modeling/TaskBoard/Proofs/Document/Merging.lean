import TaskBoard.Proofs.Document.Outcomes

/-!
What merge keys give to a mapping: its own pairs and those of the mappings that its merge keys name, and so on. Merging
changes the pairs of mappings while it goes, also of those that it passes on its way; nothing that a mapping was not
given comes to it, and what one passed on the way loses is given to the mapping that is merged. It fails as something
else than a mapping is named, or as merge keys lead on too far.
-/

namespace TaskBoard.Document

/-- The key `=` may become an ordinary text. -/
def Tag.Settles (before after : Tag) : Prop := after = before ∨ before = .defaultValue ∧ after = .str

/-- The same node, but for its pairs and for a key `=` that became a text. -/
inductive Node.Kin : Node → Node → Prop where
  | scalar {tag tag' : Tag} {text : List Char} (tags : tag.Settles tag') : Kin (scalar tag text) (scalar tag' text)
  | sequence {tag tag' : Tag} {items : List Nat} (tags : tag.Settles tag') :
    Kin (sequence tag items) (sequence tag' items)
  | mapping {tag tag' : Tag} {pairs pairs' : List (Nat × Nat)} (tags : tag.Settles tag') :
    Kin (mapping tag pairs) (mapping tag' pairs')

theorem Tag.Settles.trans {first second third : Tag} (one : first.Settles second) (two : second.Settles third) :
    first.Settles third := by
  rcases one with rfl | ⟨rfl, rfl⟩
  · exact two
  · rcases two with rfl | ⟨same, -⟩
    · exact .inr ⟨rfl, rfl⟩
    · cases same

theorem Tag.Settles.eq_iff {before after tag : Tag} (settles : before.Settles after) (noDefault : tag ≠ .defaultValue)
    (noText : tag ≠ .str) : after = tag ↔ before = tag := by
  rcases settles with rfl | ⟨rfl, rfl⟩
  · rfl
  · exact ⟨fun same => absurd same.symm noText, fun same => absurd same.symm noDefault⟩

namespace Node.Kin

theorem refl (n : Node) : Kin n n := by
  cases n with
  | scalar tag text => exact .scalar (.inl rfl)
  | sequence tag items => exact .sequence (.inl rfl)
  | mapping tag pairs => exact .mapping (.inl rfl)

theorem trans {first second third : Node} (one : Kin first second) (two : Kin second third) : Kin first third := by
  cases one with
  | scalar tags => cases two with | scalar more => exact .scalar (tags.trans more)
  | sequence tags => cases two with | sequence more => exact .sequence (tags.trans more)
  | mapping tags => cases two with | mapping more => exact .mapping (tags.trans more)

theorem tags {first second : Node} (kin : Kin first second) : first.tag.Settles second.tag := by
  cases kin with
  | scalar tags => exact tags
  | sequence tags => exact tags
  | mapping tags => exact tags

theorem withTag (n : Node) {tag : Tag} (settles : n.tag.Settles tag) : Kin n (n.withTag tag) := by
  cases n with
  | scalar => exact .scalar settles
  | sequence => exact .sequence settles
  | mapping => exact .mapping settles

end Node.Kin

namespace Graph

def sources (g : Graph) (value : Nat) : List Nat :=
  match g.node value with
  | .sequence _ items => items
  | _ => [value]

/-- A pair that a mapping has: one of its own, or one of a mapping that its merge keys name. -/
inductive Gives (g : Graph) : Nat → Nat × Nat → Prop where
  | own {m : Nat} {pair : Nat × Nat} (stands : pair ∈ g.pairsOf m) (plain : g.tagOf pair.1 ≠ .merge) : Gives g m pair
  | merged {m source : Nat} {key pair : Nat × Nat} (stands : key ∈ g.pairsOf m) (merge : g.tagOf key.1 = .merge)
    (named : source ∈ g.sources key.2) (given : Gives g source pair) : Gives g m pair

/-- Merge keys lead from a node to another, so many times. -/
inductive Leads (g : Graph) : Nat → Nat → Nat → Prop where
  | here {m : Nat} : Leads g 0 m m
  | on {length m source last : Nat} {key : Nat × Nat} (stands : key ∈ g.pairsOf m) (merge : g.tagOf key.1 = .merge)
    (named : source ∈ g.sources key.2) (rest : Leads g length source last) : Leads g (length + 1) m last

/-- Merge keys lead on from a mapping further than the limit. -/
def Entangled (g : Graph) (m : Nat) : Prop := ∃ length last, linkLimit < length ∧ Leads g length m last

/-- How merging a mapping fails: with a fault of syntax, or as merge keys lead on too far. -/
def Unmerged (g : Graph) (m : Nat) (failure : Failure) : Prop :=
  failure = malformed ∨ failure = .tooDeep ∧ Entangled g m

/-- A pair that may stand in a mapping: one that it has, or a merge key that names nothing else than it has, and what
merge keys lead to. -/
structure Allowed (g : Graph) (m : Nat) (pair : Nat × Nat) : Prop where
  plain : g.tagOf pair.1 ≠ .merge → Gives g m pair
  merge : g.tagOf pair.1 = .merge → ∀ source ∈ g.sources pair.2, ∀ given, Gives g source given → Gives g m given
  leads : g.tagOf pair.1 = .merge → ∀ source ∈ g.sources pair.2, ∃ length, 0 < length ∧ Leads g length m source

def IsMapping (g : Graph) (id : Nat) : Prop := ∃ tag pairs, g.node id = .mapping tag pairs

/-- A mapping still has a merge key. -/
def HasMerge (g : Graph) (pairs : List (Nat × Nat)) : Prop := ∃ pair ∈ pairs, g.tagOf pair.1 = .merge

/-- The same nodes, but for pairs and for keys `=` that became texts. -/
structure Kin (g g' : Graph) : Prop where
  size : g'.nodes.size = g.nodes.size
  node : ∀ id, (g.node id).Kin (g'.node id)

/-- What merging makes of a graph: nothing comes to a mapping that it was not given. -/
structure Descends (g g' : Graph) : Prop where
  kin : Kin g g'
  below : ∀ m, ∀ pair ∈ g'.pairsOf m, Allowed g m pair

section Changes

variable {g g' : Graph} {id m : Nat} {pair : Nat × Nat}

theorem node_replace (g : Graph) (id : Nat) (n : Node) (other : Nat) :
    (g.replace id n).node other = if id = other ∧ id < g.nodes.size then n else g.node other := by
  unfold node replace
  simp only [Array.getD_eq_getD_getElem?, Array.getElem?_setIfInBounds]
  by_cases same : id = other
  · subst same
    by_cases inside : id < g.nodes.size
    · simp [inside]
    · simp [inside]
  · simp [same]

theorem node_of_unknown (unknown : g.nodes.size ≤ id) : g.node id = .scalar .null [] := by
  rw [node, Array.getD_eq_getD_getElem?, Array.getElem?_eq_none unknown]
  rfl

theorem IsMapping.lt (mapping : IsMapping g id) : id < g.nodes.size := by
  obtain ⟨tag, pairs, same⟩ := mapping
  refine Nat.lt_of_not_le fun outside => ?_
  rw [node_of_unknown outside] at same
  cases same

theorem Kin.refl (g : Graph) : Kin g g := ⟨rfl, fun _ => Node.Kin.refl _⟩

theorem Kin.trans {g'' : Graph} (one : Kin g g') (two : Kin g' g'') : Kin g g'' :=
  ⟨two.size.trans one.size, fun id => (one.node id).trans (two.node id)⟩

theorem Kin.replace {n : Node} (kin : (g.node id).Kin n) : Kin g (g.replace id n) where
  size := Array.size_setIfInBounds
  node other := by
    rw [node_replace]
    split
    next here => exact here.1 ▸ kin
    next => exact Node.Kin.refl _

theorem Kin.tags (kin : Kin g g') (id : Nat) : (g.tagOf id).Settles (g'.tagOf id) := (kin.node id).tags

theorem Kin.merge_iff (kin : Kin g g') (id : Nat) : g'.tagOf id = .merge ↔ g.tagOf id = .merge :=
  (kin.tags id).eq_iff nofun nofun

theorem Kin.sources (kin : Kin g g') (id : Nat) : g'.sources id = g.sources id := by
  unfold Graph.sources
  have node := kin.node id
  generalize g.node id = before, g'.node id = after at node
  cases node <;> rfl

theorem Kin.isMapping (kin : Kin g g') (mapping : IsMapping g id) : IsMapping g' id := by
  obtain ⟨tag, pairs, same⟩ := mapping
  have node := kin.node id
  rw [same] at node
  generalize after : g'.node id = n at node
  cases node
  exact ⟨_, _, after⟩

theorem Kin.hasMerge (kin : Kin g g') {pairs : List (Nat × Nat)} (has : HasMerge g pairs) : HasMerge g' pairs := by
  obtain ⟨pair, stands, merge⟩ := has
  exact ⟨pair, stands, (kin.merge_iff _).mpr merge⟩

theorem pairsOf_setPairs (mapping : IsMapping g id) (pairs : List (Nat × Nat)) (m : Nat) :
    (g.setPairs id pairs).pairsOf m = if m = id then pairs else g.pairsOf m := by
  unfold pairsOf setPairs
  rw [node_replace]
  by_cases same : m = id
  · rw [if_pos ⟨same.symm, mapping.lt⟩, if_pos same]
  · rw [if_neg fun here => same here.1.symm, if_neg same]

theorem kin_setPairs (mapping : IsMapping g id) (pairs : List (Nat × Nat)) : Kin g (g.setPairs id pairs) := by
  obtain ⟨tag, before, same⟩ := mapping
  refine Kin.replace ?_
  rw [tagOf, same]
  exact .mapping (.inl rfl)

theorem pairsOf_withTag (g : Graph) (key m : Nat) (tag : Tag) :
    (g.replace key ((g.node key).withTag tag)).pairsOf m = g.pairsOf m := by
  unfold pairsOf
  rw [node_replace]
  by_cases here : key = m ∧ key < g.nodes.size
  · rw [if_pos here, ← here.1]
    generalize g.node key = n
    cases n <;> rfl
  · rw [if_neg here]

theorem settles_settleDefaults (g : Graph) (id : Nat) :
    Kin g (g.settleDefaults id) ∧ ∀ m, (g.settleDefaults id).pairsOf m = g.pairsOf m := by
  unfold settleDefaults
  generalize g.pairsOf id = pairs
  refine List.foldlRecOn (motive := fun g' => Kin g g' ∧ ∀ m, g'.pairsOf m = g.pairsOf m) pairs _
    ⟨Kin.refl g, fun _ => rfl⟩ fun g' ⟨kin, same⟩ pair _ => ?_
  dsimp only
  split
  next key =>
    refine ⟨kin.trans (Kin.replace (Node.Kin.withTag _ (.inr ⟨key, rfl⟩))), fun m => ?_⟩
    rw [pairsOf_withTag, same]
  next => exact ⟨kin, same⟩

theorem eq_of_takeMerge {pairs rest : List (Nat × Nat)} {value : Nat} (taken : g.takeMerge pairs = some (value, rest)) :
    ∃ key, g.tagOf key = .merge ∧ (key, value) ∈ pairs ∧ rest ⊆ pairs ∧
      ∀ pair ∈ pairs, pair = (key, value) ∨ pair ∈ rest := by
  induction pairs generalizing rest with
  | nil => cases taken
  | cons first others ih =>
    obtain ⟨key, own⟩ := first
    unfold takeMerge at taken
    split at taken
    next merge =>
      cases taken
      exact ⟨key, merge, List.mem_cons_self, List.subset_cons_self _ _, fun pair member => List.mem_cons.mp member⟩
    next plain =>
      obtain ⟨⟨merged, left⟩, below, same⟩ := Option.map_eq_some_iff.mp taken
      cases same
      obtain ⟨found, merge, stands, subset, each⟩ := ih below
      refine ⟨found, merge, List.mem_cons_of_mem _ stands, List.cons_subset_cons _ subset, fun pair member => ?_⟩
      rcases List.mem_cons.mp member with rfl | later
      · exact .inr List.mem_cons_self
      · exact (each pair later).imp id (List.mem_cons_of_mem _)

end Changes

section Given

variable {G g g' : Graph} {id m source : Nat} {pair key : Nat × Nat} {pairs rest gathered : List (Nat × Nat)}

theorem Gives.mono (kin : Kin g g') (more : ∀ m, g.pairsOf m ⊆ g'.pairsOf m) (gives : Gives g m pair) :
    Gives g' m pair := by
  induction gives with
  | own stands plain => exact .own (more _ stands) fun merge => plain ((kin.merge_iff _).mp merge)
  | merged stands merge named _ ih =>
    exact .merged (more _ stands) ((kin.merge_iff _).mpr merge) (kin.sources _ ▸ named) ih

theorem isMapping_of_mem (stands : pair ∈ g.pairsOf m) : IsMapping g m := by
  unfold pairsOf at stands
  split at stands
  next tag pairs node => exact ⟨tag, pairs, node⟩
  next => cases stands

theorem Gives.isMapping (gives : Gives g m pair) : IsMapping g m := by
  cases gives with
  | own stands => exact isMapping_of_mem stands
  | merged stands => exact isMapping_of_mem stands

theorem Leads.trans {first second last : Nat} (one : Leads g first m source) (two : Leads g second source last) :
    Leads g (first + second) m last := by
  induction one with
  | here => rwa [Nat.zero_add]
  | on stands merge named _ ih =>
    rw [Nat.add_right_comm]
    exact .on stands merge named (ih two)

theorem allowed_of_mem (stands : pair ∈ g.pairsOf m) : Allowed g m pair where
  plain := .own stands
  merge merge _ named _ gives := .merged stands merge named gives
  leads merge _ named := ⟨1, Nat.one_pos, .on stands merge named .here⟩

theorem Allowed.up (here : Allowed g m key) (merge : g.tagOf key.1 = .merge) (named : source ∈ g.sources key.2)
    (there : Allowed g source pair) : Allowed g m pair where
  plain own := here.merge merge source named pair (there.plain own)
  merge again other named' given gives :=
    here.merge merge source named given (there.merge again other named' given gives)
  leads again other named' := by
    obtain ⟨first, some, one⟩ := here.leads merge source named
    obtain ⟨second, -, two⟩ := there.leads again other named'
    exact ⟨first + second, Nat.add_pos_left some second, one.trans two⟩

theorem Descends.refl (g : Graph) : Descends g g := ⟨Kin.refl g, fun _ _ => allowed_of_mem⟩

theorem Descends.less (descends : Descends G g) (kin : Kin g g') (less : ∀ m, g'.pairsOf m ⊆ g.pairsOf m) :
    Descends G g' :=
  ⟨descends.kin.trans kin, fun m pair stands => descends.below m pair (less m stands)⟩

theorem Descends.setPairs (descends : Descends G g) (mapping : IsMapping g id)
    (allowed : ∀ pair ∈ pairs, Allowed G id pair) : Descends G (g.setPairs id pairs) where
  kin := descends.kin.trans (kin_setPairs mapping pairs)
  below m pair stands := by
    rw [pairsOf_setPairs mapping] at stands
    split at stands
    next same => exact same ▸ allowed pair stands
    next => exact descends.below m pair stands

theorem Descends.taken (descends : Descends G g) (mapping : IsMapping g id) (subset : rest ⊆ g.pairsOf id) :
    Descends G (g.setPairs id rest) :=
  descends.setPairs mapping fun pair member => descends.below id pair (subset member)

theorem Allowed.led {top depth : Nat} (allowed : Allowed G m key) (kin : Kin G g) (merge : g.tagOf key.1 = .merge)
    (led : ∃ length, depth ≤ length ∧ Leads G length top m) (source : Nat) (named : source ∈ g.sources key.2) :
    ∃ length, depth + 1 ≤ length ∧ Leads G length top source := by
  obtain ⟨first, enough, one⟩ := led
  obtain ⟨second, some, two⟩ := allowed.leads ((kin.merge_iff _).mp merge) source (kin.sources _ ▸ named)
  exact ⟨first + second, Nat.add_le_add enough some, one.trans two⟩

/-- Nothing comes to a mapping that it was not given. -/
theorem Descends.gives (descends : Descends G g) (gives : Gives g m pair) : Gives G m pair := by
  induction gives with
  | own stands plain =>
    exact (descends.below _ _ stands).plain fun merge => plain ((descends.kin.merge_iff _).mpr merge)
  | merged stands merge named _ ih =>
    have own := (descends.kin.merge_iff _).mp merge
    exact (descends.below _ _ stands).merge own _ (descends.kin.sources _ ▸ named) _ ih

/-- Without a merge key, what is not lost is given by the mappings that the key names. -/
theorem Gives.lose (mapping : IsMapping g id) (each : ∀ pair ∈ g.pairsOf id, pair = key ∨ pair ∈ rest)
    (merge : g.tagOf key.1 = .merge) (gives : Gives g m pair) :
    Gives (g.setPairs id rest) m pair ∨ ∃ source ∈ g.sources key.2, Gives (g.setPairs id rest) source pair := by
  have kin := kin_setPairs mapping rest
  have left : ∀ {m pair}, pair ∈ g.pairsOf m → pair = key ∨ pair ∈ (g.setPairs id rest).pairsOf m := by
    intro m pair stands
    rw [pairsOf_setPairs mapping]
    split
    next same => exact each pair (same ▸ stands)
    next => exact .inr stands
  induction gives with
  | own stands plain =>
    rcases left stands with rfl | stays
    · exact absurd merge plain
    · exact .inl (.own stays fun merges => plain ((kin.merge_iff _).mp merges))
  | merged stands merges named _ ih =>
    rcases ih with given | elsewhere
    · rcases left stands with rfl | stays
      · exact .inr ⟨_, named, given⟩
      · exact .inl (.merged stays ((kin.merge_iff _).mpr merges) (kin.sources _ ▸ named) given)
    · exact .inr elsewhere

end Given

/-- What merging a mapping does to a graph. The mapping holds what it was given, unless it still has a merge key. What
another mapping no longer has, this one was given. -/
structure Merged (g g' : Graph) (gathered : List (Nat × Nat)) (id : Nat) : Prop where
  kin : Kin g g'
  descends : ∀ G, Descends G g → (∀ pair ∈ gathered, Allowed G id pair) → Descends G g'
  holds : gathered ⊆ g'.pairsOf id
  full : HasMerge g' (g'.pairsOf id) ∨ ∀ pair, Gives g id pair → pair ∈ g'.pairsOf id
  keeps : ∀ m pair, Gives g m pair → Gives g' m pair ∨ Gives g id pair

/-- What merging the mappings that a merge key names does to a graph, and the pairs that come of it. -/
structure Collected (g g' : Graph) (sources : List Nat) (pairs : List (Nat × Nat)) : Prop where
  kin : Kin g g'
  descends : ∀ G, Descends G g → Descends G g' ∧ ∀ pair ∈ pairs, ∃ source ∈ sources, Allowed G source pair
  full : HasMerge g' pairs ∨ ∀ source ∈ sources, ∀ pair, Gives g source pair → pair ∈ pairs
  keeps : ∀ m pair, Gives g m pair → Gives g' m pair ∨ ∃ source ∈ sources, Gives g source pair

section Merging

variable {g g₁ g' : Graph} {id value : Nat} {key : Nat × Nat} {pairs rest gathered : List (Nat × Nat)}
  {sources others : List Nat}

/-- A mapping gets what was gathered in front of its own pairs. -/
theorem merged_finish (mapping : IsMapping g id) (gathered : List (Nat × Nat)) :
    Merged g (g.setPairs id (gathered ++ g.pairsOf id)) gathered id := by
  have kin := kin_setPairs mapping (gathered ++ g.pairsOf id)
  have here : (g.setPairs id (gathered ++ g.pairsOf id)).pairsOf id = gathered ++ g.pairsOf id := by
    rw [pairsOf_setPairs mapping, if_pos rfl]
  refine ⟨kin, fun G descends allowed => descends.setPairs mapping fun pair stands => ?_, ?_, ?_, ?_⟩
  · exact (List.mem_append.mp stands).elim (allowed pair) (descends.below id pair)
  · rw [here]
    exact List.subset_append_left _ _
  · rw [here]
    by_cases has : HasMerge g (g.pairsOf id)
    · obtain ⟨pair, stands, merge⟩ := has
      exact .inl (kin.hasMerge ⟨pair, List.mem_append_right _ stands, merge⟩)
    · refine .inr fun pair gives => ?_
      cases gives with
      | own stands => exact List.mem_append_right _ stands
      | merged stands merge => exact absurd ⟨_, stands, merge⟩ has
  · refine fun m pair gives => .inl (gives.mono kin fun m => ?_)
    rw [pairsOf_setPairs mapping]
    split
    next same => exact same ▸ List.subset_append_right _ _
    next => exact List.Subset.refl _

theorem Merged.settled (kin : Kin g g₁) (same : ∀ m, g₁.pairsOf m = g.pairsOf m) (merged : Merged g₁ g' gathered id) :
    Merged g g' gathered id := by
  have there : ∀ {m pair}, Gives g m pair → Gives g₁ m pair :=
    fun gives => gives.mono kin fun m => same m ▸ List.Subset.refl _
  have less : ∀ m, g₁.pairsOf m ⊆ g.pairsOf m := fun m => same m ▸ List.Subset.refl _
  have back := (Descends.refl g).less kin less
  refine ⟨kin.trans merged.kin, fun G descends => merged.descends G (descends.less kin less), merged.holds, ?_, ?_⟩
  · exact merged.full.imp_right fun all pair gives => all pair (there gives)
  · exact fun m pair gives => (merged.keeps m pair (there gives)).imp_right back.gives

theorem Merged.step (mapping : IsMapping g id) (merge : g.tagOf key.1 = .merge) (stands : key ∈ g.pairsOf id)
    (subset : rest ⊆ g.pairsOf id) (each : ∀ pair ∈ g.pairsOf id, pair = key ∨ pair ∈ rest)
    (collected : Collected (g.setPairs id rest) g₁ (g.sources key.2) pairs)
    (merged : Merged g₁ g' (gathered ++ pairs) id) : Merged g g' gathered id := by
  have shorter := (Descends.refl g).taken mapping subset
  have given : ∀ pair, (∃ source ∈ g.sources key.2, Gives (g.setPairs id rest) source pair) → Gives g id pair :=
    fun pair ⟨source, named, gives⟩ => .merged stands merge named (shorter.gives gives)
  refine ⟨(shorter.kin.trans collected.kin).trans merged.kin, fun G above allowed => ?_, ?_, ?_, fun m pair gives => ?_⟩
  · obtain ⟨below, from_⟩ := collected.descends G (above.taken mapping subset)
    refine merged.descends G below fun pair member => (List.mem_append.mp member).elim (allowed pair) fun inside => ?_
    obtain ⟨source, named, there⟩ := from_ pair inside
    exact (above.below id key stands).up ((above.kin.merge_iff _).mp merge) (above.kin.sources _ ▸ named) there
  · exact List.Subset.trans (List.subset_append_left _ _) merged.holds
  · rcases merged.full with has | all
    · exact .inl has
    rcases collected.full with ⟨pair, member, merges⟩ | every
    · exact .inl ⟨pair, merged.holds (List.mem_append_right _ member), (merged.kin.merge_iff _).mpr merges⟩
    refine .inr fun pair gives => ?_
    have inside : (∃ source ∈ g.sources key.2, Gives (g.setPairs id rest) source pair) → pair ∈ g'.pairsOf id :=
      fun ⟨source, named, elsewhere⟩ => merged.holds (List.mem_append_right _ (every source named pair elsewhere))
    rcases gives.lose mapping each merge with stays | elsewhere
    · exact (collected.keeps id pair stays).elim (all pair) inside
    · exact inside elsewhere
  · rcases gives.lose mapping each merge with stays | elsewhere
    · rcases collected.keeps m pair stays with later | elsewhere
      · exact (merged.keeps m pair later).imp_right (collected.descends g shorter).1.gives
      · exact .inr (given pair elsewhere)
    · exact .inr (given pair elsewhere)

theorem Collected.nil (g : Graph) : Collected g g [] [] where
  kin := Kin.refl g
  descends _ descends := ⟨descends, List.forall_mem_nil _⟩
  full := .inr (List.forall_mem_nil _)
  keeps _ _ gives := .inl gives

theorem Merged.collected (merged : Merged g g' [] value) : Collected g g' [value] (g'.pairsOf value) where
  kin := merged.kin
  descends G above :=
    have below := merged.descends G above (List.forall_mem_nil _)
    ⟨below, fun pair stands => ⟨value, List.mem_singleton_self value, below.below value pair stands⟩⟩
  full := merged.full.imp_right List.forall_mem_singleton.mpr
  keeps m pair gives := (merged.keeps m pair gives).imp_right fun given => ⟨value, List.mem_singleton_self value, given⟩

theorem Collected.append {more : List (Nat × Nat)} (one : Collected g g₁ sources pairs)
    (two : Collected g₁ g' others more) : Collected g g' (sources ++ others) (pairs ++ more) := by
  have below := (one.descends g (.refl g)).1
  refine ⟨one.kin.trans two.kin, fun G above => ?_, ?_, fun m pair gives => ?_⟩
  · obtain ⟨between, first⟩ := one.descends G above
    obtain ⟨last, second⟩ := two.descends G between
    refine ⟨last, fun pair member => ?_⟩
    rcases List.mem_append.mp member with inside | inside
    · obtain ⟨source, named, allowed⟩ := first pair inside
      exact ⟨source, List.mem_append_left _ named, allowed⟩
    · obtain ⟨source, named, allowed⟩ := second pair inside
      exact ⟨source, List.mem_append_right _ named, allowed⟩
  · rcases one.full with ⟨pair, member, merge⟩ | first
    · exact .inl ⟨pair, List.mem_append_left _ member, (two.kin.merge_iff _).mpr merge⟩
    rcases two.full with ⟨pair, member, merge⟩ | second
    · exact .inl ⟨pair, List.mem_append_right _ member, merge⟩
    refine .inr fun source named pair gives => ?_
    rcases List.mem_append.mp named with inside | inside
    · exact List.mem_append_left _ (first source inside pair gives)
    · rcases one.keeps source pair gives with later | ⟨other, there, given⟩
      · exact List.mem_append_right _ (second source inside pair later)
      · exact List.mem_append_left _ (first other there pair given)
  · rcases one.keeps m pair gives with later | ⟨source, named, given⟩
    · rcases two.keeps m pair later with last | ⟨source, named, given⟩
      · exact .inl last
      · exact .inr ⟨source, List.mem_append_right _ named, below.gives given⟩
    · exact .inr ⟨source, List.mem_append_left _ named, given⟩

theorem Collected.of_mem_iff {same : List (Nat × Nat)} (collected : Collected g g' sources pairs)
    (members : ∀ pair, pair ∈ same ↔ pair ∈ pairs) : Collected g g' sources same where
  kin := collected.kin
  descends G above := (collected.descends G above).imp id fun each pair member => each pair ((members pair).mp member)
  full := by
    refine collected.full.imp (fun ⟨pair, member, merge⟩ => ⟨pair, (members pair).mpr member, merge⟩) ?_
    exact fun each source named pair gives => (members pair).mpr (each source named pair gives)
  keeps := collected.keeps

theorem collected_pairsOfAll {G : Graph} {top : Nat} {merge : Nat → Graph → Except Failure Graph} (items : List Nat)
    (merged : ∀ value ∈ items, ∀ g, IsMapping g value → Descends G g →
      Comes (fun g' => Merged g g' [] value) (Unmerged G top) (merge value g))
    (g : Graph) (descends : Descends G g) :
    Comes (fun r => Collected g r.2 items r.1.flatten) (Unmerged G top) (pairsOfAll merge items g) := by
  induction items generalizing g with
  | nil => exact .pure (.nil g)
  | cons item items ih =>
    have others := ih fun value member => merged value (List.mem_cons_of_mem item member)
    unfold pairsOfAll
    split
    next tag pairs node =>
      refine (merged item List.mem_cons_self g ⟨tag, pairs, node⟩ descends).bind fun g₁ first => ?_
      have between := first.descends G descends (List.forall_mem_nil _)
      exact (others g₁ between).bind fun r rest => .pure (first.collected.append rest)
    next => exact .throw (.inl rfl)

/-- Merging a mapping that merge keys led to, so many times at least, from the topmost one. -/
theorem merged_mergeRest {G : Graph} {top : Nat} (fuel depth : Nat) (gathered : List (Nat × Nat)) (id : Nat) (g : Graph)
    (mapping : IsMapping g id) (descends : Descends G g) (led : ∃ length, depth ≤ length ∧ Leads G length top id) :
    Comes (fun g' => Merged g g' gathered id) (Unmerged G top) (mergeRest fuel depth gathered id g) := by
  induction fuel generalizing depth gathered id g with
  | zero => exact .pure (merged_finish mapping gathered)
  | succ fuel ih =>
    obtain ⟨kin, same⟩ := settles_settleDefaults g id
    have mapping₁ := kin.isMapping mapping
    have descends₁ := descends.less kin fun m => same m ▸ List.Subset.refl _
    have step : Comes (fun g' => Merged (g.settleDefaults id) g' gathered id) (Unmerged G top)
        (mergeRest (fuel + 1) depth gathered id g) := by
      unfold mergeRest
      split
      next deep =>
        obtain ⟨length, enough, leads⟩ := led
        exact .throw_bind (.inr ⟨rfl, length, id, Nat.lt_of_lt_of_le deep enough, leads⟩)
      dsimp only
      generalize g.settleDefaults id = g₁ at mapping₁ descends₁
      split
      next => exact .pure (merged_finish mapping₁ gathered)
      next value rest taken =>
        obtain ⟨key, merge, stands, subset, each⟩ := eq_of_takeMerge taken
        have shorter := kin_setPairs mapping₁ rest
        have below := descends₁.taken mapping₁ subset
        have further := (descends₁.below id _ stands).led descends₁.kin merge led
        have onward : ∀ g₂ pairs, Collected (g₁.setPairs id rest) g₂ (g₁.sources value) pairs →
            Comes (fun g' => Merged g₁ g' gathered id) (Unmerged G top)
              (mergeRest fuel depth (gathered ++ pairs) id g₂) := by
          intro g₂ pairs collected
          have there := collected.kin.isMapping (shorter.isMapping mapping₁)
          exact (ih depth (gathered ++ pairs) id g₂ there (collected.descends G below).1 led).mono
            (fun _ merged => .step mapping₁ merge stands subset each collected merged) fun _ failed => failed
        have named := shorter.sources value
        split
        next tag pairs node =>
          have alone : (g₁.setPairs id rest).sources value = [value] := by rw [sources, node]
          have sources := named.symm.trans alone
          have leads := further value (sources ▸ List.mem_singleton_self value)
          refine (ih (depth + 1) [] value _ ⟨tag, pairs, node⟩ below leads).bind fun g₂ merged => ?_
          exact onward g₂ _ (sources ▸ merged.collected)
        next tag items node =>
          have all : (g₁.setPairs id rest).sources value = items := by rw [sources, node]
          have sources := named.symm.trans all
          have each : ∀ value ∈ items, ∀ g, IsMapping g value → Descends G g →
              Comes (fun g' => Merged g g' [] value) (Unmerged G top) (mergeRest fuel (depth + 1) [] value g) :=
            fun value member g mapping between =>
              ih (depth + 1) [] value g mapping between (further value (sources ▸ member))
          refine (collected_pairsOfAll items each _ below).bind fun r collected => ?_
          refine onward r.2 _ (sources ▸ collected.of_mem_iff fun pair => ?_)
          simp only [List.mem_flatten, List.mem_reverse]
        next => exact .throw (.inl rfl)
    exact step.mono (fun _ merged => merged.settled kin same) fun _ failed => failed

theorem comes_merge {G : Graph} (descends : Descends G g) (mapping : IsMapping g id) :
    Comes (fun g' => Merged g g' [] id) (Unmerged G id) (g.merge id) :=
  merged_mergeRest _ 0 [] id g mapping descends ⟨0, Nat.le_refl 0, .here⟩

end Merging

end Graph

end TaskBoard.Document
