import Mathlib.Data.List.Perm.Subperm
import TaskBoard.Proofs.Document.Needing

/-!
How making the values of a document fails. Collections are filled while others come to wait, and merging takes pairs
away from mappings that have yet to be filled; a pair that is taken away is owed until its values are made. So making
fails, apart from faults of syntax, only as a node that is needed cannot be read, and if it does not fail, all of them
can.
-/

namespace TaskBoard.Document

namespace Draft

open Document.Graph

variable {g : Graph} {root : Nat}

/-- The node has its value, which may have yet to be filled. -/
def Made (d : Draft) (id : Nat) : Prop := ∃ v, (id, v) ∈ d.made

/-- No value is taken back. -/
def Grows (d after : Draft) : Prop := ∀ id, Made d id → Made after id

/-- A draft of the values of a graph, where some collections were taken to be filled. A pair that its mapping no longer
has is owed, or its values were made before. -/
structure Drafted (g : Graph) (root : Nat) (taken : List Nat) (owed : Nat × Nat → Prop) (d : Draft) : Prop where
  descends : Descends g d.graph
  covers : ∀ m pair, Gives g m pair → Gives d.graph m pair ∨ owed pair ∨ Made d pair.1 ∧ Made d pair.2
  sound : ∀ id, Made d id → Legible g id ∧ g.tagOf id ≠ .merge
  placed : ∀ id, Made d id → (g.tagOf id).collects = true → id ∈ taken ++ d.waiting.map (·.1)
  queued : ∀ id ∈ taken ++ d.waiting.map (·.1), Made d id ∧ Reached g root id ∧ (g.tagOf id).collects = true
  once : (taken ++ d.waiting.map (·.1)).Nodup

/-- An action that goes on with a draft, after which some more nodes are made. -/
def Advances {α : Type} (g : Graph) (root : Nat) (taken : List Nat) (owed : Nat × Nat → Prop) (act : Making α)
    (ids : Nat → Prop) : Prop :=
  ∀ d, Drafted g root taken owed d →
    Steps act d (fun _ after => Drafted g root taken owed after ∧ Grows d after ∧ ∀ id, ids id → Made after id)
      (Unmade g root)

section Drafts

variable {taken : List Nat} {owed : Nat × Nat → Prop} {α β : Type} {ids more : Nat → Prop} {id : Nat} {d : Draft}

theorem Grows.trans {d' d'' : Draft} (one : Grows d d') (two : Grows d' d'') : Grows d d'' :=
  fun id made => two id (one id made)

theorem Advances.pure {a : α} (none : ∀ id, ¬ids id) : Advances g root taken owed (pure a) ids :=
  fun _ drafted => .pure ⟨drafted, fun _ made => made, fun id inside => absurd inside (none id)⟩

/-- What goes on may take it that what was made on the way has no merge key for its tag. -/
theorem Advances.bind {act : Making α} {next : α → Making β} (first : Advances g root taken owed act ids)
    (rest : ∀ a, (∀ id, ids id → g.tagOf id ≠ .merge) → Advances g root taken owed (next a) more) :
    Advances g root taken owed (act >>= next) fun id => ids id ∨ more id := by
  intro d drafted
  refine Steps.bind (first d drafted) fun a between ⟨drafted, grows, made⟩ => ?_
  have plain : ∀ id, ids id → g.tagOf id ≠ .merge := fun id inside => (drafted.sound id (made id inside)).2
  refine (rest a plain between drafted).mono ?_ fun _ failed => failed
  rintro b after ⟨drafted, later, others⟩
  refine ⟨drafted, grows.trans later, fun id inside => ?_⟩
  exact inside.elim (fun inside => later id (made id inside)) (others id)

theorem Advances.mono {act : Making α} (advances : Advances g root taken owed act ids)
    (fewer : ∀ id, more id → ids id) : Advances g root taken owed act more := by
  intro d drafted
  refine (advances d drafted).mono ?_ fun _ failed => failed
  rintro a after ⟨later, grows, made⟩
  exact ⟨later, grows, fun id inside => made id (fewer id inside)⟩

theorem Advances.mapM {f : α → Making β} {parts : α → Nat → Prop} {items : List α}
    (each : ∀ a ∈ items, Advances g root taken owed (f a) (parts a)) :
    Advances g root taken owed (items.mapM f) fun id => ∃ a ∈ items, parts a id := by
  induction items with
  | nil => exact .pure fun _ ⟨_, member, _⟩ => absurd member List.not_mem_nil
  | cons first rest ih =>
    rw [List.mapM_cons]
    have here := each first List.mem_cons_self
    have later := ih fun a member => each a (List.mem_cons_of_mem first member)
    refine (here.bind fun b _ => later.bind fun others _ => .pure fun _ => not_false).mono ?_
    rintro id ⟨a, member, inside⟩
    rcases List.mem_cons.mp member with rfl | member
    · exact .inl inside
    · exact .inr (.inl ⟨a, member, inside⟩)

theorem Advances.foldlM {f : β → α → Making β} {parts : α → Nat → Prop} {items : List α}
    (each : ∀ b, ∀ a ∈ items, Advances g root taken owed (f b a) (parts a)) (start : β) :
    Advances g root taken owed (items.foldlM f start) fun id => ∃ a ∈ items, parts a id := by
  induction items generalizing start with
  | nil => exact .pure fun _ ⟨_, member, _⟩ => absurd member List.not_mem_nil
  | cons first rest ih =>
    rw [List.foldlM_cons]
    have later := ih fun b a member => each b a (List.mem_cons_of_mem first member)
    refine ((each start first List.mem_cons_self).bind fun b _ => later b).mono ?_
    rintro id ⟨a, member, inside⟩
    rcases List.mem_cons.mp member with rfl | member
    · exact .inl inside
    · exact .inr ⟨a, member, inside⟩

theorem advances_heap (change : Draft → Heap) :
    Advances g root taken owed (modify fun d => { d with heap := change d }) fun _ => False := fun _ drafted =>
  .modify ⟨⟨drafted.descends, drafted.covers, drafted.sound, drafted.placed, drafted.queued, drafted.once⟩,
    fun _ made => made, fun _ => False.elim⟩

theorem not_merge_of_unreadable {failure : Failure} (unreadable : Unreadable g id failure) : g.tagOf id ≠ .merge := by
  intro merge
  cases unreadable with
  | misread _ wrong =>
    rw [merge] at wrong
    cases wrong
  | misplaced moment =>
    rw [merge] at moment
    cases moment
  | endless spells =>
    rw [merge] at spells
    cases spells
  | entangled map =>
    rw [merge] at map
    exact map.elim nofun nofun

theorem made_cons {after : Draft} {v : Value} {other : Nat} (same : after.made = d.made) :
    Made { after with made := (id, v) :: after.made } other ↔ other = id ∨ Made d other := by
  unfold Made
  simp only [same, List.mem_cons, Prod.mk.injEq]
  constructor
  · rintro ⟨w, ⟨is, -⟩ | member⟩
    · exact .inl is
    · exact .inr ⟨w, member⟩
  · rintro (is | ⟨w, member⟩)
    · exact ⟨v, .inl ⟨is, rfl⟩⟩
    · exact ⟨w, .inr member⟩

/-- A node that was just made is noted; if it is a collection, it waits behind the others. -/
theorem Drafted.made_fresh {after : Draft} {v : Value} (drafted : Drafted g root taken owed d)
    (needed : g.tagOf id ≠ .merge → Reached g root id) (unmade : ¬Made d id) (fresh : Fresh g id d v after) :
    Drafted g root taken owed { after with made := (id, v) :: after.made } ∧
      Grows d { after with made := (id, v) :: after.made } ∧
      ∀ other, other = id → Made { after with made := (id, v) :: after.made } other := by
  have grows : Grows d { after with made := (id, v) :: after.made } := fun other made =>
    (made_cons fresh.made).mpr (.inr made)
  have here : Made { after with made := (id, v) :: after.made } id := (made_cons fresh.made).mpr (.inl rfl)
  have waiting : taken ++ after.waiting.map (·.1) =
      (taken ++ d.waiting.map (·.1)) ++ if (g.tagOf id).collects then [id] else [] := by
    rw [fresh.waiting, List.append_assoc]
  refine ⟨⟨fresh.graph ▸ drafted.descends, ?covers, ?sound, ?placed, ?queued, ?once⟩, grows, fun _ is => is ▸ here⟩
  case covers =>
    intro m pair gives
    rcases drafted.covers m pair gives with stays | owes | ⟨first, second⟩
    · exact .inl (fresh.graph ▸ stays)
    · exact .inr (.inl owes)
    · exact .inr (.inr ⟨grows _ first, grows _ second⟩)
  case sound =>
    intro other made
    rcases (made_cons fresh.made).mp made with rfl | before
    · exact ⟨fresh.legible, fresh.plain⟩
    · exact drafted.sound other before
  case placed =>
    intro other made collects
    change other ∈ taken ++ after.waiting.map (·.1)
    rw [waiting]
    rcases (made_cons fresh.made).mp made with rfl | before
    · rw [if_pos collects]
      exact List.mem_append_right _ (List.mem_singleton_self other)
    · exact List.mem_append_left _ (drafted.placed other before collects)
  case queued =>
    intro other member
    change other ∈ taken ++ after.waiting.map (·.1) at member
    rw [waiting] at member
    rcases List.mem_append.mp member with before | new
    · obtain ⟨made, reached, collects⟩ := drafted.queued other before
      exact ⟨grows other made, reached, collects⟩
    · split at new
      next collects =>
        obtain rfl := List.mem_singleton.mp new
        exact ⟨here, needed fresh.plain, collects⟩
      next => cases new
  case once =>
    change (taken ++ after.waiting.map (·.1)).Nodup
    rw [waiting]
    split
    · refine List.nodup_append.mpr ⟨drafted.once, List.pairwise_singleton _ id, fun other member last new same => ?_⟩
      obtain rfl := List.mem_singleton.mp new
      exact unmade (same ▸ (drafted.queued other member).1)
    · rw [List.append_nil]
      exact drafted.once

theorem steps_valueOf_new (drafted : Drafted g root taken owed d) (needed : g.tagOf id ≠ .merge → Reached g root id)
    (new : d.made.find? (·.1 == id) = none) :
    Steps (valueOf id) d (fun v after => (Drafted g root taken owed after ∧ Grows d after ∧
      ∀ other, other = id → Made after other) ∧ (g.tagOf id = .null → v = .nothing)) (Unmade g root) := by
  have unmade : ¬Made d id := fun ⟨v, member⟩ => by
    have other := List.find?_eq_none.mp new _ member
    simp at other
  have fails : ∀ failure, Unread g id failure → Unmade g root failure := fun failure unread =>
    unread.imp_right fun unreadable => ⟨id, needed (not_merge_of_unreadable unreadable), unreadable⟩
  unfold valueOf
  apply Steps.get_bind
  rw [new]
  refine Steps.bind ((steps_fresh drafted.descends).mono (fun _ _ fresh => fresh) fails) fun v after fresh => ?_
  exact .modify_bind (.pure ⟨drafted.made_fresh needed unmade fresh, fresh.nothing⟩)

theorem advances_valueOf (needed : g.tagOf id ≠ .merge → Reached g root id) :
    Advances g root taken owed (valueOf id) (· = id) := by
  intro d drafted
  cases found : d.made.find? (·.1 == id) with
  | none => exact (steps_valueOf_new drafted needed found).mono (fun _ _ both => both.1) fun _ failed => failed
  | some entry =>
    obtain ⟨other, v⟩ := entry
    have same : other = id := by simpa using List.find?_some found
    have made : Made d id := ⟨v, same ▸ List.mem_of_find?_eq_some found⟩
    unfold valueOf
    apply Steps.get_bind
    rw [found]
    exact .pure ⟨drafted, fun _ made => made, fun _ is => is ▸ made⟩

theorem Drafted.merged {g' : Graph} (drafted : Drafted g root taken (fun _ => False) d)
    (merged : Merged d.graph g' [] id) :
    Drafted g root taken (fun pair => HasMerge g' (g'.pairsOf id) ∨ pair ∈ g'.pairsOf id) { d with graph := g' } := by
  refine ⟨merged.descends g drafted.descends (List.forall_mem_nil _), fun m pair gives => ?_, drafted.sound,
    drafted.placed, drafted.queued, drafted.once⟩
  rcases drafted.covers m pair gives with stays | owed | made
  · rcases merged.keeps m pair stays with later | here
    · exact .inl later
    · exact .inr (.inl (merged.full.imp_right fun all => all pair here))
  · exact owed.elim
  · exact .inr (.inr made)

theorem Drafted.paid (drafted : Drafted g root taken owed d)
    (paid : ∀ pair, owed pair → Made d pair.1 ∧ Made d pair.2) : Drafted g root taken (fun _ => False) d where
  descends := drafted.descends
  covers m pair gives :=
    (drafted.covers m pair gives).imp_right fun other => .inr (other.elim (paid pair) fun made => made)
  sound := drafted.sound
  placed := drafted.placed
  queued := drafted.queued
  once := drafted.once

theorem advances_pairs (pairs : List (Nat × Nat))
    (needed : ∀ pair ∈ pairs, g.tagOf pair.1 ≠ .merge → Reached g root pair.1 ∧ Reached g root pair.2) (m : Mapping) :
    Advances g root taken owed (pairs.foldlM (fun m (key, value) => do
      let k ← valueOf key
      if !k.hashable then throw malformed
      pure (m.insert k (← valueOf value))) m) fun id => ∃ pair ∈ pairs, id = pair.1 ∨ id = pair.2 := by
  refine Advances.foldlM (fun m pair member => ?_) m
  refine (advances_valueOf fun plain => (needed pair member plain).1).bind fun k plain => ?_
  have value : ∀ m : Value → Mapping, Advances g root taken owed (do pure (m (← valueOf pair.2))) (· = pair.2) :=
    fun m => ((advances_valueOf fun _ => (needed pair member (plain pair.1 rfl)).2).bind fun _ _ =>
      .pure fun _ => not_false).mono fun _ => .inl
  split
  · exact fun _ _ => .throw_bind (.inl rfl)
  · exact value _

theorem advances_mappingOf (reached : Reached g root id) (map : g.tagOf id = .set ∨ g.tagOf id = .map) :
    Advances g root taken (fun _ => False) (mappingOf id) (Holds g id) := by
  intro d drafted
  unfold mappingOf
  apply Steps.get_bind
  split
  next tag pairs node =>
    have unmade : ∀ failure, Unmerged g id failure → Unmade g root failure := by
      rintro failure (fault | ⟨rfl, beyond⟩)
      · exact .inl fault
      · exact .inr ⟨id, reached, .entangled map beyond⟩
    have comes := (comes_merge drafted.descends ⟨tag, pairs, node⟩).mono (fun _ merged => merged) unmade
    refine Steps.bind (Steps.lift comes) fun g' after ⟨same, merged⟩ => ?_
    subst same
    have draft := drafted.merged merged
    apply Steps.set_bind
    have allowed : ∀ pair ∈ g'.pairsOf id, g.tagOf pair.1 ≠ .merge → Reached g root pair.1 ∧ Reached g root pair.2 := by
      intro pair stands plain
      have given := (draft.descends.below id pair stands).plain plain
      exact ⟨reached.part (.part map given (.inl rfl)), reached.part (.part map given (.inr rfl))⟩
    refine (advances_pairs _ allowed {} _ draft).mono ?_ fun _ failed => failed
    rintro m last ⟨done, grows, made⟩
    -- a merge key has no value, so none is left
    have settled : ¬HasMerge g' (g'.pairsOf id) := fun ⟨pair, stands, merge⟩ =>
      (done.sound pair.1 (made pair.1 ⟨pair, stands, .inl rfl⟩)).2 ((draft.descends.kin.merge_iff _).mp merge)
    have paid : ∀ pair, HasMerge g' (g'.pairsOf id) ∨ pair ∈ g'.pairsOf id → Made last pair.1 ∧ Made last pair.2 :=
      fun pair owed => owed.elim (fun has => absurd has settled) fun stands =>
        ⟨made pair.1 ⟨pair, stands, .inl rfl⟩, made pair.2 ⟨pair, stands, .inr rfl⟩⟩
    refine ⟨done.paid paid, grows, fun part holds => ?_⟩
    obtain ⟨pair, given, part_eq⟩ := holds.of_map map
    have both : Made last pair.1 ∧ Made last pair.2 := by
      rcases drafted.covers id pair given with stays | owed | ⟨first, second⟩
      · exact paid pair (merged.full.imp_right fun all => all pair stays)
      · exact owed.elim
      · exact ⟨grows _ first, grows _ second⟩
    rcases part_eq with rfl | rfl
    · exact both.1
    · exact both.2
  next => exact .throw (.inl rfl)

theorem steps_itemsOf (descends : Descends g d.graph) :
    Steps (itemsOf id) d (fun items after => after = d ∧ items = g.itemsAt id) (Unmade g root) := by
  unfold itemsOf
  apply Steps.get_bind
  split
  next tag items node =>
    refine .pure ⟨rfl, ?_⟩
    have kin := descends.kin.node id
    rw [node] at kin
    unfold itemsAt
    generalize g.node id = before at kin
    cases kin
    rfl
  next => exact .throw (.inl rfl)

theorem advances_pairOf
    (needed : ∀ pair, Gives g id pair → ∀ part, part = pair.1 ∨ part = pair.2 → Reached g root part) :
    Advances g root taken (fun _ => False) (pairOf id)
      fun part => ∃ pair, Gives g id pair ∧ (part = pair.1 ∨ part = pair.2) := by
  intro d drafted
  unfold pairOf
  apply Steps.get_bind
  split
  next tag key value node =>
    have only : d.graph.pairsOf id = [(key, value)] := by rw [pairsOf, node]
    have allowed := drafted.descends.below id (key, value) (only ▸ List.mem_singleton_self _)
    have advances : Advances g root taken (fun _ => False) (do
        let k ← valueOf key
        pure (Value.tuple [k, ← valueOf value])) fun part => part = key ∨ part = value := by
      refine ((advances_valueOf fun plain => needed _ (allowed.plain plain) key (.inl rfl)).bind fun k plain => ?_).mono
        fun _ inside => inside
      exact ((advances_valueOf fun _ => needed _ (allowed.plain (plain key rfl)) value (.inr rfl)).bind fun _ _ =>
        .pure fun _ => not_false).mono fun _ => .inl
    refine (advances d drafted).mono ?_ fun _ failed => failed
    rintro v after ⟨done, grows, made⟩
    refine ⟨done, grows, ?_⟩
    rintro part ⟨pair, given, part_eq⟩
    rcases drafted.covers id pair given with stays | owed | both
    · cases stays with
      | own stands =>
        rw [only, List.mem_singleton] at stands
        subst stands
        exact made part part_eq
      | merged stands merge =>
        rw [only, List.mem_singleton] at stands
        subst stands
        exact absurd ((drafted.descends.kin.merge_iff key).mp merge) (done.sound key (made key (.inl rfl))).2
    · exact owed.elim
    · rcases part_eq with rfl | rfl
      · exact grows _ both.1
      · exact grows _ both.2
  next => exact .throw (.inl rfl)

theorem advances_items {f : Nat → Making Value} {parts : Nat → Nat → Prop}
    (each : ∀ item ∈ g.itemsAt id, Advances g root taken owed (f item) (parts item))
    (store : List Value → Draft → Heap) :
    Advances g root taken owed (do
      let items ← (← itemsOf id).mapM f
      modify fun d => { d with heap := store items d }) fun part => ∃ item ∈ g.itemsAt id, parts item part := by
  intro d drafted
  refine Steps.bind (steps_itemsOf drafted.descends) fun items after ⟨same, is⟩ => ?_
  subst same is
  exact (((Advances.mapM each).bind fun _ _ => advances_heap _).mono fun _ => .inl) after drafted

theorem advances_fill (reached : Reached g root id) (collects : (g.tagOf id).collects = true) (cell : Nat) :
    Advances g root taken (fun _ => False) (fill id cell) (Holds g id) := by
  intro d drafted
  unfold fill
  apply Steps.get_bind
  have own : ∀ tag, d.graph.tagOf id = tag → tag ≠ .defaultValue → tag ≠ .str → g.tagOf id = tag :=
    fun tag same noDefault noText => ((drafted.descends.kin.tags id).eq_iff noDefault noText).mp same
  have entries : ∀ tag, g.tagOf id = tag → tag = .omap ∨ tag = .pairs →
      Advances g root taken (fun _ => False) (do
        let items ← (← itemsOf id).mapM pairOf
        modify fun d => { d with heap := d.heap.setList cell items }) (Holds g id) := by
    rintro tag rfl list
    refine (advances_items (fun item member => advances_pairOf fun pair given part part_eq => ?_) _).mono
      fun part holds => holds.of_entries list
    exact reached.part (.entry list member given part_eq)
  split
  next tag =>
    have seq := own _ tag nofun nofun
    have items : ∀ item ∈ g.itemsAt id, Advances g root taken (fun _ => False) (valueOf item) (· = item) :=
      fun item member => advances_valueOf fun _ => reached.part (.item seq member)
    exact ((advances_items items _).mono fun part holds => ⟨part, holds.of_seq seq, rfl⟩) d drafted
  next tag => exact entries _ (own _ tag nofun nofun) (.inl rfl) d drafted
  next tag => exact entries _ (own _ tag nofun nofun) (.inr rfl) d drafted
  next tag =>
    have set := own _ tag nofun nofun
    exact (((advances_mappingOf reached (.inl set)).bind fun _ _ => advances_heap _).mono fun _ => .inl) d drafted
  next noSeq noOmap noPairs noSet =>
    have other : ∀ tag, tag ≠ .defaultValue → tag ≠ .str → d.graph.tagOf id ≠ tag → g.tagOf id ≠ tag :=
      fun tag noDefault noText => mt ((drafted.descends.kin.tags id).eq_iff noDefault noText).mpr
    have map : g.tagOf id = .map := by
      cases tag : g.tagOf id with
      | map => rfl
      | seq => exact absurd tag (other _ nofun nofun noSeq)
      | omap => exact absurd tag (other _ nofun nofun noOmap)
      | pairs => exact absurd tag (other _ nofun nofun noPairs)
      | set => exact absurd tag (other _ nofun nofun noSet)
      | _ =>
        rw [tag] at collects
        cases collects
    exact (((advances_mappingOf reached (.inr map)).bind fun _ _ => advances_heap _).mono fun _ => .inl) d drafted

theorem Drafted.length_le (drafted : Drafted g root taken owed d) : taken.length ≤ g.nodes.size := by
  have inside : taken ⊆ List.range g.nodes.size := fun id member => by
    have collects := (drafted.queued id (List.mem_append_left _ member)).2.2
    refine List.mem_range.mpr (Nat.lt_of_not_le fun outside => ?_)
    rw [tagOf, node_of_unknown outside] at collects
    cases collects
  have once : taken.Nodup := (List.nodup_append.mp drafted.once).1
  exact Nat.le_trans (List.Nodup.subperm once inside).length_le (Nat.le_of_eq List.length_range)

theorem steps_fillAll (fuel : Nat) (taken : List Nat) (d : Draft) (drafted : Drafted g root taken (fun _ => False) d)
    (filled : ∀ id ∈ taken, ∀ part, Holds g id part → Made d part) (enough : g.nodes.size < taken.length + fuel) :
    Steps (fillAll fuel) d (fun _ after => Grows d after ∧ (∀ id, Made after id → Legible g id) ∧
      ∀ id, Made after id → ∀ part, Holds g id part → Made after part) (Unmade g root) := by
  induction fuel generalizing taken d with
  | zero => exact absurd enough (Nat.not_lt.mpr drafted.length_le)
  | succ fuel ih =>
    unfold fillAll
    apply Steps.get_bind
    split
    next none =>
      refine .pure ⟨fun _ made => made, fun id made => (drafted.sound id made).1, fun id made part holds => ?_⟩
      have collects : (g.tagOf id).collects = true := by
        cases holds with
        | item list => rw [list]; rfl
        | entry list => rcases list with list | list <;> rw [list] <;> rfl
        | part map => rcases map with map | map <;> rw [map] <;> rfl
      have member := drafted.placed id made collects
      rw [none, List.map_nil, List.append_nil] at member
      exact filled id member part holds
    next id cell rest waiting =>
      have first : id ∈ taken ++ d.waiting.map (·.1) := by
        rw [waiting]
        exact List.mem_append_right _ List.mem_cons_self
      obtain ⟨-, reached, collects⟩ := drafted.queued id first
      have moved : taken ++ d.waiting.map (·.1) = taken ++ [id] ++ rest.map (·.1) := by
        rw [waiting, List.map_cons, List.append_assoc]
        rfl
      have next : Drafted g root (taken ++ [id]) (fun _ => False) { d with waiting := rest } :=
        ⟨drafted.descends, drafted.covers, drafted.sound, moved ▸ drafted.placed, moved ▸ drafted.queued,
          moved ▸ drafted.once⟩
      apply Steps.modify_bind
      refine Steps.bind (advances_fill reached collects cell _ next) fun _ after ⟨later, grows, made⟩ => ?_
      refine (ih (taken ++ [id]) after later (fun other member part holds => ?_) ?_).mono ?_ fun _ failed => failed
      · rcases List.mem_append.mp member with before | new
        · exact grows part (filled other before part holds)
        · exact made part (List.mem_singleton.mp new ▸ holds)
      · rw [List.length_append, List.length_singleton]
        omega
      · exact fun _ last ⟨more, legible, closed⟩ => ⟨fun id before => more id (grows id before), legible, closed⟩

/-- Making the values of a graph. A root without a value is nothing. -/
theorem comes_making (g : Graph) (root : Nat) (heap : Heap) :
    Steps (do
      let v ← valueOf root
      fillAll (g.nodes.size + 1)
      pure v) { graph := g, heap := heap }
      (fun v _ => (∀ id, Reached g root id → Legible g id) ∧ (g.tagOf root = .null → v = .nothing))
      (Unmade g root) := by
  have unmade : ∀ id, ¬Made { graph := g, heap := heap } id := fun id ⟨v, member⟩ => List.not_mem_nil member
  have drafted : Drafted g root [] (fun _ => False) { graph := g, heap := heap } :=
    ⟨.refl g, fun _ _ => .inl, fun id made => (unmade id made).elim, fun id made => (unmade id made).elim,
      List.forall_mem_nil _, List.nodup_nil⟩
  refine Steps.bind (steps_valueOf_new drafted (fun _ => .root) rfl) fun v between ⟨⟨later, _, made⟩, nothing⟩ => ?_
  refine Steps.bind (steps_fillAll _ [] between later (List.forall_mem_nil _) (by simp)) ?_
  rintro _ after ⟨grows, legible, closed⟩
  refine .pure ⟨fun id reached => legible id ?_, nothing⟩
  induction reached with
  | root => exact grows root (made root rfl)
  | part _ holds ih => exact closed _ ih _ holds

theorem steps_making_null {written : List Char} (null : g.node root = .scalar .null written) (heap : Heap) :
    Steps (do
      let v ← valueOf root
      fillAll (g.nodes.size + 1)
      pure v) { graph := g, heap := heap } (fun v after => v = .nothing ∧ after.heap = heap) (fun _ => False) := by
  have tag : g.tagOf root = .null := by rw [tagOf, null]; rfl
  have text : Steps (textOf root) { graph := g, heap := heap }
      (fun _ after => after = { graph := g, heap := heap }) (fun _ => False) := by
    unfold textOf
    apply Steps.get_bind
    dsimp only
    rw [scalarText, null]
    exact .pure rfl
  have made : Steps (fresh root) { graph := g, heap := heap }
      (fun v after => v = .nothing ∧ after = { graph := g, heap := heap }) (fun _ => False) := by
    unfold fresh
    apply Steps.get_bind
    dsimp only
    rw [tag]
    exact text.bind fun _ _ same => .pure ⟨rfl, same⟩
  have value : Steps (valueOf root) { graph := g, heap := heap }
      (fun v after => v = .nothing ∧ after.waiting = [] ∧ after.heap = heap) (fun _ => False) := by
    unfold valueOf
    apply Steps.get_bind
    refine Steps.bind made ?_
    rintro v after ⟨nothing, rfl⟩
    exact .modify_bind (.pure ⟨nothing, rfl, rfl⟩)
  refine value.bind ?_
  rintro v after ⟨nothing, idle, same⟩
  have filled : Steps (fillAll (g.nodes.size + 1)) after (fun _ last => last = after) (fun _ => False) := by
    unfold fillAll
    apply Steps.get_bind
    rw [idle]
    exact .pure rfl
  exact filled.bind fun _ last unchanged => .pure ⟨nothing, unchanged ▸ same⟩

end Drafts

end Draft

end TaskBoard.Document
