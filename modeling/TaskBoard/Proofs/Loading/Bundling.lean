import TaskBoard.Proofs.Loading.Registering
import TaskBoard.Proofs.Loading.Staging

/-!
Two bundles and a board. What belongs to the board or to a bundle is left alone but for the mappings of source groups,
so the second of two loads finds the first bundle registered, its own bundle as it was, and thereby the registries
that a single load of both makes.
-/

namespace TaskBoard

open Act Board

variable {σ : Type}

namespace World

/-- A board with two bundles and all that belongs to them. Mappings that declare a source group once the first bundle
is loaded, or once both are, may be written. -/
def joint (w : World σ) (b first second both : Nat) (around : World σ → Prop) : Scope σ where
  board := b
  mine := w.Reaches fun v => w.Roots b v ∨ v = .map first ∨ v = .map second
  own cell := (w.loaded b first).Declares b cell ∨ (w.loaded b both).Declares b cell
  around := around

/-- Keys can be looked up, what is under `src` exists, and no mapping that may be written is a configuration or the
value under the `src` of one of its entries. -/
structure Orderly (s : Scope σ) (base : World σ) : Prop where
  keys : ∀ d ∈ base.declared s.board, d.config.hashable = true ∧ d.group.hashable = true
  apart : ∀ cell, s.own cell → ¬base.Configures s.board cell
  clear : ∀ cell, base.Member s.board cell → ∀ source, base.heap.sourceAt cell = some source →
    source.Clear base.heap s.own

/-- Two bundles with different names and without an initializer, and one that has the entries of both. -/
structure Bundles (w : World σ) (s : Scope σ) (first second both : Nat) : Prop where
  known : s.board < w.boards.size
  whole : (w.heap.mapAt both).entries = (w.heap.mapAt first).entries ++ (w.heap.mapAt second).entries
  plain : ∀ entry ∈ (w.heap.mapAt both).entries, entry.1.sameKey (.text "init") = false
  early : Orderly s (w.loaded s.board first)
  late : Orderly s (w.loaded s.board both)
  unwritten : ¬s.own second

/-- What holds around from now on: the clock stands still, and loading does not get in the way. -/
structure Lasting (w : World σ) (s : Scope σ) : Prop where
  fits : s.around w
  clock : ∀ other, s.around other → other.clock = w.clock
  boards : ∀ other board, s.around other → s.around (other.setBoard s.board board)

variable {code : UserCode σ} {s : Scope σ} {w base mid : World σ} {b first second both : Nat}
  {around : World σ → Prop}

theorem Bundles.known_loaded (bundles : Bundles w s first second both) (cell : Nat) :
    s.board < (w.loaded s.board cell).boards.size := by simpa using bundles.known

theorem Bundles.plain_first (bundles : Bundles w s first second both) :
    ∀ entry ∈ (w.heap.mapAt first).entries, entry.1.sameKey (.text "init") = false := by
  have plain := bundles.plain
  rw [bundles.whole] at plain
  exact fun entry member => plain entry (List.mem_append_left _ member)

theorem Bundles.plain_second (bundles : Bundles w s first second both) :
    ∀ entry ∈ (w.heap.mapAt second).entries, entry.1.sameKey (.text "init") = false := by
  have plain := bundles.plain
  rw [bundles.whole] at plain
  exact fun entry member => plain entry (List.mem_append_right _ member)

section Entering

variable {entries : List (Value × Value)} {roots : Value → Prop}

theorem configures_enter (known : b < w.boards.size) {cell : Nat} (configures : (w.enter b entries).Configures b cell) :
    w.Roots b (.map cell) ∨ .map cell ∈ entries.map (·.2) := by
  obtain ⟨name, member⟩ := configures
  have extended : (name, .map cell) ∈ (((w.board b).registry.extend entries).mapping .config).entries := by
    rwa [board_enter known] at member
  rcases Registry.mem_mapping_extend extended with before | entered
  · exact .inl (.entry .config before)
  · exact .inr entered

theorem Orderly.covers (orderly : Orderly s (w.enter s.board entries)) (known : s.board < w.boards.size)
    (mine : s.mine = w.Reaches roots) (rooted : ∀ v, w.Roots s.board v → roots v)
    (brought : ∀ v ∈ entries.map (·.2), w.Reaches roots v)
    (own : ∀ cell, (w.enter s.board entries).Declares s.board cell → s.own cell) :
    Covers s (w.enter s.board entries) := by
  have configured : ∀ cell, (w.enter s.board entries).Configures s.board cell → w.Reaches roots (.map cell) := by
    intro cell configures
    rcases configures_enter known configures with root | entered
    · exact .root (rooted _ root)
    · exact brought _ entered
  have stands : ∀ cell, (w.enter s.board entries).Member s.board cell → w.Reaches roots (.map cell) := by
    rintro cell ⟨config, configures, name, entry⟩
    exact (configured config configures).part (List.mem_map.mpr ⟨_, entry, rfl⟩)
  refine ⟨⟨orderly.keys, own, ?_, ?_, orderly.clear⟩, orderly.apart⟩
  · rw [mine]
    rintro cell (configures | member)
    · exact configured cell configures
    · exact stands cell member
  · rw [mine]
    exact fun cell member source found => (stands cell member).part (Mapping.mem_of_get? found)

end Entering

theorem Follows.regrouped (stage : Follows s base mid) (known : s.board < base.boards.size)
    (boards : ∀ other board, s.around other → s.around (other.setBoard s.board board)) (gs : List Nat) :
    Follows s base (mid.regrouped s.board gs) ∧
      (mid.regrouped s.board gs).board s.board = { base.board s.board with groups := gs } := by
  obtain ⟨groups, board⟩ := stage.board
  have now : (mid.regrouped s.board gs).board s.board = { base.board s.board with groups := gs } := by
    rw [board_regrouped gs (Nat.lt_of_lt_of_le known stage.boards), board]
  exact ⟨⟨stage.toIntact.regrouped s.board gs, boards mid _ stage.fits, gs, now⟩, now⟩

section Loads

variable (bundles : Bundles w (w.joint b first second both around) first second both)
include bundles

theorem Bundles.covers_first : Covers (w.joint b first second both around) (w.loaded b first) := by
  apply bundles.early.covers bundles.known rfl
  · exact fun _ root => .inl root
  · exact fun _ member => .part (.root (.inr (.inl rfl))) member
  · exact fun _ => .inl

theorem Bundles.covers_both : Covers (w.joint b first second both around) (w.loaded b both) := by
  apply bundles.late.covers bundles.known rfl
  · exact fun _ root => .inl root
  · intro v member
    rw [bundles.whole, List.map_append] at member
    rcases List.mem_append.mp member with early | late
    · exact .part (.root (.inr (.inl rfl))) early
    · exact .part (.root (.inr (.inr rfl))) late
  · exact fun _ => .inr

omit bundles in
theorem closed_joint (entries : List (Value × Value)) :
    Closed (w.joint b first second both around) (w.enter b entries) where
  parts _ _ mine member := mine.part member
  sourced cell own := by
    rcases own with ⟨d, member, rfl⟩ | ⟨d, member, rfl⟩ <;> exact (mem_declared member).2

variable (lasting : Lasting w (w.joint b first second both around))
  (discreet : code.Discreet (w.joint b first second both around))
include lasting discreet

omit bundles in
theorem Lasting.stage (entries : List (Value × Value)) (log : Array LogLine) :
    Follows (w.joint b first second both around) (w.enter b entries) { w.enter b entries with log } where
  toIntact := { Intact.refl (w.enter b entries) with }
  fits := discreet.aside _ _ (lasting.boards _ _ lasting.fits) (.books _ fun running => running)
  board := ⟨_, rfl⟩

omit lasting discreet in
theorem Bundles.unchanged (stage : Follows (w.joint b first second both around) (w.loaded b first) mid) :
    mid.heap.mapAt second = w.heap.mapAt second :=
  stage.maps second (.root (.inr (.inr rfl))) bundles.unwritten

theorem Bundles.further (stage : Follows (w.joint b first second both around) (w.loaded b first) mid)
    (log : Array LogLine) :
    Follows (w.joint b first second both around) (w.loaded b both) { mid.loaded b second with log } := by
  have more : w.boards.size ≤ mid.boards.size := by simpa using stage.boards
  have known : b < mid.boards.size := Nat.lt_of_lt_of_le bundles.known more
  refine ⟨⟨?_, stage.lists, stage.maps, stage.rewritten, stage.groups, stage.listed, stage.grouped⟩, ?_, ?_⟩
  · simpa using more
  · exact discreet.aside _ _ (lasting.boards _ _ stage.fits) (.books _ fun running => running)
  -- the first bundle is registered and the second is as it was, so together they are the whole
  · obtain ⟨groups, board⟩ := stage.board
    refine ⟨groups, ?_⟩
    change (mid.loaded b second).board b = { (w.loaded b both).board b with groups }
    change mid.board b = { (w.loaded b first).board b with groups } at board
    have early : (w.loaded b first).board b = _ := board_enter bundles.known _
    have late : (w.loaded b both).board b = _ := board_enter bundles.known _
    rw [loaded, board_enter known, bundles.unchanged stage, board, early, late, bundles.whole, Registry.extend_append]

end Loads

end World

end TaskBoard
