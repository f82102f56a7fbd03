import Mathlib.Data.List.Forall2
import TaskBoard.Board.Watching
import TaskBoard.Proofs.Loading.Entering
import TaskBoard.Proofs.Scanning

/-!
User code that registers configurations while a collection runs. It leaves alone what is declared: the entries that
were there at the start keep their places, and new ones stand behind them. Registering under a new name is such a
change, whether it is done alone, from a mapping, or by keeping the environment.
-/

namespace TaskBoard

open Act World

variable {σ : Type}

/-- An entry of the configurations as it stands later: under the same key the same value, or a value that holds no
groups in place of one that declared none. -/
def StandsFor (h : Heap) (before now : Value × Value) : Prop :=
  now.1 = before.1 ∧ (now.2 = before.2 ∨ h.declaredIn before = [] ∧ now.2.isMap = false)

namespace World

variable {b : Nat} {start w after : World σ}

/-- A world in which the configurations of a board may have grown since the start: what they have declared then
still stands, and reads the same. -/
structure Grown (b : Nat) (start w : World σ) : Prop where
  entries : ∃ kept more, (w.board b).registry.configs.entries = kept ++ more ∧
    List.Forall₂ (StandsFor start.heap) (start.board b).registry.configs.entries kept
  lists : start.heap.lists.size ≤ w.heap.lists.size
  configs : ∀ cell, start.Configures b cell → w.heap.mapAt cell = start.heap.mapAt cell
  sources : ∀ cell, start.Member b cell → w.heap.sourceAt cell = start.heap.sourceAt cell
  truthy : ∀ cell, start.Member b cell → ∀ source, start.heap.sourceAt cell = some source →
    source.truthy w.heap = source.truthy start.heap

def configCount (w : World σ) (b : Nat) : Nat := (w.board b).registry.configs.size

/-- What was declared at the start may be written by a collection: no mapping that declares a group is a
configuration, and the lists under `src` exist. -/
structure Firm (b : Nat) (start : World σ) : Prop where
  apart : ∀ cell, start.Declares b cell → ¬start.Configures b cell
  clear : ∀ cell, start.Member b cell → ∀ source, start.heap.sourceAt cell = some source →
    source.Clear start.heap fun _ => False

namespace Grown

theorem refl (b : Nat) (start : World σ) : Grown b start start where
  entries := ⟨_, [], (List.append_nil _).symm, List.forall₂_same.mpr fun _ _ => ⟨rfl, .inl rfl⟩⟩
  lists := Nat.le_refl _
  configs _ _ := rfl
  sources _ _ := rfl
  truthy _ _ _ _ := rfl

theorem of_same (grown : Grown b start w) (heap : after.heap = w.heap) (board : after.board b = w.board b) :
    Grown b start after := by
  refine ⟨?_, ?_, ?_, ?_, ?_⟩
  · rw [board]
    exact grown.entries
  · rw [heap]
    exact grown.lists
  · rw [heap]
    exact grown.configs
  · rw [heap]
    exact grown.sources
  · rw [heap]
    exact grown.truthy

theorem declaresGroup (grown : Grown b start w) {config : Nat} (configures : start.Configures b config)
    {name data : Value} (entry : (name, data) ∈ (start.heap.mapAt config).entries) :
    data.declaresGroup w.heap = data.declaresGroup start.heap := by
  cases data with
  | map cell =>
    have member : start.Member b cell := ⟨config, configures, name, entry⟩
    exact declaresGroup_congr (grown.sources cell member) (grown.truthy cell member)
  | _ => rfl

theorem legible (grown : Grown b start w) : Legible b start w where
  configs := grown.configs
  declaresGroup _ configures _ _ entry := grown.declaresGroup configures entry

theorem newList (grown : Grown b start w) (firm : Firm b start) (items : List Value) :
    Grown b start { w with heap := (w.heap.newList items).2 } := by
  have aside : Aside (fun _ => False) w { w with heap := (w.heap.newList items).2 } := .newList w items
  refine ⟨grown.entries, Nat.le_trans grown.lists aside.lists, grown.configs, grown.sources, ?_⟩
  intro cell member source found
  rw [(aside.source (firm.clear cell member source found) grown.lists).1]
  exact grown.truthy cell member source found

/-- A collection may write a declared group, if it leaves the sources alone. -/
theorem putEntry (grown : Grown b start w) (firm : Firm b start) {cell : Nat} (declares : start.Declares b cell)
    {name : String} (other : (Value.text name).sameKey (.text "src") = false) (v : Value) :
    Grown b start { w with heap := w.heap.putEntry cell (.text name) v } := by
  refine ⟨grown.entries, grown.lists, ?_, ?_, ?_⟩
  · intro config configures
    have different : cell ≠ config := by
      rintro rfl
      exact firm.apart cell declares configures
    exact (Heap.mapAt_setMap_other w.heap _ different).trans (grown.configs config configures)
  · intro group member
    exact (Heap.at?_putEntry_other w.heap cell group name "src" v other).trans (grown.sources group member)
  · intro group member source found
    rw [← grown.truthy group member source found]
    cases source with
    | map content =>
      -- a mapping that is written has its `src` already, so it is empty neither before nor after
      by_cases own : cell = content
      · subst own
        obtain ⟨d, declared, rfl⟩ := declares
        obtain ⟨stands, source, listed⟩ := mem_declared declared
        have filled : ∀ h : Heap, h.sourceAt d.cell = some source → (Value.map d.cell).truthy h = true := by
          intro h has
          cases entries : (h.mapAt d.cell).entries with
          | nil => simp [Heap.sourceAt, Mapping.at?, Mapping.get?, entries, Mapping.lookup] at has
          | cons entry rest => simp [Value.truthy, Mapping.size, entries]
        have before : w.heap.sourceAt d.cell = some source := (grown.sources d.cell stands).trans listed
        have now := Heap.at?_putEntry_other w.heap d.cell d.cell name "src" v other
        rw [filled _ before, filled _ (now.trans before)]
      · have same := Heap.mapAt_setMap_other w.heap (((w.heap.mapAt cell).insert (.text name) v)) own
        simp only [Value.truthy, Heap.putEntry, same]
    | _ => rfl

end Grown

/-- What user code that registers configurations keeps, from one world to the next. -/
structure Adds (b : Nat) (start w after : World σ) : Prop where
  grown : Grown b start w → Grown b start after
  groups : w.groups.size ≤ after.groups.size
  data : ∀ g < w.groups.size, (after.group g).data = (w.group g).data

instance : Std.Refl (Adds b start) where
  refl _ := ⟨id, Nat.le_refl _, fun _ _ => rfl⟩

instance : IsTrans (World σ) (Adds b start) where
  trans _ _ _ early late :=
    ⟨late.grown ∘ early.grown, Nat.le_trans early.groups late.groups, fun g known =>
      (late.data g (Nat.lt_of_lt_of_le known early.groups)).trans (early.data g known)⟩

end World

/-- User code that leaves alone what a board has declared at the start, whatever else it registers. -/
structure UserCode.Additive (code : UserCode σ) (b : Nat) (start : World σ) : Prop where
  call : ∀ id args, Keeps (Adds b start) (code.call id args)
  resume : ∀ id args stretch result, Keeps (Adds b start) (code.resume id args stretch result)

theorem UserCode.Additive.drives {code : UserCode σ} {b : Nat} {start : World σ} (additive : code.Additive b start) :
    Drives code (Adds b start) where
  call := additive.call
  resume := additive.resume
  beside w after beside := by
    have heap : after.heap = w.heap := beside.reads World.heap
    have board : after.board b = w.board b := beside.reads (World.board · b)
    have groups : after.groups = w.groups := beside.reads World.groups
    refine ⟨fun grown => grown.of_same heap board, Nat.le_of_eq (by rw [groups]), fun g _ => ?_⟩
    rw [World.group, World.group, groups]

theorem StandsFor.write {h : Heap} {name v : Value} {before kept more : List (Value × Value)}
    (stand : List.Forall₂ (StandsFor h) before kept)
    (fits : ∀ entry ∈ before, ∀ old, entry.1.sameKey name = true → Mapping.lookup name (kept ++ more) = some old →
      StandsFor h entry (entry.1, old) → StandsFor h entry (entry.1, v)) :
    ∃ now others, Mapping.write name v (kept ++ more) = now ++ others ∧ List.Forall₂ (StandsFor h) before now := by
  induction stand with
  | nil => exact ⟨[], _, rfl, .nil⟩
  | @cons entry now before kept first rest ih =>
    obtain ⟨key, old⟩ := now
    obtain rfl : key = entry.1 := first.1
    by_cases own : entry.1.sameKey name = true
    · refine ⟨(entry.1, v) :: kept, more, by simp [Mapping.write, own], .cons ?_ rest⟩
      exact fits entry List.mem_cons_self old own (by simp [Mapping.lookup, own]) first
    · obtain ⟨now, others, written, stands⟩ := ih fun other member old same found =>
        fits other (List.mem_cons_of_mem _ member) old same (by simpa [Mapping.lookup, own] using found)
      exact ⟨(entry.1, old) :: now, others, by simp [Mapping.write, own, written], .cons first stands⟩

namespace World

variable {b : Nat} {start w : World σ} {name v : Value}

/-- A name that none of the configurations has at the start. -/
def Fresh (b : Nat) (start : World σ) (name : Value) : Prop :=
  ∀ entry ∈ (start.board b).registry.configs.entries, entry.1.sameKey name = false

theorem Grown.filled (grown : Grown b start w)
    (fits : ∀ entry ∈ (start.board b).registry.configs.entries, ∀ old, entry.1.sameKey name = true →
      (w.board b).registry.configs.get? name = some old → StandsFor start.heap entry (entry.1, old) →
      StandsFor start.heap entry (entry.1, v)) :
    Grown b start (w.filled b [⟨.config, name, v⟩]) := by
  rcases Nat.lt_or_ge b w.boards.size with known | unknown
  · refine ⟨?_, grown.lists, grown.configs, grown.sources, grown.truthy⟩
    obtain ⟨kept, more, entries, stand⟩ := grown.entries
    unfold Mapping.get? at fits
    rw [entries] at fits
    have put : (w.filled b [⟨.config, name, v⟩]).board b = (w.board b).filled [⟨.config, name, v⟩] :=
      board_setBoard_self _ known
    obtain ⟨now, others, written, stands⟩ := StandsFor.write stand fits
    refine ⟨now, others, ?_, stands⟩
    rw [put, ← written, ← entries]
    rfl
  · rwa [filled_of_unknown unknown]

theorem adds_noting (b : Nat) (start w : World σ) (lines : List LogLine) : Adds b start w (w.noting lines) :=
  ⟨fun grown => grown.of_same rfl rfl, Nat.le_refl _, fun _ _ => rfl⟩

theorem adds_newMap : Keeps (Adds b start) (newMap {} : Act σ Value) := by
  intro w
  have same : ∀ cell, (w.heap.newMap {}).2.mapAt cell = w.heap.mapAt cell := by
    intro cell
    rcases Nat.lt_trichotomy cell w.heap.maps.size with known | rfl | beyond
    · exact Heap.mapAt_newMap_older {} known
    · rw [Heap.mapAt_newMap_newest, Heap.mapAt_of_unknown (Nat.le_refl _)]
    · have outside : (w.heap.newMap {}).2.maps.size ≤ cell := by
        change (w.heap.maps.push {}).size ≤ cell
        rwa [Array.size_push]
      rw [Heap.mapAt_of_unknown outside, Heap.mapAt_of_unknown (Nat.le_of_lt beyond)]
  have truthy : ∀ v : Value, v.truthy (w.heap.newMap {}).2 = v.truthy w.heap := by
    intro v
    cases v with
    | map cell =>
      change (((w.heap.newMap {}).2.mapAt cell).size != 0) = _
      rw [same]
      rfl
    | _ => rfl
  refine ⟨fun grown => ⟨grown.entries, grown.lists, ?_, ?_, ?_⟩, Nat.le_refl _, fun _ _ => rfl⟩
  · exact fun cell configures => (same cell).trans (grown.configs cell configures)
  · intro cell member
    have read : (w.heap.newMap {}).2.sourceAt cell = w.heap.sourceAt cell := congrArg (·.at? "src") (same cell)
    exact read.trans (grown.sources cell member)
  · exact fun cell member source found => (truthy source).trans (grown.truthy cell member source found)

/-- A configuration under a new name takes its place behind those from the start. -/
theorem adds_filled (fresh : Fresh b start name) (v : Value) (w : World σ) :
    Adds b start w (w.filled b [⟨.config, name, v⟩]) := by
  refine ⟨fun grown => grown.filled fun entry member old same => ?_, Nat.le_refl _, fun _ _ => rfl⟩
  rw [fresh entry member] at same
  cases same

/-- A configuration that declares nothing, since its value is none, may get a text for its value. -/
theorem Grown.declares_nothing (grown : Grown b start w) {entry : Value × Value}
    (member : entry ∈ (start.board b).registry.configs.entries) {old : Value}
    (stands : StandsFor start.heap entry (entry.1, old)) (falsy : old.truthy w.heap = false) :
    start.heap.declaredIn entry = [] := by
  rcases stands.2 with same | ⟨silent, -⟩
  · obtain ⟨config, data⟩ := entry
    obtain rfl : old = data := same
    cases old with
    | map cell =>
      have empty : (start.heap.mapAt cell).entries = [] := by
        rw [← grown.configs cell ⟨config, member⟩]
        simpa [Value.truthy, Mapping.size] using falsy
      simp [Heap.declaredIn, empty]
    | _ => rfl
  · exact silent

end World

namespace Board

variable {b : Nat} {start : World σ} {name : Value}

theorem adds_register (fresh : Fresh b start name) (v : Value) :
    Keeps (Adds b start) (register b .config name v : Act σ PUnit) := by
  unfold register
  split
  · intro w
    obtain ⟨lines, -, ran⟩ := run_enter b .config name v w
    rw [ran]
    exact trans_of (Adds b start) (adds_filled fresh v w) (adds_noting b start _ lines)
  · exact Keeps.throw _

/-- Reading the environment keeps it as a configuration, the last one unless it has a place already. -/
theorem adds_environment : Keeps (Adds b start) (environment b : Act σ Value) := by
  intro w
  unfold environment
  rw [run_bind_ok (run_get w)]
  dsimp only
  split
  · exact refl_of (Adds b start) w
  next falsy =>
    let name : Value := .text (w.environment.getD defaultEnvironment)
    have kept : Adds b start w (w.filled b [⟨.config, .text "environment", name⟩]) := by
      refine ⟨fun grown => grown.filled fun entry member old _ found stands => ?_, Nat.le_refl _, fun _ _ => rfl⟩
      refine ⟨rfl, .inr ⟨grown.declares_nothing member stands ?_, rfl⟩⟩
      have stored : Value.ofOption ((w.board b).registry.configs.at? "environment") = old := by
        rw [Mapping.at?, found]
        rfl
      rwa [stored, Bool.not_eq_true] at falsy
    exact kept

/-- Choosing among options for the environment; where there is none for it, an empty mapping is made. -/
theorem adds_byEnvironment (options : Value) : Keeps (Adds b start) (byEnvironment b options : Act σ Value) := by
  refine Keeps.bind adds_environment fun name => ?_
  have nothing : Keeps (Adds b start) (newMap {} : Act σ Value) := adds_newMap
  split
  · split
    · refine Keeps.bind keeps_heap fun h => ?_
      split
      · exact Keeps.pure _
      · exact nothing
    · exact Keeps.throw _
  · exact nothing

end Board

end TaskBoard
