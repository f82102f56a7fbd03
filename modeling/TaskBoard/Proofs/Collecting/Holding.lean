import TaskBoard.Proofs.Driving
import TaskBoard.Proofs.Forwarding.Declared

/-!
What a board holds, and what it means to leave it alone. A board holds the entries of its registries, its
groups and whatever these consist of. A collection is midway between its start and its end if nothing of
this has changed but two entries of the mappings that declare source groups, the files and the destination;
everything that a collection reads is then as it was at the start.
-/

namespace TaskBoard

open Act

variable {σ : Type}

namespace Mapping

theorem keys_write (key value : Value) (entries : List (Value × Value)) :
    entries.map (·.1) <+: (write key value entries).map (·.1) := by
  induction entries with
  | nil => exact List.nil_prefix
  | cons entry rest ih =>
    obtain ⟨k, v⟩ := entry
    unfold write
    split
    · exact List.prefix_rfl
    · exact (List.prefix_cons_inj k).mpr ih

theorem mem_write {key value : Value} {entry : Value × Value} {entries : List (Value × Value)}
    (member : entry ∈ write key value entries) : entry ∈ entries ∨ entry.2 = value := by
  induction entries with
  | nil =>
    rw [write, List.mem_singleton] at member
    exact .inr (by rw [member])
  | cons first rest ih =>
    obtain ⟨k, v⟩ := first
    unfold write at member
    split at member
    · rcases List.mem_cons.mp member with rfl | later
      · exact .inr rfl
      · exact .inl (List.mem_cons_of_mem _ later)
    · rcases List.mem_cons.mp member with rfl | later
      · exact .inl List.mem_cons_self
      · exact (ih later).imp_left (List.mem_cons_of_mem _)

/-- Old keys keep their places, and nothing but files and a destination is written. -/
structure Rewritten (m after : Mapping) : Prop where
  order : m.keys <+: after.keys
  others : ∀ key, (Value.text "files").sameKey key = false → (Value.text "des").sameKey key = false →
    after.get? key = m.get? key

theorem Rewritten.refl (m : Mapping) : Rewritten m m := ⟨List.prefix_rfl, fun _ _ _ => rfl⟩

theorem Rewritten.trans {m mid after : Mapping} (early : Rewritten m mid) (late : Rewritten mid after) :
    Rewritten m after where
  order := early.order.trans late.order
  others key files destination := (late.others key files destination).trans (early.others key files destination)

theorem Rewritten.insert {m after : Mapping} (rewritten : Rewritten m after) {name : String}
    (own : name = "files" ∨ name = "des") (v : Value) : Rewritten m (after.insert (.text name) v) where
  order := rewritten.order.trans (keys_write (.text name) v after.entries)
  others key files destination := by
    rw [← rewritten.others key files destination]
    apply get?_insert_other
    rcases own with rfl | rfl
    · exact files
    · exact destination

theorem mem_of_get? {m : Mapping} {key v : Value} (found : m.get? key = some v) :
    v ∈ m.entries.map (·.2) := by
  obtain ⟨entries⟩ := m
  change lookup key entries = some v at found
  induction entries with
  | nil => cases found
  | cons entry rest ih =>
    obtain ⟨k, other⟩ := entry
    unfold lookup at found
    split at found
    · cases found
      exact List.mem_cons_self
    · exact List.mem_cons_of_mem _ (ih found)

theorem entry_of_get? {m : Mapping} {key v : Value} (found : m.get? key = some v) : ∃ name, (name, v) ∈ m.entries := by
  obtain ⟨⟨name, _⟩, member, rfl⟩ := List.mem_map.mp (mem_of_get? found)
  exact ⟨name, member⟩

end Mapping

/-- A text, a mapping or a callable. -/
def Value.isShallow : Value → Bool
  | text _ | map _ | callable _ => true
  | _ => false

namespace World

/-- What a value consists of. -/
def partsOf (w : World σ) : Value → List Value
  | .list cell => w.heap.listAt cell
  | .set cell => w.heap.listAt cell
  | .map cell => (w.heap.mapAt cell).entries.map (·.2)
  | .tuple items => items
  | .named name => [name]
  | .direct target => [target]
  | .destination _ mapper => [mapper]
  | .group g => (w.group g).destination :: (w.group g).data :: .list (w.group g).files :: (w.group g).source
  | .eventTask _ _ task _ => [task]
  | _ => []

/-- Some values, what they consist of, and so on. -/
inductive Reaches (w : World σ) (roots : Value → Prop) : Value → Prop where
  | root {v : Value} (root : roots v) : Reaches w roots v
  | part {whole v : Value} (reaches : Reaches w roots whole) (member : v ∈ w.partsOf whole) : Reaches w roots v

/-- The entries of a board's registries, and its groups. -/
inductive Roots (w : World σ) (b : Nat) : Value → Prop where
  | entry (kind : RegistryKind) {name v : Value} (member : (name, v) ∈ ((w.board b).registry.mapping kind).entries) :
    Roots w b v
  | group {g : Nat} (member : g ∈ (w.board b).groups) : Roots w b (.group g)

/-- What belongs to a board. -/
def Owns (w : World σ) (b : Nat) : Value → Prop := w.Reaches (w.Roots b)

/-- What holds of all that is registered and of all that stands in mappings holds of all that belongs to a board, if it
holds of texts, mappings and callables at most. -/
theorem Owns.all {w : World σ} {b : Nat} {p : Value → Bool} (shallow : ∀ v, p v = true → v.isShallow = true)
    (entered : ∀ kind, ((w.board b).registry.mapping kind).entries.all (p ·.2) = true)
    (mapped : ∀ cell, (w.heap.mapAt cell).entries.all (p ·.2) = true)
    (ungrouped : (w.board b).groups = []) {v : Value} (owned : w.Owns b v) : p v = true := by
  induction owned with
  | root root =>
    cases root with
    | entry kind member => exact List.all_eq_true.mp (entered kind) _ member
    | group member =>
      rw [ungrouped] at member
      cases member
  | @part whole v reaches member ih =>
    have plain := shallow whole ih
    cases whole with
    | map cell =>
      obtain ⟨entry, among, rfl⟩ := List.mem_map.mp member
      exact List.all_eq_true.mp (mapped cell) entry among
    | text _ | callable _ => cases member
    | _ => cases plain

end World

/-- What a collection has to do with: a board, what belongs to it, the mappings that may be written, and what else
holds meanwhile, of the clock, files, user code and the like. -/
structure Scope (σ : Type) where
  board : Nat
  mine : Value → Prop
  own : Nat → Prop
  around : World σ → Prop

namespace World

/-- Nothing that belongs to a board is changed, but for some mappings; no record of a group that was made of a
mapping of the board is changed either, nor are its files. -/
structure Leaves (s : Scope σ) (but : Nat → Prop) (w after : World σ) : Prop where
  board : after.board s.board = w.board s.board
  boards : w.boards.size ≤ after.boards.size
  lists : ∀ cell < w.heap.lists.size, s.mine (.list cell) ∨ s.mine (.set cell) →
    after.heap.listAt cell = w.heap.listAt cell
  maps : ∀ cell, s.mine (.map cell) → ¬but cell → after.heap.mapAt cell = w.heap.mapAt cell
  groups : ∀ g < w.groups.size, s.mine (.group g) → after.group g = w.group g
  made : ∀ g < w.groups.size, ∀ cell, (w.group g).data = .map cell → s.mine (.map cell) → after.group g = w.group g
  files : ∀ g < w.groups.size, ∀ cell, (w.group g).data = .map cell → s.mine (.map cell) →
    (w.group g).files < w.heap.lists.size → after.heap.listAt (w.group g).files = w.heap.listAt (w.group g).files
  listed : w.heap.lists.size ≤ after.heap.lists.size
  grouped : w.groups.size ≤ after.groups.size

/-- A change that leaves the board alone, and keeps what holds around. -/
def Quiet (s : Scope σ) (w after : World σ) : Prop :=
  s.around w → Leaves s (fun _ => False) w after ∧ s.around after

/-- All that belonged to a board at the start is as it was, but for the files and destinations in the mappings
that may be written. -/
structure Intact (s : Scope σ) (start w : World σ) : Prop where
  boards : start.boards.size ≤ w.boards.size
  lists : ∀ cell < start.heap.lists.size, s.mine (.list cell) ∨ s.mine (.set cell) →
    w.heap.listAt cell = start.heap.listAt cell
  maps : ∀ cell, s.mine (.map cell) → ¬s.own cell → w.heap.mapAt cell = start.heap.mapAt cell
  rewritten : ∀ cell, s.mine (.map cell) → s.own cell → (start.heap.mapAt cell).Rewritten (w.heap.mapAt cell)
  groups : ∀ g < start.groups.size, s.mine (.group g) → w.group g = start.group g
  listed : start.heap.lists.size ≤ w.heap.lists.size
  grouped : start.groups.size ≤ w.groups.size

/-- A world in the course of a collection. -/
structure Midway (s : Scope σ) (start w : World σ) : Prop extends Intact s start w where
  board : w.board s.board = start.board s.board
  fits : s.around w

/-- What a collection reads belongs to the board, and the mappings that it writes may be written. -/
structure Includes (s : Scope σ) (start : World σ) : Prop where
  keys : ∀ d ∈ start.declared s.board, d.config.hashable = true ∧ d.group.hashable = true
  own : ∀ cell, start.Declares s.board cell → s.own cell
  mine : ∀ cell, start.Configures s.board cell ∨ start.Member s.board cell → s.mine (.map cell)
  sources : ∀ cell, start.Member s.board cell → ∀ source, start.heap.sourceAt cell = some source → s.mine source
  clear : ∀ cell, start.Member s.board cell → ∀ source, start.heap.sourceAt cell = some source →
    source.Clear start.heap s.own

/-- A mapping of the board that may be written, with something under `src`. -/
structure Writable (s : Scope σ) (start : World σ) (cell : Nat) : Prop where
  own : s.own cell
  mine : s.mine (.map cell)
  source : ∃ v, start.heap.sourceAt cell = some v

/-- What a collection reads belongs to the board, and what it writes is read for nothing but this. -/
structure Covers (s : Scope σ) (start : World σ) : Prop extends Includes s start where
  apart : ∀ cell, s.own cell → ¬start.Configures s.board cell

end World

/-- User code that leaves a board alone whenever it runs, while a collection itself does not get in the way of what
holds around. -/
structure UserCode.Discreet (code : UserCode σ) (s : Scope σ) : Prop where
  aside : ∀ w after : World σ, s.around w → World.Aside s.own { w with loop := after.loop } after → s.around after
  call : ∀ id args, Keeps (World.Quiet s) (code.call id args)
  resume : ∀ id args stretch result, Keeps (World.Quiet s) (code.resume id args stretch result)

namespace World

theorem Beside.aside {w after : World σ} {mine : Nat → Prop} (beside : Beside w after) :
    Aside mine { w with loop := after.loop } after := by
  have heap : after.heap = w.heap := beside.reads World.heap
  refine ⟨fun running => running, beside.reads World.boards, ?_, ?_, ?_, ?_, ?_, beside.reads World.files,
    beside.reads World.clock, beside.reads World.environment, beside.reads World.user⟩ <;> simp [heap]

namespace Leaves

variable {s : Scope σ} {but : Nat → Prop} {w after : World σ}

theorem of_same (heap : after.heap = w.heap) (boards : after.boards = w.boards) (groups : after.groups = w.groups) :
    Leaves s but w after := by
  constructor <;> simp [World.board, World.group, heap, boards, groups]

theorem refl (w : World σ) : Leaves s but w w := of_same rfl rfl rfl

theorem beside (beside : Beside w after) : Leaves s but w after :=
  of_same (beside.reads World.heap) (beside.reads World.boards) (beside.reads World.groups)

theorem mono {more : Nat → Prop} (leaves : Leaves s but w after) (fewer : ∀ cell, but cell → more cell) :
    Leaves s more w after :=
  { leaves with maps := fun cell mine other => leaves.maps cell mine fun may => other (fewer cell may) }

theorem trans {mid : World σ} (early : Leaves s but w mid) (late : Leaves s but mid after) :
    Leaves s but w after := by
  -- a record keeps its mapping in the first change, so the second leaves it for the same reason
  have made : ∀ g < w.groups.size, ∀ cell, (w.group g).data = .map cell → (mid.group g).data = .map cell →
      s.mine (.map cell) → after.group g = w.group g := by
    intro g known cell data later mine
    rw [late.made g (Nat.lt_of_lt_of_le known early.grouped) cell later mine, early.made g known cell data mine]
  refine ⟨late.board.trans early.board, Nat.le_trans early.boards late.boards, ?_, ?_, ?_, ?_, ?_,
    Nat.le_trans early.listed late.listed, Nat.le_trans early.grouped late.grouped⟩
  · intro cell known mine
    rw [late.lists cell (Nat.lt_of_lt_of_le known early.listed) mine, early.lists cell known mine]
  · intro cell mine other
    rw [late.maps cell mine other, early.maps cell mine other]
  · intro g known mine
    rw [late.groups g (Nat.lt_of_lt_of_le known early.grouped) mine, early.groups g known mine]
  · intro g known cell data mine
    exact made g known cell data (by rw [early.made g known cell data mine, data]) mine
  · intro g known cell data mine listed
    have same := early.made g known cell data mine
    have further := late.files g (Nat.lt_of_lt_of_le known early.grouped) cell (by rw [same, data]) mine
    rw [same] at further
    rw [further (Nat.lt_of_lt_of_le listed early.listed), early.files g known cell data mine listed]

theorem newList (w : World σ) (items : List Value) :
    Leaves s but w { w with heap := (w.heap.newList items).2 } := by
  have older : ∀ cell < w.heap.lists.size, (w.heap.newList items).2.listAt cell = w.heap.listAt cell :=
    fun cell known => Heap.listAt_newList_older items known
  refine ⟨rfl, Nat.le_refl _, fun cell known _ => older cell known, fun _ _ _ => rfl, fun _ _ _ => rfl,
    fun _ _ _ _ _ => rfl, fun _ _ _ _ _ listed => older _ listed, ?_, Nat.le_refl _⟩
  simp [Heap.newList]

theorem pushGroup (w : World σ) (record : Group) :
    Leaves s but w { w with groups := w.groups.push record } := by
  have older : ∀ g < w.groups.size, World.group { w with groups := w.groups.push record } g = w.group g :=
    fun g known => World.group_push_older rfl known
  refine ⟨rfl, Nat.le_refl _, fun _ _ _ => rfl, fun _ _ _ => rfl, fun g known _ => older g known,
    fun g known _ _ _ => older g known, fun _ _ _ _ _ _ => rfl, Nat.le_refl _, ?_⟩
  simp

/-- The record of a group that was made since may be written. -/
theorem setGroup (leaves : Leaves s but w after) {g : Nat} (newer : w.groups.size ≤ g) (record : Group) :
    Leaves s but w (after.setGroup g record) := by
  have older : ∀ other < w.groups.size, (after.setGroup g record).group other = after.group other := by
    intro other known
    exact group_setGroup_other after record (by omega)
  refine { leaves with groups := ?_, made := ?_, grouped := ?_ }
  · intro other known mine
    rw [older other known, leaves.groups other known mine]
  · intro other known cell data mine
    rw [older other known, leaves.made other known cell data mine]
  · rw [size_groups_setGroup]
    exact leaves.grouped

theorem putEntry (leaves : Leaves s but w after) {cell : Nat} (may : but cell) (key v : Value) :
    Leaves s but w { after with heap := after.heap.putEntry cell key v } := by
  refine { leaves with maps := ?_ }
  intro other mine further
  have different : cell ≠ other := by
    rintro rfl
    exact further may
  exact (Heap.mapAt_setMap_other after.heap _ different).trans (leaves.maps other mine further)

end Leaves

section Quiet

variable {s : Scope σ}

instance : Std.Refl (Quiet s) where
  refl w fits := ⟨.refl w, fits⟩

instance : IsTrans (World σ) (Quiet s) where
  trans _ _ _ early late fits := by
    obtain ⟨leaves, mid⟩ := early fits
    obtain ⟨further, last⟩ := late mid
    exact ⟨leaves.trans further, last⟩

end Quiet

end World

theorem UserCode.Discreet.drives {code : UserCode σ} {s : Scope σ} (discreet : code.Discreet s) :
    Drives code (World.Quiet s) where
  call := discreet.call
  resume := discreet.resume
  beside w after beside fits := ⟨.beside beside, discreet.aside w after fits beside.aside⟩

namespace World

section Owning

variable {w : World σ} {b cell : Nat}

theorem Configures.owns (configures : w.Configures b cell) : w.Owns b (.map cell) := by
  obtain ⟨name, member⟩ := configures
  exact .root (.entry .config member)

theorem Member.owns (member : w.Member b cell) : w.Owns b (.map cell) := by
  obtain ⟨config, configures, name, entry⟩ := member
  exact configures.owns.part (List.mem_map.mpr ⟨_, entry, rfl⟩)

theorem Declares.member (declares : w.Declares b cell) : w.Member b cell := by
  obtain ⟨d, member, rfl⟩ := declares
  exact (mem_declared member).1

end Owning

namespace Intact

variable {s : Scope σ} {start w after : World σ}

theorem refl (start : World σ) : Intact s start start where
  boards := Nat.le_refl _
  lists _ _ _ := rfl
  maps _ _ _ := rfl
  rewritten _ _ _ := .refl _
  groups _ _ _ := rfl
  listed := Nat.le_refl _
  grouped := Nat.le_refl _

theorem leaves (intact : Intact s start w) (leaves : Leaves s (fun _ => False) w after) : Intact s start after where
  boards := Nat.le_trans intact.boards leaves.boards
  lists cell known mine :=
    (leaves.lists cell (Nat.lt_of_lt_of_le known intact.listed) mine).trans (intact.lists cell known mine)
  maps cell mine other := (leaves.maps cell mine id).trans (intact.maps cell mine other)
  rewritten cell mine own := by
    rw [leaves.maps cell mine id]
    exact intact.rewritten cell mine own
  groups g known mine :=
    (leaves.groups g (Nat.lt_of_lt_of_le known intact.grouped) mine).trans (intact.groups g known mine)
  listed := Nat.le_trans intact.listed leaves.listed
  grouped := Nat.le_trans intact.grouped leaves.grouped

theorem setGroup (intact : Intact s start w) {g : Nat} (newer : start.groups.size ≤ g) (record : Group) :
    Intact s start (w.setGroup g record) := by
  refine { intact with groups := ?_, grouped := ?_ }
  · intro other known mine
    rw [group_setGroup_other w record (by omega), intact.groups other known mine]
  · rw [size_groups_setGroup]
    exact intact.grouped

theorem putEntry (intact : Intact s start w) {cell : Nat} (own : s.own cell) {name : String}
    (may : name = "files" ∨ name = "des") (v : Value) :
    Intact s start { w with heap := w.heap.putEntry cell (.text name) v } := by
  have elsewhere : ∀ other, cell ≠ other → (w.heap.putEntry cell (.text name) v).mapAt other = w.heap.mapAt other :=
    fun other different => Heap.mapAt_setMap_other w.heap _ different
  refine { intact with maps := ?_, rewritten := ?_ }
  · intro other mine foreign
    have different : cell ≠ other := by
      rintro rfl
      exact foreign own
    exact (elsewhere other different).trans (intact.maps other mine foreign)
  · intro other mine ownOther
    have before := intact.rewritten other mine ownOther
    change (start.heap.mapAt other).Rewritten ((w.heap.putEntry cell (.text name) v).mapAt other)
    by_cases same : cell = other
    · subst same
      by_cases known : cell < w.heap.maps.size
      · rw [Heap.putEntry, Heap.mapAt_setMap_self _ known]
        exact before.insert may v
      · rwa [Heap.putEntry_of_unknown (Nat.le_of_not_lt known)]
    · rwa [elsewhere other same]

theorem sourceAt_eq (intact : Intact s start w) {cell : Nat} (mine : s.mine (.map cell)) :
    w.heap.sourceAt cell = start.heap.sourceAt cell := by
  by_cases own : s.own cell
  · exact (intact.rewritten cell mine own).others (.text "src") (by decide) (by decide)
  · simp only [Heap.sourceAt, intact.maps cell mine own]

section Reading

variable (intact : Intact s start w) (includes : Includes s start)
include intact includes

theorem sources {cell : Nat} (member : start.Member s.board cell) :
    w.heap.sourceAt cell = start.heap.sourceAt cell := intact.sourceAt_eq (includes.mine cell (.inr member))

theorem contents {cell : Nat} (member : start.Member s.board cell) {source : Value}
    (found : start.heap.sourceAt cell = some source) :
    source.truthy w.heap = source.truthy start.heap ∧
      Group.patterns w.heap source = Group.patterns start.heap source := by
  have clear := includes.clear cell member source found
  have mine := includes.sources cell member source found
  cases source with
  | list cell =>
    have same := intact.lists cell clear (.inl mine)
    simp [Value.truthy, Group.patterns, Value.elements?, same]
  | set cell =>
    have same := intact.lists cell clear (.inr mine)
    simp [Value.truthy, Group.patterns, Value.elements?, same]
  | map cell =>
    have same := intact.maps cell mine clear
    simp [Value.truthy, Group.patterns, Value.elements?, same]
  | _ => exact ⟨rfl, rfl⟩

theorem declaresGroup {config : Nat} (configures : start.Configures s.board config) {name data : Value}
    (entry : (name, data) ∈ (start.heap.mapAt config).entries) :
    data.declaresGroup w.heap = data.declaresGroup start.heap := by
  cases data with
  | map cell =>
    have member : start.Member s.board cell := ⟨config, configures, name, entry⟩
    exact declaresGroup_congr (intact.sources includes member) fun source found =>
      (intact.contents includes member found).1
  | _ => rfl

end Reading

theorem configs (intact : Intact s start w) (covers : Covers s start) {cell : Nat}
    (configures : start.Configures s.board cell) : w.heap.mapAt cell = start.heap.mapAt cell :=
  intact.maps cell (covers.mine cell (.inl configures)) fun own => covers.apart cell own configures

end Intact

namespace Midway

variable {s : Scope σ} {start w after : World σ}

theorem refl (fits : s.around start) : Midway s start start where
  toIntact := .refl start
  board := rfl
  fits := fits

theorem quiet (midway : Midway s start w) (quiet : Quiet s w after) : Midway s start after := by
  obtain ⟨leaves, fits⟩ := quiet midway.fits
  exact ⟨midway.toIntact.leaves leaves, leaves.board.trans midway.board, fits⟩

end Midway

theorem Includes.writable {s : Scope σ} {start : World σ} {cell : Nat} (includes : Includes s start)
    (declares : start.Declares s.board cell) : Writable s start cell := by
  refine ⟨includes.own cell declares, includes.mine cell (.inr declares.member), ?_⟩
  obtain ⟨d, member, rfl⟩ := declares
  exact (mem_declared member).2

theorem Includes.label {s : Scope σ} {start : World σ} {d : Declaration} (includes : Includes s start)
    (member : d ∈ start.declared s.board) (h : Heap) :
    Config.label h d.config d.group = Config.label start.heap d.config d.group := by
  have keys := includes.keys d member
  unfold Config.label
  rw [Heap.shown_of_hashable h start.heap keys.1, Heap.shown_of_hashable h start.heap keys.2]

end World

end TaskBoard
