import TaskBoard.Board.Collect
import TaskBoard.Proofs.Acting

/-!
What a board declares: the source groups of its configurations, in the order in which a collection meets
them, and the mapper that each of them leads to. A world agrees with an earlier one about a board if all of
this is as it was; what a collection itself writes keeps the agreement, as long as no mapping is both a
source group and a configuration.
-/

namespace TaskBoard

variable {σ : Type}

/-- A source group as it is declared: the keys that lead to it, and the cell of its mapping. -/
structure Declaration where
  config : Value
  group : Value
  cell : Nat

namespace Heap

def declaration? (h : Heap) (config : Value) : Value × Value → Option Declaration
  | (group, .map cell) => if (Value.map cell).declaresGroup h then some ⟨config, group, cell⟩ else none
  | _ => none

def declaredIn (h : Heap) : Value × Value → List Declaration
  | (config, .map cell) => (h.mapAt cell).entries.filterMap (h.declaration? config)
  | _ => []

def sourceAt (h : Heap) (cell : Nat) : Option Value := (h.mapAt cell).at? "src"

theorem at?_putEntry_other (h : Heap) (cell other : Nat) (key name : String) (v : Value)
    (different : (Value.text key).sameKey (.text name) = false) :
    ((h.putEntry cell (.text key) v).mapAt other).at? name = (h.mapAt other).at? name := by
  by_cases own : cell = other
  · subst own
    by_cases known : cell < h.maps.size
    · rw [putEntry, mapAt_setMap_self _ known]
      exact Mapping.get?_insert_other _ v different
    · rw [putEntry_of_unknown (Nat.le_of_not_lt known)]
  · rw [putEntry, mapAt_setMap_other h _ own]

theorem at?_putEntry_self {h : Heap} {cell : Nat} (key : String) (v : Value) (known : cell < h.maps.size) :
    ((h.putEntry cell (.text key) v).mapAt cell).at? key = some v := by
  rw [putEntry, mapAt_setMap_self _ known]
  exact Mapping.get?_insert_self _ _ v

end Heap

theorem Group.ofConfig_of_source {h : Heap} {cell : Nat} {source : Value} {patterns : List Value} (name : Value)
    (found : h.sourceAt cell = some source) (parsed : Group.patterns h source = .ok patterns) :
    Group.ofConfig h name (.map cell) = .ok (⟨name, patterns, Group.destinationOf h (.map cell), .map cell,
      h.lists.size, none⟩, (h.newList []).2) := by
  have entry : Group.entry h (.map cell) (.text "src") = .ok source := by
    have got : (h.mapAt cell).get? (.text "src") = some source := found
    simp only [Group.entry, got]
    rfl
  unfold Group.ofConfig
  rw [entry]
  change (Group.patterns h source >>= _) = _
  rw [parsed]
  rfl

/-- A value refers to a list that exists, or to a mapping that is none of some. -/
def Value.Clear (h : Heap) (mine : Nat → Prop) : Value → Prop
  | list cell => cell < h.lists.size
  | set cell => cell < h.lists.size
  | map cell => ¬mine cell
  | _ => True

/-- The mapper that a destination leads to, if it can be called. -/
def Board.mapperOf (b : Board) : Value → Option Value
  | .destination _ mapper => if mapper.isCallable then some mapper else none
  | .text pattern => ((DestinationPattern.parse pattern).mapper.bind b.registry.tasks.at?).filter Value.isCallable
  | _ => none

namespace World

def declared (w : World σ) (b : Nat) : List Declaration :=
  (w.board b).registry.configs.entries.flatMap w.heap.declaredIn

def Configures (w : World σ) (b cell : Nat) : Prop :=
  ∃ name, (name, Value.map cell) ∈ (w.board b).registry.configs.entries

def Member (w : World σ) (b cell : Nat) : Prop :=
  ∃ config, w.Configures b config ∧ ∃ name, (name, Value.map cell) ∈ (w.heap.mapAt config).entries

def Declares (w : World σ) (b cell : Nat) : Prop := ∃ d ∈ w.declared b, d.cell = cell

def mapperAt (w : World σ) (b cell : Nat) : Option Value :=
  (w.board b).mapperOf (Group.destinationOf w.heap (.map cell))

/-- What may be the destination of a source group by and by: it leads to the same mapper as the declared
one, and is that one as long as it is a text. -/
structure Destined (start : World σ) (b cell : Nat) (v : Value) : Prop where
  mapper : (start.board b).mapperOf v = start.mapperAt b cell
  text : ∀ pattern, v = .text pattern → Group.destinationOf start.heap (.map cell) = .text pattern

/-- The loop runs, and what a board declares is what it has declared at the start. -/
structure Agrees (b : Nat) (start w : World σ) : Prop where
  running : w.loop.isSome = true
  board : w.board b = start.board b
  lists : start.heap.lists.size ≤ w.heap.lists.size
  configs : ∀ cell, start.Configures b cell → w.heap.mapAt cell = start.heap.mapAt cell
  sources : ∀ cell, start.Member b cell → w.heap.sourceAt cell = start.heap.sourceAt cell
  contents : ∀ cell, start.Member b cell → ∀ source, start.heap.sourceAt cell = some source →
    source.truthy w.heap = source.truthy start.heap ∧
      Group.patterns w.heap source = Group.patterns start.heap source
  destinations : ∀ cell, start.Declares b cell → start.Destined b cell (Group.destinationOf w.heap (.map cell))

/-- What an agreeing world cannot show of a board from the start: its keys can be looked up and its names
written, what is under `src` exists, and no mapping is a source group and something else besides. -/
structure Proper (b : Nat) (start : World σ) : Prop where
  keys : ∀ d ∈ start.declared b, d.config.hashable = true ∧ d.group.hashable = true
  named : ∀ d ∈ start.declared b, ∃ name, Config.label start.heap d.config d.group = .ok name
  clear : ∀ cell, start.Member b cell → ∀ source, start.heap.sourceAt cell = some source →
    source.Clear start.heap (start.Declares b)
  apart : ∀ cell, start.Declares b cell → ¬start.Configures b cell

/-- What changes beside the mappings of some cells: new lists, and what boards and user code do not see. -/
structure Aside (mine : Nat → Prop) (w after : World σ) : Prop where
  running : w.loop.isSome = true → after.loop.isSome = true
  boards : after.boards = w.boards
  lists : w.heap.lists.size ≤ after.heap.lists.size
  listed : ∀ cell < w.heap.lists.size, after.heap.listAt cell = w.heap.listAt cell
  maps : after.heap.maps.size = w.heap.maps.size
  mapped : ∀ cell, ¬mine cell → after.heap.mapAt cell = w.heap.mapAt cell
  marks : after.heap.marks = w.heap.marks
  files : after.files = w.files
  clock : after.clock = w.clock
  environment : after.environment = w.environment
  user : after.user = w.user

namespace Aside

variable {mine : Nat → Prop}

theorem books (w : World σ) {groups : Array Group} {past : List GroupDeed} {routines : Array Routine}
    {tasks : Array Task} {loop : Option Loop} {current : Option Nat} {log : Array LogLine}
    (running : w.loop.isSome = true → loop.isSome = true) :
    Aside mine w { w with groups, past, routines, tasks, loop, current, log } where
  running := running
  boards := rfl
  lists := Nat.le_refl _
  listed _ _ := rfl
  maps := rfl
  mapped _ _ := rfl
  marks := rfl
  files := rfl
  clock := rfl
  environment := rfl
  user := rfl

theorem newList (w : World σ) (items : List Value) : Aside mine w { w with heap := (w.heap.newList items).2 } where
  running running := running
  boards := rfl
  lists := by simp [Heap.newList]
  listed _ known := Heap.listAt_newList_older items known
  maps := rfl
  mapped _ _ := rfl
  marks := rfl
  files := rfl
  clock := rfl
  environment := rfl
  user := rfl

theorem putEntry (w : World σ) {cell : Nat} (own : mine cell) (key v : Value) :
    Aside mine w { w with heap := w.heap.putEntry cell key v } where
  running running := running
  boards := rfl
  lists := Nat.le_refl _
  listed _ _ := rfl
  maps := by simp [Heap.putEntry, Heap.setMap]
  mapped other foreign := by
    apply Heap.mapAt_setMap_other
    intro same
    rw [same] at own
    exact foreign own
  marks := rfl
  files := rfl
  clock := rfl
  environment := rfl
  user := rfl

end Aside

theorem Aside.source {v : Value} {early : Heap} {mine : Nat → Prop} {w after : World σ}
    (aside : Aside mine w after) (clear : v.Clear early mine) (lists : early.lists.size ≤ w.heap.lists.size) :
    v.truthy after.heap = v.truthy w.heap ∧ Group.patterns after.heap v = Group.patterns w.heap v := by
  cases v with
  | list cell =>
    have listed := aside.listed cell (Nat.lt_of_lt_of_le clear lists)
    simp [Value.truthy, Group.patterns, Value.elements?, listed]
  | set cell =>
    have listed := aside.listed cell (Nat.lt_of_lt_of_le clear lists)
    simp [Value.truthy, Group.patterns, Value.elements?, listed]
  | map cell =>
    have mapped := aside.mapped cell clear
    simp [Value.truthy, Group.patterns, Value.elements?, mapped]
  | _ => exact ⟨rfl, rfl⟩

theorem declaresGroup_map (h : Heap) (cell : Nat) :
    (Value.map cell).declaresGroup h = (h.sourceAt cell).any (·.truthy h) := by
  simp only [Value.declaresGroup, Heap.sourceAt]
  cases (h.mapAt cell).at? "src" <;> rfl

/-- Whether a mapping declares a group depends on its source only. -/
theorem declaresGroup_congr {h h' : Heap} {cell : Nat} (sources : h.sourceAt cell = h'.sourceAt cell)
    (truthy : ∀ source, h'.sourceAt cell = some source → source.truthy h = source.truthy h') :
    (Value.map cell).declaresGroup h = (Value.map cell).declaresGroup h' := by
  rw [declaresGroup_map, declaresGroup_map, sources]
  cases found : h'.sourceAt cell with
  | none => rfl
  | some source => exact truthy source found

/-- What an entry of the configurations declares stands in it under its own name. -/
theorem mem_declaredIn {h : Heap} {d : Declaration} {config value : Value} (member : d ∈ h.declaredIn (config, value)) :
    ∃ cell, value = .map cell ∧ d.config = config ∧ (d.group, .map d.cell) ∈ (h.mapAt cell).entries ∧
      (Value.map d.cell).declaresGroup h = true := by
  cases value with
  | map cell =>
    obtain ⟨⟨group, data⟩, inside, found⟩ := List.mem_filterMap.mp member
    unfold Heap.declaration? at found
    split at found
    next key own same =>
      split at found
      next declares =>
        cases found
        cases same
        exact ⟨cell, rfl, rfl, inside, declares⟩
      next => cases found
    next => cases found
  | _ => cases member

theorem mem_declared {w : World σ} {b : Nat} {d : Declaration} (member : d ∈ w.declared b) :
    w.Member b d.cell ∧ ∃ source, w.heap.sourceAt d.cell = some source := by
  obtain ⟨⟨config, value⟩, entry, found⟩ := List.mem_flatMap.mp member
  obtain ⟨cell, rfl, -, inside, declares⟩ := mem_declaredIn found
  rw [declaresGroup_map] at declares
  refine ⟨⟨cell, ⟨config, entry⟩, d.group, inside⟩, ?_⟩
  cases source : w.heap.sourceAt d.cell with
  | none => simp [source] at declares
  | some v => exact ⟨v, rfl⟩

theorem apart_of_single {start : World σ} {b root : Nat} {config : Value}
    (single : (start.board b).registry.configs.entries = [(config, .map root)])
    (below : ∀ d ∈ start.declared b, d.cell ≠ root) (cell : Nat) (declares : start.Declares b cell) :
    ¬start.Configures b cell := by
  obtain ⟨d, member, rfl⟩ := declares
  rintro ⟨name, entry⟩
  rw [single] at entry
  have only : (name, Value.map d.cell) = (config, .map root) := List.mem_singleton.mp entry
  exact below d member (Value.map.inj (Prod.mk.inj only).2)

theorem Proper.label {start : World σ} {b : Nat} {d : Declaration} (proper : Proper b start)
    (member : d ∈ start.declared b) (h : Heap) :
    Config.label h d.config d.group = Config.label start.heap d.config d.group := by
  have keys := proper.keys d member
  unfold Config.label
  rw [Heap.shown_of_hashable h start.heap keys.1, Heap.shown_of_hashable h start.heap keys.2]

theorem lt_of_sourceAt {h : Heap} {cell : Nat} {source : Value} (found : h.sourceAt cell = some source) :
    cell < h.maps.size := by
  refine Nat.lt_of_not_le fun unknown => ?_
  rw [Heap.sourceAt, Heap.mapAt_of_unknown unknown] at found
  cases found

namespace Agrees

variable {b : Nat} {start w after : World σ}

theorem refl (running : start.loop.isSome = true) : Agrees b start start where
  running := running
  board := rfl
  lists := Nat.le_refl _
  configs _ _ := rfl
  sources _ _ := rfl
  contents _ _ _ _ := ⟨rfl, rfl⟩
  destinations _ _ := ⟨rfl, fun _ same => same⟩

theorem known (agrees : Agrees b start w) {cell : Nat} (declares : start.Declares b cell) :
    cell < w.heap.maps.size := by
  obtain ⟨d, member, rfl⟩ := declares
  obtain ⟨stands, source, found⟩ := mem_declared member
  rw [← agrees.sources d.cell stands] at found
  exact lt_of_sourceAt found

theorem declaresGroup (agrees : Agrees b start w) {config : Nat} (configures : start.Configures b config)
    {name data : Value} (entry : (name, data) ∈ (start.heap.mapAt config).entries) :
    data.declaresGroup w.heap = data.declaresGroup start.heap := by
  cases data with
  | map cell =>
    have member : start.Member b cell := ⟨config, configures, name, entry⟩
    exact declaresGroup_congr (agrees.sources cell member) fun source found =>
      (agrees.contents cell member source found).1
  | _ => rfl

theorem aside (agrees : Agrees b start w) (proper : Proper b start) (aside : Aside (start.Declares b) w after)
    (sources : ∀ cell, start.Declares b cell → after.heap.sourceAt cell = w.heap.sourceAt cell)
    (destinations : ∀ cell, start.Declares b cell →
      start.Destined b cell (Group.destinationOf after.heap (.map cell))) : Agrees b start after where
  running := aside.running agrees.running
  board := by
    rw [← agrees.board]
    simp only [World.board, aside.boards]
  lists := Nat.le_trans agrees.lists aside.lists
  configs cell configures := by
    rw [← agrees.configs cell configures]
    exact aside.mapped cell fun declares => proper.apart cell declares configures
  sources cell member := by
    rw [← agrees.sources cell member]
    by_cases declares : start.Declares b cell
    · exact sources cell declares
    · simp only [Heap.sourceAt, aside.mapped cell declares]
  contents cell member source found := by
    have before := agrees.contents cell member source found
    have same := aside.source (proper.clear cell member source found) agrees.lists
    exact ⟨same.1.trans before.1, same.2.trans before.2⟩
  destinations := destinations

theorem books (agrees : Agrees b start w) {groups : Array Group} {past : List GroupDeed} {routines : Array Routine}
    {tasks : Array Task} {loop : Option Loop} {current : Option Nat} {log : Array LogLine}
    (running : loop.isSome = true) :
    Agrees b start { w with groups, past, routines, tasks, loop, current, log } :=
  ⟨running, agrees.board, agrees.lists, agrees.configs, agrees.sources, agrees.contents, agrees.destinations⟩

theorem newList (agrees : Agrees b start w) (proper : Proper b start) (items : List Value) :
    Agrees b start { w with heap := (w.heap.newList items).2 } := by
  apply agrees.aside proper (.newList w items)
  · exact fun _ _ => rfl
  · exact agrees.destinations

theorem putFiles (agrees : Agrees b start w) (proper : Proper b start) {cell : Nat}
    (declares : start.Declares b cell) (v : Value) :
    Agrees b start { w with heap := w.heap.putEntry cell (.text "files") v } := by
  apply agrees.aside proper (.putEntry w declares _ v)
  · intro other _
    exact Heap.at?_putEntry_other w.heap cell other "files" "src" v (by decide)
  · intro other declaresOther
    have same := Heap.at?_putEntry_other w.heap cell other "files" "des" v (by decide)
    have before := agrees.destinations other declaresOther
    simp only [Group.destinationOf] at before ⊢
    rwa [same]

theorem putDestination (agrees : Agrees b start w) (proper : Proper b start) {cell : Nat}
    (declares : start.Declares b cell) {v : Value} (destined : start.Destined b cell v) :
    Agrees b start { w with heap := w.heap.putEntry cell (.text "des") v } := by
  apply agrees.aside proper (.putEntry w declares _ v)
  · intro other _
    exact Heap.at?_putEntry_other w.heap cell other "des" "src" v (by decide)
  · intro other declaresOther
    by_cases own : other = cell
    · subst own
      have written := Heap.at?_putEntry_self "des" v (agrees.known declares)
      simp only [Group.destinationOf, written, Value.ofOption]
      exact destined
    · have same : (w.heap.putEntry cell (.text "des") v).mapAt other = w.heap.mapAt other :=
        Heap.mapAt_setMap_other _ _ (Ne.symm own)
      have before := agrees.destinations other declaresOther
      simp only [Group.destinationOf] at before ⊢
      rwa [same]

end Agrees

end World

end TaskBoard
