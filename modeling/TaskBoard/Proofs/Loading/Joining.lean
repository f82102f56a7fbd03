import TaskBoard.Proofs.Loading.Bundling

/-!
Loading in two calls, and loading at once. Both leave the same registries and the same groups, with the same names,
patterns and files. The destinations differ in one case: one that is written as a text is settled by the first load
that finds it, to a mapper and a root as they are registered then, and no later load resolves it again.
-/

namespace TaskBoard

open Act World Board

variable {σ : Type}

theorem forall₂_through {α β γ : Type} {R : α → β → Prop} {S : α → γ → Prop} {T : β → γ → Prop} {ds : List α}
    {gs : List β} {hs : List γ} (one : List.Forall₂ R ds gs) (two : List.Forall₂ S ds hs)
    (joins : ∀ d ∈ ds, ∀ g h, R d g → S d h → T g h) : List.Forall₂ T gs hs := by
  induction one generalizing hs with
  | nil =>
    cases two
    exact .nil
  | cons here _ ih =>
    cases two with
    | cons there rest =>
      refine .cons (joins _ List.mem_cons_self _ _ here there) (ih rest ?_)
      exact fun d member => joins d (List.mem_cons_of_mem _ member)

namespace World

/-- The destinations that the mapping of a group comes to, with a single load and with two. A group that the first of
two loads has found keeps the destination of that load. -/
structure Destinations (w : World σ) (b first both cell : Nat) (v late : Value) : Prop where
  single : Placed b (w.loaded b both) (Value.ofOption ((w.heap.mapAt cell).at? "des")) v
  found : (w.loaded b first).Declares b cell →
    Placed b (w.loaded b first) (Value.ofOption ((w.heap.mapAt cell).at? "des")) late
  fresh : ¬(w.loaded b first).Declares b cell → late = v

/-- The groups that a single load and two loads have made of one declaration. -/
structure Twins (w : World σ) (b first both : Nat) (once twice : World σ) (d : Declaration) (g h : Nat) : Prop where
  data : (once.group g).data = .map d.cell ∧ (twice.group h).data = .map d.cell
  name : (twice.group h).name = (once.group g).name
  source : (twice.group h).source = (once.group g).source
  files : twice.heap.listAt (twice.group h).files = once.heap.listAt (once.group g).files
  destination : Destinations w b first both d.cell (once.group g).destination (twice.group h).destination

/-- A world after a single load, and one after two loads. Their boards have the same registries, and the same groups,
one for each declaration. -/
structure Joined (w : World σ) (s : Scope σ) (first both : Nat) (once twice : World σ) : Prop where
  registry : (once.board s.board).registry = ((w.loaded s.board both).board s.board).registry ∧
    (twice.board s.board).registry = ((w.loaded s.board both).board s.board).registry
  complete : (once.board s.board).groups.map (fun g => (once.group g).data) =
    ((w.loaded s.board both).declared s.board).map fun d => .map d.cell
  groups : List.Forall₂ (fun g h => ∃ d ∈ (w.loaded s.board both).declared s.board,
    Twins w s.board first both once twice d g h) (once.board s.board).groups (twice.board s.board).groups
  /-- The mappings of the groups have the same files, and their destinations. -/
  settled : ∀ cell, (w.loaded s.board both).Declares s.board cell → ∃ list other v late,
    once.heap.mapAt cell = (w.heap.mapAt cell).settle list v ∧
    twice.heap.mapAt cell = (w.heap.mapAt cell).settle other late ∧
    twice.heap.listAt other = once.heap.listAt list ∧ Destinations w s.board first both cell v late
  /-- A mapping that the second bundle has put out of the configurations was settled by the first load. -/
  replaced : ∀ cell, (w.loaded s.board first).Declares s.board cell → ¬(w.loaded s.board both).Declares s.board cell →
    once.heap.mapAt cell = w.heap.mapAt cell ∧ ∃ list v, twice.heap.mapAt cell = (w.heap.mapAt cell).settle list v
  others : ∀ cell, s.mine (.map cell) → ¬s.own cell →
    once.heap.mapAt cell = w.heap.mapAt cell ∧ twice.heap.mapAt cell = w.heap.mapAt cell
  lists : ∀ cell < w.heap.lists.size, s.mine (.list cell) ∨ s.mine (.set cell) →
    once.heap.listAt cell = w.heap.listAt cell ∧ twice.heap.listAt cell = w.heap.listAt cell

variable {code : UserCode σ} {s : Scope σ} {w base mid : World σ} {b first second both : Nat}
  {around : World σ → Prop}

theorem Destinations.eq {cell : Nat} {v late : Value} (destinations : Destinations w b first both cell v late)
    (same : ∀ pattern, (w.heap.mapAt cell).at? "des" = some (.text pattern) →
      resolution b (w.loaded b first) pattern = resolution b (w.loaded b both) pattern) : late = v := by
  by_cases declares : (w.loaded b first).Declares b cell
  · apply destinations.single.eq (destinations.found declares)
    intro pattern declared
    exact (same pattern (Value.ofOption_eq_text.mp declared)).symm
  · exact destinations.fresh declares

section Comparing

variable {start last : World σ} {gs : List Nat}

theorem reached_of_load {cell : Nat} {receiver : Option Nat} {after : World σ} (known : s.board < w.boards.size)
    (plain : ∀ entry ∈ (w.heap.mapAt cell).entries, entry.1.sameKey (.text "init") = false)
    (discreet : code.Discreet s) (covers : Covers s base)
    (stage : ∀ log, Follows s base { w.loaded s.board cell with log })
    (ran : (load code s.board (.map cell) receiver).run w = (.ok (), after)) :
    ∃ log gs mid, Reached code s { w.loaded s.board cell with log } (base.declared s.board) gs mid ∧
      after = mid.regrouped s.board gs := by
  obtain ⟨log, gs, collected⟩ := (ends_load known plain).returned _ _ ran
  have begins := stage log
  obtain ⟨mid, reached, ended⟩ := reached_of_collect discreet (begins.covers covers) begins.fits collected
  rw [begins.toIntact.declared_eq covers begins.registry_eq] at reached
  exact ⟨log, gs, mid, reached, ended⟩

theorem Reached.mapping (reached : Reached code s start (base.declared s.board) gs last) {cell : Nat}
    (declares : base.Declares s.board cell) :
    ∃ d g, d.cell = cell ∧ Recorded code s start (start.heap.mapAt cell) d g last ∧
      last.heap.mapAt cell = (start.heap.mapAt cell).settle (last.group g).files (last.group g).destination := by
  obtain ⟨d, member, rfl⟩ := declares
  obtain ⟨final, g, same, settled⟩ := reached.visited d member
  refine ⟨final, g, same, settled.toRecorded, ?_⟩
  rw [← same, settled.mapping, same]

theorem Reached.map_data {done : List Declaration} (reached : Reached code s start done gs last) :
    gs.map (fun g => (last.group g).data) = done.map fun d => .map d.cell := by
  have each := reached.recorded
  clear reached
  induction each with
  | nil => rfl
  | cons here _ ih => rw [List.map_cons, List.map_cons, here.data, ih]

theorem Recorded.placed {m : Mapping} {d : Declaration} {g : Nat} (recorded : Recorded code s start m d g last)
    (begins : Follows s base start) (closed : Closed s base) (covers : Covers s base)
    (clock : ∀ other, s.around other → other.clock = base.clock) :
    Placed s.board base (Value.ofOption (m.at? "des")) (last.group g).destination := by
  obtain ⟨early, midway, placed⟩ := recorded.destination
  have stage := begins.midway midway
  exact stage.placed closed covers (clock early stage.fits) placed

end Comparing

section Twice

variable (bundles : Bundles w (w.joint b first second both around) first second both)
  (lasting : Lasting w (w.joint b first second both around))
  (discreet : code.Discreet (w.joint b first second both around)) {start last once twice : World σ} {gs : List Nat}
  {log alone : Array LogLine}
  (early : Reached code (w.joint b first second both around) { w.loaded b first with log }
    ((w.loaded b first).declared b) gs last)
  (begins : Follows (w.joint b first second both around) (w.loaded b both) start)
include bundles lasting discreet early begins

/-- A group that is declared in the end, as a single load and the second of two loads have recorded it. The mapping
that the second load finds is the one that the first has left. -/
theorem Bundles.destinations {d e : Declaration} {g h : Nat} (declares : (w.loaded b both).Declares b d.cell)
    (one : Recorded code (w.joint b first second both around) { w.loaded b both with log := alone }
      (w.heap.mapAt d.cell) d g once)
    (two : Recorded code (w.joint b first second both around) start (last.heap.mapAt d.cell) e h twice) :
    Destinations w b first both d.cell (once.group g).destination (twice.group h).destination := by
  have here := bundles.covers_both
  have single := one.placed (lasting.stage discreet _ alone) (closed_joint _) here lasting.clock
  have second := two.placed begins (closed_joint _) here lasting.clock
  refine ⟨single, ?_, ?_⟩
  -- the second load finds what the first has settled, and leaves it
  · intro found
    obtain ⟨f, k, -, recorded, settled⟩ := early.mapping found
    have before := recorded.placed (lasting.stage discreet _ log) (closed_joint _) bundles.covers_first lasting.clock
    rw [settled] at second
    rw [before.again second]
    exact before
  -- the second load finds the destination as it was declared, with the registries of a single load
  · intro unfound
    have mine := here.mine d.cell (.inr declares.member)
    have untouched := early.ahead d.cell mine fun other member same => unfound ⟨other, member, same⟩
    rw [untouched] at second
    exact single.eq second fun _ _ => rfl

theorem Bundles.twins (steady : Steady code (w.joint b first second both around) (w.loaded b both))
    {d : Declaration} {g h : Nat} (member : d ∈ (w.loaded b both).declared b)
    (one : Recorded code (w.joint b first second both around) { w.loaded b both with log := alone }
      (w.heap.mapAt d.cell) d g once)
    (two : Recorded code (w.joint b first second both around) start (last.heap.mapAt d.cell) d h twice) :
    Twins w b first both once twice d g h := by
  have here := bundles.covers_both
  have stage := lasting.stage (w := w) discreet (w.heap.mapAt both).entries alone
  obtain ⟨sources, files⟩ := one.alike discreet here steady ⟨d, member, rfl⟩ rfl stage begins two
  obtain ⟨text, label, named⟩ := one.name
  obtain ⟨again, labelled, renamed⟩ := two.name
  refine ⟨⟨one.data, two.data⟩, ?_, sources.symm, files.symm,
    bundles.destinations lasting discreet early begins ⟨d, member, rfl⟩ one two⟩
  have same : Config.label start.heap d.config d.group = Config.label w.heap d.config d.group := here.label member _
  rw [same] at labelled
  have agreed : text = again := Except.ok.inj (label.symm.trans labelled)
  rw [named, renamed, agreed]

omit begins in
/-- A mapping that the first load has settled is settled again to the same destination. -/
theorem Bundles.settle_eq {cell list : Nat} {v : Value}
    (mine : (w.joint b first second both around).mine (.map cell))
    (placed : (w.loaded b first).Declares b cell →
      Placed b (w.loaded b first) (Value.ofOption ((w.heap.mapAt cell).at? "des")) v) :
    (last.heap.mapAt cell).settle list v = (w.heap.mapAt cell).settle list v := by
  by_cases declares : (w.loaded b first).Declares b cell
  · obtain ⟨f, k, -, recorded, settled⟩ := early.mapping declares
    have before := recorded.placed (lasting.stage discreet _ log) (closed_joint _) bundles.covers_first lasting.clock
    have same : (last.group k).destination = v := (placed declares).eq before fun _ _ => rfl
    rw [settled, same]
    exact Mapping.settle_settle _ _ _ _
  · have untouched := early.ahead cell mine fun other member same => declares ⟨other, member, same⟩
    rw [untouched]
    rfl

theorem Bundles.joined (steady : Steady code (w.joint b first second both around) (w.loaded b both))
    (same : start.heap = last.heap) {final lone : World σ} {hs ks : List Nat}
    (again : Reached code (w.joint b first second both around) start ((w.loaded b both).declared b) hs final)
    (whole : Reached code (w.joint b first second both around) { w.loaded b both with log := alone }
      ((w.loaded b both).declared b) ks lone) :
    Joined w (w.joint b first second both around) first both (lone.regrouped b ks)
      (final.regrouped b hs) := by
  have here := bundles.covers_both
  have known : b < (w.loaded b both).boards.size := bundles.known_loaded both
  have stage := lasting.stage (w := w) discreet (w.heap.mapAt both).entries alone
  obtain ⟨onefold, once⟩ := (stage.midway whole.toMidway).regrouped known lasting.boards ks
  obtain ⟨twofold, twice⟩ := (begins.midway again.toMidway).regrouped known lasting.boards hs
  have groups : ((lone.regrouped b ks).board b).groups = ks := congrArg Board.groups once
  have others : ((final.regrouped b hs).board b).groups = hs := congrArg Board.groups twice
  constructor
  case registry => exact ⟨onefold.registry_eq, twofold.registry_eq⟩
  case complete =>
    change ((lone.regrouped b ks).board b).groups.map (fun g => (lone.group g).data) = _
    rw [groups]
    exact whole.map_data
  case groups =>
    change List.Forall₂ _ ((lone.regrouped b ks).board b).groups ((final.regrouped b hs).board b).groups
    rw [groups, others]
    apply forall₂_through whole.recorded again.recorded
    intro d member g h one two
    rw [same] at two
    exact ⟨d, member, bundles.twins lasting discreet early begins steady member (one.setBoard _ _) (two.setBoard _ _)⟩
  case settled =>
    intro cell declares
    obtain ⟨d, g, rfl, one, single⟩ := whole.mapping declares
    obtain ⟨e, h, cell, two, double⟩ := again.mapping declares
    rw [same] at two double
    have destinations := bundles.destinations lasting discreet early begins declares one two
    obtain ⟨-, files⟩ := one.alike discreet here steady declares cell stage begins two
    refine ⟨_, _, _, _, single, ?_, files.symm, destinations⟩
    rw [← bundles.settle_eq lasting discreet early (here.mine _ (.inr declares.member)) destinations.found]
    exact double
  case replaced =>
    intro cell declares missing
    have mine := bundles.covers_first.mine cell (.inr declares.member)
    have unvisited : ∀ d ∈ (w.loaded b both).declared b, d.cell ≠ cell := fun d member same => missing ⟨d, member, same⟩
    obtain ⟨d, g, -, -, settled⟩ := early.mapping declares
    rw [← same] at settled
    exact ⟨whole.ahead cell mine unvisited, _, _, (again.ahead cell mine unvisited).trans settled⟩
  case others => exact fun cell mine foreign => ⟨onefold.maps cell mine foreign, twofold.maps cell mine foreign⟩
  case lists => exact fun cell known mine => ⟨onefold.lists cell known mine, twofold.lists cell known mine⟩

end Twice

end World

/-- Loading two bundles one after the other leaves the same registries, configurations and groups as loading both at
once, but for the destinations that the first load has settled: these keep the mapper and the root of that time. -/
theorem load_load {code : UserCode σ} {w mid once twice : World σ} {b first second both : Nat}
    {around : World σ → Prop} {receiver next other : Option Nat}
    (bundles : Bundles w (w.joint b first second both around) first second both)
    (lasting : Lasting w (w.joint b first second both around))
    (discreet : code.Discreet (w.joint b first second both around))
    (steady : Steady code (w.joint b first second both around) (w.loaded b both))
    (begun : (load code b (.map first) receiver).run w = (.ok (), mid))
    (done : (load code b (.map second) next).run mid = (.ok (), twice))
    (single : (load code b (.map both) other).run w = (.ok (), once)) :
    Joined w (w.joint b first second both around) first both once twice := by
  obtain ⟨log, gs, last, early, rfl⟩ := reached_of_load bundles.known bundles.plain_first discreet
    bundles.covers_first (lasting.stage discreet _) begun
  have known : b < (w.loaded b first).boards.size := bundles.known_loaded first
  obtain ⟨stage, -⟩ := ((lasting.stage discreet _ log).midway early.toMidway).regrouped known lasting.boards gs
  have plain := bundles.plain_second
  rw [← bundles.unchanged stage] at plain
  have begins := bundles.further lasting discreet stage
  obtain ⟨later, hs, final, again, rfl⟩ := reached_of_load (Nat.lt_of_lt_of_le known stage.boards) plain discreet
    bundles.covers_both begins done
  obtain ⟨alone, ks, lone, whole, rfl⟩ := reached_of_load bundles.known bundles.plain discreet bundles.covers_both
    (lasting.stage discreet _) single
  exact bundles.joined lasting discreet early (begins later) steady rfl again whole

namespace Orders

/-- User code whose every call gives one path. -/
def listing : UserCode Unit where
  call _ _ := pure (.value (.tuple [.text "a.js"]))
  resume _ _ _ _ := pure (.value .nothing)
  run _ _ := pure []
  label? _ _ := none

/-- User code that fails as number 1. -/
def breaking : UserCode Unit where
  call id _ := if id = 1 then throw (.raised "ValueError" "one") else pure (.value (.tuple []))
  resume _ _ _ _ := pure (.value .nothing)
  run _ _ := pure []
  label? _ _ := none

/-- User code that registers a further task whenever it is called. -/
def growing : UserCode Unit where
  call _ _ := do
    edit 0 fun board => { board with
      registry := board.registry.put .task (.whole board.registry.tasks.size) .nothing }
    pure (.value (.tuple []))
  resume _ _ _ _ := pure (.value .nothing)
  run _ _ := pure []
  label? _ _ := none

def fresh (maps : Array Mapping) : World Unit where
  heap := { maps }
  boards := #[{ cwd := "", runner := 0, registry := { plugins := ⟨[(.text "list", .callable (.user 0))]⟩ } }]
  user := ()

/-- A group whose mapper comes with the second bundle. -/
def tardy : World Unit := fresh #[⟨[(.text "c", .map 3)]⟩, ⟨[(.text "f", .callable (.user 0))]⟩,
  ⟨[(.text "c", .map 3), (.text "f", .callable (.user 0))]⟩, ⟨[(.text "g", .map 4)]⟩,
  ⟨[(.text "src", .text "#list"), (.text "des", .text "out@f")]⟩]

/-- A group whose patterns are the keys of the mapping of another one. -/
def nested : World Unit := fresh #[⟨[(.text "c", .map 3)]⟩, ⟨[(.text "f", .callable (.user 0))]⟩,
  ⟨[(.text "c", .map 3), (.text "f", .callable (.user 0))]⟩, ⟨[(.text "q", .map 4), (.text "p", .map 5)]⟩,
  ⟨[(.text "src", .map 5)]⟩, ⟨[(.text "src", .text "#list")]⟩]

/-- A mapping that is a configuration, and a group of another one. -/
def double : World Unit := fresh #[⟨[(.text "m", .map 3), (.text "c", .map 4)]⟩, ⟨[(.text "f", .callable (.user 0))]⟩,
  ⟨[(.text "m", .map 3), (.text "c", .map 4), (.text "f", .callable (.user 0))]⟩,
  ⟨[(.text "src", .text "#list"), (.text "files", .map 5)]⟩, ⟨[(.text "g", .map 3)]⟩, ⟨[(.text "src", .text "#list")]⟩]

/-- A group whose mapping is the second bundle. -/
def bundled : World Unit := fresh #[⟨[(.text "c", .map 3)]⟩, ⟨[(.text "src", .text "#list")]⟩,
  ⟨[(.text "c", .map 3), (.text "src", .text "#list")]⟩, ⟨[(.text "g", .map 1)]⟩]

/-- A group whose source is a task of the board that the second bundle replaces. -/
def outdated : World Unit :=
  let w := fresh #[⟨[(.text "c", .map 3)]⟩, ⟨[(.text "p", .callable (.user 0))]⟩,
    ⟨[(.text "c", .map 3), (.text "p", .callable (.user 0))]⟩, ⟨[(.text "g", .map 4)]⟩, ⟨[(.text "src", .text "@p")]⟩]
  w.setBoard 0 { w.board 0 with registry := (w.board 0).registry.put .task (.text "p") (.callable (.user 1)) }

def loads {α : Type} (code : UserCode Unit) (w : World Unit) (read : World Unit → α) (cells : List Nat) : Option α :=
  let ran := (cells.forM fun cell => load code 0 (.map cell) none).run w
  ran.1.toOption.map fun _ => read ran.2

def names (w : World Unit) : List (Option String) := (w.board 0).groups.map fun g => (w.group g).name.text?

def patterns (w : World Unit) : List (List (Option String)) :=
  (w.board 0).groups.map fun g => (w.group g).source.map Value.text?

def destinations (w : World σ) : List (Option (List KeyPart)) :=
  (w.board 0).groups.map fun g => (w.group g).destination.key?

def configurations (w : World Unit) : List (Option String) := (w.board 0).registry.configs.keys.map Value.text?

def taskCount (w : World Unit) : Nat := (w.board 0).registry.tasks.size

/-- Two loads do not come to the same as one. The mapper of a group is missing if it comes too late; a group may read
what the first load has written, or may no longer be found; a bundle or the tasks may have grown meanwhile; and the
first load may fail for what the second bundle mends. -/
theorem load_load_differs :
    (loads listing tardy destinations [0, 1] = some [some [.destination "out", .nothing]] ∧
      loads listing tardy destinations [2] = some [some [.destination "out", .callable (.user 0)]]) ∧
    (loads listing nested patterns [0, 1] = some [[some "src", some "files"], [some "#list"]] ∧
      loads listing nested patterns [2] = some [[some "src"], [some "#list"]]) ∧
    (loads listing double names [0, 1] = some [some "c:g"] ∧
      loads listing double names [2] = some [some "m:files", some "c:g"]) ∧
    (loads listing bundled configurations [0, 1] = some [some "c", some "src", some "files"] ∧
      loads listing bundled configurations [2] = some [some "c", some "src"]) ∧
    (loads growing bundled taskCount [0, 1] = some 2 ∧ loads growing bundled taskCount [2] = some 1) ∧
    (loads breaking outdated names [0, 1] = none ∧ loads breaking outdated names [2] = some [some "c:g"]) := by
  decide +kernel

/-- The clock stands still. -/
def Still (w : World Unit) : Prop := w.clock = .whole 0

def whole : Scope Unit := tardy.joint 0 0 1 2 Still

theorem declared_first : (tardy.loaded 0 0).declared 0 = [⟨.text "c", .text "g", 4⟩] := rfl

theorem declared_both : (tardy.loaded 0 2).declared 0 = [⟨.text "c", .text "g", 4⟩] := rfl

theorem own_whole {cell : Nat} (own : whole.own cell) : cell = 4 := by
  rcases own with ⟨d, member, rfl⟩ | ⟨d, member, rfl⟩
  · rw [declared_first] at member
    rw [List.mem_singleton.mp member]
  · rw [declared_both] at member
    rw [List.mem_singleton.mp member]

theorem orderly_tardy {cell : Nat} (declared : (tardy.loaded 0 cell).declared 0 = [⟨.text "c", .text "g", 4⟩])
    (configs : ((tardy.loaded 0 cell).board 0).registry.configs.entries = [(.text "c", .map 3)]) :
    Orderly whole (tardy.loaded 0 cell) where
  keys d member := by
    have same : d ∈ (tardy.loaded 0 cell).declared 0 := member
    rw [declared] at same
    rw [List.mem_singleton.mp same]
    exact ⟨rfl, rfl⟩
  apart other own := by
    rintro ⟨name, entry⟩
    have only : (name, Value.map other) ∈ ((tardy.loaded 0 cell).board 0).registry.configs.entries := entry
    rw [configs, own_whole own] at only
    cases (Prod.mk.inj (List.mem_singleton.mp only)).2
  clear other _ source found := by
    have text : source = .text "#list" := by
      match other, found with
      | 0, found | 1, found | 2, found | 3, found | _ + 5, found => cases found
      | 4, found =>
        cases found
        rfl
    rw [text]
    trivial

theorem bundles_tardy : Bundles tardy whole 0 1 2 where
  known := by decide
  whole := rfl
  plain entry member := by
    have one : entry ∈ [(Value.text "c", Value.map 3), (.text "f", .callable (.user 0))] := member
    simp only [List.mem_cons, List.not_mem_nil, or_false] at one
    rcases one with rfl | rfl <;> decide
  early := orderly_tardy declared_first rfl
  late := orderly_tardy declared_both rfl
  unwritten own := absurd (own_whole own) (by decide)

theorem lasting_tardy : Lasting tardy whole := ⟨rfl, fun _ stands => stands, fun _ _ stands => stands⟩

theorem discreet_listing : listing.Discreet whole where
  aside _ _ stands aside := aside.clock.trans stands
  call _ _ := Keeps.pure _
  resume _ _ _ _ := Keeps.pure _

theorem resolves_list {code : UserCode σ} {stage : World σ}
    (gives : (code.call 0 []).run stage = (.ok (.value (.tuple [.text "a.js"])), stage))
    (plugins : (stage.board 0).registry.plugins = ⟨[(.text "list", .callable (.user 0))]⟩)
    (cwd : (stage.board 0).cwd = "") :
    ((resolveSources code 0 (.text "#list")).run stage).1 = .ok [.text "a.js"] := by
  have given : (provided 0 none (.tuple [.text "a.js"])).run stage = (.ok [.text "a.js"], stage) := by
    have elements : (Act.elements (.tuple [.text "a.js"])).run stage = (.ok [.text "a.js"], stage) := rfl
    apply (run_bind_ok elements).trans
    apply (run_bind_ok (run_board stage 0)).trans
    rw [cwd]
    rfl
  have called : (Board.call code (.callable (.user 0)) []).run stage = (.ok (.tuple [.text "a.js"]), stage) :=
    run_bind_ok gives
  have listed : (listFiles code 0 (.plugin "list" none)).run stage = (.ok [.text "a.js"], stage) := by
    apply (run_bind_ok (run_board stage 0)).trans
    rw [plugins]
    exact (run_bind_ok called).trans given
  exact congrArg Prod.fst (run_bind_ok listed)

theorem run_list {stage : World Unit} (later : Follows whole (tardy.loaded 0 2) stage) :
    ((resolveSources listing 0 (.text "#list")).run stage).1 = .ok [.text "a.js"] := by
  obtain ⟨groups, board⟩ := later.board
  change stage.board 0 = { (tardy.loaded 0 2).board 0 with groups } at board
  exact resolves_list rfl (congrArg (fun board : Board => board.registry.plugins) board) (congrArg Board.cwd board)

theorem steady_listing : Steady listing whole (tardy.loaded 0 2) := by
  rintro pattern ⟨cell, v, patterns, declares, source, read, member⟩ first second early late files more _ _ ran again
  have text : pattern = .text "#list" := by
    rw [own_whole (.inr declares)] at source
    cases source
    cases read
    exact List.mem_singleton.mp member
  rw [text] at ran again
  have one := run_list early
  have two := run_list late
  change ((resolveSources listing whole.board (.text "#list")).run first).1 = _ at one
  change ((resolveSources listing whole.board (.text "#list")).run second).1 = _ at two
  rw [ran] at one
  rw [again] at two
  exact Except.ok.inj (one.trans two.symm)

theorem run_of_returned (act : Act Unit Unit) (w : World Unit) (returned : (act.run w).1.toOption = some ()) :
    act.run w = (.ok (), (act.run w).2) := by
  rcases ran : act.run w with ⟨failure | _, after⟩
  · rw [ran] at returned
    cases returned
  · rfl

/-- The mapper is missing with two loads; all else is as with one. -/
theorem load_load_tardy :
    ∃ mid twice once, (load listing 0 (.map 0) none).run tardy = (.ok (), mid) ∧
      (load listing 0 (.map 1) none).run mid = (.ok (), twice) ∧
      (load listing 0 (.map 2) none).run tardy = (.ok (), once) ∧ Joined tardy whole 0 2 once twice ∧
      destinations twice = [some [.destination "out", .nothing]] ∧
      destinations once = [some [.destination "out", .callable (.user 0)]] := by
  have begun := run_of_returned (load listing 0 (.map 0) none) tardy (by decide +kernel)
  have done := run_of_returned (load listing 0 (.map 1) none) ((load listing 0 (.map 0) none).run tardy).2
    (by decide +kernel)
  have single := run_of_returned (load listing 0 (.map 2) none) tardy (by decide +kernel)
  have joined := load_load bundles_tardy lasting_tardy discreet_listing steady_listing begun done single
  exact ⟨_, _, _, begun, done, single, joined, by decide +kernel, by decide +kernel⟩

end Orders

end TaskBoard
