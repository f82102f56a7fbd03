import TaskBoard.Proofs.Collecting.Accepting
import TaskBoard.Proofs.Collecting.Outcome
import TaskBoard.Proofs.Collecting.Sharing
import TaskBoard.Proofs.Dispatching.Providing

/-!
Accepted configurations are resolved. Acceptance looks at the declared groups one by one; what it does not look at is
what the entry `paths` gives as roots, and whether a mapping stands in several places. Where roots are texts or count
as missing, and no configuration is disturbed by being a group as well, nothing that a collection reads makes it fail,
as long as the tasks, the plugins and the glob primitive do not.
-/

namespace TaskBoard

open Act World Board

variable {σ : Type}

namespace World

/-- The roots that the declared groups are joined to can be joined. -/
structure Rooted (b : Nat) (start : World σ) : Prop where
  sources : ∀ d ∈ start.declared b, ∀ source patterns text pattern, start.heap.sourceAt d.cell = some source →
    Group.patterns start.heap source = .ok patterns → .text text ∈ patterns →
    SourcePattern.parse text = .rooted pattern →
    ∃ path, rootPath start.heap (((start.board b).paths start.heap).at? "src") = .ok path
  destinations : ∀ d ∈ start.declared b, ∀ pattern mapper,
    Group.destinationOf start.heap (.map d.cell) = .text pattern →
    (DestinationPattern.parse pattern).mapper = some mapper →
    ∃ path, rootPath start.heap (((start.board b).paths start.heap).at? "des") = .ok path

/-- A mapping that is a source group and a configuration at once, and can be: writing its files and its destination
touches no group that it declares and no root. -/
structure Twofold (b : Nat) (start : World σ) (cell : Nat) : Prop where
  itself : ∀ name, (name, Value.map cell) ∉ (start.heap.mapAt cell).entries
  files : ∀ v, (start.heap.mapAt cell).at? "files" = some v → v.declaresGroup start.heap = false
  root : (start.board b).registry.configs.at? "paths" = some (.map cell) → ∀ pattern,
    Group.destinationOf start.heap (.map cell) = .text pattern → (DestinationPattern.parse pattern).mapper = none

/-- A board with whatever it consists of, part by part; what declares a group may be written, and nothing else. -/
structure Whole (s : Scope σ) (start : World σ) : Prop where
  own : ∀ cell, s.own cell ↔ start.Declares s.board cell
  mine : ∀ cell, start.Configures s.board cell ∨ start.Member s.board cell → s.mine (.map cell)
  parts : ∀ whole v, s.mine whole → v ∈ start.partsOf whole → s.mine v
  listed : ∀ cell, s.mine (.list cell) ∨ s.mine (.set cell) → cell < start.heap.lists.size

/-- A whole board that a collection can read as it was at the start. -/
structure Held (s : Scope σ) (start : World σ) : Prop extends Includes s start where
  owned : ∀ cell, s.own cell → start.Declares s.board cell
  parts : ∀ whole v, s.mine whole → v ∈ start.partsOf whole → s.mine v
  listed : ∀ cell, s.mine (.list cell) ∨ s.mine (.set cell) → cell < start.heap.lists.size

/-- A board all of whose declared groups pass the check, with roots, and with mappings in places where they can be
resolved. -/
structure Resolvable (s : Scope σ) (start : World σ) : Prop extends Held s start where
  passes : ∀ d ∈ start.declared s.board, ∃ source, start.heap.sourceAt d.cell = some source ∧
    Config.Passes start.heap d.config d.group d.cell source
  rooted : start.Rooted s.board
  twofold : ∀ cell, start.Declares s.board cell → start.Configures s.board cell → start.Twofold s.board cell

/-- The root of output paths is as at the start. -/
def KeepsRoot (s : Scope σ) (start w : World σ) : Prop :=
  ∀ cell, (start.board s.board).registry.configs.at? "paths" = some (.map cell) →
    (w.heap.mapAt cell).at? "des" = (start.heap.mapAt cell).at? "des"

end World

/-- A list of texts, as it stands in a world. -/
def World.Listed (w : World σ) (v : Value) : Prop := ∃ cell, v = .list cell ∧ Value.Texts (w.heap.listAt cell)

/-- User code does what is asked of it in the course of a collection: tasks and plugins can be called with anything
and give lists of texts, the glob primitive finds texts, and a receiver takes what it is given. The time can be told. -/
structure UserCode.Serves (code : UserCode σ) (s : Scope σ) (receiver : Option Nat) (start : World σ) : Prop where
  provider : ∀ kind, kind = .task ∨ kind = .plugin →
    ∀ name f, (name, f) ∈ ((start.board s.board).registry.mapping kind).entries → f.isCallable = true ∧
      ∀ args w, Midway s start w → Yields (Board.call code f args) w fun v after => after.Listed v
  glob : ∀ pattern w, Midway s start w → Yields (Board.glob code s.board pattern) w fun files _ => Value.Texts files
  receive : ∀ id, receiver = some id → ∀ v w, Midway s start w → Yields (callUser code id [v]) w fun _ _ => True
  clock : ∀ w, s.around w → ∃ stamp, stampOf w.clock = .ok stamp

variable {code : UserCode σ} {s : Scope σ} {receiver : Option Nat} {start w : World σ}

namespace World

theorem Held.whole (held : Held s start) : Whole s start :=
  ⟨fun cell => ⟨held.owned cell, held.own cell⟩, held.mine, held.parts, held.listed⟩

section Roots

variable (whole : Whole s start) (midway : Midway s start w)
include whole midway

theorem Whole.truthy_eq {v : Value} (mine : s.mine v) : v.truthy w.heap = v.truthy start.heap := by
  cases v with
  | list cell => simp [Value.truthy, midway.lists cell (whole.listed cell (.inl mine)) (.inl mine)]
  | set cell => simp [Value.truthy, midway.lists cell (whole.listed cell (.inr mine)) (.inr mine)]
  | map cell =>
    by_cases own : s.own cell
    -- a mapping that declares a group has an entry under `src`, at the start and later
    · obtain ⟨source, found⟩ : ∃ source, (start.heap.mapAt cell).get? (.text "src") = some source := by
        obtain ⟨d, member, rfl⟩ := (whole.own cell).mp own
        exact (mem_declared member).2
      have still := (midway.rewritten cell mine own).others (.text "src") (by decide) (by decide)
      have filled : ∀ m : Mapping, m.get? (.text "src") = some source → (m.size != 0) = true := by
        intro m stands
        have member := Mapping.mem_of_get? stands
        have full := List.length_pos_of_mem member
        rw [List.length_map] at full
        exact bne_iff_ne.mpr (Nat.ne_of_gt full)
      exact (filled _ (still.trans found)).trans (filled _ found).symm
    · simp only [Value.truthy, midway.maps cell mine own]
  | _ => rfl

theorem Whole.rootPath_eq {root : Option Value} (mine : ∀ v, root = some v → s.mine v) :
    rootPath w.heap root = rootPath start.heap root := by
  cases root with
  | none => rfl
  | some v =>
    have same := whole.truthy_eq midway (mine v rfl)
    cases v with
    | text path => rfl
    | _ => simp only [rootPath, same]

omit midway in
/-- A root that stands in a mapping of the board is the same in two worlds, if it is whatever mapping that is. -/
theorem Whole.root_congr {v : World σ} {name : String} (here : w.board s.board = start.board s.board)
    (there : v.board s.board = start.board s.board)
    (each : ∀ cell, (start.board s.board).registry.configs.at? "paths" = some (.map cell) → s.mine (.map cell) →
      rootPath v.heap ((v.heap.mapAt cell).at? name) = rootPath w.heap ((w.heap.mapAt cell).at? name)) :
    rootPath v.heap (((v.board s.board).paths v.heap).at? name) =
      rootPath w.heap (((w.board s.board).paths w.heap).at? name) := by
  unfold Board.paths
  rw [here, there]
  cases found : (start.board s.board).registry.configs.at? "paths" with
  | none => rfl
  | some paths =>
    cases paths with
    | map cell => exact each cell found (whole.mine cell (.inl (Mapping.entry_of_get? found)))
    | _ => rfl

theorem Whole.root_eq {name : String}
    (stands : ∀ cell, (start.board s.board).registry.configs.at? "paths" = some (.map cell) →
      (w.heap.mapAt cell).at? name = (start.heap.mapAt cell).at? name) :
    rootPath w.heap (((w.board s.board).paths w.heap).at? name) =
      rootPath start.heap (((start.board s.board).paths start.heap).at? name) := by
  apply whole.root_congr rfl midway.board
  intro cell found mine
  rw [stands cell found]
  apply whole.rootPath_eq midway
  exact fun v entry => whole.parts (.map cell) v mine (Mapping.mem_of_get? entry)

theorem Whole.sourceRoot_eq :
    rootPath w.heap (((w.board s.board).paths w.heap).at? "src") =
      rootPath start.heap (((start.board s.board).paths start.heap).at? "src") := by
  apply whole.root_eq midway
  intro cell found
  have mine := whole.mine cell (.inl (Mapping.entry_of_get? found))
  by_cases own : s.own cell
  · exact (midway.rewritten cell mine own).others (.text "src") (by decide) (by decide)
  · rw [midway.maps cell mine own]

end Roots

end World

namespace Board

theorem exists_map_of_texts {items : List Value} (texts : Value.Texts items) :
    ∃ paths : List String, items = paths.map .text := by
  induction items with
  | nil => exact ⟨[], rfl⟩
  | cons item items ih =>
    obtain ⟨text, rfl⟩ := texts item List.mem_cons_self
    obtain ⟨paths, rfl⟩ := ih fun other member => texts other (List.mem_cons_of_mem _ member)
    exact ⟨text :: paths, rfl⟩

theorem texts_map_toText (paths : List (List Char)) : Value.Texts (paths.map toText) := by
  intro item member
  obtain ⟨path, -, rfl⟩ := List.mem_map.mp member
  exact ⟨String.ofList path, rfl⟩

theorem yields_provided {v : Value} (listed : w.Listed v) (b : Nat) (extension : Option String) :
    Yields (provided b extension v) w fun files _ => Value.Texts files := by
  obtain ⟨cell, rfl, texts⟩ := listed
  obtain ⟨paths, same⟩ := exists_map_of_texts texts
  exact .intro (run_provided (v := .list cell) (congrArg some same) b extension) (texts_map_toText _)

theorem callable_of_at? (serves : code.Serves s receiver start) {kind : RegistryKind}
    (provides : kind = .task ∨ kind = .plugin) {name : String} {f : Value}
    (found : ((start.board s.board).registry.mapping kind).at? name = some f) :
    (∃ c, f = .callable c) ∧ ∃ key, (key, f) ∈ ((start.board s.board).registry.mapping kind).entries := by
  obtain ⟨key, member⟩ := Mapping.entry_of_get? found
  have callable := (serves.provider kind provides key f member).1
  refine ⟨?_, key, member⟩
  cases f with
  | callable c => exact ⟨c, rfl⟩
  | _ => cases callable

section Serving

variable (discreet : code.Discreet s) (serves : code.Serves s receiver start) (midway : Midway s start w)
include discreet serves midway

theorem yields_provider {kind : RegistryKind} (provides : kind = .task ∨ kind = .plugin) {name f : Value}
    (member : (name, f) ∈ ((start.board s.board).registry.mapping kind).entries) (args : List Value) :
    Yields (callBound code s.board f args) w fun v after => after.Listed v := by
  have entered : Midway s start { w with current := some s.board } :=
    midway.quiet (discreet.drives.beside w _ rfl)
  have given := (serves.provider kind provides name f member).2 args _ entered
  have bound : Yields (Act.inContext (some s.board) (Board.call code f args)) w fun v after => after.Listed v :=
    .inContext given
  unfold callBound
  apply bound.bind
  rintro v after ⟨cell, rfl, texts⟩
  exact .pure ⟨cell, rfl, texts⟩

theorem yields_listFiles (pattern : SourcePattern)
    (rooted : ∀ text, pattern = .rooted text →
      ∃ path, rootPath w.heap (((w.board s.board).paths w.heap).at? "src") = .ok path) :
    Yields (listFiles code s.board pattern) w fun files _ => Value.Texts files := by
  have none : Value.Texts [] := fun item member => absurd member List.not_mem_nil
  cases pattern with
  | plugin name extension =>
    unfold listFiles
    apply Yields.run_bind (run_board w s.board)
    rw [midway.board]
    cases found : (start.board s.board).registry.plugins.at? name with
    | none => exact .pure none
    | some f =>
      obtain ⟨⟨c, rfl⟩, key, member⟩ := callable_of_at? serves (.inr rfl) found
      have given := (serves.provider .plugin (.inr rfl) key _ member).2 [] w midway
      apply given.bind
      exact fun v after listed => yields_provided listed s.board extension
  | task name extension =>
    unfold listFiles
    apply Yields.run_bind (run_board w s.board)
    rw [midway.board]
    cases found : (start.board s.board).registry.tasks.at? name with
    | none => exact .pure none
    | some f =>
      obtain ⟨⟨c, rfl⟩, key, member⟩ := callable_of_at? serves (.inl rfl) found
      have empty : (Board.arguments .nothing : Act σ (List Value)).run w = (.ok [], w) := rfl
      have given : Yields (runTask code s.board (.callable c) .nothing .nothing) w fun v after => after.Listed v :=
        Yields.run_bind empty (yields_provider discreet serves midway (.inl rfl) member [])
      apply given.bind
      exact fun v after listed => yields_provided listed s.board extension
  | verbatim pattern => exact serves.glob pattern w midway
  | rooted pattern =>
    obtain ⟨path, root⟩ := rooted pattern rfl
    unfold listFiles
    apply Yields.run_bind (run_heap w)
    apply Yields.run_bind (run_board w s.board)
    rw [root]
    apply Yields.run_bind (run_ofExcept w _)
    exact serves.glob _ w midway

end Serving

end Board

end TaskBoard
