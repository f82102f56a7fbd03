import TaskBoard.Proofs.Collecting.Rewriting
import TaskBoard.Proofs.Number.Stamping

/-!
Collections of accepted configurations. Each step of a visit is one that could fail; acceptance, the roots and the code
that serves rule it out one after another, so that a collection comes past all that is declared.
-/

namespace TaskBoard

open Act World Board

variable {σ : Type} {code : UserCode σ} {s : Scope σ} {receiver : Option Nat} {start before w : World σ}
  {d : Declaration} {g : Nat} {record : Group} {files : List Value} {content : Mapping}

namespace World

theorem During.keepsRoot {cell : Nat} (resolvable : Resolvable s start) (keeps : KeepsRoot s start before)
    (during : During s start before cell g record files content w)
    (stands : content.at? "des" = (before.heap.mapAt cell).at? "des") : KeepsRoot s start w := by
  intro other found
  have mine := resolvable.mine other (.inl (Mapping.entry_of_get? found))
  rw [← keeps other found]
  by_cases own : other = cell
  · rw [own, during.mapping, stands]
  · rw [during.leaves.maps other mine own]

end World

namespace Board

section Serving

variable (discreet : code.Discreet s) (resolvable : Resolvable s start) (serves : code.Serves s receiver start)
include discreet resolvable serves

theorem yields_resolveSources (member : d ∈ start.declared s.board) {source pattern : Value} {patterns : List Value}
    (found : start.heap.sourceAt d.cell = some source) (read : Group.patterns start.heap source = .ok patterns)
    (among : pattern ∈ patterns) (midway : Midway s start w) :
    Yields (resolveSources code s.board pattern) w fun files _ => Value.Texts files := by
  obtain ⟨source', same, passes⟩ := resolvable.passes d member
  obtain ⟨patterns', read', texts⟩ := passes.patterns
  rw [found] at same
  cases same
  rw [read] at read'
  cases read'
  obtain ⟨text, rfl⟩ := texts pattern among
  have listed : Yields (listFiles code s.board (SourcePattern.parse text)) w fun files _ => Value.Texts files := by
    apply yields_listFiles discreet serves midway
    intro glob parsed
    rw [resolvable.whole.sourceRoot_eq midway]
    exact resolvable.rooted.sources d member source patterns text glob found read among parsed
  unfold resolveSources
  apply listed.bind
  intro files after found
  apply Yields.run_bind (run_modify after _)
  exact .pure found

theorem Gathered.texts (member : d ∈ start.declared s.board) {source : Value} {patterns rest : List Value}
    (found : start.heap.sourceAt d.cell = some source) (read : Group.patterns start.heap source = .ok patterns)
    (among : ∀ pattern ∈ rest, pattern ∈ patterns) {after : World σ} (midway : Midway s start w)
    (gathered : Gathered code s.board w rest files after) : Value.Texts files ∧ Midway s start after := by
  induction gathered with
  | nil => exact ⟨fun item member => absurd member List.not_mem_nil, midway⟩
  | cons resolved later ih =>
    obtain ⟨files, mid, ran, texts, quiet⟩ := (yields_resolveSources discreet resolvable serves member found read
      (among _ List.mem_cons_self) midway).keeps (keeps_resolveSources discreet.drives.carries s.board _)
    rw [resolved] at ran
    cases ran
    obtain ⟨others, last⟩ := ih (fun pattern member => among pattern (List.mem_cons_of_mem _ member))
      (midway.quiet quiet)
    refine ⟨fun item member => ?_, last⟩
    rcases List.mem_append.mp member with early | late
    · exact texts item early
    · exact others item late

omit discreet in
theorem resolution_ok_of_declared (member : d ∈ start.declared s.board) {pattern : String}
    (declared : Group.destinationOf start.heap (.map d.cell) = .text pattern) (midway : Midway s start w)
    (keeps : KeepsRoot s start w) : ∃ v, resolution s.board w pattern = .ok v := by
  unfold resolution
  cases mapped : (DestinationPattern.parse pattern).mapper with
  | none => exact ⟨_, rfl⟩
  | some mapper =>
    obtain ⟨stamp, told⟩ := serves.clock w midway.fits
    obtain ⟨path, root⟩ := resolvable.rooted.destinations d member pattern mapper declared mapped
    rw [← resolvable.whole.root_eq midway keeps] at root
    dsimp only
    rw [told, root]
    exact ⟨_, rfl⟩

theorem ends_runMapper_served (declares : start.Declares s.board d.cell)
    (during : During s start before d.cell g record files content w)
    (settleable : Settleable s.board start record.destination) :
    Ends (runMapper code s.board g receiver) w (fun _ _ => True) fun _ _ => False := by
  have mine := resolvable.mine d.cell (.inr declares.member)
  unfold runMapper
  apply Ends.run_bind (run_get w)
  rw [during.stands]
  rcases settleable with same | ⟨text, same⟩ | ⟨out, name, same⟩
  · rw [same]
    exact .pure trivial
  · rw [same]
    exact .pure trivial
  · rw [same]
    cases found : (start.board s.board).registry.tasks.at? name with
    | none => exact .pure trivial
    | some f =>
      obtain ⟨⟨c, rfl⟩, key, member⟩ := callable_of_at? serves (.inl rfl) found
      have noted := during.quiet mine (discreet.drives.note (.mapped g (.callable c)) w)
      apply Ends.run_bind (run_modify w _)
      apply Ends.bind
      · exact .of_yields ((yields_provider discreet serves noted.toMidway (.inl rfl) member [.group g]).keeps
          (keeps_callBound discreet.drives.carries s.board _ _))
      · rintro v after ⟨⟨list, rfl, -⟩, quiet⟩
        apply (ends_deliver discreet (resolvable.writable declares) (noted.quiet mine quiet) (.list list)).mono
        · exact fun _ _ _ => trivial
        · rintro failure last ⟨-, id, receives, raised⟩
          have delivered := (noted.quiet mine quiet).quiet mine
            (discreet.drives.note (.delivered g id (.list list)) after)
          obtain ⟨given, mid, ran, -⟩ := serves.receive id receives (.list list) _ delivered.toMidway
          cases raised.symm.trans ran

variable {done : List Declaration} {gs : List Nat} (reached : Reached code s start done gs before)
  (declared : ∀ d ∈ done, start.Declares s.board d.cell) (member : d ∈ start.declared s.board)
include reached declared member

theorem ends_resolveGroup_served {text : String} {source : Value} {patterns : List Value} {list : Nat}
    (during : During s start before d.cell g ⟨.text text, patterns,
      Value.ofOption ((before.heap.mapAt d.cell).at? "des"), .map d.cell, list, none⟩ [] (before.heap.mapAt d.cell) w)
    (found : start.heap.sourceAt d.cell = some source) (read : Group.patterns start.heap source = .ok patterns) :
    Ends (resolveGroup code s.board g receiver) w (fun _ _ => True) fun _ _ => False := by
  have includes := resolvable.toIncludes
  have declares : start.Declares s.board d.cell := ⟨d, member, rfl⟩
  have mine := resolvable.mine d.cell (.inr declares.member)
  unfold resolveGroup
  apply Ends.bind
  · apply (ends_groupFiles discreet (includes.writable declares) during).mono
    · exact fun _ _ found => found
    · rintro failure after ⟨⟨front, pattern, rest, more, mid, split, gathered, raised⟩, still⟩
      have split : patterns = front ++ pattern :: rest := split
      have among : pattern ∈ patterns := by
        rw [split]
        simp
      obtain ⟨-, midway⟩ := Gathered.texts discreet resolvable serves member found read
        (fun other among => by rw [split]; exact List.mem_append_left _ among) during.toMidway gathered
      obtain ⟨given, last, ran, -⟩ := yields_resolveSources discreet resolvable serves member found read
        among midway
      cases raised.symm.trans ran
  rintro lists listed ⟨-, still⟩
  apply Ends.bind (ends_setFiles discreet (includes.writable declares) still lists)
  intro _ filed written
  have unplaced := Mapping.get?_insert_other (before.heap.mapAt d.cell) (.list listed.heap.lists.size)
    (show (Value.text "files").sameKey (.text "des") = false by decide)
  apply Ends.bind
  · apply (ends_settleDestination discreet (includes.writable declares) written).mono
    · exact fun _ _ placed => placed
    · rintro failure _ ⟨rfl, pattern, stands, raised⟩
      have first := reached.text declared mine (Value.ofOption_eq_text.mp stands)
      obtain ⟨v, resolves⟩ := resolution_ok_of_declared resolvable serves member (Value.ofOption_eq_text.mpr first)
        written.toMidway (written.keepsRoot resolvable (reached.keepsRoot declared resolvable) unplaced)
      rw [run_resolveDestination, resolves] at raised
      cases raised
  rintro _ settled ⟨destination, placed, last⟩
  obtain ⟨early, midway, first⟩ := reached.placed mine written.toMidway placed
  obtain ⟨source, -, passes⟩ := resolvable.passes d member
  have settleable := first.settleable midway passes.destination
  exact ends_runMapper_served discreet resolvable serves declares last settleable

theorem ends_resolveDeclared_served {text : String} {source : Value} {patterns : List Value} {list : Nat}
    (during : During s start before d.cell g ⟨.text text, patterns,
      Value.ofOption ((before.heap.mapAt d.cell).at? "des"), .map d.cell, list, none⟩ [] (before.heap.mapAt d.cell) w)
    (found : start.heap.sourceAt d.cell = some source) (read : Group.patterns start.heap source = .ok patterns) :
    Ends (resolveDeclared code s.board receiver g) w (fun _ _ => True) fun _ _ => False := by
  have mine := resolvable.mine d.cell (.inr (mem_declared member).1)
  have named : (w.group g).name = .text text := by rw [during.stands]
  have begun := during.quiet mine (discreet.drives.log .info ("Getting the source files of: " ++ text) w)
  apply Ends.of_run (run_resolveDeclared named)
  apply Ends.run_bind (run_modify w _)
  apply Ends.bind (ends_resolveGroup_served discreet resolvable serves reached declared member begun found read)
  intro _ after _
  exact Ends.run_bind (run_modify after _) (.pure trivial)

theorem ends_visitEntry_served (declares : (Value.map d.cell).declaresGroup before.heap = true) :
    Ends (visitEntry (resolveDeclared code s.board receiver) d.config d.group (.map d.cell)) before
      (fun _ _ => True) fun _ _ => False := by
  have includes := resolvable.toIncludes
  obtain ⟨source, found, passes⟩ := resolvable.passes d member
  obtain ⟨text, label⟩ := passes.label
  obtain ⟨patterns, read, -⟩ := passes.patterns
  unfold visitEntry
  apply Ends.run_bind (run_heap before)
  rw [if_pos declares, includes.label member before.heap, label]
  apply Ends.run_bind (run_ofExcept before _)
  apply Ends.bind
  · apply (ends_newGroup discreet includes ⟨d, member, rfl⟩ reached.toMidway text).mono
    · exact fun _ _ made => made
    · rintro failure _ ⟨-, v, same, unread⟩
      rw [found] at same
      cases same
      rw [read] at unread
      cases unread
  rintro g made ⟨v, patterns', -, same, read', during⟩
  apply Ends.bind (ends_resolveDeclared_served discreet resolvable serves reached declared member during same read')
  exact fun _ _ _ => .pure trivial

end Serving

/-- A scan comes past all that is declared. -/
theorem ends_scan_served (discreet : code.Discreet s) (resolvable : Resolvable s start)
    (serves : code.Serves s receiver start) (fits : s.around start) :
    Ends (eachGroup (do return (← Act.board s.board).registry.configs) (resolveDeclared code s.board receiver)) start
      (fun gs mid => Reached code s start (start.declared s.board) gs mid) fun _ _ => False := by
  have includes := resolvable.toIncludes
  apply (ends_eachGroup_shown (fun done gs w => Reached code s start done gs w ∧
    ∀ d ∈ done, start.Declares s.board d.cell) includes _ _ _ _ _).mono
  · exact fun _ _ course => course.1
  · exact fun _ _ never => never
  · exact fun _ _ _ course => course.1.toMidway
  · exact fun _ _ _ course => course.1.shows course.2 resolvable
  · exact fun cell configured declares => (resolvable.twofold cell declares configured).itself
  · rintro done d rest gs w split ⟨reached, declared⟩ declares
    have member : d ∈ start.declared s.board := by
      rw [split]
      simp
    apply ((ends_visitEntry discreet includes member reached.toMidway declares).both
      (ends_visitEntry_served discreet resolvable serves reached declared member declares)).mono
    · rintro _ after ⟨⟨rfl, settled, midway, leaves⟩, -⟩
      have here : start.Declares s.board d.cell := ⟨d, member, rfl⟩
      refine ⟨⟨reached.further includes declared here midway leaves settled, ?_⟩, ?_⟩
      · intro other among
        rcases List.mem_append.mp among with earlier | own
        · exact declared other earlier
        · rwa [List.mem_singleton.mp own]
      · exact fun cell configured other => leaves.maps cell (resolvable.mine cell (.inl configured)) other
    · exact fun _ _ failed => failed.2
  · exact ⟨⟨.refl fits, .nil, fun d member => absurd member List.not_mem_nil, fun _ _ _ => rfl⟩,
      fun d member => absurd member List.not_mem_nil⟩

end Board

namespace World

/-- A group whose patterns and files are texts, and whose destination is nothing, a text or a resolved one. -/
structure Tidy (w : World σ) (g : Nat) : Prop where
  source : Value.Texts (w.group g).source
  known : (w.group g).files < w.heap.lists.size
  files : Value.Texts (w.heap.listAt (w.group g).files)
  destination : (w.group g).destination = .nothing ∨ (∃ text, (w.group g).destination = .text text) ∨
    ∃ out mapper, (w.group g).destination = .destination out mapper

theorem Recorded.tidy (discreet : code.Discreet s) (resolvable : Resolvable s start)
    (serves : code.Serves s receiver start) (member : d ∈ start.declared s.board)
    (recorded : Recorded code s start (start.heap.mapAt d.cell) d g w) : w.Tidy g := by
  obtain ⟨source, found, read⟩ := recorded.source
  obtain ⟨source', same, passes⟩ := resolvable.passes d member
  rw [found] at same
  cases same
  obtain ⟨patterns, read', texts⟩ := passes.patterns
  rw [read] at read'
  cases read'
  obtain ⟨early, late, midway, gathered⟩ := recorded.files
  obtain ⟨mid, further, placed⟩ := recorded.destination
  have files := (Gathered.texts discreet resolvable serves member found read (fun _ among => among) midway gathered).1
  refine ⟨texts, recorded.known, files, ?_⟩
  rcases placed.settleable further passes.destination with nothing | text | ⟨out, name, resolved⟩
  · exact .inl nothing
  · exact .inr (.inl text)
  · exact .inr (.inr ⟨out, _, resolved⟩)

theorem Resolvable.of_accepted {b root : Nat} {around : World σ → Prop}
    (accepted : Config.check start.heap (.map root) = .ok ⟨⟩)
    (held : (start.board b).registry.configs = start.heap.mapAt root)
    (keys : ∀ d ∈ start.declared b, d.config.hashable = true ∧ d.group.hashable = true)
    (listed : ∀ cell, start.Owns b (.list cell) ∨ start.Owns b (.set cell) → cell < start.heap.lists.size)
    (rooted : start.Rooted b)
    (twofold : ∀ cell, start.Declares b cell → start.Configures b cell → start.Twofold b cell) :
    Resolvable (start.scope b around) start where
  keys := keys
  own _ declares := declares
  mine cell place := place.elim Configures.owns Member.owns
  sources cell member source found := member.owns.part (Mapping.mem_of_get? found)
  clear cell member source found := by
    have owned : start.Owns b source := member.owns.part (Mapping.mem_of_get? found)
    obtain ⟨entries, ⟨config, configured⟩, group, entry⟩ := member
    rcases (passes_of_entry accepted held configured entry found).source with ⟨text, rfl⟩ | ⟨list, rfl, -⟩
    · trivial
    · exact listed list (.inl owned)
  owned _ declares := declares
  parts whole v mine part := .part mine part
  listed := listed
  passes d member := passes_of_declared accepted held member
  rooted := rooted
  twofold := twofold

end World

/-- A collection of an accepted configuration does not fail, and it resolves just what is declared: there is one group
for every mapping with a `src` that counts as true, in their order, with texts for its patterns and its files, and with
nothing, a text or a resolved destination for its destination. The roots that patterns are joined to have to be texts
or count as missing, and a configuration that is a group as well must not be disturbed by that; tasks and plugins give
lists of texts, the glob primitive texts, and whatever runs leaves the board alone. -/
theorem collect_accepted {b root : Nat} {around : World σ → Prop} (receiver : Option Nat)
    (accepted : Config.check start.heap (.map root) = .ok ⟨⟩)
    (held : (start.board b).registry.configs = start.heap.mapAt root) (known : b < start.boards.size)
    (keys : ∀ d ∈ start.declared b, d.config.hashable = true ∧ d.group.hashable = true)
    (listed : ∀ cell, start.Owns b (.list cell) ∨ start.Owns b (.set cell) → cell < start.heap.lists.size)
    (rooted : start.Rooted b)
    (twofold : ∀ cell, start.Declares b cell → start.Configures b cell → start.Twofold b cell)
    (discreet : code.Discreet (start.scope b around)) (fits : around start)
    (serves : code.Serves (start.scope b around) receiver start) :
    ∃ gs last, (collect code b receiver).run start = (.ok gs, last) ∧ (last.board b).groups = gs ∧
      List.Forall₂ (fun d g => (last.group g).data = .map d.cell ∧ last.Tidy g) (start.declared b) gs := by
  have resolvable : Resolvable (start.scope b around) start := .of_accepted accepted held keys listed rooted twofold
  obtain ⟨gs, mid, scanned, reached⟩ := (ends_scan_served discreet resolvable serves fits).yields
  have ended : (collect code b receiver).run start = (.ok gs, mid.regrouped b gs) := run_bind_ok scanned
  refine ⟨gs, mid.regrouped b gs, ended, ?_, ?_⟩
  · have here := board_setBoard_self { mid.board b with groups := gs } (Nat.lt_of_lt_of_le known reached.boards)
    rw [World.regrouped, here]
  · obtain ⟨length, each⟩ := List.forall₂_iff_zip.mp reached.recorded
    refine List.forall₂_iff_zip.mpr ⟨length, ?_⟩
    intro d g paired
    have recorded := each paired
    have tidy := recorded.tidy discreet resolvable serves (List.of_mem_zip paired).1
    exact ⟨recorded.data, tidy.source, tidy.known, tidy.files, tidy.destination⟩

namespace Accepted

/-- User code that gives a new list of one text whenever it is called. -/
def listing : UserCode Unit where
  call _ _ := do return .value (← Act.newList [.text "x"])
  resume _ _ _ _ := pure (.value .nothing)
  run _ _ := pure []
  label? _ _ := none

/-- A board that holds the first of some mappings as its configuration, and has one task. -/
def holding (maps : Array Mapping) : World Unit where
  heap := { maps }
  boards := #[{
    cwd := "", runner := 9, lister := some 0, registry := {
      tasks := ⟨[(.text "f", .callable (.user 1))]⟩
      configs := maps.getD 0 {} } }]
  user := ()

/-- The source root is a number. -/
def rootless : World Unit := holding #[⟨[(.text "paths", .map 1), (.text "a", .map 2)]⟩, ⟨[(.text "src", .whole 5)]⟩,
  ⟨[(.text "b", .map 3)]⟩, ⟨[(.text "src", .text "x")]⟩]

/-- A configuration is a group of itself. -/
def contained : World Unit := holding #[⟨[(.text "a", .map 1)]⟩, ⟨[(.text "src", .text "x"), (.text "g", .map 1)]⟩]

/-- The files of a group are written where a group of its own stands. -/
def covered : World Unit := holding #[⟨[(.text "b", .map 1), (.text "a", .map 2)]⟩, ⟨[(.text "g", .map 2)]⟩,
  ⟨[(.text "src", .text "x"), (.text "files", .map 3)]⟩, ⟨[(.text "src", .text "y")]⟩]

/-- The destination of a group is written where the root of output paths stands. -/
def rerouted : World Unit := holding #[⟨[(.text "b", .map 1), (.text "paths", .map 2)]⟩,
  ⟨[(.text "g", .map 2), (.text "h", .map 3)]⟩, ⟨[(.text "src", .text "x"), (.text "des", .text "out@f")]⟩,
  ⟨[(.text "src", .text "y"), (.text "des", .text "out@f")]⟩]

theorem run_listing (id : Nat) (args : List Value) (w : World Unit) :
    (callUser listing id args).run w =
      (.ok (.list w.heap.lists.size), { w with heap := (w.heap.newList [.text "x"]).2 }) :=
  rfl

theorem listed_newList (w : World Unit) :
    World.Listed { w with heap := (w.heap.newList [.text "x"]).2 } (.list w.heap.lists.size) := by
  refine ⟨w.heap.lists.size, rfl, fun item member => ?_⟩
  rw [Heap.listAt_newList_newest] at member
  exact ⟨"x", List.mem_singleton.mp member⟩

theorem discreet_listing (s : Scope Unit)
    (aside : ∀ w after : World Unit, s.around w → Aside s.own { w with loop := after.loop } after → s.around after) :
    listing.Discreet s where
  aside := aside
  call _ _ w fits := ⟨.newList w _, aside w _ fits (.newList w _)⟩
  resume _ _ _ _ := Keeps.pure _

/-- A source root that is no text, a configuration that contains itself, and mappings that are written over: all of
them are accepted, and none of them is resolved as declared. -/
theorem collect_accepted_fails :
    (∀ id args w, Yields (callUser listing id args) w fun v after => after.Listed v) ∧
    (∀ start ∈ [rootless, contained, covered, rerouted], Config.check start.heap (.map 0) = .ok ⟨⟩ ∧
      (start.board 0).registry.configs = start.heap.mapAt 0) ∧
    ((collect listing 0 none).run rootless).1 = .error .wrongType ∧
    ((collect listing 0 none).run contained).1 = .error .changedDuringWalk ∧
    ((collect listing 0 none).run covered).1 = .ok [0] ∧ (covered.declared 0).length = 2 ∧
    ((collect listing 0 none).run rerouted).1 = .error .wrongType := by
  refine ⟨fun id args w => .intro (run_listing id args w) (listed_newList w), ?_, by decide +kernel, by decide +kernel,
    by decide +kernel, by decide +kernel, by decide +kernel⟩
  have accepted : ∀ start ∈ [rootless, contained, covered, rerouted], Config.check start.heap (.map 0) = .ok ⟨⟩ := by
    decide +kernel
  refine fun start member => ⟨accepted start member, ?_⟩
  simp only [List.mem_cons, List.not_mem_nil, or_false] at member
  rcases member with rfl | rfl | rfl | rfl <;> rfl

/-- A configuration that holds a group and is one itself, in a board with roots and with a mapper. -/
def shared : World Unit := holding #[
  ⟨[(.text "paths", .map 3), (.text "a", .map 1), (.text "b", .map 2)]⟩,
  ⟨[(.text "src", .text "*.js"), (.text "des", .text "out@f"), (.text "c", .map 4)]⟩,
  ⟨[(.text "g", .map 1)]⟩,
  ⟨[(.text "src", .text "root"), (.text "des", .text "dist")]⟩,
  ⟨[(.text "src", .text "@f:js")]⟩]

theorem declared_shared : shared.declared 0 = [⟨.text "a", .text "c", 4⟩, ⟨.text "b", .text "g", 1⟩] := rfl

theorem owns_shared {v : Value} (owned : shared.Owns 0 v) : v.isShallow = true := by
  apply owned.all fun _ => id
  · intro kind
    cases kind <;> rfl
  · intro cell
    match cell with
    | 0 | 1 | 2 | 3 | 4 => rfl
    | _ + 5 => rfl
  · rfl

theorem twofold_shared (cell : Nat) (declares : shared.Declares 0 cell) (configured : shared.Configures 0 cell) :
    shared.Twofold 0 cell := by
  obtain ⟨d, member, rfl⟩ := declares
  obtain ⟨name, configured⟩ := configured
  rw [declared_shared] at member
  simp only [List.mem_cons, List.not_mem_nil, or_false] at member
  rcases member with rfl | rfl
  · have among : (name, Value.map 4) ∈ [(Value.text "paths", Value.map 3), (.text "a", .map 1), (.text "b", .map 2)] :=
      configured
    simp at among
  · refine ⟨fun name entry => ?_, fun v found => ?_, fun root => ?_⟩
    · have among : (name, Value.map 1) ∈
          [(Value.text "src", Value.text "*.js"), (.text "des", .text "out@f"), (.text "c", .map 4)] := entry
      simp at among
    · cases found
    · cases root

theorem serves_listing :
    listing.Serves (shared.scope 0 fun w => w.clock = .whole 0) (some 5) shared where
  provider := by
    rintro kind provides name f member
    have only : (name, f) = (.text "f", .callable (.user 1)) := by
      rcases provides with rfl | rfl
      · exact List.mem_singleton.mp member
      · cases member
    cases only
    exact ⟨rfl, fun args w _ => .intro (run_listing 1 args w) (listed_newList w)⟩
  glob pattern w midway := by
    obtain ⟨list, same, texts⟩ := listed_newList w
    cases same
    have board : w.board 0 = shared.board 0 := midway.board
    unfold Board.glob
    apply Yields.run_bind (run_board w 0)
    rw [board]
    apply Yields.run_bind (run_listing 0 [.text pattern] w)
    exact .intro rfl texts
  receive id _ v w _ := .intro (run_listing id [v] w) trivial
  clock w fits := by
    have positive : ∀ limit, 0 < Nat.pow 10 limit := fun limit => Nat.pow_pos (by decide)
    rw [fits]
    rcases Board.stampOf_cases (show (Clock.whole 0).Finite from trivial) with
      ⟨failure, exceeds, -⟩ | ⟨-, stamp, -, told⟩
    · cases exceeds with
      | long digits => exact absurd digits (Nat.not_le.mpr (positive _))
    · exact ⟨stamp, told⟩

/-- The group in the shared configuration is resolved, and then this as a group. -/
theorem collect_accepted_shared :
    ∃ gs last, (collect listing 0 (some 5)).run shared = (.ok gs, last) ∧ (last.board 0).groups = gs ∧
      List.Forall₂ (fun d g => (last.group g).data = .map d.cell ∧ last.Tidy g) (shared.declared 0) gs := by
  have accepted : Config.check shared.heap (.map 0) = .ok ⟨⟩ := by decide +kernel
  have clock : ∀ w after : World Unit, w.clock = .whole 0 →
      Aside (shared.scope 0 fun w => w.clock = .whole 0).own { w with loop := after.loop } after →
      after.clock = .whole 0 := fun w after fits aside => aside.clock.trans fits
  apply collect_accepted (some 5) accepted rfl (by decide) _ _ _ twofold_shared (discreet_listing _ clock) rfl
    serves_listing
  · rw [declared_shared]
    intro d member
    simp only [List.mem_cons, List.not_mem_nil, or_false] at member
    rcases member with rfl | rfl <;> exact ⟨rfl, rfl⟩
  · rintro cell (owned | owned)
    · cases owns_shared owned
    · cases owns_shared owned
  · exact ⟨fun _ _ _ _ _ _ _ _ _ _ => ⟨_, rfl⟩, fun _ _ _ _ _ _ => ⟨_, rfl⟩⟩

end Accepted

end TaskBoard
