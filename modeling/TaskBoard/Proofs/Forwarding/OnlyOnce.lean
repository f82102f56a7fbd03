import TaskBoard.Proofs.Dealing
import TaskBoard.Proofs.Forwarding.Collecting

/-!
A collection forwards what mappers give exactly once, whatever becomes of their tasks and in whatever order
it becomes known; and what is left of that if mappings are shared, names cannot be written, or a provider of
sources changes the board under the collection.
-/

namespace TaskBoard

open Act World

variable {σ : Type} {code : UserCode σ} {b : Nat} {receiver : Option Nat} {around : World σ → Prop}
  {start : World σ}

/-- Every result of a mapper is forwarded exactly once. A collection makes one group of each declared one, in
their order, and calls its mapper once, with it; the receiver is called with a plain value before the next group is
looked at. Whatever is done later, in whatever order jobs are run and tasks asked to end: a mapper that runs as a task
goes from running to ended to told, once each; one job hands its value to the receiver, or logs its failure, and
the task keeps its outcome. When no job waits all that has ended is told, and nothing is logged about
mappers but the failures that are noted. The collection and the jobs call mappers and receivers where that is
noted, and nowhere else. -/
theorem collect_forwards_once (ready : Ready code b receiver around start) (proper : Proper b start) :
    ∃ gs last, (Board.collect code b receiver).run start = (.ok gs, last) ∧
      (∀ g ∈ gs, start.groups.size ≤ g) ∧ gs.Pairwise (· < ·) ∧
      List.Forall₂ (Forwarded code b receiver start last) (start.declared b) gs ∧
      last.deedsAmong gs = gs.flatMap last.deedsOf ∧ Minds start last ∧ Dealings code b start last ∧
      ∀ w, Later code last w → Ledger last w ∧
        (∀ l front job back, w.loop = some l → l.ready = front ++ job :: back →
          Dealings code b w ((Loop.runJob code job).run { w with loop := some { l with ready := front ++ back } }).2) ∧
        ∀ (t : Track) stage, t.At stage w →
          (∀ later, Later code w later → ∃ next, stage.Leads next ∧ t.At next later ∧
            ∀ outcome, next = .told outcome → stage = .told outcome ∨ t.Told code outcome w later) ∧
          (w.jobs = [] → ∀ outcome, (w.task t.task).outcome = some outcome → stage = .told outcome) := by
  obtain ⟨gs, scanned, ran, collected⟩ := Board.yields_eachGroup ready proper
  let last : World σ := scanned.setBoard b { scanned.board b with groups := gs }
  have runs : (Board.collect code b receiver).run start = (.ok gs, last) := run_bind_ok ran
  have books : ∀ on, Books on scanned last := fun on => .of_same rfl rfl rfl rfl rfl
  have deals : Dealings code b start last := by
    have whole : Dealings code b start ((Board.collect code b receiver).run start).2 := dealings_collect receiver start
    rwa [runs] at whole
  refine ⟨gs, last, runs, collected.fresh, collected.rising, ?_, collected.order, ?_, deals, ?_⟩
  · exact collected.each.imp fun d g forwarded => forwarded.books ready.tame (books _)
  · refine ⟨collected.books.trans (books _), fun _ => ?_⟩
    exact collected.sound.of_fewer (Nat.le_refl _) rfl (fun _ _ => rfl) fun _ _ _ => rfl
  · intro w later
    refine ⟨later.ledger ready.tame, fun l front job back _ _ => dealings_runJob job w _, fun t stage there => ⟨?_, ?_⟩⟩
    · exact fun after further => there.later ready.tame further
    · intro quiet outcome ended
      apply there.told_of_quiet _ ended
      rw [World.telling, quiet]
      rfl

namespace Mixed

/-- User code that notes what it receives as number 0, gives a value as number 1, and is asynchronous otherwise:
number 2 pauses twice before it gives one, number 3 fails, and all others pause until they are asked to end. -/
def mixed : UserCode (List Value) where
  call id args := do
    if id = 0 then
      modify fun w => { w with user := w.user ++ args }
      pure (.value .nothing)
    else if id = 1 then pure (.value (.whole 1))
    else pure .routine
  resume id _ stretch result :=
    match id, result with
    | 2, _ => pure (if stretch < 2 then .pause else .value (.whole 2))
    | 3, _ => throw (.raised "ValueError" "three")
    | _, .error failure => throw failure
    | _, .ok _ => pure .pause
  run _ _ := pure []
  label? _ _ := none

/-- The clock stands still. -/
def Still (w : World (List Value)) : Prop := w.clock = .whole 0

/-- A board whose tasks are `mixed` under the names of their numbers. -/
def mixedBoard (configs : List (Value × Value)) : Board where
  cwd := ""
  runner := 5
  registry := {
    tasks := ⟨[(.text "1", .callable (.user 1)), (.text "2", .callable (.user 2)), (.text "3", .callable (.user 3)),
      (.text "4", .callable (.user 4))]⟩
    configs := ⟨configs⟩ }

def mapped (mapper : String) : Mapping := ⟨[(.text "src", .text "@none"), (.text "des", .text ("out@" ++ mapper))]⟩

def mixedWorld (maps : Array Mapping) (configs : List (Value × Value)) : World (List Value) where
  heap := { maps }
  boards := #[mixedBoard configs]
  loop := some {}
  user := []

theorem tame_mixed : mixed.Tame where
  call id args := by
    simp only [mixed]
    split
    · exact Keeps.bind (Keeps.modify fun w => Minds.of_same rfl rfl rfl rfl rfl) fun _ => Keeps.pure _
    · split
      · exact Keeps.pure _
      · exact Keeps.pure _
  resume id args stretch result := by
    simp only [mixed]
    split
    · exact Keeps.pure _
    · exact Keeps.throw _
    · exact Keeps.throw _
    · exact Keeps.pure _

variable {first w : World (List Value)}

theorem stays_mixed (stays : Stays 0 Still first w) (id : Nat) (args : List Value) :
    Yields (Board.callUser mixed id args) w fun _ after => Stays 0 Still first after := by
  unfold Board.callUser
  by_cases receives : id = 0
  · subst receives
    have called : (mixed.call 0 args).run w = (.ok (.value .nothing), { w with user := w.user ++ args }) := rfl
    apply Yields.run_bind called
    exact .pure ⟨⟨stays.running, stays.board, stays.lists, stays.configs, stays.sources, stays.contents,
      stays.destinations⟩, stays.fits⟩
  · by_cases plain : id = 1
    · have called : (mixed.call id args).run w = (.ok (.value (.whole 1)), w) := by simp [mixed, plain]
      apply Yields.run_bind called
      exact .pure stays
    · have called : (mixed.call id args).run w = (.ok .routine, w) := by simp [mixed, receives, plain]
      apply Yields.run_bind called
      exact .intro (run_modifyGet w _) ⟨stays.toAgrees.books stays.running, stays.fits⟩

theorem stamped_of_still (still : Still w) :
    ∃ stamp, (Board.versionStamp : Act (List Value) String).run w = (.ok stamp, w) := by
  have positive (n : Nat) : 0 < Nat.pow 10 n := Nat.pow_pos (by decide)
  have small : ((0 : Int) * 1000).natAbs < Nat.pow 10 Number.digitLimit := positive Number.digitLimit
  have stamped : Board.stampOf (.whole 0) = .ok (toString ((0 : Int) * 1000)) := by
    unfold Board.stampOf Clock.milliseconds
    rw [pure_bind, Number.writeWhole_of_small small]
  have read : (Board.versionStamp : Act (List Value) String).run w = (Board.stampOf w.clock, w) := rfl
  rw [read, still, stamped]
  exact ⟨_, rfl⟩

theorem ready_mixed {maps : Array Mapping} {configs : List (Value × Value)}
    (paths : (Mapping.mk configs).at? "paths" = none)
    (sources : ∀ cell source, (mixedWorld maps configs).heap.sourceAt cell = some source → source = .text "@none")
    (mappers : ∀ cell mapper, (mixedWorld maps configs).mapperAt 0 cell = some mapper →
      ∃ id, mapper = .callable (.user id)) : Ready mixed 0 (some 0) Still (mixedWorld maps configs) where
  tame := tame_mixed
  sound := ⟨by simp [mixedWorld], fun _ _ => rfl, fun _ _ _ => rfl⟩
  running := rfl
  fits := rfl
  aside w after fits aside := aside.clock.trans fits
  sources cell declares source found := by
    rw [sources cell source found]
    refine ⟨[.text "@none"], rfl, ?_⟩
    intro pattern member w stays
    rw [List.mem_singleton.mp member]
    have listed : (Board.listFiles mixed 0 (SourcePattern.parse "@none")).run w = (.ok [], w) := by
      have parsed : SourcePattern.parse "@none" = .task "none" none := rfl
      have missing : (w.board 0).registry.tasks.at? "none" = none := by
        rw [stays.board]
        rfl
      rw [parsed]
      unfold Board.listFiles
      rw [run_bind_ok (run_board w 0), missing]
      rfl
    unfold Board.resolveSources
    apply Yields.run_bind listed
    apply Yields.run_bind (run_modify w _)
    exact .pure ⟨stays.toAgrees.books stays.running, stays.fits⟩
  destinations cell declares pattern found w stays := by
    obtain ⟨stamp, stamped⟩ := stamped_of_still stays.fits
    have rootless : (w.board 0).paths w.heap = {} := by
      have absent : (w.board 0).registry.configs.at? "paths" = none := by
        rw [stays.board]
        exact paths
      rw [Board.paths, absent]
    unfold Board.resolveDestination
    dsimp only
    split
    next none => exact .pure trivial
    next name some =>
      apply Yields.run_bind stamped
      apply Yields.run_bind (run_heap w)
      apply Yields.run_bind (run_board w 0)
      rw [rootless]
      exact .pure trivial
  mappers cell declares mapper found w g stays _ _ _ := by
    obtain ⟨id, rfl⟩ := mappers cell mapper found
    exact stays_mixed stays id _
  receives id _ v w stays := stays_mixed stays id [v]

/-- One configuration whose groups have the mappers 1 to 4. -/
def apart : World (List Value) :=
  mixedWorld #[⟨[(.text "p", .map 1), (.text "q", .map 2), (.text "r", .map 3), (.text "s", .map 4)]⟩,
    mapped "1", mapped "2", mapped "3", mapped "4"] [(.text "c", .map 0)]

theorem declared_apart : apart.declared 0 = [⟨.text "c", .text "p", 1⟩, ⟨.text "c", .text "q", 2⟩,
    ⟨.text "c", .text "r", 3⟩, ⟨.text "c", .text "s", 4⟩] := rfl

theorem source_apart {cell : Nat} {source : Value} (found : apart.heap.sourceAt cell = some source) :
    source = .text "@none" := by
  match cell, found with
  | 0, found | _ + 5, found => cases found
  | 1, found | 2, found | 3, found | 4, found =>
    cases found
    rfl

theorem ready_apart : Ready mixed 0 (some 0) Still apart := by
  apply ready_mixed rfl fun _ _ found => source_apart found
  intro cell mapper found
  match cell, found with
  | 0, found | _ + 5, found => cases found
  | 1, found | 2, found | 3, found | 4, found =>
    cases found
    exact ⟨_, rfl⟩

theorem proper_apart : Proper 0 apart := by
  have each : ∀ d ∈ apart.declared 0, d.config = .text "c" ∧ (∃ name, d.group = .text name) ∧ d.cell ≠ 0 := by
    rw [declared_apart]
    intro d member
    simp only [List.mem_cons, List.not_mem_nil, or_false] at member
    rcases member with rfl | rfl | rfl | rfl <;> exact ⟨rfl, ⟨_, rfl⟩, by simp⟩
  refine ⟨?_, ?_, ?_, ?_⟩
  · intro d member
    obtain ⟨config, ⟨name, group⟩, -⟩ := each d member
    rw [config, group]
    exact ⟨rfl, rfl⟩
  · intro d member
    obtain ⟨config, ⟨name, group⟩, -⟩ := each d member
    rw [config, group]
    exact ⟨_, rfl⟩
  · intro cell member source found
    rw [source_apart found]
    trivial
  · exact apart_of_single rfl fun d member => (each d member).2.2

/-- The last task is asked to end, and four turns go by. -/
def askAndTurn : Act (List Value) Unit := do
  let _ ← Loop.cancel 2
  Loop.turns mixed 4

theorem later_askAndTurn : Keeps (Later mixed) askAndTurn :=
  Keeps.bind (Loop.later_of_minds (Loop.minds_cancel 2)) fun _ => Loop.later_turns 4

/-- Four groups, one of each kind: the plain value is delivered in the collection; then the last task is asked to
end, and a few turns deliver one value more and log one failure. -/
theorem collect_forwards_once_apart :
    ∃ last, ((Board.collect mixed 0 (some 0)).run apart) = (.ok [0, 1, 2, 3], last) ∧
      List.Forall₂ (Forwarded mixed 0 (some 0) apart last) (apart.declared 0) [0, 1, 2, 3] ∧
      Dealings mixed 0 apart last ∧ last.user.map Value.key? = [some [.whole 1]] ∧
      ∃ w, Later mixed last w ∧ w.user.map Value.key? = [some [.whole 1], some [.whole 2]] ∧
        w.reports.map (·.text) = ["Mapper of c:r failed"] ∧ w.jobs = [] := by
  obtain ⟨gs, last, ran, -, -, forwarded, -, -, deals, -⟩ := collect_forwards_once ready_apart proper_apart
  have same : ((Board.collect mixed 0 (some 0)).run apart).2 = last := congrArg Prod.snd ran
  have found : ((Board.collect mixed 0 (some 0)).run apart).1.toOption = some [0, 1, 2, 3] := by decide +kernel
  have groups : gs = [0, 1, 2, 3] := by
    rw [ran] at found
    exact Option.some.inj found
  have plain : ((Board.collect mixed 0 (some 0)).run apart).2.user.map Value.key? = [some [.whole 1]] := by
    decide +kernel
  have told : (askAndTurn.run ((Board.collect mixed 0 (some 0)).run apart).2).2.user.map Value.key? =
      [some [.whole 1], some [.whole 2]] := by decide +kernel
  have logged : (askAndTurn.run ((Board.collect mixed 0 (some 0)).run apart).2).2.reports.map (·.text) =
      ["Mapper of c:r failed"] := by decide +kernel
  have quiet : (askAndTurn.run ((Board.collect mixed 0 (some 0)).run apart).2).2.jobs = [] := by decide +kernel
  rw [same] at plain told logged quiet
  subst groups
  exact ⟨last, ran, forwarded, deals, plain, _, later_askAndTurn last, told, logged, quiet⟩

/-- A mapping is a source group of one configuration and a configuration itself; the entry under `files` declares
a group until the files of the first are written there. -/
def shared : World (List Value) :=
  mixedWorld #[⟨[(.text "g", .map 1)]⟩, ⟨[(.text "src", .text "@none"), (.text "files", .map 2)]⟩, mapped "1"]
    [(.text "a", .map 0), (.text "b", .map 1)]

/-- A configuration whose name has too many digits to be written. -/
def unnamed : World (List Value) :=
  mixedWorld #[⟨[(.text "g", .map 1)]⟩, mapped "1"] [(.whole (Nat.pow 10 Number.digitLimit), .map 0)]

/-- User code that registers a configuration whenever it is called. -/
def meddler : UserCode (List Value) where
  call _ _ := do
    Board.edit 0 fun board => { board with registry := board.registry.put .config (.text "new") .nothing }
    pure (.value .nothing)
  resume _ _ _ _ := pure (.value .nothing)
  run _ _ := pure []
  label? _ _ := none

/-- The one source of a group is the task 1. -/
def provided : World (List Value) :=
  mixedWorld #[⟨[(.text "g", .map 1)]⟩, ⟨[(.text "src", .text "@1")]⟩] [(.text "c", .map 0)]

theorem ready_shared : Ready mixed 0 (some 0) Still shared := by
  apply ready_mixed
  · rfl
  · intro cell source found
    match cell, found with
    | 0, found | _ + 3, found => cases found
    | 1, found | 2, found =>
      cases found
      rfl
  · intro cell mapper found
    match cell, found with
    | 0, found | 1, found | _ + 3, found => cases found
    | 2, found =>
      cases found
      exact ⟨_, rfl⟩

theorem ready_unnamed : Ready mixed 0 (some 0) Still unnamed := by
  apply ready_mixed
  · rfl
  · intro cell source found
    match cell, found with
    | 0, found | _ + 2, found => cases found
    | 1, found =>
      cases found
      rfl
  · intro cell mapper found
    match cell, found with
    | 0, found | _ + 2, found => cases found
    | 1, found =>
      cases found
      exact ⟨_, rfl⟩

/-- Readiness alone is not enough. The second group of `shared` is declared, but the collection does not come to
it; a name that cannot be written ends the collection, and so does a provider that registers something. -/
theorem collect_forwards_less :
    (Ready mixed 0 (some 0) Still shared ∧ ¬∃ gs last, (Board.collect mixed 0 (some 0)).run shared = (.ok gs, last) ∧
      List.Forall₂ (Forwarded mixed 0 (some 0) shared last) (shared.declared 0) gs) ∧
    (Ready mixed 0 (some 0) Still unnamed ∧
      ((Board.collect mixed 0 (some 0)).run unnamed).1.toOption = none) ∧
    ((Board.resolveSources meddler 0 (.text "@1")).run provided).1.toOption.isSome = true ∧
      ((Board.collect meddler 0 none).run provided).1.toOption = none := by
  refine ⟨⟨ready_shared, ?_⟩, ⟨ready_unnamed, by decide +kernel⟩, by decide +kernel, by decide +kernel⟩
  rintro ⟨gs, last, ran, forwarded⟩
  have found : ((Board.collect mixed 0 (some 0)).run shared).1.toOption = some [0] := by decide +kernel
  have length : (shared.declared 0).length = 2 := by decide +kernel
  rw [ran] at found
  rw [forwarded.length_eq, Option.some.inj found] at length
  cases length

end Mixed

end TaskBoard
