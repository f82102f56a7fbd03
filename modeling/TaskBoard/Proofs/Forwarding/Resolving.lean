import TaskBoard.Proofs.Forwarding.Declared
import TaskBoard.Proofs.Forwarding.Handling
import TaskBoard.Proofs.Recording

/-!
Resolving one source group in the course of a collection: its files and its destination are written, its
mapper is called with it, and what that gives is delivered or becomes a task. Meanwhile nothing happens to
the groups that were made before.
-/

namespace TaskBoard

open Act World

variable {σ : Type}

/-- A world in the course of a collection: it agrees with the start about the board, and fits otherwise. -/
structure Stays (b : Nat) (around : World σ → Prop) (start w : World σ) : Prop extends Agrees b start w where
  fits : around w

/-- What a collection relies on. `around` is what else holds meanwhile, of files, user code and the like, and the
collection itself does not get in its way. Sources and destinations resolve, mappers and the receiver return,
and none of them changes what the board declares. -/
structure Ready (code : UserCode σ) (b : Nat) (receiver : Option Nat) (around : World σ → Prop)
    (start : World σ) : Prop where
  tame : code.Tame
  sound : start.Sound
  running : start.loop.isSome = true
  fits : around start
  aside : ∀ w after, around w → Aside (start.Declares b) w after → around after
  sources : ∀ cell, start.Declares b cell → ∀ source, start.heap.sourceAt cell = some source →
    ∃ patterns, Group.patterns start.heap source = .ok patterns ∧ ∀ pattern ∈ patterns,
      ∀ w, Stays b around start w →
        Yields (Board.resolveSources code b pattern) w fun _ after => Stays b around start after
  destinations : ∀ cell, start.Declares b cell → ∀ pattern,
    Group.destinationOf start.heap (.map cell) = .text pattern → ∀ w, Stays b around start w →
      Yields (Board.resolveDestination b (.text pattern)) w fun _ _ => True
  mappers : ∀ cell, start.Declares b cell → ∀ mapper, start.mapperAt b cell = some mapper →
    ∀ w g, Stays b around start w → w.current = some b → g < w.groups.size → (w.group g).data = .map cell →
      Yields (Board.call code mapper [.group g]) w fun _ after => Stays b around start after
  receives : ∀ id, receiver = some id → ∀ v w, Stays b around start w →
    Yields (Board.callUser code id [v]) w fun _ after => Stays b around start after

variable {code : UserCode σ} {b : Nat} {receiver : Option Nat} {around : World σ → Prop} {start : World σ}

namespace Stays

variable {w after : World σ}

theorem books (ready : Ready code b receiver around start) (stays : Stays b around start w)
    {groups : Array Group} {past : List GroupDeed} {routines : Array Routine} {tasks : Array Task}
    {loop : Option Loop} {current : Option Nat} {log : Array LogLine} (running : loop.isSome = true) :
    Stays b around start { w with groups, past, routines, tasks, loop, current, log } :=
  ⟨stays.toAgrees.books running, ready.aside w _ stays.fits (.books w fun _ => running)⟩

theorem newList (ready : Ready code b receiver around start) (proper : Proper b start) (stays : Stays b around start w)
    (items : List Value) : Stays b around start { w with heap := (w.heap.newList items).2 } :=
  ⟨stays.toAgrees.newList proper items, ready.aside w _ stays.fits (.newList w items)⟩

end Stays

/-- A group that is being resolved: nothing has happened to it but `deeds`, and the groups made before it are
as they were in `before`. -/
structure Resolving (b : Nat) (around : World σ → Prop) (start before : World σ) (cell : Nat) (name : String)
    (g : Nat) (deeds : List GroupDeed) (w : World σ) : Prop extends Stays b around start w, Idle g w where
  sound : w.Sound
  books : Books (· < g) before w
  data : (w.group g).data = .map cell
  name : (w.group g).name = .text name
  pending : (w.group g).pending = none
  destination : start.Destined b cell (w.group g).destination
  deeds : w.deedsOf g = deeds

namespace Resolving

variable {before : World σ} {cell : Nat} {name : String} {g : Nat} {deeds : List GroupDeed} {w after : World σ}

theorem step (resolving : Resolving b around start before cell name g deeds w) (stays : Stays b around start after)
    (minds : Minds w after) : Resolving b around start before cell name g deeds after := by
  have about := minds.about resolving.born
  have same : after.group g = w.group g := about.group g rfl
  have books : Books (· < g) w after := minds.mono fun other less => Nat.lt_trans less resolving.born
  refine ⟨stays, resolving.toIdle.books about, minds.sound resolving.sound, resolving.books.trans books, ?_, ?_, ?_,
    ?_, ?_⟩
  · rw [same, resolving.data]
  · rw [same, resolving.name]
  · rw [same, resolving.pending]
  · rw [same]
    exact resolving.destination
  · rw [about.deeds g rfl, resolving.deeds]

theorem edit (ready : Ready code b receiver around start)
    (resolving : Resolving b around start before cell name g deeds w) (files : Nat) {destination : Value}
    (destined : start.Destined b cell destination) :
    Resolving b around start before cell name g deeds
      (w.setGroup g { w.group g with files, destination }) := by
  have self := group_setGroup_self { w.group g with files, destination } resolving.born
  have books : Books (· < g) w (w.setGroup g { w.group g with files, destination }) :=
    .setGroup w _ (Nat.lt_irrefl g)
  refine ⟨?_, ⟨?_, resolving.jobs, resolving.waiting⟩, ?_, resolving.books.trans books, ?_, ?_, ?_, ?_,
    resolving.deeds⟩
  · exact resolving.toStays.books ready resolving.running
  · simpa using resolving.born
  · apply resolving.sound.of_fewer
    · exact Nat.le_of_eq (size_groups_setGroup w g _).symm
    · rfl
    · exact fun _ _ => rfl
    · exact fun _ _ _ => rfl
  · rw [self, resolving.data]
  · rw [self, resolving.name]
  · rw [self, resolving.pending]
  · rw [self]
    exact destined

theorem putEntry (ready : Ready code b receiver around start) (declares : start.Declares b cell)
    (resolving : Resolving b around start before cell name g deeds w) {key v : Value}
    (agrees : Agrees b start { w with heap := w.heap.putEntry cell key v }) :
    Resolving b around start before cell name g deeds { w with heap := w.heap.putEntry cell key v } := by
  have stays : Stays b around start { w with heap := w.heap.putEntry cell key v } :=
    ⟨agrees, ready.aside w _ resolving.fits (.putEntry w declares key v)⟩
  exact resolving.step stays (.of_same rfl rfl rfl rfl rfl)

theorem rebase (resolving : Resolving b around start before cell name g deeds w) :
    Resolving b around start w cell name g deeds w := { resolving with books := .refl _ w }

theorem since (late : Resolving b around start w cell name g deeds after) (books : Books (· < g) before w) :
    Resolving b around start before cell name g deeds after := { late with books := books.trans late.books }

theorem note (ready : Ready code b receiver around start)
    (resolving : Resolving b around start before cell name g deeds w) (deed : GroupDeed) (own : deed.group = g)
    (silent : deed.line? = none) :
    Resolving b around start before cell name g (deeds ++ [deed]) { w with past := deed :: w.past } := by
  have other : ¬deed.group < g := by omega
  have books : Books (· < g) w { w with past := deed :: w.past } :=
    .note w deed other (by simp [linesOf, silent, World.reports])
  refine ⟨?_, ⟨resolving.born, resolving.jobs, resolving.waiting⟩, ⟨?_, resolving.sound.telling,
    resolving.sound.watchers⟩, resolving.books.trans books, resolving.data, resolving.name, resolving.pending,
    resolving.destination, ?_⟩
  · exact resolving.toStays.books ready resolving.running
  · intro other member
    rcases List.mem_cons.mp member with rfl | earlier
    · exact own ▸ resolving.born
    · exact resolving.sound.past other earlier
  · subst own
    rw [deedsOf_cons_self deed rfl, resolving.deeds]

end Resolving

/-- A group that is resolved, and how its mapper was handled. -/
structure Resolved (code : UserCode σ) (b : Nat) (receiver : Option Nat) (around : World σ → Prop)
    (start before : World σ) (cell : Nat) (name : String) (g : Nat) (w : World σ) : Prop
    extends Stays b around start w where
  sound : w.Sound
  books : Books (· < g) before w
  born : g < w.groups.size
  data : (w.group g).data = .map cell
  name : (w.group g).name = .text name
  handled : ∃ handling : Handling, handling.Origin code b receiver g before w (start.mapperAt b cell) ∧
    handling.Begins receiver g w

theorem Resolved.step {before : World σ} {cell : Nat} {name : String} {g : Nat} {w after : World σ}
    (resolved : Resolved code b receiver around start before cell name g w) (stays : Stays b around start after)
    (minds : Minds w after) : Resolved code b receiver around start before cell name g after := by
  have about := minds.about resolved.born
  have same : after.group g = w.group g := about.group g rfl
  have books : Books (· < g) w after := minds.mono fun other less => Nat.lt_trans less resolved.born
  obtain ⟨handling, origin, begins⟩ := resolved.handled
  refine ⟨stays, minds.sound resolved.sound, resolved.books.trans books, ?_, ?_, ?_, handling, ?_, ?_⟩
  · exact Nat.lt_of_lt_of_le resolved.born minds.groups
  · rw [same, resolved.data]
  · rw [same, resolved.name]
  · exact origin.mono (.refl before) minds.ledger
  · exact begins.books about

theorem Resolving.unmapped {before : World σ} {cell : Nat} {name : String} {g : Nat} {w : World σ}
    (resolving : Resolving b around start before cell name g [] w)
    (none : start.mapperAt b cell = none) : Resolved code b receiver around start before cell name g w where
  toStays := resolving.toStays
  sound := resolving.sound
  books := resolving.books
  born := resolving.born
  data := resolving.data
  name := resolving.name
  handled := by
    rw [none]
    exact ⟨.unmapped, .unmapped, resolving.toIdle, resolving.pending, resolving.deeds⟩

namespace Board

section Steps

variable {w : World σ}

theorem yields_log (ready : Ready code b receiver around start)
    (stays : Stays b around start w) (severity : Severity) (text : String) :
    Yields (log severity text) w fun _ after => Stays b around start after :=
  .modify (stays.books ready stays.running)

theorem yields_newRoutine (ready : Ready code b receiver around start)
    (stays : Stays b around start w) (body : RoutineBody) :
    Yields (newRoutine body) w fun _ after => Stays b around start after :=
  .intro (run_modifyGet w _) (stays.books ready stays.running)

theorem yields_callBound (ready : Ready code b receiver around start)
    (stays : Stays b around start w) {cell g : Nat} {mapper : Value} (declares : start.Declares b cell)
    (found : start.mapperAt b cell = some mapper) (born : g < w.groups.size) (data : (w.group g).data = .map cell) :
    Yields (callBound code b mapper [.group g]) w fun _ after => Stays b around start after ∧ Minds w after := by
  have called : Yields (inContext (some b) (call code mapper [.group g])) w
      fun _ after => Stays b around start after := by
    have inside : Stays b around start { w with current := some b } :=
      stays.books ready stays.running
    apply Yields.inContext
    apply (ready.mappers cell declares mapper found _ g inside rfl born data).mono
    intro v after _ still
    exact still.books ready still.running
  have calls : Yields (callBound code b mapper [.group g]) w fun _ after => Stays b around start after := by
    apply called.bind
    intro v after still
    unfold Board.bind
    split
    · exact yields_newRoutine ready still _
    · exact .pure still
  exact calls.keeps (keeps_callBound ready.tame.carries b mapper _)

end Steps

section Parts

variable {before : World σ} {cell : Nat} {name : String} {g : Nat} {deeds : List GroupDeed} {w : World σ}

theorem yields_groupFiles (ready : Ready code b receiver around start)
    (resolving : Resolving b around start before cell name g deeds w)
    (sources : ∀ pattern ∈ (w.group g).source, ∀ w, Stays b around start w →
      Yields (resolveSources code b pattern) w fun _ after => Stays b around start after) :
    Yields (groupFiles code b g) w fun _ after => Resolving b around start before cell name g deeds after := by
  have lists : Yields ((w.group g).source.mapM (resolveSources code b)) w
      fun _ after => Stays b around start after := .mapM sources resolving.toStays
  have minds : Keeps Minds ((w.group g).source.mapM (resolveSources code b)) :=
    Keeps.mapM (fun pattern => keeps_resolveSources ready.tame.carries b pattern) _
  apply Yields.run_bind (run_get w)
  apply (lists.keeps minds).bind
  intro lists after kept
  exact .pure (resolving.step kept.1 kept.2)

theorem yields_setFiles (ready : Ready code b receiver around start) (proper : Proper b start)
    (declares : start.Declares b cell) (resolving : Resolving b around start before cell name g deeds w)
    (files : List Value) :
    Yields (setFiles g files) w fun _ after => Resolving b around start before cell name g deeds after := by
  have grown : Resolving b around start before cell name g deeds { w with heap := (w.heap.newList files).2 } :=
    resolving.step (resolving.toStays.newList ready proper files) (.of_same rfl rfl rfl rfl rfl)
  have made : (Act.newList files).run w =
      (.ok (.list w.heap.lists.size), { w with heap := (w.heap.newList files).2 }) := rfl
  apply Yields.run_bind made
  have edited := grown.edit ready w.heap.lists.size grown.destination
  apply Yields.run_bind (run_modify _ _)
  unfold writeEntry
  apply Yields.run_bind (run_get _)
  rw [edited.data]
  exact .modify (edited.putEntry ready declares (edited.putFiles proper declares _))

theorem destined_of_resolveDestination {pattern : String} {v : Value} {after : World σ}
    (ran : (resolveDestination b (.text pattern)).run w = (.ok v, after)) :
    after = w ∧ (w.board b).mapperOf v = (w.board b).mapperOf (.text pattern) ∧
      ∀ text, v = .text text → text = pattern ∧ (DestinationPattern.parse text).mapper = none := by
  change (resolveDestination b (.text pattern)).run w = (.ok v, after) at ran
  unfold resolveDestination at ran
  cases mapper : (DestinationPattern.parse pattern).mapper with
  | none =>
    simp only [mapper] at ran
    cases ran
    refine ⟨rfl, rfl, ?_⟩
    rintro text same
    cases same
    exact ⟨rfl, mapper⟩
  | some name =>
    simp only [mapper] at ran
    rcases stamped : (versionStamp : Act σ String).run w with ⟨failure | stamp, same⟩
    · rw [run_bind_error stamped] at ran
      cases ran
    · have unchanged : same = w := (congrArg Prod.snd stamped).symm
      subst unchanged
      rw [run_bind_ok stamped, run_bind_ok (run_heap same), run_bind_ok (run_board same b)] at ran
      cases rooted : rootPath same.heap (((same.board b).paths same.heap).at? "des") with
      | error failure =>
        rw [rooted, run_bind_error (run_ofExcept same _)] at ran
        cases ran
      | ok root =>
        rw [rooted, run_bind_ok (run_ofExcept same _)] at ran
        cases ran
        refine ⟨rfl, ?_, ?_⟩
        · simp only [mapperOf, mapper, Option.bind_some]
          cases (after.board b).registry.tasks.at? name <;> rfl
        · intro text same
          cases same

theorem yields_settleDestination (ready : Ready code b receiver around start) (proper : Proper b start)
    (declares : start.Declares b cell) (resolving : Resolving b around start before cell name g deeds w) :
    Yields (settleDestination b g) w fun _ after => Resolving b around start before cell name g deeds after ∧
      ∀ text, (after.group g).destination = .text text → (DestinationPattern.parse text).mapper = none := by
  unfold settleDestination
  apply Yields.run_bind (run_get w)
  split
  next pattern written =>
    have declared := resolving.destination.text pattern written
    obtain ⟨v, after, ran, -⟩ := ready.destinations cell declares pattern declared w resolving.toStays
    obtain ⟨rfl, leads, texts⟩ := destined_of_resolveDestination ran
    have destined : start.Destined b cell v := by
      constructor
      · rw [← resolving.destination.mapper, written, ← resolving.board, leads]
      · intro text same
        rw [(texts text same).1, declared]
    have edited := resolving.edit ready (after.group g).files destined
    have self := group_setGroup_self { after.group g with destination := v } resolving.born
    apply Yields.run_bind ran
    apply Yields.run_bind (run_modify _ _)
    unfold writeEntry
    apply Yields.run_bind (run_get _)
    rw [edited.data]
    refine .modify ⟨edited.putEntry ready declares (edited.putDestination proper declares destined), ?_⟩
    intro text same
    exact (texts text ((congrArg Group.destination self).symm.trans same)).2
  next other =>
    refine .pure ⟨resolving, fun text same => ?_⟩
    exact absurd same (other text)

theorem yields_deliver (ready : Ready code b receiver around start)
    (resolving : Resolving b around start before cell name g deeds w) (v : Value) :
    Yields (deliver code g receiver v) w fun _ after =>
      Receives code receiver g v w after ∧ Resolving b around start before cell name g
        (deeds ++ (receiver.map fun id => GroupDeed.delivered g id v).toList) after := by
  cases receiver with
  | none => exact .pure ⟨rfl, by simpa using resolving⟩
  | some id =>
    have noted := resolving.note ready (.delivered g id v) rfl rfl
    have receives := ready.receives id rfl v _ noted.toStays
    unfold deliver
    apply Yields.run_bind (run_modify w _)
    obtain ⟨given, after, called, stays, minds⟩ := receives.keeps (keeps_callUser ready.tame.carries id [v])
    apply Yields.run_bind called
    exact .pure ⟨⟨given, called⟩, noted.step stays minds⟩

theorem yields_makeTask (ready : Ready code b receiver around start)
    (resolving : Resolving b around start before cell name g deeds w) (r : Nat) :
    Yields (Loop.makeTask r) w fun task after =>
      Resolving b around start before cell name g deeds after ∧ task < after.tasks.size ∧
        (after.task task).outcome = none ∧ (after.task task).watchers = [] := by
  let made : Task := { next := .begin r, current := w.current }
  have makes : (Loop.makeTask r).run w =
      (.ok w.tasks.size, World.queue { w with tasks := w.tasks.push made } (.step w.tasks.size)) := rfl
  have newest : (World.queue { w with tasks := w.tasks.push made } (.step w.tasks.size)).task w.tasks.size = made :=
    World.task_push_newest rfl
  obtain ⟨l, loop⟩ := Option.isSome_iff_exists.mp resolving.running
  refine .intro makes ⟨?_, ?_, ?_, ?_⟩
  · have pushed : Minds w { w with tasks := w.tasks.push made } := .pushTask w rfl
    apply resolving.step _ (pushed.trans (.queue _ fun _ => rfl))
    apply resolving.toStays.books ready
    simp [loop]
  · simp [World.queue]
  · rw [newest]
  · rw [newest]

theorem telling_forwarding {t : Task} {other : Nat} (different : other ≠ g) (receiver current : Option Nat) :
    ({ t with watchers := [.forward g receiver current] } : Task).telling other = [] := by
  simp [Task.telling, Watcher.tells, different.symm]

theorem books_watched {w : World σ} {task : Nat} (alone : (w.task task).watchers = []) (g : Nat)
    (receiver current : Option Nat) :
    Books (· < g) w (w.setTask task { w.task task with watchers := [.forward g receiver current] }) := by
  have before : ∀ other, (w.task task).telling other = [] := fun other => by simp [Task.telling, alone]
  apply Books.setTask w task
  · intro outcome same
    exact same
  · intro other _ waits
    exact absurd (before other) waits
  · intro other less
    rw [before other, telling_forwarding (Nat.ne_of_lt less)]

theorem yields_watch (ready : Ready code b receiver around start) {mapper : Value}
    (resolving : Resolving b around start before cell name g [.mapped g mapper] w) {task : Nat}
    (known : task < w.tasks.size) (unfinished : (w.task task).outcome = none) (alone : (w.task task).watchers = [])
    (current : Option Nat) :
    Yields (do
        Loop.watch task (.forward g receiver current)
        editGroup g fun group => { group with pending := some task }) w fun _ after =>
      Stays b around start after ∧ after.Sound ∧ Books (· < g) w after ∧ (after.group g).data = .map cell ∧
        Track.At ⟨g, name, mapper, task, receiver, current⟩ .running after := by
  let told : Task := { w.task task with watchers := [.forward g receiver current] }
  let watched : World σ := w.setTask task told
  let after : World σ := watched.setGroup g { w.group g with pending := some task }
  have watches : (Loop.watch task (.forward g receiver current)).run w = (.ok ⟨⟩, watched) := by
    rw [Loop.run_watch unfinished, alone]
    rfl
  have self : after.task task = told := task_setTask_self told known
  have other : ∀ {id}, id ≠ task → after.task id = w.task id := fun different => task_setTask_other w told different
  have record : after.group g = { w.group g with pending := some task } :=
    group_setGroup_self (w := watched) { w.group g with pending := some task } resolving.born
  have books : Books (· < g) w watched := books_watched alone g receiver current
  apply Yields.run_bind watches
  have sized : after.groups.size = w.groups.size := size_groups_setGroup watched g _
  refine .modify (?_ : Stays b around start after ∧ after.Sound ∧ Books (· < g) w after ∧
    (after.group g).data = .map cell ∧ Track.At ⟨g, name, mapper, task, receiver, current⟩ .running after)
  refine ⟨?_, ?_, ?_, ?_, ?_⟩
  · exact resolving.toStays.books ready resolving.running
  · apply resolving.sound.of_fewer
    · exact Nat.le_of_eq sized.symm
    · rfl
    · exact fun _ _ => rfl
    · intro later unborn id
      have born : g < later := Nat.lt_of_lt_of_le resolving.born unborn
      by_cases own : id = task
      · subst own
        rw [self, telling_forwarding (Nat.ne_of_gt born), Task.telling, alone]
        rfl
      · rw [other own]
  · exact books.trans (.setGroup watched _ (Nat.lt_irrefl g))
  · rw [record, resolving.data]
  · refine ⟨?_, ?_, ?_, ?_, ?_, ?_, ?_, resolving.jobs, resolving.deeds⟩
    · rw [sized]
      exact resolving.born
    · rw [record, resolving.name]
    · rw [record]
    · simpa [after, watched, World.setGroup] using known
    · rw [self]
      exact unfinished
    · rw [self]
      simp [told, Task.telling, Watcher.tells, Track.waiting, Track.watcher]
    · intro id different
      rw [other different, resolving.waiting id]

theorem yields_schedule (ready : Ready code b receiver around start) {mapper : Value}
    (resolving : Resolving b around start before cell name g [.mapped g mapper] w) (r : Nat) :
    Yields (do
        let task ← schedule code g r receiver
        editGroup g fun group => { group with pending := task }) w fun _ after =>
      Stays b around start after ∧ after.Sound ∧ Books (· < g) w after ∧ (after.group g).data = .map cell ∧
        ∃ (t : Track) (made : World σ), t.group = g ∧ t.name = name ∧ t.mapper = mapper ∧ t.receiver = receiver ∧
          (Loop.makeTask r).run w = (.ok t.task, made) ∧ Ledger made after ∧ t.At .running after := by
  obtain ⟨l, loop⟩ := Option.isSome_iff_exists.mp resolving.running
  obtain ⟨task, made, makes, resting, known, unfinished, alone⟩ := yields_makeTask ready resolving.rebase r
  unfold schedule
  rw [bind_assoc]
  apply Yields.run_bind (run_get w)
  rw [loop, bind_assoc]
  apply Yields.run_bind makes
  rw [bind_assoc]
  apply (yields_watch ready resting known unfinished alone w.current).mono
  rintro ⟨⟩ after _ ⟨stays, sound, books, data, running⟩
  refine ⟨stays, sound, resting.books.trans books, data, ⟨g, name, mapper, task, receiver, w.current⟩, made, ?_⟩
  exact ⟨rfl, rfl, rfl, rfl, makes, books.ledger, running⟩

theorem yields_runMapper (ready : Ready code b receiver around start)
    (declares : start.Declares b cell) (resolving : Resolving b around start before cell name g [] w)
    (settled : ∀ text, (w.group g).destination = .text text → (DestinationPattern.parse text).mapper = none) :
    Yields (runMapper code b g receiver) w fun _ after =>
      Resolved code b receiver around start before cell name g after := by
  have leads := resolving.destination.mapper
  unfold runMapper
  apply Yields.run_bind (run_get w)
  split
  next out mapper written =>
    rw [written] at leads
    simp only [mapperOf] at leads
    split
    next callable =>
      rw [if_pos callable] at leads
      have found := leads.symm
      have noted := resolving.note ready (.mapped g mapper) rfl rfl
      apply Yields.run_bind (run_modify w _)
      obtain ⟨given, returned, called, stays, minds⟩ :=
        yields_callBound ready noted.toStays declares found noted.born noted.data
      have now := noted.step stays minds
      have calls : Called code b g mapper given { w with past := .mapped g mapper :: w.past } returned :=
        ⟨rfl, called⟩
      apply Yields.run_bind called
      split
      next r =>
        apply (yields_schedule ready now r).mono
        rintro ⟨⟩ after _ ⟨stays, sound, books, data, t, made, rfl, rfl, rfl, tells, makes, late, running⟩
        refine ⟨stays, sound, now.books.trans books, running.born, data, running.name, ?_⟩
        rw [found]
        refine ⟨.task t, ?_, rfl, running⟩
        exact .task noted.books.ledger calls makes late rfl tells
      next value plain =>
        have anew := now.rebase
        apply (yields_deliver ready anew given).mono
        rintro ⟨⟩ after _ ⟨handed, delivered⟩
        have ended := delivered.since now.books
        refine ⟨ended.toStays, ended.sound, ended.books, ended.born, ended.data, ended.name, ?_⟩
        rw [found]
        refine ⟨.plain mapper given, ?_, ended.toIdle, ended.pending, ended.deeds⟩
        exact .plain noted.books.ledger calls plain handed (.refl after)
    next callable =>
      rw [if_neg callable] at leads
      exact .pure (resolving.unmapped leads.symm)
  next other =>
    refine .pure (resolving.unmapped ?_)
    rw [← leads]
    cases destination : (w.group g).destination with
    | text text => simp [mapperOf, settled text destination]
    | destination out mapper => exact absurd destination (other out mapper)
    | _ => rfl

end Parts

end Board

end TaskBoard
