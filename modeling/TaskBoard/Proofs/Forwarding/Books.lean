import Mathlib.Order.Defs.Unbundled
import TaskBoard.Loop.Run
import TaskBoard.Proofs.Acting

/-!
The books that the loop keeps about source groups: who waits to be told of a group's mapper, which jobs
will tell, what has happened to the group, and what was logged about it. A change of the world minds the
books on some groups if it leaves all of this alone, lets no task lose its end, and logs the failure of a
mapper only where it is noted.
-/

namespace TaskBoard

/-- A watcher that passes on what becomes of a group's mapper. -/
def Watcher.tells (g : Nat) : Watcher → Bool
  | .forward group _ _ => group == g
  | _ => false

def Job.tells (g : Nat) : Job → Bool
  | .notify _ watcher => watcher.tells g
  | _ => false

def Task.telling (t : Task) (g : Nat) : List Watcher := t.watchers.filter (Watcher.tells g)

/-- The line that a deed has logged. -/
def GroupDeed.line? : GroupDeed → Option LogLine
  | .reported _ name failure => some ⟨.error, Loop.failedMapper name, some failure⟩
  | _ => none

def LogLine.reports (line : LogLine) : Bool :=
  line.severity == .error && "Mapper of ".toList.isPrefixOf line.text.toList

/-- The lines that a past has had logged, the earliest first. -/
def linesOf (past : List GroupDeed) : List LogLine := past.reverse.filterMap GroupDeed.line?

namespace World

variable {σ : Type}

def jobs (w : World σ) : List Job := (w.loop.map (·.ready)).getD []

def telling (w : World σ) (g : Nat) : List Job := w.jobs.filter (Job.tells g)

def reports (w : World σ) : List LogLine := w.log.toList.filter LogLine.reports

def deedsOf (w : World σ) (g : Nat) : List GroupDeed := (w.past.filter (·.group == g)).reverse

/-- Nothing is noted, and nobody waits, about groups that do not exist. -/
structure Sound (w : World σ) : Prop where
  past : ∀ deed ∈ w.past, deed.group < w.groups.size
  telling : ∀ g, w.groups.size ≤ g → w.telling g = []
  watchers : ∀ g, w.groups.size ≤ g → ∀ id, (w.task id).telling g = []

/-- The past only grows, and the failures of mappers that were logged are those that were noted. -/
def Ledger (before after : World σ) : Prop :=
  ∃ news, after.past = news ++ before.past ∧ after.reports = before.reports ++ linesOf news

/-- The books on some groups stay as they are; what has ended elsewhere stays ended, and whatever ends
does not tell of these groups. -/
structure Books (on : Nat → Prop) (before after : World σ) : Prop where
  groups : before.groups.size ≤ after.groups.size
  group : ∀ g, on g → after.group g = before.group g
  tasks : before.tasks.size ≤ after.tasks.size
  ended : ∀ id < before.tasks.size, ∀ outcome, (before.task id).outcome = some outcome →
    (after.task id).outcome = some outcome
  waiting : ∀ g, on g → ∀ id, (before.task id).telling g ≠ [] →
    (after.task id).outcome = (before.task id).outcome
  watchers : ∀ g, on g → ∀ id, (after.task id).telling g = (before.task id).telling g
  telling : ∀ g, on g → after.telling g = before.telling g
  deeds : ∀ g, on g → after.deedsOf g = before.deedsOf g
  ledger : Ledger before after
  running : before.loop.isSome = true → after.loop.isSome = true

/-- The books on all groups that exist stay as they are, and nothing turns up about others. -/
structure Minds (before after : World σ) : Prop extends Books (· < before.groups.size) before after where
  sound : Sound before → Sound after

theorem deedsOf_cons_self {w after : World σ} (deed : GroupDeed) (past : after.past = deed :: w.past) :
    after.deedsOf deed.group = w.deedsOf deed.group ++ [deed] := by
  simp [deedsOf, past]

theorem deedsOf_cons_other {w after : World σ} {deed : GroupDeed} {g : Nat}
    (past : after.past = deed :: w.past) (other : deed.group ≠ g) : after.deedsOf g = w.deedsOf g := by
  simp [deedsOf, past, other]

theorem linesOf_append (late early : List GroupDeed) : linesOf (late ++ early) = linesOf early ++ linesOf late := by
  simp [linesOf]

theorem Ledger.refl (w : World σ) : Ledger w w := ⟨[], rfl, by simp [linesOf]⟩

theorem Ledger.trans {first second third : World σ} (early : Ledger first second) (late : Ledger second third) :
    Ledger first third := by
  obtain ⟨news, past, reports⟩ := early
  obtain ⟨more, pastLater, reportsLater⟩ := late
  refine ⟨more ++ news, ?_, ?_⟩
  · rw [pastLater, past, List.append_assoc]
  · rw [reportsLater, reports, linesOf_append, List.append_assoc]

namespace Books

variable {on : Nat → Prop}

theorem refl (on : Nat → Prop) (w : World σ) : Books on w w where
  groups := Nat.le_refl _
  group _ _ := rfl
  tasks := Nat.le_refl _
  ended _ _ _ same := same
  waiting _ _ _ _ := rfl
  watchers _ _ _ := rfl
  telling _ _ := rfl
  deeds _ _ := rfl
  ledger := .refl w
  running running := running

theorem trans {first second third : World σ} (early : Books on first second) (late : Books on second third) :
    Books on first third where
  groups := Nat.le_trans early.groups late.groups
  group g guarded := (late.group g guarded).trans (early.group g guarded)
  tasks := Nat.le_trans early.tasks late.tasks
  ended id known outcome same :=
    late.ended id (Nat.lt_of_lt_of_le known early.tasks) outcome (early.ended id known outcome same)
  waiting g guarded id waits := by
    have still : (second.task id).telling g ≠ [] := by rwa [early.watchers g guarded id]
    rw [late.waiting g guarded id still, early.waiting g guarded id waits]
  watchers g guarded id := (late.watchers g guarded id).trans (early.watchers g guarded id)
  telling g guarded := (late.telling g guarded).trans (early.telling g guarded)
  deeds g guarded := (late.deeds g guarded).trans (early.deeds g guarded)
  ledger := early.ledger.trans late.ledger
  running running := late.running (early.running running)

theorem mono {few : Nat → Prop} {before after : World σ} (books : Books on before after)
    (fewer : ∀ g, few g → on g) : Books few before after where
  groups := books.groups
  group g guarded := books.group g (fewer g guarded)
  tasks := books.tasks
  ended := books.ended
  waiting g guarded := books.waiting g (fewer g guarded)
  watchers g guarded := books.watchers g (fewer g guarded)
  telling g guarded := books.telling g (fewer g guarded)
  deeds g guarded := books.deeds g (fewer g guarded)
  ledger := books.ledger
  running := books.running

theorem of_same {before after : World σ} (groups : after.groups = before.groups)
    (tasks : after.tasks = before.tasks) (loop : after.loop = before.loop) (past : after.past = before.past)
    (reports : after.reports = before.reports) : Books on before after := by
  have task : ∀ id, after.task id = before.task id := fun id => by simp only [task, tasks]
  refine ⟨?groups, ?group, ?tasks, ?ended, ?waiting, ?watchers, ?telling, ?deeds, ?ledger, ?running⟩
  case groups =>
    exact Nat.le_of_eq (by rw [groups])
  case group =>
    intro g guarded
    simp only [World.group, groups]
  case tasks =>
    exact Nat.le_of_eq (by rw [tasks])
  case ended =>
    intro id known outcome same
    rw [task, same]
  case waiting =>
    intro g guarded id waits
    rw [task]
  case watchers =>
    intro g guarded id
    rw [task]
  case telling =>
    intro g guarded
    simp only [World.telling, jobs, loop]
  case deeds =>
    intro g guarded
    simp only [deedsOf, past]
  case ledger =>
    refine ⟨[], past, ?_⟩
    rw [reports]
    simp [linesOf]
  case running =>
    rw [loop]
    exact fun running => running

theorem setGroup (w : World σ) {g : Nat} (new : Group) (other : ¬on g) : Books on w (w.setGroup g new) := by
  have books := refl on w
  refine ⟨?_, ?_, books.tasks, books.ended, books.waiting, books.watchers, books.telling, books.deeds,
    books.ledger, books.running⟩
  · exact Nat.le_of_eq (size_groups_setGroup w g new).symm
  · intro third guarded
    apply group_setGroup_other
    intro same
    rw [same] at guarded
    exact other guarded

theorem setTask (w : World σ) (id : Nat) {t : Task}
    (ended : ∀ outcome, (w.task id).outcome = some outcome → t.outcome = some outcome)
    (waiting : ∀ g, on g → (w.task id).telling g ≠ [] → t.outcome = (w.task id).outcome)
    (watchers : ∀ g, on g → t.telling g = (w.task id).telling g) : Books on w (w.setTask id t) := by
  have books := refl on w
  have other : ∀ other, other ≠ id → (w.setTask id t).task other = w.task other := fun other different =>
    task_setTask_other w t different
  have self : id < w.tasks.size → (w.setTask id t).task id = t := task_setTask_self t
  have unknown : w.tasks.size ≤ id → (w.setTask id t).task id = w.task id := fun unknown => by
    rw [task_of_unknown unknown, task_of_unknown (by simpa using unknown)]
  refine ⟨books.groups, books.group, ?_, ?_, ?_, ?_, books.telling, books.deeds, books.ledger, books.running⟩
  · exact Nat.le_of_eq (size_tasks_setTask w id t).symm
  · intro third known outcome same
    by_cases own : third = id
    · subst own
      rw [self known]
      exact ended outcome same
    · rw [other third own, same]
  · intro g guarded third waits
    by_cases own : third = id
    · subst own
      rcases Nat.lt_or_ge third w.tasks.size with known | beyond
      · rw [self known]
        exact waiting g guarded waits
      · rw [unknown beyond]
    · rw [other third own]
  · intro g guarded third
    by_cases own : third = id
    · subst own
      rcases Nat.lt_or_ge third w.tasks.size with known | beyond
      · rw [self known]
        exact watchers g guarded
      · rw [unknown beyond]
    · rw [other third own]

theorem setLoop (w : World σ) (change : Loop → Loop)
    (silent : ∀ l g, on g → (change l).ready.filter (Job.tells g) = l.ready.filter (Job.tells g)) :
    Books on w { w with loop := w.loop.map change } := by
  have books := refl on w
  refine ⟨books.groups, books.group, books.tasks, books.ended, books.waiting, books.watchers, ?_, books.deeds,
    books.ledger, ?_⟩
  · intro g guarded
    cases found : w.loop with
    | none => simp [World.telling, jobs, found]
    | some l => simp [World.telling, jobs, found, silent l g guarded]
  · intro running
    simpa using running

theorem note (w : World σ) (deed : GroupDeed) {log : Array LogLine} (other : ¬on deed.group)
    (lines : log.toList.filter LogLine.reports = w.reports ++ linesOf [deed]) :
    Books on w { w with past := deed :: w.past, log := log } := by
  have books := refl on w
  refine ⟨books.groups, books.group, books.tasks, books.ended, books.waiting, books.watchers, books.telling, ?_,
    ⟨[deed], rfl, lines⟩, books.running⟩
  intro g guarded
  apply deedsOf_cons_other rfl
  intro same
  rw [same] at other
  exact other guarded

end Books

theorem telling_pushTask (w : World σ) {t : Task} (silent : t.watchers = []) (g id : Nat) :
    (task { w with tasks := w.tasks.push t } id).telling g = (w.task id).telling g := by
  rcases Nat.lt_trichotomy id w.tasks.size with known | newest | beyond
  · rw [task_push_older rfl known]
  · subst newest
    rw [task_push_newest rfl, task_of_unknown (Nat.le_refl _)]
    simp [Task.telling, silent]
  · have outside : w.tasks.size + 1 ≤ id := beyond
    rw [task_of_unknown (Nat.le_of_lt beyond), task_of_unknown (by simpa using outside)]

namespace Sound

variable {w after : World σ}

theorem unnoted (sound : Sound w) : w.past.filter (·.group == w.groups.size) = [] := by
  apply List.filter_eq_nil_iff.mpr
  intro deed member own
  exact Nat.ne_of_lt (sound.past deed member) (beq_iff_eq.mp own)

theorem of_fewer (sound : Sound w) (groups : w.groups.size ≤ after.groups.size) (past : after.past = w.past)
    (telling : ∀ g, w.groups.size ≤ g → after.telling g = w.telling g)
    (watchers : ∀ g, w.groups.size ≤ g → ∀ id, (after.task id).telling g = (w.task id).telling g) :
    Sound after where
  past deed member := by
    rw [past] at member
    exact Nat.lt_of_lt_of_le (sound.past deed member) groups
  telling g unborn := by
    have before := Nat.le_trans groups unborn
    rw [telling g before, sound.telling g before]
  watchers g unborn id := by
    have before := Nat.le_trans groups unborn
    rw [watchers g before id, sound.watchers g before id]

end Sound

namespace Minds

variable {w after : World σ}

theorem refl (w : World σ) : Minds w w := ⟨.refl _ w, fun sound => sound⟩

theorem trans {first second third : World σ} (early : Minds first second) (late : Minds second third) :
    Minds first third :=
  ⟨early.toBooks.trans (late.toBooks.mono fun _ known => Nat.lt_of_lt_of_le known early.groups),
    fun sound => late.sound (early.sound sound)⟩

instance : Std.Refl (Minds (σ := σ)) := ⟨refl⟩

instance : IsTrans (World σ) Minds := ⟨fun _ _ _ => trans⟩

theorem of_same (groups : after.groups = w.groups) (tasks : after.tasks = w.tasks) (loop : after.loop = w.loop)
    (past : after.past = w.past) (reports : after.reports = w.reports) : Minds w after := by
  refine ⟨.of_same groups tasks loop past reports, fun sound => sound.of_fewer ?_ past ?_ ?_⟩
  · exact Nat.le_of_eq (by rw [groups])
  · intro g unborn
    simp only [World.telling, jobs, loop]
  · intro g unborn id
    simp only [World.task, tasks]

theorem setTask (w : World σ) (id : Nat) {t : Task} (outcome : t.outcome = (w.task id).outcome)
    (telling : ∀ g, t.telling g = (w.task id).telling g) : Minds w (w.setTask id t) := by
  have books : Books (fun _ => True) w (w.setTask id t) :=
    .setTask w id (fun ended known => by rw [outcome, known]) (fun _ _ _ => outcome) fun g _ => telling g
  refine ⟨books.mono fun _ _ => trivial, fun sound => sound.of_fewer (Nat.le_refl _) rfl ?_ ?_⟩
  · exact fun _ _ => rfl
  · exact fun g _ id => books.watchers g trivial id

theorem pushTask (w : World σ) {t : Task} (silent : t.watchers = []) :
    Minds w { w with tasks := w.tasks.push t } := by
  have telling : ∀ g id, (task { w with tasks := w.tasks.push t } id).telling g = (w.task id).telling g :=
    telling_pushTask w silent
  have books := Books.refl (· < w.groups.size) w
  refine ⟨⟨books.groups, books.group, ?_, ?_, ?_, ?_, books.telling, books.deeds, books.ledger, books.running⟩, ?_⟩
  · simp
  · intro id known outcome same
    rw [task_push_older rfl known, same]
  · intro g guarded id waits
    rcases Nat.lt_or_ge id w.tasks.size with known | unknown
    · rw [task_push_older rfl known]
    · rw [task_of_unknown unknown] at waits
      exact absurd rfl waits
  · exact fun g guarded id => telling g id
  · intro sound
    apply sound.of_fewer
    · exact Nat.le_refl _
    · rfl
    · exact fun _ _ => rfl
    · exact fun g _ id => telling g id

theorem pushGroup (w : World σ) (record : Group) : Minds w { w with groups := w.groups.push record } := by
  have books := Books.refl (· < w.groups.size) w
  refine ⟨⟨?_, ?_, books.tasks, books.ended, books.waiting, books.watchers, books.telling, books.deeds,
    books.ledger, books.running⟩, ?_⟩
  · simp
  · exact fun g known => World.group_push_older rfl known
  · intro sound
    apply sound.of_fewer
    · simp
    · rfl
    · exact fun _ _ => rfl
    · exact fun _ _ _ => rfl

theorem setLoop (w : World σ) (change : Loop → Loop)
    (silent : ∀ l g, (change l).ready.filter (Job.tells g) = l.ready.filter (Job.tells g)) :
    Minds w { w with loop := w.loop.map change } := by
  have books : Books (fun _ => True) w { w with loop := w.loop.map change } :=
    .setLoop w change fun l g _ => silent l g
  refine ⟨books.mono fun _ _ => trivial, fun sound => sound.of_fewer (Nat.le_refl _) rfl ?_ ?_⟩
  · exact fun g _ => books.telling g trivial
  · exact fun _ _ _ => rfl

theorem queue (w : World σ) {job : Job} (silent : ∀ g, job.tells g = false) : Minds w (w.queue job) :=
  setLoop w _ fun l g => by simp [silent]

end Minds

end World

end TaskBoard
