import TaskBoard.Proofs.Forwarding.Delivery

/-!
Whatever happens later, in whatever order the loop runs its jobs and whoever asks tasks to end: a group
whose mapper runs as a task only goes forward through its stages.
-/

namespace TaskBoard

open Act World

variable {σ : Type}

/-- What may come after a world: any waiting job is run, any task is asked to end, or something else
happens that minds the books. -/
inductive Later (code : UserCode σ) (first : World σ) : World σ → Prop where
  | stay : Later code first first
  | job {w : World σ} {l : Loop} {front back : List Job} {job : Job} : Later code first w →
    w.loop = some l → l.ready = front ++ job :: back →
    Later code first ((Loop.runJob code job).run { w with loop := some { l with ready := front ++ back } }).2
  | cancel {w : World σ} (id : Nat) : Later code first w → Later code first ((Loop.cancel id).run w).2
  | other {w after : World σ} : Later code first w → Minds w after → Later code first after

theorem Later.trans {code : UserCode σ} {first second third : World σ} (early : Later code first second)
    (late : Later code second third) : Later code first third := by
  induction late with
  | stay => exact early
  | job before loop ready ih => exact ih.job loop ready
  | cancel id before ih => exact ih.cancel id
  | other before minds ih => exact ih.other minds

instance (code : UserCode σ) : Std.Refl (Later code) := ⟨fun _ => .stay⟩

instance (code : UserCode σ) : IsTrans (World σ) (Later code) := ⟨fun _ _ _ => Later.trans⟩

namespace Loop

variable {code : UserCode σ} {α : Type}

theorem later_of_minds {act : Act σ α} (minds : Keeps Minds act) : Keeps (Later code) act :=
  fun w => .other .stay (minds w)

/-- Taking the next job and running it is something that may come later. -/
theorem later_nextJob {quiet : Act σ α} {next : Job → Act σ α} (none : Keeps (Later code) quiet)
    (some : ∀ job w, Later code ((runJob code job).run w).2 ((next job).run w).2) :
    Keeps (Later code) (do
      match ← nextJob with
      | .none => quiet
      | .some job => next job) := by
  intro w
  have stays : nextJob.run w = (.ok .none, w) → Later code w ((nextJob >>= fun
      | .none => quiet
      | .some job => next job).run w).2 := fun ran => by
    rw [run_bind_ok ran]
    exact none w
  cases loop : w.loop with
  | none => exact stays (by simp [nextJob, loop])
  | some l =>
    cases ready : l.ready with
    | nil => exact stays (by simp [nextJob, loop, ready])
    | cons job rest =>
      have ran : nextJob.run w = (.ok (.some job), { w with loop := .some { l with ready := rest } }) := by
        simp [nextJob, loop, ready]
      rw [run_bind_ok ran]
      have runs : Later code w ((runJob code job).run { w with loop := .some { l with ready := [] ++ rest } }).2 :=
        Later.stay.job loop ready
      exact runs.trans (some job _)

theorem later_next {rest : Act σ Unit} (after : Keeps (Later code) rest) (job : Job) (w : World σ) :
    Later code ((runJob code job).run w).2 ((do
      runJob code job
      rest).run w).2 := by
  rcases ran : (runJob code job).run w with ⟨_ | _, ended⟩
  · rw [run_bind_error ran]
    exact .stay
  · rw [run_bind_ok ran]
    exact after ended

theorem later_runJobs (n : Nat) : Keeps (Later code) (runJobs code n) := by
  induction n with
  | zero => exact Keeps.pure _
  | succ n ih => exact later_nextJob (Keeps.pure _) fun job w => later_next ih job w

theorem later_turn : Keeps (Later code) (turn code) := by
  unfold turn
  refine Keeps.bind Keeps.get fun w => ?_
  split
  · exact Keeps.pure _
  · exact later_runJobs _

theorem later_turns (n : Nat) : Keeps (Later code) (turns code n) := by
  induction n with
  | zero => exact Keeps.pure _
  | succ n ih => exact Keeps.bind later_turn fun _ => ih

theorem later_runUntilWake (left : Nat) : Keeps (Later code) (runUntilWake code left) := by
  induction left with
  | zero => exact Keeps.pure _
  | succ left ih =>
    have same : runUntilWake code (left + 1) = (do
        match ← nextJob with
        | none => pure ()
        | some job => if job = .wake then pure () else do
          runJob code job
          runUntilWake code left) := by
      rw [runUntilWake]
      congr
      funext taken
      cases taken with
      | none => rfl
      | some job => cases job <;> rfl
    rw [same]
    apply later_nextJob (Keeps.pure _)
    intro job w
    split
    next wakes =>
      rw [wakes]
      exact .stay
    next => exact later_next ih job w

theorem later_pause : Keeps (Later code) (pause code) := by
  have queues : Keeps Minds (queue .wake : Act σ Unit) := fun w => Minds.queue w fun _ => rfl
  exact Keeps.bind (later_of_minds queues) fun _ => later_runUntilWake code.patience

theorem minds_countTasks (ids : List Nat) (halting : Bool) : Keeps Minds (countTasks ids halting : Act σ Unit) := by
  refine Keeps.bind (Keeps.modify fun w => Minds.setLoop w _ fun _ _ => rfl) fun _ => ?_
  apply Keeps.forM
  intro id
  apply Keeps.modify
  intro w
  dsimp only
  split
  · exact Minds.queue w fun _ => rfl
  · refine Minds.setTask w id ?_ fun g => ?_
    · rfl
    · simp [Task.telling, Watcher.tells]

theorem later_waitAll (ids : List Nat) : Keeps (Later code) (waitAll code ids) := by
  have outcomes : Keeps (Later code) (ids.mapM outcomeOf) := Keeps.mapM (fun id w => .stay) ids
  unfold waitAll
  split
  · have waits : Keeps (Later code) (countTasks ids false) := later_of_minds (minds_countTasks ids false)
    exact Keeps.bind waits fun _ => Keeps.bind (later_runUntilWake code.patience) fun _ => outcomes
  · exact outcomes

end Loop

/-- Nothing waits to tell of a group, and no task will. -/
structure Idle (g : Nat) (w : World σ) : Prop where
  born : g < w.groups.size
  jobs : w.telling g = []
  waiting : ∀ id, (w.task id).telling g = []

section Jobs

variable {code : UserCode σ} {w after : World σ} {l : Loop} {front back : List Job}

theorem World.Books.runs {on : Nat → Prop} (tame : code.Tame) (known : ∀ g, on g → g < w.groups.size)
    {job : Job} (loop : w.loop = some l) (ready : l.ready = front ++ job :: back)
    (silent : ∀ g, on g → job.tells g = false)
    (aside : ∀ id, job = .step id → ∀ g, on g → (w.task id).telling g = []) :
    Books on w ((Loop.runJob code job).run { w with loop := some { l with ready := front ++ back } }).2 := by
  apply (pop loop ready silent).trans
  apply Loop.books_runJob tame
  · exact known
  · exact silent
  · exact aside

/-- Whatever happens, the past only grows, and the failures of mappers are logged as they are noted. -/
theorem Later.ledger (tame : code.Tame) (later : Later code w after) : Ledger w after := by
  induction later with
  | stay => exact .refl w
  | job before loop ready ih =>
    have books : Books (fun _ => False) _ _ :=
      .runs tame (by simp) loop ready (by simp) (by simp)
    exact ih.trans books.ledger
  | cancel id before ih => exact ih.trans (Loop.minds_cancel id _).ledger
  | other before minds ih => exact ih.trans minds.ledger

theorem Idle.books {g : Nat} (idle : Idle g w) (books : Books (· = g) w after) : Idle g after where
  born := Nat.lt_of_lt_of_le idle.born books.groups
  jobs := by rw [books.telling g rfl, idle.jobs]
  waiting id := by rw [books.watchers g rfl, idle.waiting]

theorem World.Minds.about {g : Nat} (minds : Minds w after) (born : g < w.groups.size) : Books (· = g) w after :=
  minds.mono fun other same => by rw [same]; exact born

/-- A group that nobody waits to be told of is left alone by whatever happens. -/
theorem Idle.later {g : Nat} (tame : code.Tame) (idle : Idle g w) (later : Later code w after) :
    Books (· = g) w after := by
  induction later with
  | stay => exact .refl _ w
  | @job mid l front back job before loop ready ih =>
    have still := idle.books ih
    have silent : job.tells g = false := by
      have jobs := still.jobs
      simp only [World.telling, World.jobs, loop, Option.map_some, Option.getD_some, ready] at jobs
      have waits := List.filter_eq_nil_iff.mp jobs job (by simp)
      simpa using waits
    apply ih.trans
    apply World.Books.runs tame ?_ loop ready ?_ ?_
    · rintro other rfl
      exact still.born
    · rintro other rfl
      exact silent
    · rintro id runs other rfl
      exact still.waiting id
  | cancel id before ih => exact ih.trans ((Loop.minds_cancel id _).about (idle.books ih).born)
  | other before minds ih => exact ih.trans (minds.about (idle.books ih).born)

end Jobs

namespace Track

/-- Between two worlds the job that tells of a track is run, and tells of an outcome. -/
inductive Told (code : UserCode σ) (t : Track) (outcome : Outcome) (first last : World σ) : Prop where
  | intro {w after : World σ} {l : Loop} {front back : List Job} (early : Later code first w) (loop : w.loop = some l)
    (ready : l.ready = front ++ .notify t.task t.watcher :: back)
    (runs : ((Loop.runJob code (.notify t.task t.watcher)).run
      { w with loop := some { l with ready := front ++ back } }).2 = after)
    (tells : t.Tells code outcome { w with loop := some { l with ready := front ++ back } } after)
    (late : Later code after last) : Told code t outcome first last

theorem Told.mono {code : UserCode σ} {t : Track} {outcome : Outcome} {first start last after : World σ}
    (told : t.Told code outcome start last) (early : Later code first start) (late : Later code last after) :
    t.Told code outcome first after := by
  obtain ⟨before, loop, ready, runs, tells, since⟩ := told
  exact ⟨early.trans before, loop, ready, runs, tells, since.trans late⟩

variable {code : UserCode σ} {t : Track} {stage : Stage} {w : World σ} {l : Loop} {front back : List Job}

/-- The only job that can tell of the group is the one of a task that has ended. -/
theorem At.own_job (stands : t.At stage w) (loop : w.loop = some l) {job : Job}
    (ready : l.ready = front ++ job :: back) (tells : job.tells t.group = true) :
    job = .notify t.task t.watcher ∧ (∃ outcome, stage = .ended outcome) ∧
      (front ++ back).filter (Job.tells t.group) = [] := by
  have jobs := stands.jobs
  simp only [World.telling, World.jobs, loop, Option.map_some, Option.getD_some, ready, List.filter_append,
    List.filter_cons, tells, if_true] at jobs
  cases stage with
  | running => simp [Track.jobs] at jobs
  | told outcome => simp [Track.jobs] at jobs
  | ended outcome =>
    rw [List.filter_append]
    cases before : front.filter (Job.tells t.group) with
    | nil =>
      rw [before] at jobs
      obtain ⟨same, after⟩ := List.cons.inj jobs
      exact ⟨same, ⟨outcome, rfl⟩, by rw [after]; rfl⟩
    | cons first others =>
      rw [before] at jobs
      have two := congrArg List.length jobs
      simp [Track.jobs] at two

theorem At.step (tame : code.Tame) (stands : t.At stage w) (running : w.loop.isSome = true) :
    ∃ later, stage.Leads later ∧ t.At later ((Loop.step code t.task).run w).2 ∧
      ∀ outcome, later = .told outcome → stage = .told outcome := by
  obtain ⟨mid, minds, same | ⟨unfinished, outcome, same⟩⟩ := Loop.step_ends tame t.task w
  · rw [same]
    exact ⟨stage, .refl stage, stands.minds minds, fun _ => id⟩
  · rw [same]
    have still := stands.minds minds
    have before := stands.outcome
    rw [Task.finished] at unfinished
    cases stage with
    | running => exact ⟨.ended outcome, trivial, still.finish (minds.running running) outcome, fun _ told => by cases told⟩
    | ended other => simp [before, Stage.outcome?] at unfinished
    | told other => simp [before, Stage.outcome?] at unfinished

/-- A job of the loop takes the group forward, if anywhere. -/
theorem At.job (tame : code.Tame) (stands : t.At stage w) (loop : w.loop = some l) {job : Job}
    (ready : l.ready = front ++ job :: back) {after : World σ}
    (runs : ((Loop.runJob code job).run { w with loop := some { l with ready := front ++ back } }).2 = after) :
    ∃ later, stage.Leads later ∧ t.At later after ∧
      ∀ outcome, later = .told outcome → stage = .told outcome ∨ t.Told code outcome w after := by
  subst runs
  cases tells : job.tells t.group with
  | false =>
    have silent : ∀ g, g = t.group → job.tells g = false := by
      rintro g rfl
      exact tells
    by_cases own : job = .step t.task
    · subst own
      obtain ⟨later, leads, there, before⟩ := (stands.books (.pop loop ready silent)).step tame rfl
      exact ⟨later, leads, there, fun outcome told => .inl (before outcome told)⟩
    · refine ⟨stage, .refl stage, stands.books (.runs tame ?_ loop ready silent ?_), fun _ => .inl⟩
      · rintro g rfl
        exact stands.born
      · rintro id rfl g rfl
        exact stands.others id fun same => own (by rw [same])
  | true =>
    obtain ⟨rfl, ⟨outcome, rfl⟩, silent⟩ := stands.own_job loop ready tells
    let popped : World σ := { w with loop := some { l with ready := front ++ back } }
    have ended : (popped.task t.task).outcome = some outcome := stands.outcome
    have forwards : ((Loop.runJob code (.notify t.task t.watcher)).run popped).2 =
        ((Loop.forward code t.group t.receiver t.current outcome).run popped).2 := by
      rw [Loop.world_runJob_notify]
      unfold Track.watcher Loop.notify
      rw [run_bind_ok (run_get popped), ended]
    refine ⟨.told outcome, .inr rfl, ?_, ?_⟩
    · rw [forwards]
      exact stands.forward tame rfl rfl rfl silent
    · rintro _ ⟨⟩
      refine .inr (.intro .stay loop ready rfl ?_ .stay)
      rw [forwards]
      exact tells_forward stands.name

/-- Whatever happens, a group only goes forward, and nobody is told of it but by the job that tells. -/
theorem At.later (tame : code.Tame) (stands : t.At stage w) {after : World σ} (later : Later code w after) :
    ∃ next, stage.Leads next ∧ t.At next after ∧
      ∀ outcome, next = .told outcome → stage = .told outcome ∨ t.Told code outcome w after := by
  induction later with
  | stay => exact ⟨stage, .refl stage, stands, fun _ => .inl⟩
  | @job mid l front back job before loop ready ih =>
    obtain ⟨next, leads, there, told⟩ := ih
    obtain ⟨further, onward, arrived, tells⟩ := there.job tame loop ready rfl
    refine ⟨further, leads.trans onward, arrived, fun outcome last => ?_⟩
    rcases tells outcome last with early | now
    · exact (told outcome early).imp id fun told => told.mono .stay (Later.stay.job loop ready)
    · exact .inr (now.mono before .stay)
  | cancel task before ih =>
    obtain ⟨next, leads, there, told⟩ := ih
    refine ⟨next, leads, there.minds (Loop.minds_cancel task _), fun outcome last => ?_⟩
    exact (told outcome last).imp id fun told => told.mono .stay (Later.stay.cancel task)
  | other before minds ih =>
    obtain ⟨next, leads, there, told⟩ := ih
    refine ⟨next, leads, there.minds minds, fun outcome last => ?_⟩
    exact (told outcome last).imp id fun told => told.mono .stay (Later.stay.other minds)

end Track

end TaskBoard
