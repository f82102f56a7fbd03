import TaskBoard.Proofs.Forwarding.Running

/-!
What becomes of a mapper that runs as a task. While it runs the task has one watcher that tells of the
group; when it ends that watcher becomes one job of the loop; when the job is run the value goes to the
receiver, or the failure is logged, and nothing is left that could tell again.
-/

namespace TaskBoard

open Act World

variable {σ : Type}

/-- A group whose mapper runs as a task, and who is told of it in which context. -/
structure Track where
  group : Nat
  name : String
  mapper : Value
  task : Nat
  receiver : Option Nat
  current : Option Nat

/-- How far the task and the telling have come. -/
inductive Stage where
  | running
  | ended (outcome : Outcome)
  | told (outcome : Outcome)

namespace Stage

def outcome? : Stage → Option Outcome
  | running => none
  | ended outcome => some outcome
  | told outcome => some outcome

/-- What may come after a stage. -/
def Leads : Stage → Stage → Prop
  | running, _ => True
  | ended outcome, later => later = ended outcome ∨ later = told outcome
  | told outcome, later => later = told outcome

theorem Leads.refl (stage : Stage) : stage.Leads stage := by
  cases stage with
  | running => trivial
  | ended outcome => exact .inl rfl
  | told outcome => exact rfl

theorem Leads.trans {first second third : Stage} (early : first.Leads second) (late : second.Leads third) :
    first.Leads third := by
  cases first with
  | running => trivial
  | ended outcome =>
    rcases early with rfl | rfl
    · exact late
    · exact .inr late
  | told outcome =>
    cases early
    exact late

end Stage

namespace Track

def watcher (t : Track) : Watcher := .forward t.group t.receiver t.current

def waiting (t : Track) : Stage → List Watcher
  | .running => [t.watcher]
  | _ => []

def jobs (t : Track) : Stage → List Job
  | .ended _ => [.notify t.task t.watcher]
  | _ => []

/-- What is noted when an outcome is told: a value is delivered, a failure reported. -/
def deedsFor (t : Track) : Outcome → List GroupDeed
  | .value v => (t.receiver.map fun id => .delivered t.group id v).toList
  | .failed failure => [.reported t.group t.name failure]
  | .cancelled => []

def deeds (t : Track) : Stage → List GroupDeed
  | .told outcome => .mapped t.group t.mapper :: t.deedsFor outcome
  | _ => [.mapped t.group t.mapper]

/-- What telling of an outcome comes to. A value is handed to the receiver, if there is one, in the context that held
when the task was made, right after that is noted; a failure is noted and logged. -/
def Tells (code : UserCode σ) (t : Track) : Outcome → World σ → World σ → Prop
  | .cancelled, w, after => after = w
  | .failed failure, w, after => after = { w with
      past := .reported t.group t.name failure :: w.past
      log := w.log.push ⟨.error, Loop.failedMapper t.name, some failure⟩ }
  | .value v, w, after =>
    match t.receiver with
    | none => after = w
    | some id => after = ((inContext t.current (Board.callUser code id [v])).run
        { w with past := .delivered t.group id v :: w.past }).2

/-- The world has come to a stage. -/
structure At (t : Track) (stage : Stage) (w : World σ) : Prop where
  born : t.group < w.groups.size
  name : (w.group t.group).name = .text t.name
  pending : (w.group t.group).pending = some t.task
  known : t.task < w.tasks.size
  outcome : (w.task t.task).outcome = stage.outcome?
  waiting : (w.task t.task).telling t.group = t.waiting stage
  others : ∀ id, id ≠ t.task → (w.task id).telling t.group = []
  jobs : w.telling t.group = t.jobs stage
  deeds : w.deedsOf t.group = t.deeds stage

variable {t : Track} {stage : Stage} {w after : World σ}

theorem At.books (stands : t.At stage w) (books : Books (· = t.group) w after) : t.At stage after where
  born := Nat.lt_of_lt_of_le stands.born books.groups
  name := by rw [books.group t.group rfl, stands.name]
  pending := by rw [books.group t.group rfl, stands.pending]
  known := Nat.lt_of_lt_of_le stands.known books.tasks
  outcome := by
    have before := stands.outcome
    have waiting := stands.waiting
    cases stage with
    | running =>
      have tells : (w.task t.task).telling t.group ≠ [] := by simp [waiting, Track.waiting]
      rw [books.waiting t.group rfl t.task tells, before]
    | ended outcome => exact books.ended t.task stands.known outcome before
    | told outcome => exact books.ended t.task stands.known outcome before
  waiting := by rw [books.watchers t.group rfl, stands.waiting]
  others id other := by rw [books.watchers t.group rfl, stands.others id other]
  jobs := by rw [books.telling t.group rfl, stands.jobs]
  deeds := by rw [books.deeds t.group rfl, stands.deeds]

theorem At.minds (stands : t.At stage w) (minds : Minds w after) : t.At stage after :=
  stands.books (minds.mono fun g same => by rw [same]; exact stands.born)

/-- Once no job waits that would tell of the group, what has ended is told. -/
theorem At.told_of_quiet (stands : t.At stage w) (quiet : w.telling t.group = []) {outcome : Outcome}
    (ended : (w.task t.task).outcome = some outcome) : stage = .told outcome := by
  have jobs := stands.jobs
  have same := stands.outcome
  rw [quiet] at jobs
  rw [ended] at same
  cases stage with
  | running => cases same
  | ended other => cases jobs
  | told other =>
    cases same
    rfl

/-- The task ends: the one job that will tell of the group is queued. -/
theorem At.finish (stands : t.At .running w) (running : w.loop.isSome = true) (outcome : Outcome) :
    t.At (.ended outcome) ((Loop.finish t.task outcome).run w).2 := by
  obtain ⟨l, loop⟩ := Option.isSome_iff_exists.mp running
  rw [Loop.run_finish]
  have self := task_setTask_self { w.task t.task with outcome := some outcome, watchers := [] } stands.known
  refine ⟨stands.born, stands.name, stands.pending, ?_, ?_, ?_, ?_, ?_, stands.deeds⟩
  · simpa using stands.known
  · exact (congrArg Task.outcome self).trans rfl
  · exact (congrArg (fun task : Task => task.telling t.group) self).trans rfl
  · intro other different
    have same := task_setTask_other w { w.task t.task with outcome := some outcome, watchers := [] } different
    exact (congrArg (fun task : Task => task.telling t.group) same).trans (stands.others other different)
  · have queued : ((w.task t.task).watchers.map (Job.notify t.task)).filter (Job.tells t.group) =
        ((w.task t.task).telling t.group).map (Job.notify t.task) := by
      rw [List.filter_map]
      rfl
    have before := stands.jobs
    simp only [World.telling, World.jobs, loop, Option.map_some, Option.getD_some] at before
    simp only [World.telling, World.jobs, loop, Option.map_some, Option.getD_some, List.filter_append, queued,
      before, stands.waiting]
    rfl

/-- What is told of the group is told once and for all. -/
theorem At.told {outcome : Outcome} (stands : t.At (.ended outcome) w) {popped : World σ}
    (groups : popped.groups = w.groups) (tasks : popped.tasks = w.tasks) (silent : popped.telling t.group = [])
    (deeds : popped.deedsOf t.group = t.deeds (.told outcome)) : t.At (.told outcome) popped where
  born := by rw [groups]; exact stands.born
  name := by simp only [World.group, groups]; exact stands.name
  pending := by simp only [World.group, groups]; exact stands.pending
  known := by rw [tasks]; exact stands.known
  outcome := by simp only [World.task, tasks]; exact stands.outcome
  waiting := by simp only [World.task, tasks]; exact stands.waiting
  others id other := by simp only [World.task, tasks]; exact stands.others id other
  jobs := silent
  deeds := deeds

section Telling

variable {code : UserCode σ} {outcome : Outcome} {popped : World σ}

theorem tells_forward (name : (popped.group t.group).name = .text t.name) :
    t.Tells code outcome popped ((Loop.forward code t.group t.receiver t.current outcome).run popped).2 := by
  unfold Tells Loop.forward
  cases outcome with
  | cancelled => rfl
  | failed failure =>
    rw [run_bind_ok (run_get popped), name]
    rfl
  | value v =>
    cases t.receiver with
    | none => rfl
    | some id =>
      have noted : (note (.delivered t.group id v)).run popped =
          (.ok ⟨⟩, { popped with past := .delivered t.group id v :: popped.past }) := rfl
      dsimp only
      rw [run_bind_ok noted, world_bind_pure]

/-- Telling of the group delivers a value, or reports a failure, and nothing else. -/
theorem At.forward (tame : code.Tame) (stands : t.At (.ended outcome) w) (groups : popped.groups = w.groups)
    (tasks : popped.tasks = w.tasks) (past : popped.past = w.past) (silent : popped.telling t.group = []) :
    t.At (.told outcome)
      ((Loop.forward code t.group t.receiver t.current outcome).run popped).2 := by
  have before : popped.deedsOf t.group = [.mapped t.group t.mapper] := by
    simp only [deedsOf, past]
    exact stands.deeds
  cases outcome with
  | cancelled => exact stands.told groups tasks silent before
  | failed failure =>
    have name : (popped.group t.group).name = .text t.name := by
      simp only [World.group, groups]
      exact stands.name
    unfold Loop.forward
    rw [run_bind_ok (run_get popped), name]
    refine stands.told groups tasks silent ?_
    refine (deedsOf_cons_self (w := popped) (.reported t.group t.name failure) rfl).trans ?_
    change popped.deedsOf t.group ++ _ = _
    rw [before]
    rfl
  | value v =>
    unfold Loop.forward
    cases receiver : t.receiver with
    | none =>
      refine stands.told groups tasks silent ?_
      simp [before, Track.deeds, Track.deedsFor, receiver]
    | some id =>
      have told : t.At (.told (.value v)) { popped with past := .delivered t.group id v :: popped.past } := by
        refine stands.told groups tasks silent ?_
        refine (deedsOf_cons_self (w := popped) (.delivered t.group id v) rfl).trans ?_
        change popped.deedsOf t.group ++ _ = _
        rw [before]
        simp [Track.deeds, Track.deedsFor, receiver]
      have minds : Keeps Minds (do
          let _ ← inContext t.current (Board.callUser code id [v]) : Act σ Unit) :=
        Keeps.bind (minds_inContext t.current (Board.keeps_callUser tame.carries id [v])) fun _ => Keeps.pure _
      exact told.minds (minds _)

end Telling

end Track

end TaskBoard
