import TaskBoard.Proofs.Dispatching
import TaskBoard.Proofs.Forwarding.Books

/-!
What the loop does to the books on groups. User code that minds them makes a run of a task mind them, too;
what a task may change beyond that is its own end. A job that does not tell of a group, and does not run a
task that will, leaves the books on the group as they are.
-/

namespace TaskBoard

open Act World

variable {σ : Type}

/-- User code that leaves the books on the groups that exist alone. -/
structure UserCode.Tame (code : UserCode σ) : Prop where
  call : ∀ id args, Keeps Minds (code.call id args)
  resume : ∀ id args stretch result, Keeps Minds (code.resume id args stretch result)

namespace Act

variable {α : Type}

theorem minds_inContext {act : Act σ α} (current : Option Nat) (minds : Keeps Minds act) :
    Keeps Minds (inContext current act) := by
  intro w
  have entered : Minds w { w with current := current } := Minds.of_same rfl rfl rfl rfl rfl
  have left := minds { w with current := current }
  exact (entered.trans left).trans (Minds.of_same rfl rfl rfl rfl rfl)

theorem minds_within {act : Act σ α} (current : Option Nat) (minds : Keeps Minds act) :
    Keeps Minds (within current act) := by
  intro w
  have entered : Minds w { w with current := current } := Minds.of_same rfl rfl rfl rfl rfl
  have left := minds { w with current := current }
  exact (entered.trans left).trans (Minds.of_same rfl rfl rfl rfl rfl)

end Act

variable {code : UserCode σ}

theorem Act.minds_log (severity : Severity) (text : String) (quiet : severity ≠ .error) :
    Keeps Minds (log severity text : Act σ Unit) := by
  apply Keeps.modify
  intro w
  apply Minds.of_same
  · rfl
  · rfl
  · rfl
  · rfl
  · have silent : LogLine.reports ⟨severity, text, none⟩ = false := by
      cases severity with
      | error => exact absurd rfl quiet
      | debug => rfl
      | info => rfl
      | warning => rfl
    simp [World.reports, silent]

theorem UserCode.Tame.carries (tame : code.Tame) : Carries code Minds where
  call := tame.call
  routine _ := Keeps.modifyGet fun _ => Minds.of_same rfl rfl rfl rfl rfl
  context current _ minds := minds_inContext current minds
  log := minds_log

namespace Loop

theorem minds_setCurrent (current : Option Nat) : Keeps Minds (setCurrent current : Act σ Unit) :=
  Keeps.modify fun _ => Minds.of_same rfl rfl rfl rfl rfl

theorem minds_advance (tame : code.Tame) (frames : List Frame) (signal : Signal) :
    Keeps Minds (advance code frames signal) := by
  match frames, signal with
  | frames, .begin r =>
    intro w
    unfold advance beginRoutine
    rw [run_bind_ok (run_get w)]
    dsimp only
    split
    · exact .refl w
    · rw [run_bind_ok (run_set w _)]
      split
      · exact Minds.of_same rfl rfl rfl rfl rfl
      · exact Minds.of_same rfl rfl rfl rfl rfl
  | [], .sent result => exact Keeps.pure _
  | .scope b before :: frames, .sent result =>
    exact Keeps.bind (minds_setCurrent before) fun _ => Keeps.pure _
  | .user id args stretch :: frames, .sent result =>
    apply Keeps.bind (Keeps.attempt (tame.resume id args stretch result))
    intro reply
    split <;> exact Keeps.pure _

theorem minds_abandon (frames : List Frame) : Keeps Minds (abandon frames : Act σ Unit) := by
  induction frames with
  | nil => exact Keeps.pure _
  | cons frame frames ih =>
    cases frame with
    | user id args stretch => exact ih
    | scope b before => exact Keeps.bind (minds_setCurrent before) fun _ => ih

theorem minds_proceed (tame : code.Tame) (left : Nat) (frames : List Frame) (signal : Signal) :
    Keeps Minds (proceed code left frames signal) := by
  induction left generalizing frames signal with
  | zero => exact Keeps.bind (minds_abandon frames) fun _ => Keeps.pure _
  | succ left ih =>
    apply Keeps.bind (minds_advance tame frames signal)
    intro progress
    cases progress with
    | going frames signal => exact ih frames signal
    | halted halt => exact Keeps.pure halt

theorem minds_cancel (id : Nat) : Keeps Minds (cancel id : Act σ Bool) := by
  apply Keeps.modifyGet
  intro w
  dsimp only
  split
  · exact .refl w
  · exact Minds.setTask w id rfl fun _ => rfl

theorem minds_takeSignal (id : Nat) : Keeps Minds (takeSignal id : Act σ Signal) := by
  apply Keeps.modifyGet
  intro w
  have taken : Minds w (w.setTask id { w.task id with cancelling := false }) :=
    Minds.setTask w id rfl fun _ => rfl
  dsimp only
  split
  · split
    · exact taken.trans (Minds.of_same rfl rfl rfl rfl rfl)
    · exact taken
  · exact .refl w

theorem minds_suspend (id : Nat) (frames : List Frame) (current : Option Nat) :
    Keeps Minds (suspend id frames current : Act σ Unit) := by
  apply Keeps.bind
  · exact Keeps.modify fun w => Minds.setTask w id rfl fun _ => rfl
  · intro _
    exact Keeps.modify fun w => Minds.queue w fun g => rfl

theorem step_ends (tame : code.Tame) (id : Nat) (w : World σ) :
    ∃ mid, Minds w mid ∧ (((step code id).run w).2 = mid ∨
      (w.task id).finished = false ∧ ∃ outcome, ((step code id).run w).2 = ((finish id outcome).run mid).2) := by
  unfold step
  rw [run_bind_ok (run_get w)]
  dsimp only
  split
  next unfinished =>
    have going : (w.task id).finished = false := by simpa using unfinished
    obtain ⟨signal, ready, took⟩ : ∃ signal ready, (takeSignal id).run w = (.ok signal, ready) := ⟨_, _, rfl⟩
    have early := minds_takeSignal id w
    rw [took] at early
    rw [run_bind_ok took]
    have late := minds_within (w.task id).current
      (minds_proceed tame code.patience (w.task id).frames signal) ready
    rcases ran : (within (w.task id).current (proceed code code.patience (w.task id).frames signal)).run ready with
      ⟨failure | ⟨halt, current⟩, after⟩
    · rw [ran] at late
      rw [run_bind_error ran]
      exact ⟨after, Minds.trans early late, .inl rfl⟩
    · rw [ran] at late
      rw [run_bind_ok ran]
      have sofar := Minds.trans early late
      cases halt with
      | paused frames => exact ⟨_, Minds.trans sofar (minds_suspend id frames current after), .inl rfl⟩
      | ended result => exact ⟨after, sofar, .inr ⟨going, _, world_settle_ended id current result after⟩⟩
  next finished => exact ⟨w, .refl w, .inl rfl⟩

end Loop

namespace World.Books

variable {on : Nat → Prop} {w : World σ}

/-- A task that had not ended may end if it tells nothing of the groups. -/
theorem finish {mid : World σ} (books : Books on w mid) {id : Nat} (unfinished : (w.task id).outcome = none)
    (silent : ∀ g, on g → (mid.task id).telling g = []) (outcome : Outcome) :
    Books on w ((Loop.finish id outcome).run mid).2 := by
  rw [Loop.run_finish]
  generalize ended : ({ mid.task id with outcome := some outcome, watchers := [] } : Task) = t
  have other : ∀ {third}, third ≠ id → (mid.setTask id t).task third = mid.task third := fun different =>
    task_setTask_other mid t different
  have cleared : ∀ g, ((mid.setTask id t).task id).telling g = [] := by
    intro g
    rcases Nat.lt_or_ge id mid.tasks.size with known | unknown
    · rw [task_setTask_self t known, ← ended]
      rfl
    · rw [task_of_unknown (by simpa using unknown)]
      rfl
  refine ⟨books.groups, books.group, ?tasks, ?ended, ?waiting, ?watchers, ?telling, books.deeds, books.ledger, ?running⟩
  case tasks =>
    simpa using books.tasks
  case ended =>
    intro third known before same
    by_cases own : third = id
    · subst own
      rw [unfinished] at same
      cases same
    · change ((mid.setTask id t).task third).outcome = some before
      rw [other own]
      exact books.ended third known before same
  case waiting =>
    intro g guarded third waits
    by_cases own : third = id
    · subst own
      rw [← books.watchers g guarded, silent g guarded] at waits
      exact absurd rfl waits
    · change ((mid.setTask id t).task third).outcome = _
      rw [other own]
      exact books.waiting g guarded third waits
  case watchers =>
    intro g guarded third
    rw [← books.watchers g guarded third]
    change ((mid.setTask id t).task third).telling g = _
    by_cases own : third = id
    · subst own
      rw [cleared, silent g guarded]
    · rw [other own]
  case telling =>
    intro g guarded
    rw [← books.telling g guarded]
    have unheard : ((mid.task id).watchers.map (Job.notify id)).filter (Job.tells g) = [] := by
      rw [List.filter_map]
      exact List.map_eq_nil_iff.mpr (silent g guarded)
    cases loop : mid.loop with
    | none => simp [World.telling, jobs, loop]
    | some l => simp [World.telling, jobs, loop, unheard]
  case running =>
    intro running
    simpa using books.running running

theorem pop {l : Loop} {front back : List Job} {job : Job} (loop : w.loop = some l)
    (ready : l.ready = front ++ job :: back) (silent : ∀ g, on g → job.tells g = false) :
    Books on w { w with loop := some { l with ready := front ++ back } } := by
  have books := refl on w
  refine ⟨books.groups, books.group, books.tasks, books.ended, books.waiting, books.watchers, ?_, books.deeds,
    books.ledger, fun _ => rfl⟩
  intro g guarded
  simp [World.telling, jobs, loop, ready, silent g guarded]

end World.Books

namespace Loop

variable {on : Nat → Prop} {w : World σ}

theorem books_forward (tame : code.Tame) (known : ∀ g, on g → g < w.groups.size) {group : Nat}
    (other : ¬on group) (receiver current : Option Nat) (outcome : Outcome) :
    Books on w ((forward code group receiver current outcome).run w).2 := by
  cases outcome with
  | cancelled => exact .refl on w
  | failed failure =>
    unfold forward
    rw [run_bind_ok (run_get w)]
    split
    · exact .refl on w
    next name _ =>
      apply Books.note w (.reported group name failure) other
      simp [World.reports, LogLine.reports, linesOf, GroupDeed.line?, failedMapper]
  | value v =>
    unfold forward
    cases receiver with
    | none => exact .refl on w
    | some id =>
      have noted : Books on w { w with past := .delivered group id v :: w.past } :=
        .note w (.delivered group id v) other (by simp [linesOf, GroupDeed.line?, World.reports])
      have minds : Keeps Minds (do
          let _ ← inContext current (Board.callUser code id [v]) : Act σ Unit) :=
        Keeps.bind (minds_inContext current (Board.keeps_callUser tame.carries id [v])) fun _ => Keeps.pure _
      exact noted.trans ((minds _).mono known)

/-- A job that neither tells of the groups nor runs a task that will leaves the books on them alone. -/
theorem books_runJob (tame : code.Tame) (known : ∀ g, on g → g < w.groups.size) {job : Job}
    (silent : ∀ g, on g → job.tells g = false)
    (aside : ∀ id, job = .step id → ∀ g, on g → (w.task id).telling g = []) :
    Books on w ((runJob code job).run w).2 := by
  cases job with
  | wake => exact .refl on w
  | halt => exact .setLoop w _ fun l g guarded => rfl
  | step id =>
    change Books on w ((step code id).run w).2
    obtain ⟨mid, minds, same | ⟨unfinished, outcome, same⟩⟩ := step_ends tame id w
    · rw [same]
      exact minds.mono known
    · rw [same]
      have books : Books on w mid := minds.mono known
      apply books.finish
      · simpa [Task.finished] using unfinished
      · intro g guarded
        rw [books.watchers g guarded]
        exact aside id rfl g guarded
  | notify id watcher =>
    rw [world_runJob_notify]
    cases watcher with
    | counted =>
      apply Books.setLoop w
      intro l g guarded
      unfold countDown
      split
      · cases l.halting <;> simp [Job.tells]
      · rfl
    | last =>
      rw [run_notify_last]
      dsimp only
      split
      · exact .refl on w
      · exact .setLoop w _ fun l g guarded => rfl
    | forward group receiver current =>
      unfold notify
      rw [run_bind_ok (run_get w)]
      split
      · apply books_forward tame known
        intro guarded
        have tells := silent group guarded
        simp [Job.tells, Watcher.tells] at tells
      · exact .refl on w

end Loop

end TaskBoard
