import TaskBoard.Loop.Run
import TaskBoard.Proofs.Dispatching

/-!
What the loop keeps. Whatever the loop does itself happens beside the rest of the world: in the tasks and
routines, the queue, the context and the log, and in the past when it tells of a mapper. So a relation that
stretches of user code keep, and this telling, and for which the rest does not count, is kept by every run,
however long it is and whoever else runs meanwhile.
-/

namespace TaskBoard

open Act

variable {σ : Type}

/-- A world that differs from another at most in what the loop, its tasks and the log have of it. -/
def World.Beside (w after : World σ) : Prop :=
  after = { w with past := after.past, routines := after.routines, tasks := after.tasks, loop := after.loop,
                   current := after.current, log := after.log }

theorem World.Beside.reads {α : Type} {w after : World σ} (beside : World.Beside w after) (read : World σ → α) :
    read after = read { w with past := after.past, routines := after.routines, tasks := after.tasks,
                               loop := after.loop, current := after.current, log := after.log } :=
  congrArg read beside

/-- A relation that is kept by whatever jobs of the loop do: by stretches of user code, by telling what has become of
a mapper, and by all that happens beside the world and its past. -/
structure Loops (code : UserCode σ) (R : World σ → World σ → Prop) : Prop where
  resume : ∀ id args stretch result, Keeps R (code.resume id args stretch result)
  forward : ∀ group receiver current outcome, Keeps R (Loop.forward code group receiver current outcome)
  beside : ∀ w after, World.Beside w after → after.past = w.past → R w after

/-- A relation that user code keeps, and that holds between a world and any other beside it. -/
structure Drives (code : UserCode σ) (R : World σ → World σ → Prop) : Prop where
  call : ∀ id args, Keeps R (code.call id args)
  resume : ∀ id args stretch result, Keeps R (code.resume id args stretch result)
  beside : ∀ w after, World.Beside w after → R w after

variable {code : UserCode σ} {R : World σ → World σ → Prop}

namespace Loops

variable {α : Type} (loops : Loops code R)
include loops

theorem modify {change : World σ → World σ} (kept : ∀ w, World.Beside w (change w) ∧ (change w).past = w.past) :
    Keeps R (modify change : Act σ PUnit) := fun w => loops.beside w _ (kept w).1 (kept w).2

theorem modifyGet {change : World σ → α × World σ}
    (kept : ∀ w, World.Beside w (change w).2 ∧ (change w).2.past = w.past) :
    Keeps R (modifyGet change : Act σ α) := fun w => loops.beside w _ (kept w).1 (kept w).2

theorem within [IsTrans (World σ) R] (current : Option Nat) {act : Act σ α} (kept : Keeps R act) :
    Keeps R (within current act) := by
  intro w
  have entered : R w { w with current := current } := loops.beside w _ rfl rfl
  have inside := trans_of R entered (kept { w with current := current })
  have left : World.Beside (act.run { w with current := current }).2 ((Act.within current act).run w).2 := rfl
  exact trans_of R inside (loops.beside _ _ left rfl)

end Loops

namespace Drives

variable {α : Type} (drives : Drives code R)
include drives

theorem modify {change : World σ → World σ} (kept : ∀ w, World.Beside w (change w)) :
    Keeps R (modify change : Act σ PUnit) := fun w => drives.beside w _ (kept w)

theorem modifyGet {change : World σ → α × World σ} (kept : ∀ w, World.Beside w (change w).2) :
    Keeps R (modifyGet change : Act σ α) := fun w => drives.beside w _ (kept w)

theorem log (severity : Severity) (text : String) : Keeps R (log severity text : Act σ Unit) :=
  drives.modify fun _ => rfl

theorem note (deed : GroupDeed) : Keeps R (note deed : Act σ Unit) := drives.modify fun _ => rfl

theorem newRoutine (body : RoutineBody) : Keeps R (newRoutine body : Act σ Value) :=
  drives.modifyGet fun _ => rfl

section Trans

variable [IsTrans (World σ) R]

theorem inContext (current : Option Nat) {act : Act σ α} (kept : Keeps R act) : Keeps R (inContext current act) := by
  intro w
  have entered : R w { w with current := current } := drives.beside w _ rfl
  have inside := trans_of R entered (kept { w with current := current })
  have left : World.Beside (act.run { w with current := current }).2 ((Act.inContext current act).run w).2 := rfl
  exact trans_of R inside (drives.beside _ _ left)

theorem carries : Carries code R where
  call := drives.call
  routine := drives.newRoutine
  context current _ kept := drives.inContext current kept
  log severity text _ := drives.log severity text

theorem loops [Std.Refl R] : Loops code R where
  resume := drives.resume
  beside w after beside _ := drives.beside w after beside
  forward group receiver current outcome := by
    cases outcome with
    | cancelled => exact Keeps.pure _
    | failed failure =>
      refine Keeps.bind Keeps.get fun w => ?_
      split
      · exact Keeps.pure _
      · exact Keeps.bind (drives.note _) fun _ => drives.modify fun _ => rfl
    | value v =>
      cases receiver with
      | none => exact Keeps.pure _
      | some id =>
        have call := drives.inContext current (Board.keeps_callUser drives.carries id [v])
        exact Keeps.bind (drives.note _) fun _ => Keeps.bind call fun _ => Keeps.pure _

end Trans

end Drives

namespace Loop

section Books

variable (loops : Loops code R)
include loops

theorem keeps_setCurrent (current : Option Nat) : Keeps R (setCurrent current : Act σ Unit) :=
  loops.modify fun _ => ⟨rfl, rfl⟩

theorem keeps_queue (job : Job) : Keeps R (queue job : Act σ Unit) := loops.modify fun _ => ⟨rfl, rfl⟩

theorem keeps_setLoop (change : Loop → Loop) : Keeps R (setLoop change : Act σ Unit) :=
  loops.modify fun _ => ⟨rfl, rfl⟩

theorem keeps_watch (id : Nat) (watcher : Watcher) : Keeps R (watch id watcher : Act σ Unit) := by
  apply loops.modify
  intro w
  dsimp only
  split <;> exact ⟨rfl, rfl⟩

theorem keeps_finish (id : Nat) (outcome : Outcome) : Keeps R (finish id outcome : Act σ Unit) := by
  intro w
  rw [run_finish]
  exact loops.beside _ _ rfl rfl

theorem keeps_cancel (id : Nat) : Keeps R (cancel id : Act σ Bool) := by
  apply loops.modifyGet
  intro w
  dsimp only
  split <;> exact ⟨rfl, rfl⟩

theorem keeps_takeSignal (id : Nat) : Keeps R (takeSignal id : Act σ Signal) := by
  apply loops.modifyGet
  intro w
  dsimp only
  split
  · split <;> exact ⟨rfl, rfl⟩
  · exact ⟨rfl, rfl⟩

theorem keeps_nextJob : Keeps R (nextJob : Act σ (Option Job)) := by
  apply loops.modifyGet
  intro w
  split
  · exact ⟨rfl, rfl⟩
  · split <;> exact ⟨rfl, rfl⟩

theorem keeps_makeTask (r : Nat) : Keeps R (makeTask r : Act σ Nat) := fun w => loops.beside w _ rfl rfl

end Books

variable [Std.Refl R] [IsTrans (World σ) R] (loops : Loops code R)
include loops

omit [IsTrans (World σ) R] in
theorem keeps_beginRoutine (r : Nat) (frames : List Frame) : Keeps R (beginRoutine r frames : Act σ Progress) := by
  intro w
  unfold beginRoutine
  rw [run_bind_ok (run_get w)]
  dsimp only
  split
  · exact refl_of R w
  · rw [run_bind_ok (run_set w _)]
    split <;> exact loops.beside w _ rfl rfl

theorem keeps_advance (frames : List Frame) (signal : Signal) : Keeps R (advance code frames signal) := by
  match frames, signal with
  | frames, .begin r => exact keeps_beginRoutine loops r frames
  | [], .sent result => exact Keeps.pure _
  | .scope b before :: frames, .sent result =>
    exact Keeps.bind (keeps_setCurrent loops before) fun _ => Keeps.pure _
  | .user id args stretch :: frames, .sent result =>
    apply Keeps.bind (Keeps.attempt (loops.resume id args stretch result))
    intro reply
    split <;> exact Keeps.pure _

theorem keeps_abandon (frames : List Frame) : Keeps R (abandon frames : Act σ Unit) := by
  induction frames with
  | nil => exact Keeps.pure _
  | cons frame frames ih =>
    cases frame with
    | user id args stretch => exact ih
    | scope b before => exact Keeps.bind (keeps_setCurrent loops before) fun _ => ih

theorem keeps_proceed (left : Nat) (frames : List Frame) (signal : Signal) :
    Keeps R (proceed code left frames signal) := by
  induction left generalizing frames signal with
  | zero => exact Keeps.bind (keeps_abandon loops frames) fun _ => Keeps.pure _
  | succ left ih =>
    apply Keeps.bind (keeps_advance loops frames signal)
    intro progress
    cases progress with
    | going frames signal => exact ih frames signal
    | halted halt => exact Keeps.pure halt

theorem keeps_settle (id : Nat) (current : Option Nat) (halt : Halt) :
    Keeps R (settle id current halt : Act σ Unit) := by
  cases halt with
  | paused frames =>
    apply Keeps.bind
    · exact loops.modify fun _ => ⟨rfl, rfl⟩
    · exact fun _ => keeps_queue loops _
  | ended result =>
    exact Keeps.bind Keeps.get fun _ => Keeps.bind (keeps_finish loops id _) fun _ => .unchanged (world_letOut result)

theorem keeps_step (id : Nat) : Keeps R (step code id) := by
  refine Keeps.bind Keeps.get fun w => ?_
  dsimp only
  split
  · apply Keeps.bind (keeps_takeSignal loops id)
    intro signal
    apply Keeps.bind (loops.within _ (keeps_proceed loops code.patience _ signal))
    exact fun ended => keeps_settle loops id ended.2 ended.1
  · exact Keeps.pure _

theorem keeps_notify (id : Nat) (watcher : Watcher) : Keeps R (notify code id watcher) := by
  cases watcher with
  | counted => exact keeps_setLoop loops _
  | last =>
    refine Keeps.bind Keeps.get fun w => ?_
    split
    · exact keeps_setLoop loops _
    · exact Keeps.pure _
  | forward group receiver current =>
    refine Keeps.bind Keeps.get fun w => ?_
    split
    · exact loops.forward group receiver current _
    · exact Keeps.pure _

theorem keeps_runJob (job : Job) : Keeps R (runJob code job) := by
  cases job with
  | step id => exact keeps_step loops id
  | notify id watcher =>
    exact Keeps.bind (Keeps.attempt (keeps_notify loops id watcher)) fun result => Keeps.unchanged (world_letOut result)
  | wake => exact Keeps.pure _
  | halt => exact keeps_setLoop loops _

theorem keeps_runJobs (n : Nat) : Keeps R (runJobs code n) := by
  induction n with
  | zero => exact Keeps.pure _
  | succ n ih =>
    apply Keeps.bind (keeps_nextJob loops)
    intro job
    cases job with
    | none => exact Keeps.pure _
    | some job => exact Keeps.bind (keeps_runJob loops job) fun _ => ih

theorem keeps_turn : Keeps R (turn code) := by
  refine Keeps.bind Keeps.get fun w => ?_
  split
  · exact Keeps.pure _
  · exact keeps_runJobs loops _

theorem keeps_turns (n : Nat) : Keeps R (turns code n) := by
  induction n with
  | zero => exact Keeps.pure _
  | succ n ih => exact Keeps.bind (keeps_turn loops) fun _ => ih

theorem keeps_turnsUntilStop (left : Nat) : Keeps R (turnsUntilStop code left) := by
  induction left with
  | zero => exact Keeps.pure _
  | succ left ih =>
    apply Keeps.bind (keeps_turn loops)
    intro _
    refine Keeps.bind (Keeps.bind Keeps.get fun w => ?_) fun stopping => ?_
    · split <;> exact Keeps.pure _
    · split
      · exact ih
      · exact Keeps.pure _

theorem keeps_cancelAll (ids : List Nat) : Keeps R (cancelAll code ids) := by
  unfold cancelAll
  split
  · apply Keeps.bind (keeps_setLoop loops _)
    intro _
    apply Keeps.bind (Keeps.forM (fun id => Keeps.bind (keeps_cancel loops id) fun _ => Keeps.pure _) ids)
    intro _
    apply Keeps.bind
    · exact Keeps.bind (keeps_setLoop loops _) fun _ => Keeps.forM (fun id => keeps_watch loops id .counted) ids
    · exact fun _ => keeps_turnsUntilStop loops _
  · exact Keeps.pure _

theorem keeps_close (main first : Nat) : Keeps R (close code main first) := by
  refine Keeps.bind (loops.modify fun _ => ⟨rfl, rfl⟩) fun _ => Keeps.bind Keeps.get fun w => ?_
  exact Keeps.bind (keeps_cancelAll loops _) fun _ => keeps_turns loops _

theorem keeps_runToCompletion (r : Nat) : Keeps R (runToCompletion code r) := by
  refine Keeps.bind Keeps.get fun w => Keeps.bind (loops.modify fun _ => ⟨rfl, rfl⟩) fun _ => ?_
  apply Keeps.bind (keeps_makeTask loops r)
  intro main
  apply Keeps.bind (keeps_watch loops main .last)
  intro _
  apply Keeps.bind (Keeps.attempt (keeps_turnsUntilStop loops _))
  intro ran
  apply Keeps.bind (Keeps.attempt (keeps_close loops main _))
  intro closed
  refine Keeps.bind (loops.modify fun _ => ⟨rfl, rfl⟩) fun _ => ?_
  refine Keeps.bind (Keeps.ofExcept closed) fun _ => Keeps.bind (Keeps.ofExcept ran) fun _ => ?_
  refine Keeps.bind (Keeps.bind Keeps.get fun _ => Keeps.pure _) fun outcome => ?_
  cases outcome with
  | value v => exact Keeps.pure v
  | failed failure => exact Keeps.throw failure
  | cancelled => exact Keeps.throw .cancelled

end Loop

end TaskBoard
