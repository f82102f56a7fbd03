import TaskBoard.Loop.Run
import TaskBoard.Proofs.Dispatching
import TaskBoard.Proofs.Context.Nesting

/-!
Runs hold contexts. Every step of a run leaves its frames nested in the context in which the run was made,
and the present context is the one of its frames; so a run that halts has the context that its frames ask
for, and one that ends has the first one back. The loop runs every task in its own context, so nobody
else notices.
-/

namespace TaskBoard

open Act World

variable {σ : Type}

/-- User code that holds contexts in all that it does. -/
structure UserCode.Tidy (code : UserCode σ) : Prop where
  call : ∀ id args, Keeps Holds (code.call id args)
  resume : ∀ id args stretch result, Keeps Holds (code.resume id args stretch result)
  run : ∀ id name, Keeps Holds (code.run id name)

namespace Act

variable {α : Type}

theorem holds_onHeap (f : Heap → Except Failure (α × Heap)) : Keeps Holds (onHeap f : Act σ α) := by
  refine Keeps.bind Keeps.get fun w => ?_
  refine Keeps.bind (Keeps.ofExcept _) fun result => ?_
  exact Keeps.bind (Keeps.modify fun w => .of_same rfl rfl rfl) fun _ => Keeps.pure _

theorem holds_log (severity : Severity) (text : String) : Keeps Holds (log severity text : Act σ Unit) :=
  Keeps.modify fun _ => .of_same rfl rfl rfl

theorem holds_logFailure (text : String) (failure : Failure) :
    Keeps Holds (logFailure text failure : Act σ Unit) :=
  Keeps.modify fun _ => .of_same rfl rfl rfl

theorem holds_note (deed : GroupDeed) : Keeps Holds (note deed : Act σ Unit) :=
  Keeps.modify fun _ => .of_same rfl rfl rfl

theorem holds_newRoutine (body : RoutineBody) : Keeps Holds (newRoutine body : Act σ Value) :=
  Keeps.modifyGet fun w => ⟨(Spares.refl w).pushRoutine _, rfl⟩

/-- An action in a context of its own only has to spare the others. -/
theorem holds_inContext {act : Act σ α} (current : Option Nat) (spares : Keeps Spares act) :
    Keeps Holds (inContext current act) := fun w => ⟨(spares { w with current := current }).switch, rfl⟩

theorem holds_within {act : Act σ α} (current : Option Nat) (spares : Keeps Spares act) :
    Keeps Holds (within current act) := fun w => ⟨(spares { w with current := current }).switch, rfl⟩

theorem Keeps.spares {act : Act σ α} (holds : Keeps Holds act) : Keeps Spares act :=
  fun w => (holds w).toSpares

end Act

namespace Loop

/-- Where a run may halt. -/
def FitsHalt (made current : Option Nat) : Halt → Prop
  | .paused frames => Nested made frames ∧ current = boardOf made frames
  | .ended _ => current = made

def Fits (made current : Option Nat) : Progress → Prop
  | .going frames _ => Nested made frames ∧ current = boardOf made frames
  | .halted halt => FitsHalt made current halt

variable {code : UserCode σ}

theorem spares_setCurrent (current : Option Nat) : Keeps Spares (setCurrent current : Act σ Unit) :=
  Keeps.modify fun w => (Spares.refl w).of_same rfl rfl

theorem spares_beginRoutine (r : Nat) (frames : List Frame) :
    Keeps Spares (beginRoutine r frames : Act σ Progress) := by
  intro w
  unfold beginRoutine
  rw [run_bind_ok (run_get w)]
  dsimp only
  split
  · exact .refl w
  · rw [run_bind_ok (run_set w _)]
    have begun := (Spares.refl w).beginRoutine r
    split
    · exact begun
    · exact begun.of_same rfl rfl

theorem spares_advance (tidy : code.Tidy) (frames : List Frame) (signal : Signal) :
    Keeps Spares (advance code frames signal) := by
  match frames, signal with
  | frames, .begin r => exact spares_beginRoutine r frames
  | [], .sent result => exact Keeps.pure _
  | .scope b before :: frames, .sent result =>
    exact Keeps.bind (spares_setCurrent before) fun _ => Keeps.pure _
  | .user id args stretch :: frames, .sent result =>
    apply Keeps.bind (Keeps.attempt (tidy.resume id args stretch result).spares)
    intro reply
    split <;> exact Keeps.pure _

theorem fits_beginRoutine {made : Option Nat} {frames : List Frame} {w : World σ} (r : Nat)
    (nested : Nested made frames) (inside : w.current = boardOf made frames) :
    ∃ progress after, (beginRoutine r frames).run w = (.ok progress, after) ∧
      Fits made after.current progress := by
  unfold beginRoutine
  rw [run_bind_ok (run_get w)]
  dsimp only
  split
  · exact ⟨_, _, rfl, nested, inside⟩
  · rw [run_bind_ok (run_set w _)]
    split
    · exact ⟨_, _, rfl, nested, inside⟩
    · exact ⟨_, _, rfl, ⟨inside, nested⟩, rfl⟩

/-- One step of a run whose frames are nested leaves them nested, with the present context where they are. -/
theorem fits_advance (tidy : code.Tidy) {made : Option Nat} {frames : List Frame} (signal : Signal)
    {w : World σ} (nested : Nested made frames) (inside : w.current = boardOf made frames) :
    ∃ progress after, (advance code frames signal).run w = (.ok progress, after) ∧
      Fits made after.current progress := by
  match frames, signal with
  | frames, .begin r => exact fits_beginRoutine r nested inside
  | [], .sent result => exact ⟨_, _, rfl, inside⟩
  | .scope b before :: frames, .sent result => exact ⟨_, _, rfl, nested.2, nested.1⟩
  | .user id args stretch :: frames, .sent result =>
    have same := (tidy.resume id args stretch result w).current
    rw [inside] at same
    unfold advance runStretch
    rw [run_bind_ok (run_attempt w (code.resume id args stretch result))]
    split
    · exact ⟨_, _, rfl, nested, same⟩
    · exact ⟨_, _, rfl, nested, same⟩
    · exact ⟨_, _, rfl, nested, same⟩
    · exact ⟨_, _, rfl, nested, same⟩

theorem spares_abandon (frames : List Frame) : Keeps Spares (abandon frames : Act σ Unit) := by
  induction frames with
  | nil => exact Keeps.pure _
  | cons frame frames ih =>
    cases frame with
    | user id args stretch => exact ih
    | scope b before => exact Keeps.bind (spares_setCurrent before) fun _ => ih

/-- A run that is given up has the first context back. -/
theorem abandon_restores {made : Option Nat} {frames : List Frame} {w : World σ}
    (nested : Nested made frames) (inside : w.current = boardOf made frames) :
    ∃ after, (abandon frames).run w = (.ok (), after) ∧ after.current = made := by
  induction frames generalizing w with
  | nil => exact ⟨w, rfl, inside⟩
  | cons frame frames ih =>
    cases frame with
    | user id args stretch => exact ih nested inside
    | scope b before =>
      have back : ({ w with current := before } : World σ).current = boardOf made frames := nested.1
      exact ih nested.2 back

theorem spares_proceed (tidy : code.Tidy) (left : Nat) (frames : List Frame) (signal : Signal) :
    Keeps Spares (proceed code left frames signal) := by
  induction left generalizing frames signal with
  | zero => exact Keeps.bind (spares_abandon frames) fun _ => Keeps.pure _
  | succ left ih =>
    apply Keeps.bind (spares_advance tidy frames signal)
    intro progress
    cases progress with
    | going frames signal => exact ih frames signal
    | halted halt => exact Keeps.pure halt

theorem fits_proceed (tidy : code.Tidy) {made : Option Nat} (left : Nat) {frames : List Frame}
    (signal : Signal) {w : World σ} (nested : Nested made frames) (inside : w.current = boardOf made frames) :
    ∃ halt after, (proceed code left frames signal).run w = (.ok halt, after) ∧
      FitsHalt made after.current halt := by
  induction left generalizing frames signal w with
  | zero =>
    obtain ⟨after, ran, back⟩ := abandon_restores nested inside
    refine ⟨.ended (.error .tooDeep), after, ?_, back⟩
    unfold proceed
    rw [run_bind_ok ran]
    rfl
  | succ left ih =>
    obtain ⟨progress, after, ran, fits⟩ := fits_advance tidy signal nested inside
    unfold proceed
    rw [run_bind_ok ran]
    cases progress with
    | going frames signal => exact ih signal fits.1 fits.2
    | halted halt => exact ⟨halt, after, rfl, fits⟩

theorem holds_queue (job : Job) : Keeps Holds (queue job : Act σ Unit) :=
  Keeps.modify fun _ => .of_same rfl rfl rfl

theorem holds_setLoop (change : Loop → Loop) : Keeps Holds (setLoop change : Act σ Unit) :=
  Keeps.modify fun _ => .of_same rfl rfl rfl

theorem holds_makeTask (r : Nat) : Keeps Holds (makeTask r : Act σ Nat) := by
  intro w
  have stands : (⟨[], .begin r, w.current, false, none, []⟩ : Task).StandsOn w.current := .inr ⟨trivial, rfl⟩
  exact ⟨((Spares.refl w).pushTask _ stands).of_same rfl rfl, rfl⟩

theorem holds_watch (id : Nat) (watcher : Watcher) : Keeps Holds (watch id watcher : Act σ Unit) := by
  refine Keeps.modify fun w => ?_
  dsimp only
  split
  · exact .of_same rfl rfl rfl
  · exact ⟨(Spares.refl w).setTask fun made stands => stands.keep (fun ended => ended) rfl rfl, rfl⟩

theorem holds_cancel (id : Nat) : Keeps Holds (cancel id : Act σ Bool) := by
  refine Keeps.modifyGet fun w => ?_
  dsimp only
  split
  · exact .refl w
  · exact ⟨(Spares.refl w).setTask fun made stands => stands.keep (fun ended => ended) rfl rfl, rfl⟩

section Steps

variable {before after : World σ} {id : Nat}

theorem spares_finish (spares : Spares before after) (outcome : Outcome) :
    Spares before ((finish id outcome).run after).2 ∧
      ((finish id outcome).run after).2.current = after.current := by
  have ended : Spares before (after.setTask id { after.task id with outcome := some outcome, watchers := [] }) :=
    spares.setTask fun made _ => Task.standsOn_of_finished rfl made
  rw [run_finish]
  exact ⟨ended.of_same rfl rfl, rfl⟩

theorem spares_settle (spares : Spares before after) {current : Option Nat} {halt : Halt}
    (fits : ∀ made, (before.task id).StandsOn made → FitsHalt made current halt) :
    Spares before ((settle id current halt).run after).2 ∧
      ((settle id current halt).run after).2.current = after.current := by
  cases halt with
  | paused frames =>
    have suspended : Spares before (after.setTask id
        { after.task id with frames := frames, next := .sent (.ok .nothing), current := current }) :=
      spares.setTask fun made stands => .inr (fits made stands)
    exact ⟨suspended.of_same rfl rfl, rfl⟩
  | ended result =>
    rw [world_settle_ended]
    exact spares_finish spares _

theorem holds_takeSignal (id : Nat) : Keeps Holds (takeSignal id : Act σ Signal) := by
  refine Keeps.modifyGet fun w => ?_
  have taken : Spares w (w.setTask id { w.task id with cancelling := false }) :=
    (Spares.refl w).setTask fun made stands => stands.keep (fun ended => ended) rfl rfl
  dsimp only
  split
  · split
    · exact ⟨taken.beginRoutine _, rfl⟩
    · exact ⟨taken, rfl⟩
  · exact .refl w

end Steps

theorem holds_step (tidy : code.Tidy) (id : Nat) : Keeps Holds (step code id) := by
  intro w
  unfold step
  rw [run_bind_ok (run_get w)]
  dsimp only
  split
  next unfinished =>
    obtain ⟨signal, ready, took⟩ : ∃ signal ready, (takeSignal id).run w = (.ok signal, ready) := ⟨_, _, rfl⟩
    have early : Holds w ready := by
      have holds := holds_takeSignal id w
      rwa [took] at holds
    rw [run_bind_ok took]
    have late := holds_within (w.task id).current
      (spares_proceed tidy code.patience (w.task id).frames signal) ready
    rcases ran : (within (w.task id).current (proceed code code.patience (w.task id).frames signal)).run ready with
      ⟨failure | ⟨halt, current⟩, after⟩
    · rw [ran] at late
      rw [run_bind_error ran]
      exact early.trans late
    · rw [ran] at late
      rw [run_bind_ok ran]
      have fits : ∀ made, (w.task id).StandsOn made → FitsHalt made current halt := by
        rintro made (ended | ⟨nested, inside⟩)
        · simp [ended] at unfinished
        · obtain ⟨other, left, proceeded, fits⟩ := fits_proceed tidy code.patience signal nested
            (w := { ready with current := (w.task id).current }) inside
          rw [run_within_ok proceeded] at ran
          cases ran
          exact fits
      obtain ⟨spares, stays⟩ := spares_settle (early.trans late).toSpares fits
      exact ⟨spares, stays.trans (early.trans late).current⟩
  next finished => exact .refl w

end Loop

theorem UserCode.Tidy.carries {code : UserCode σ} (tidy : code.Tidy) : Carries code Holds where
  call := tidy.call
  routine := holds_newRoutine
  context current _ holds := holds_inContext current holds.spares
  log severity text _ := holds_log severity text

namespace Loop

variable {code : UserCode σ}

theorem holds_notify (tidy : code.Tidy) (id : Nat) (watcher : Watcher) :
    Keeps Holds (notify code id watcher) := by
  cases watcher with
  | counted => exact holds_setLoop _
  | last =>
    refine Keeps.bind Keeps.get fun w => ?_
    split
    · exact holds_setLoop _
    · exact Keeps.pure _
  | forward group receiver current =>
    refine Keeps.bind Keeps.get fun w => ?_
    split
    next outcome _ =>
      cases outcome with
      | cancelled => exact Keeps.pure _
      | failed failure =>
        refine Keeps.bind Keeps.get fun w => ?_
        split
        · exact Keeps.pure _
        · exact Keeps.bind (holds_note _) fun _ => holds_logFailure _ _
      | value v =>
        cases receiver with
        | none => exact Keeps.pure _
        | some id =>
          have call := holds_inContext current (Board.keeps_callUser tidy.carries id [v]).spares
          exact Keeps.bind (holds_note _) fun _ => Keeps.bind call fun _ => Keeps.pure _
    next => exact Keeps.pure _

theorem holds_runJob (tidy : code.Tidy) (job : Job) : Keeps Holds (runJob code job) := by
  cases job with
  | step id => exact holds_step tidy id
  | notify id watcher =>
    exact Keeps.bind (Keeps.attempt (holds_notify tidy id watcher)) fun result => Keeps.unchanged (world_letOut result)
  | wake => exact Keeps.pure _
  | halt => exact holds_setLoop _

theorem holds_nextJob : Keeps Holds (nextJob : Act σ (Option Job)) := by
  refine Keeps.modifyGet fun w => ?_
  split
  · exact .refl w
  · split
    · exact .refl w
    · exact .of_same rfl rfl rfl

theorem holds_runUntilWake (tidy : code.Tidy) (left : Nat) : Keeps Holds (runUntilWake code left) := by
  induction left with
  | zero => exact Keeps.pure _
  | succ left ih =>
    apply Keeps.bind holds_nextJob
    intro job
    split
    · exact Keeps.pure _
    · exact Keeps.pure _
    · exact Keeps.bind (holds_runJob tidy _) fun _ => ih

theorem holds_pause (tidy : code.Tidy) : Keeps Holds (pause code) :=
  Keeps.bind (holds_queue _) fun _ => holds_runUntilWake tidy _

theorem holds_runJobs (tidy : code.Tidy) (n : Nat) : Keeps Holds (runJobs code n) := by
  induction n with
  | zero => exact Keeps.pure _
  | succ n ih =>
    apply Keeps.bind holds_nextJob
    intro job
    cases job with
    | none => exact Keeps.pure _
    | some job => exact Keeps.bind (holds_runJob tidy job) fun _ => ih

theorem holds_turn (tidy : code.Tidy) : Keeps Holds (turn code) := by
  refine Keeps.bind Keeps.get fun w => ?_
  split
  · exact Keeps.pure _
  · exact holds_runJobs tidy _

theorem holds_turns (tidy : code.Tidy) (n : Nat) : Keeps Holds (turns code n) := by
  induction n with
  | zero => exact Keeps.pure _
  | succ n ih => exact Keeps.bind (holds_turn tidy) fun _ => ih

theorem holds_isStopping : Keeps Holds (isStopping : Act σ Bool) := by
  refine Keeps.bind Keeps.get fun w => ?_
  split <;> exact Keeps.pure _

theorem holds_turnsUntilStop (tidy : code.Tidy) (left : Nat) : Keeps Holds (turnsUntilStop code left) := by
  induction left with
  | zero => exact Keeps.pure _
  | succ left ih =>
    apply Keeps.bind (holds_turn tidy)
    intro _
    apply Keeps.bind holds_isStopping
    intro stopping
    split
    · exact ih
    · exact Keeps.pure _

section Totality

variable (code)

theorem total_advance (frames : List Frame) (signal : Signal) : Total (advance code frames signal) := by
  match frames, signal with
  | frames, .begin r =>
    apply Total.bind Total.get
    intro w
    dsimp only
    split
    · exact Total.pure _
    · apply Total.bind (Total.set _)
      intro _
      split
      · exact Total.pure _
      · exact Total.bind (Total.modify _) fun _ => Total.pure _
  | [], .sent result => exact Total.pure _
  | .scope b before :: frames, .sent result => exact Total.bind (Total.modify _) fun _ => Total.pure _
  | .user id args stretch :: frames, .sent result =>
    apply Total.bind (Total.attempt _)
    intro reply
    split <;> exact Total.pure _

theorem total_abandon (frames : List Frame) : Total (abandon frames : Act σ Unit) := by
  induction frames with
  | nil => exact Total.pure _
  | cons frame frames ih =>
    cases frame with
    | user id args stretch => exact ih
    | scope b before => exact Total.bind (Total.modify _) fun _ => ih

theorem total_proceed (left : Nat) (frames : List Frame) (signal : Signal) :
    Total (proceed code left frames signal) := by
  induction left generalizing frames signal with
  | zero => exact Total.bind (total_abandon frames) fun _ => Total.pure _
  | succ left ih =>
    apply Total.bind (total_advance code frames signal)
    intro progress
    cases progress with
    | going frames signal => exact ih frames signal
    | halted halt => exact Total.pure halt

end Totality

/-- Somebody who waits for a run has the context back in which it was made, whatever the run ends with. -/
theorem waitFor_restores (tidy : code.Tidy) {made : Option Nat} (left : Nat) {frames : List Frame}
    (signal : Signal) {w : World σ} (nested : Nested made frames) (inside : w.current = boardOf made frames) :
    Spares w ((waitFor code left frames signal).run w).2 ∧
      ((waitFor code left frames signal).run w).2.current = made := by
  induction left generalizing frames signal w with
  | zero =>
    obtain ⟨after, ran, back⟩ := abandon_restores nested inside
    have spares := spares_abandon frames w
    rw [ran] at spares
    unfold waitFor
    rw [run_bind_ok ran]
    exact ⟨spares, back⟩
  | succ left ih =>
    obtain ⟨halt, after, ran, fits⟩ := fits_proceed tidy code.patience signal nested inside
    have early := spares_proceed tidy code.patience frames signal w
    rw [ran] at early
    unfold waitFor
    rw [run_bind_ok ran]
    cases halt with
    | ended result => exact ⟨early, fits⟩
    | paused frames =>
      have others := holds_pause tidy after
      dsimp only
      rw [run_bind_ok (run_attempt after (pause code))]
      cases ((pause code).run after).1 with
      | error failure =>
        obtain ⟨left, abandoned, back⟩ := abandon_restores fits.1 (others.current.trans fits.2)
        have spares := spares_abandon frames ((pause code).run after).2
        rw [abandoned] at spares
        dsimp only
        rw [run_bind_ok abandoned]
        exact ⟨(early.trans others.toSpares).trans spares, back⟩
      | ok _ =>
        obtain ⟨late, back⟩ := ih (.sent (.ok .nothing)) fits.1 (others.current.trans fits.2)
        exact ⟨(early.trans others.toSpares).trans late, back⟩

theorem holds_waitRoutine (tidy : code.Tidy) (r : Nat) : Keeps Holds (waitRoutine code r) := by
  intro w
  obtain ⟨spares, back⟩ := waitFor_restores tidy code.patience (.begin r) (show Nested w.current [] from trivial) rfl
  exact ⟨spares, back⟩

theorem holds_countTasks (ids : List Nat) (halting : Bool) :
    Keeps Holds (countTasks ids halting : Act σ Unit) :=
  Keeps.bind (holds_setLoop _) fun _ => Keeps.forM (fun id => holds_watch id .counted) ids

theorem holds_cancelAll (tidy : code.Tidy) (ids : List Nat) : Keeps Holds (cancelAll code ids) := by
  unfold cancelAll
  split
  · refine Keeps.bind (holds_setLoop _) fun _ => Keeps.bind ?_ fun _ => Keeps.bind (holds_countTasks _ _) fun _ =>
      holds_turnsUntilStop tidy _
    exact Keeps.forM (fun id => Keeps.bind (holds_cancel id) fun _ => Keeps.pure _) ids
  · exact Keeps.pure _

theorem holds_outcomeOf (id : Nat) : Keeps Holds (outcomeOf id : Act σ Outcome) :=
  Keeps.bind Keeps.get fun _ => Keeps.pure _

theorem holds_waitAll (tidy : code.Tidy) (ids : List Nat) : Keeps Holds (waitAll code ids) := by
  unfold waitAll
  split
  · exact Keeps.bind (holds_countTasks _ _) fun _ => Keeps.bind (holds_runUntilWake tidy _) fun _ =>
      Keeps.mapM holds_outcomeOf ids
  · exact Keeps.mapM holds_outcomeOf ids

theorem holds_close (tidy : code.Tidy) (main first : Nat) : Keeps Holds (close code main first) := by
  have unwatched : Keeps Holds (unwatch main .last : Act σ Unit) := Keeps.modify fun w =>
    ⟨(Spares.refl w).setTask fun made stands => stands.keep (fun ended => ended) rfl rfl, rfl⟩
  refine Keeps.bind unwatched fun _ => Keeps.bind Keeps.get fun w => ?_
  exact Keeps.bind (holds_cancelAll tidy _) fun _ => holds_turns tidy _

theorem holds_runToCompletion (tidy : code.Tidy) (r : Nat) : Keeps Holds (runToCompletion code r) := by
  refine Keeps.bind Keeps.get fun w => ?_
  refine Keeps.bind (Keeps.modify fun w => .of_same rfl rfl rfl) fun _ => ?_
  apply Keeps.bind (holds_makeTask r)
  intro main
  apply Keeps.bind (holds_watch main .last)
  intro _
  apply Keeps.bind (Keeps.attempt (holds_turnsUntilStop tidy _))
  intro ran
  apply Keeps.bind (Keeps.attempt (holds_close tidy main _))
  intro closed
  refine Keeps.bind (Keeps.modify fun w => .of_same rfl rfl rfl) fun _ => ?_
  refine Keeps.bind (Keeps.ofExcept closed) fun _ => Keeps.bind (Keeps.ofExcept ran) fun _ => ?_
  apply Keeps.bind (holds_outcomeOf main)
  intro outcome
  cases outcome with
  | value v => exact Keeps.pure v
  | failed failure => exact Keeps.throw failure
  | cancelled => exact Keeps.throw .cancelled

end Loop

end TaskBoard
