import TaskBoard.Proofs.Running.Stepping

/-!
Running a routine to its end in a loop of its own. The loop has the one task, turn by turn, until it gives its
value; then the loop stops with nothing left to be cancelled, and the value is handed back.
-/

namespace TaskBoard

open Act World

variable {σ ι : Type}

namespace Loop

/-- A loop whose only job is the next step of its only new task, which is to give a value. -/
structure Sole (code : UserCode σ) (p : Promise σ ι) (n : Nat) (own : Nat → Prop) (main : Nat) (w : World σ) : Prop where
  loop : ∃ l, w.loop = some l ∧ l.ready = [.step main] ∧ l.stopping = false
  newest : w.tasks.size = main + 1
  watchers : (w.task main).watchers = [.last]
  owes : (w.task main).Owes code p n own w
  fits : p.scope.around w

/-- A loop whose task has given its value, with the jobs that still wait in it. -/
structure Over (p : Promise σ ι) (main : Nat) (jobs : List Job) (stopping : Bool) (w : World σ) : Prop where
  loop : ∃ l, w.loop = some l ∧ l.ready = jobs ∧ l.stopping = stopping
  newest : w.tasks.size = main + 1
  value : ∃ v, (w.task main).outcome = some (.value v) ∧ p.shows w v p.due
  fits : p.scope.around w

variable {code : UserCode σ} {p : Promise σ ι} {n : Nat} {own : Nat → Prop}
  {main : Nat} {w mid : World σ} {l : Loop}

theorem run_turn_idle (loop : w.loop = some l) (ready : l.ready = []) : (turn code).run w = (.ok ⟨⟩, w) := by
  unfold turn
  rw [run_bind_ok (run_get w), loop]
  dsimp only
  rw [ready]
  rfl

theorem run_turns_idle (loop : w.loop = some l) (ready : l.ready = []) (n : Nat) :
    (turns code n).run w = (.ok ⟨⟩, w) := by
  induction n with
  | zero => rfl
  | succ n ih => exact (run_bind_ok (run_turn_idle loop ready)).trans ih

theorem run_turn_single {job : Job} (loop : w.loop = some l) (ready : l.ready = [job])
    (ran : (runJob code job).run { w with loop := some { l with ready := [] } } = (.ok ⟨⟩, mid)) :
    (turn code).run w = (.ok ⟨⟩, mid) := by
  have taken : nextJob.run w = (.ok (some job), { w with loop := some { l with ready := [] } }) := by
    simp [nextJob, loop, ready]
  unfold turn
  rw [run_bind_ok (run_get w), loop]
  dsimp only
  rw [ready, List.length_singleton, runJobs, run_bind_ok taken, run_bind_ok ran]
  rfl

theorem run_turnsUntilStop (left : Nat) (ran : (turn code).run w = (.ok ⟨⟩, mid)) (loop : mid.loop = some l) :
    (turnsUntilStop code (left + 1)).run w =
      if l.stopping then (.ok ⟨⟩, mid) else (turnsUntilStop code left).run mid := by
  have asked : (isStopping : Act σ Bool).run mid = (.ok l.stopping, mid) := by
    unfold isStopping
    rw [run_bind_ok (run_get mid), loop]
    rfl
  rw [turnsUntilStop, run_bind_ok ran, run_bind_ok asked]
  cases l.stopping <;> rfl

section Turning

variable (discreet : code.Discreet p.scope) (preserves : code.Preserves p.scope p.shows) (confined : code.Confined)
include discreet preserves confined

omit confined in
theorem Over.run_turn (finished : Over p main [.notify main .last] false w) :
    ∃ after, (turn code).run w = (.ok ⟨⟩, after) ∧ after.past = w.past ∧ Over p main [] true after := by
  obtain ⟨l, loop, ready, -⟩ := finished.loop
  obtain ⟨v, outcome, given⟩ := finished.value
  let taken : World σ := { w with loop := some { l with ready := [] } }
  let after : World σ := { w with loop := some { l with ready := [], stopping := true } }
  have stops : (runJob code (.notify main .last)).run taken = (.ok ⟨⟩, after) := by
    have stays : (taken.task main).endsLoop = false := by
      unfold Task.endsLoop
      rw [show (taken.task main).outcome = some (.value v) from outcome]
    have told := run_notify_last code main taken
    rw [stays] at told
    exact run_bind_ok (run_attempt_ok told)
  have aside : World.Beside w after := rfl
  refine ⟨after, run_turn_single loop ready stops, rfl, ⟨_, rfl, rfl, rfl⟩, finished.newest, ⟨v, outcome, ?_⟩, ?_⟩
  · exact preserves.beside aside v p.due given
  · exact discreet.aside w after finished.fits aside.aside

theorem Sole.yields_turn (sole : Sole code p n own main w) (enough : n ≤ code.patience) :
    Yields (turn code) w fun _ after => after.past = w.past ∧
      ((∃ m more, m < n ∧ Sole code p m more main after) ∨
        Over p main [.notify main .last] false after) := by
  obtain ⟨l, loop, ready, stopping⟩ := sole.loop
  let taken : World σ := { w with loop := some { l with ready := [] } }
  have aside : World.Beside w taken := rfl
  have owes := sole.owes.later (.aside discreet preserves sole.fits aside rfl)
  have fits : p.scope.around taken := discreet.aside w taken sole.fits aside.aside
  have known : main < w.tasks.size := by
    rw [sole.newest]
    exact Nat.lt_succ_self main
  obtain ⟨⟨⟩, after, ran, quiet, heeds, past, stepped⟩ := yields_step discreet preserves confined owes enough fits
  refine .intro (run_turn_single loop ready ran) ⟨past, ?_⟩
  cases stepped with
  | @waits m t fewer owed watchers tasks queued =>
    have self : after.task main = t := World.task_set_self tasks known
    refine .inl ⟨m, _, fewer, ⟨?_, ?_, ?_, by rw [self]; exact owed, (quiet fits).2⟩⟩
    · exact ⟨_, queued, rfl, stopping⟩
    · rw [tasks, Array.size_setIfInBounds]
      exact sole.newest
    · rw [self, watchers]
      exact sole.watchers
  | @ended v given tasks queued =>
    have self : after.task main = { taken.task main with outcome := some (.value v), watchers := [] } :=
      World.task_set_self tasks known
    refine .inr ⟨?_, ?_, ⟨v, by rw [self], given⟩, (quiet fits).2⟩
    · refine ⟨_, queued, ?_, stopping⟩
      rw [show (taken.task main).watchers = [.last] from sole.watchers]
      rfl
    · rw [tasks, Array.size_setIfInBounds]
      exact sole.newest

/-- The loop goes on until its task has given its value. -/
theorem Sole.yields_turnsUntilStop (sole : Sole code p n own main w) (enough : n ≤ code.patience) {left : Nat}
    (turns : n + 2 ≤ left) :
    Yields (turnsUntilStop code left) w fun _ after => after.past = w.past ∧ Over p main [] true after := by
  -- every turn leaves the task less to do
  induction n using Nat.strongRecOn generalizing own w left with
  | ind n ih =>
    obtain ⟨left, rfl⟩ := Nat.exists_eq_add_of_le' (Nat.le_trans (Nat.le_add_left 2 n) turns)
    obtain ⟨⟨⟩, mid, ran, past, ⟨m, more, fewer, next⟩ | finished⟩ := sole.yields_turn discreet preserves confined enough
    · obtain ⟨l, loop, -, stopping⟩ := next.loop
      have goes := run_turnsUntilStop (left + 1) ran loop
      rw [stopping] at goes
      have shorter : m + 2 ≤ left + 1 := by omega
      obtain ⟨⟨⟩, after, went, later, finished⟩ := ih m fewer next (by omega) shorter
      exact .intro (goes.trans went) ⟨later.trans past, finished⟩
    · obtain ⟨l, loop, -, stopping⟩ := finished.loop
      have goes := run_turnsUntilStop (left + 1) ran loop
      rw [stopping] at goes
      obtain ⟨after, last, told, ended⟩ := finished.run_turn discreet preserves
      obtain ⟨l', loop', -, stopping'⟩ := ended.loop
      have stops := run_turnsUntilStop left last loop'
      rw [stopping'] at stops
      exact .intro (goes.trans stops) ⟨told.trans past, ended⟩

end Turning

theorem Over.unfinished_eq {jobs : List Job} {stopping : Bool} (finished : Over p main jobs stopping w) :
    unfinished main w = [] := by
  obtain ⟨v, outcome, -⟩ := finished.value
  apply List.filter_eq_nil_iff.mpr
  intro id member
  rw [List.mem_range, finished.newest] at member
  rcases Nat.lt_or_eq_of_le (Nat.lt_succ_iff.mp member) with older | rfl
  · simp [Nat.not_le.mpr older]
  · simp [Task.finished, outcome]

/-- A loop that has stopped closes with nothing left to do. -/
theorem Over.run_close {stopping : Bool} (discreet : code.Discreet p.scope) (preserves : code.Preserves p.scope p.shows)
    (finished : Over p main [] stopping w) :
    ∃ after, (close code main main).run w = (.ok ⟨⟩, after) ∧ after.past = w.past ∧ Over p main [] stopping after := by
  obtain ⟨v, outcome, given⟩ := finished.value
  have known : main < w.tasks.size := by
    rw [finished.newest]
    exact Nat.lt_succ_self main
  let t : Task := { w.task main with watchers := (w.task main).watchers.filter (· ≠ .last) }
  let after : World σ := w.setTask main t
  have self : after.task main = t := World.task_set_self rfl known
  have aside : World.Beside w after := rfl
  have unwatched : Over p main [] stopping after := by
    refine ⟨finished.loop, ?_, ⟨v, ?_, preserves.beside aside v p.due given⟩, discreet.aside w after finished.fits aside.aside⟩
    · rw [← finished.newest]
      exact Array.size_setIfInBounds
    · rw [self]
      exact outcome
  obtain ⟨l, loop, ready, -⟩ := unwatched.loop
  have removed : (unwatch main .last).run w = (.ok ⟨⟩, after) := rfl
  refine ⟨after, ?_, rfl, unwatched⟩
  unfold close
  rw [run_bind_ok removed, run_bind_ok (run_get after), unwatched.unfinished_eq]
  exact run_turns_idle loop ready closingTurns

def opening (w : World σ) (r : Nat) : World σ :=
  { w with
    loop := some { ready := [.step w.tasks.size] }
    tasks := w.tasks.push ⟨[], .begin r, w.current, false, none, [.last]⟩ }

theorem run_watch_opening (w : World σ) (r : Nat) :
    (watch w.tasks.size .last).run { w with
      loop := some { ready := [.step w.tasks.size] }
      tasks := w.tasks.push ⟨[], .begin r, w.current, false, none, []⟩ } = (.ok ⟨⟩, opening w r) := by
  rw [run_watch_newest rfl rfl]
  rfl

/-- A routine that returns is run to its end in a loop of its own, which is gone then. -/
theorem yields_runToCompletion (discreet : code.Discreet p.scope) (preserves : code.Preserves p.scope p.shows)
    (confined : code.Confined) {r : Nat} (fits : p.scope.around w) (known : ∀ r, own r → r < w.routines.size)
    (returns : ∀ later, Meanwhile p own w later → later.current = w.current →
      Returns code p n own [] (.begin r) later) (enough : n + 2 ≤ code.patience) :
    Yields (runToCompletion code r) w fun v after => p.shows after v p.due ∧ after.loop = none ∧ after.past = w.past := by
  have aside : World.Beside w (opening w r) := rfl
  have meanwhile : Meanwhile p own w (opening w r) := .aside discreet preserves fits aside rfl
  have main : (opening w r).task w.tasks.size = ⟨[], .begin r, w.current, false, none, [.last]⟩ :=
    World.task_push_newest rfl
  have sole : Sole code p n own w.tasks.size (opening w r) := by
    refine ⟨⟨_, rfl, rfl, rfl⟩, Array.size_push _, by rw [main], ?_, discreet.aside w _ fits aside.aside⟩
    rw [main]
    exact ⟨rfl, rfl, known, fun later further held => returns later (meanwhile.trans further) held⟩
  obtain ⟨⟨⟩, stopped, ran, past, finished⟩ :=
    sole.yields_turnsUntilStop discreet preserves confined (Nat.le_of_add_right_le enough) enough
  obtain ⟨ended, closes, same, closed⟩ := finished.run_close discreet preserves
  obtain ⟨v, outcome, given⟩ := closed.value
  let last : World σ := { ended with loop := none }
  have gone : World.Beside ended last := rfl
  have asked : (outcomeOf w.tasks.size).run last = (.ok (.value v), last) := by
    unfold outcomeOf
    rw [run_bind_ok (run_get last), show last.task w.tasks.size = ended.task w.tasks.size from rfl, outcome]
    rfl
  unfold runToCompletion
  apply Yields.run_bind (run_get w)
  apply Yields.run_bind (run_modify w _)
  apply Yields.run_bind (show (makeTask r).run _ = _ from rfl)
  apply Yields.run_bind (run_watch_opening w r)
  apply Yields.run_bind (run_attempt_ok ran)
  apply Yields.run_bind (run_attempt_ok closes)
  apply Yields.run_bind (run_modify ended _)
  apply Yields.run_bind (run_ofExcept last _)
  apply Yields.run_bind (run_ofExcept last _)
  apply Yields.run_bind asked
  exact .pure ⟨preserves.beside gone v p.due given, rfl, same.trans past⟩

end Loop

end TaskBoard
