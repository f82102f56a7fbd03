import TaskBoard.Proofs.Running.Returning

/-!
A task whose routine returns. Whenever it goes on it comes closer to its end, or it ends with its value; all
that it changes beside the rest of the world is its own record, its own routines and the end of the queue.
-/

namespace TaskBoard

open Act World

variable {σ ι : Type}

/-- A task that is to give a value: it has not ended, nobody has asked it to, and its run returns whenever it
goes on. -/
structure Task.Owes (code : UserCode σ) (p : Promise σ ι) (n : Nat) (own : Nat → Prop) (t : Task)
    (w : World σ) : Prop where
  unfinished : t.outcome = none
  uncancelled : t.cancelling = false
  known : ∀ r, own r → r < w.routines.size
  returns : ∀ later, Meanwhile p own w later → later.current = t.current →
    Returns code p n own t.frames t.next later

/-- The next step of a task: it waits for its turn with less to do, or it ends with its value. -/
inductive Stepped (code : UserCode σ) (p : Promise σ ι) (n : Nat) (own : Nat → Prop) (id : Nat)
    (w after : World σ) : Prop where
  | waits {m : Nat} {t : Task} (fewer : m < n) (owes : t.Owes code p m (Along own w after) after)
    (watchers : t.watchers = (w.task id).watchers) (tasks : after.tasks = w.tasks.setIfInBounds id t)
    (loop : after.loop = w.loop.map (·.push (.step id)))
  | ended {v : Value} (given : p.shows after v p.due)
    (tasks : after.tasks = w.tasks.setIfInBounds id { w.task id with outcome := some (.value v), watchers := [] })
    (loop : after.loop =
      w.loop.map fun l => { l with ready := l.ready ++ (w.task id).watchers.map (.notify id) })

variable {code : UserCode σ} {p : Promise σ ι} {n : Nat} {own : Nat → Prop}

theorem Task.Owes.later {t : Task} {w after : World σ} (owes : t.Owes code p n own w)
    (meanwhile : Meanwhile p own w after) : t.Owes code p n own after where
  unfinished := owes.unfinished
  uncancelled := owes.uncancelled
  known r among := Nat.lt_of_lt_of_le (owes.known r among) meanwhile.routines
  returns later further := owes.returns later (meanwhile.trans further)

namespace Loop

variable {id : Nat} {w : World σ}

theorem run_takeSignal (uncancelled : (w.task id).cancelling = false) :
    (takeSignal id).run w = (.ok (w.task id).next, w) := by
  unfold takeSignal
  rw [run_modifyGet]
  simp only [uncancelled, Bool.false_eq_true, if_false]

theorem yields_within (discreet : code.Discreet p.scope) (preserves : code.Preserves p.scope p.shows)
    (confined : code.Confined) (owes : (w.task id).Owes code p n own w) (enough : n ≤ code.patience) (fits : p.scope.around w) :
    Yields (within (w.task id).current (proceed code code.patience (w.task id).frames (w.task id).next)) w
      fun ended after => after.current = w.current ∧ Quiet p.scope w after ∧ World.Confined own w after ∧ ∃ mid,
        after = { mid with current := w.current } ∧ ended.2 = mid.current ∧ p.scope.around mid ∧
        Halts code p n (Along own w mid) ended.1 mid := by
  have entered : World.Beside w { w with current := (w.task id).current } := rfl
  have ready := owes.returns _ (.aside discreet preserves fits entered rfl) rfl
  obtain ⟨halt, mid, ran, ⟨confines, halts⟩, quiet⟩ :=
    (ready.proceed confined enough).keeps (keeps_proceed discreet.drives.loops code.patience _ _)
  have around := discreet.aside w _ fits entered.aside
  apply Yields.intro (run_within_ok ran)
  refine ⟨rfl, ?_, ⟨⟨confines.routines, confines.others⟩, confines.tasks, confines.loop, confines.past⟩, mid, rfl, rfl,
    (quiet around).2, halts⟩
  have left : World.Beside mid { mid with current := w.current } := rfl
  exact trans_of (Quiet p.scope) (discreet.drives.beside _ _ entered)
    (trans_of (Quiet p.scope) quiet (discreet.drives.beside _ _ left))

theorem yields_settle {mid calm : World σ} {halt : Halt} (discreet : code.Discreet p.scope)
    (preserves : code.Preserves p.scope p.shows) (owes : (w.task id).Owes code p n own w)
    (made : ({ mid with current := w.current } : World σ) = calm) (confines : World.Confined own w calm)
    (around : p.scope.around mid) (halts : Halts code p n (Along own w mid) halt mid) :
    Yields (settle id mid.current halt) calm fun _ after =>
      World.Beside calm after ∧ Heeds own w after ∧ after.past = w.past ∧ Stepped code p n own id w after := by
  have besides : ∀ {after : World σ}, World.Beside calm after → World.Beside mid after := fun beside => by
    rw [← made] at beside
    exact beside
  have routines : calm.routines = mid.routines := by rw [← made]
  have task : calm.task id = w.task id := task_of_same confines.tasks id
  cases halts with
  | @paused m frames _ fewer rest =>
    let t : Task := { calm.task id with frames := frames, next := .sent (.ok .nothing), current := mid.current }
    let after : World σ := (calm.setTask id t).queue (.step id)
    have suspended : (settle id mid.current (.paused frames)).run calm = (.ok ⟨⟩, after) := rfl
    have unheard : Along own w calm = Along own w mid := by
      funext r
      simp only [Along, routines]
    have aside : World.Beside calm after := rfl
    have meanwhile : Meanwhile p (Along own w calm) mid after := .aside discreet preserves around (besides aside) routines
    have owed : t.Owes code p m (Along own w after) after := by
      refine ⟨?_, ?_, confines.known owes.known, fun later further held => ?_⟩
      · exact (congrArg Task.outcome task).trans owes.unfinished
      · exact (congrArg Task.cancelling task).trans owes.uncancelled
      · have goes := rest later (unheard ▸ meanwhile.trans further) held
        exact unheard ▸ goes
    have watchers : (calm.task id).watchers = (w.task id).watchers := by rw [task]
    refine .intro suspended ⟨aside, ⟨confines.routines, confines.others⟩, confines.past, ?_⟩
    refine .waits fewer owed watchers ?_ ?_
    · exact congrArg (·.setIfInBounds id t) confines.tasks
    · exact congrArg (Option.map (·.push (.step id))) confines.loop
  | @ended v _ given =>
    have outcome : outcomeFor (calm.task id).cancelling (.ok v) = .value v := by
      rw [task, owes.uncancelled]
      rfl
    have ended : (settle id mid.current (.ended (.ok v))).run calm = (finish id (.value v)).run calm := by
      rw [← outcome]
      rfl
    have aside : World.Beside calm ((finish id (.value v)).run calm).2 := by
      rw [run_finish]
      rfl
    rw [run_finish, task] at ended aside
    refine .intro ended ⟨aside, ⟨confines.routines, confines.others⟩, confines.past, ?_⟩
    refine .ended (preserves.beside (besides aside) v p.due given) ?_ ?_
    · exact congrArg (fun tasks : Array Task => tasks.setIfInBounds id _) confines.tasks
    · exact congrArg (Option.map _) confines.loop

theorem yields_step (discreet : code.Discreet p.scope) (preserves : code.Preserves p.scope p.shows)
    (confined : code.Confined) (owes : (w.task id).Owes code p n own w) (enough : n ≤ code.patience) (fits : p.scope.around w) :
    Yields (step code id) w fun _ after => Quiet p.scope w after ∧ Heeds own w after ∧ after.past = w.past ∧
      Stepped code p n own id w after := by
  obtain ⟨⟨halt, current⟩, calm, ran, -, quiet, confines, mid, made, rfl, around, halts⟩ :=
    yields_within discreet preserves confined owes enough fits
  unfold step
  apply Yields.run_bind (run_get w)
  simp only [Task.finished, owes.unfinished, Option.isSome_none, Bool.not_false, if_true]
  apply Yields.run_bind (run_takeSignal owes.uncancelled)
  apply Yields.run_bind ran
  apply (yields_settle discreet preserves owes made.symm confines around halts).mono
  rintro ⟨⟩ after - ⟨aside, heeds, past, stepped⟩
  exact ⟨trans_of (Quiet p.scope) quiet (discreet.drives.beside _ _ aside), heeds, past, stepped⟩

end Loop

end TaskBoard
