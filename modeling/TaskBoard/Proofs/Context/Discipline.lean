import TaskBoard.Proofs.Context.Calling

/-!
User code that leaves contexts to the library. It may change the world by itself as long as it does not
touch the contexts of others, and may use the operations of boards, whose user code again does no more, to
any finite depth. Then contexts nest: wherever a body stands, the present board is the one of the innermost
dispatch around it, and nobody else sees a difference.
-/

namespace TaskBoard

open Act World

variable {σ : Type}

/-- What user code does by itself: it leaves the present context and those of tasks alone, and makes tasks
in the present context. -/
structure World.Own (before after : World σ) : Prop where
  current : after.current = before.current
  tasks : before.tasks.size ≤ after.tasks.size
  kept : ∀ id < before.tasks.size, (after.task id).frames = (before.task id).frames ∧
    (after.task id).current = (before.task id).current ∧
    ((before.task id).finished = true → (after.task id).finished = true)
  fresh : ∀ id < after.tasks.size, before.tasks.size ≤ id →
    (after.task id).frames = [] ∧ (after.task id).current = before.current
  routines : before.routines.size ≤ after.routines.size
  bodies : ∀ r < before.routines.size, (after.routine r).body = (before.routine r).body

/-- The operations that run user code, and the jobs of the loop. -/
inductive Library (code : UserCode σ) : {α : Type} → Act σ α → Prop where
  | runTask (b : Nat) (task args callback : Value) : Library code (Board.runTask code b task args callback)
  | init (b : Nat) (names : Value) : Library code (Board.init code b names)
  | sources (b : Nat) (pattern : Value) : Library code (Board.resolveSources code b pattern)
  | parseGroup (b : Nat) (data : Value) (receiver : Option Nat) :
    Library code (Board.parseGroup code b data receiver)
  | collect (b : Nat) (receiver : Option Nat) : Library code (Board.collect code b receiver)
  | configure (b : Nat) (config : Value) : Library code (Board.configure code b config)
  | load (b : Nat) (tasks : Value) (receiver : Option Nat) : Library code (Board.load code b tasks receiver)
  | call (f : Value) (args : List Value) : Library code (Board.call code f args)
  | job (job : Job) : Library code (Loop.runJob code job)
  | pause : Library code (Loop.pause code)
  | waitRoutine (r : Nat) : Library code (Loop.waitRoutine code r)
  | waitAll (ids : List Nat) : Library code (Loop.waitAll code ids)

mutual

/-- A way from one world to another that user code may take. -/
inductive Course : World σ → World σ → Prop where
  | stay (w : World σ) : Course w w
  | own {first second third : World σ} : Course first second → Own second third → Course first third
  | operation {first second : World σ} {code : UserCode σ} {α : Type} {act : Act σ α} :
    Course first second → Lawful code → Library code act → Course first (act.run second).2

/-- User code whose every run takes such a way. -/
inductive Lawful : UserCode σ → Prop where
  | intro {code : UserCode σ} (call : ∀ id args w, Course w ((code.call id args).run w).2)
    (resume : ∀ id args stretch result w, Course w ((code.resume id args stretch result).run w).2)
    (run : ∀ id name w, Course w ((code.run id name).run w).2) : Lawful code

end

theorem World.Own.holds {before after : World σ} (own : Own before after) : Holds before after := by
  refine ⟨⟨own.tasks, ?_, ?_, own.routines, own.bodies⟩, own.current⟩
  · intro id known made stands
    obtain ⟨frames, current, finished⟩ := own.kept id known
    exact stands.keep finished frames current
  · intro id known new
    obtain ⟨frames, current⟩ := own.fresh id known new
    refine ⟨before.current, .inr ?_⟩
    rw [frames, current]
    exact ⟨trivial, rfl⟩

theorem Library.holds {code : UserCode σ} {α : Type} {act : Act σ α} (library : Library code act)
    (tidy : code.Tidy) : Keeps Holds act := by
  cases library with
  | runTask b task args callback => exact Board.keeps_runTask tidy.carries b task args callback
  | init b names => exact Board.keeps_init tidy.carries b names
  | sources b pattern => exact Board.keeps_resolveSources tidy.carries b pattern
  | parseGroup b data receiver => exact Board.holds_parseGroup tidy b data receiver
  | collect b receiver => exact Board.holds_collect tidy b receiver
  | configure b config => exact Board.holds_configure tidy b config
  | load b tasks receiver => exact Board.holds_load tidy b tasks receiver
  | call f args => exact Board.keeps_call tidy.carries f args
  | job job => exact Loop.holds_runJob tidy job
  | pause => exact Loop.holds_pause tidy
  | waitRoutine r => exact Loop.holds_waitRoutine tidy r
  | waitAll ids => exact Loop.holds_waitAll tidy ids

mutual

theorem Course.holds {before after : World σ} (course : Course before after) : Holds before after :=
  match course with
  | .stay w => .refl w
  | .own earlier own => earlier.holds.trans own.holds
  | .operation earlier lawful library => earlier.holds.trans (library.holds lawful.tidy _)

theorem Lawful.tidy {code : UserCode σ} (lawful : Lawful code) : code.Tidy :=
  match lawful with
  | .intro call resume run =>
    ⟨fun id args w => (call id args w).holds,
      fun id args stretch result w => (resume id args stretch result w).holds,
      fun id name w => (run id name w).holds⟩

end

/-- Where the run of a routine may be that was made in the context `made`: one of a task is at the frames of
the task when its turn comes, one that somebody waits for goes on in his context. -/
inductive Reaches (code : UserCode σ) (made : Option Nat) : List Frame → Signal → World σ → Prop where
  | task (id : Nat) (signal : Signal) {w : World σ} : (w.task id).StandsOn made →
    (w.task id).finished = false →
    Reaches code made (w.task id).frames signal { w with current := (w.task id).current }
  | wait (r : Nat) {w : World σ} : w.current = made → Reaches code made [] (.begin r) w
  | step {frames further : List Frame} {signal next : Signal} {w after : World σ} :
    Reaches code made frames signal w →
    (Loop.advance code frames signal).run w = (.ok (.going further next), after) →
    Reaches code made further next after
  | again {frames further : List Frame} {signal : Signal} {w after later : World σ} :
    Reaches code made frames signal w →
    (Loop.advance code frames signal).run w = (.ok (.halted (.paused further)), after) →
    Course after later → Reaches code made further (.sent (.ok .nothing)) later

/-- The worlds in which a body may stand, with the board of the innermost dispatch around it: from where the dispatch
calls it on, or from a resume on. -/
inductive Body (code : UserCode σ) : Option Nat → World σ → Prop where
  | call {α : Type} {b id : Nat} {args : List Value} {operation : UserCode σ → Act σ α} {w inside : World σ} :
    Dispatch w b operation → Enters operation code w id args inside → Body code (some b) inside
  | resume {made : Option Nat} {id stretch : Nat} {args : List Value} {frames : List Frame}
    {result : Except Failure Value} {w : World σ} :
    Reaches code made (.user id args stretch :: frames) (.sent result) w →
    Body code (boardOf made frames) w
  | further {board : Option Nat} {w later : World σ} : Body code board w → Course w later →
    Body code board later

variable {code : UserCode σ}

/-- A run that is under way is nested, and the present context is where it is. -/
theorem Reaches.nested (tidy : code.Tidy) {made : Option Nat} {frames : List Frame} {signal : Signal}
    {w : World σ} (reaches : Reaches code made frames signal w) :
    Nested made frames ∧ w.current = boardOf made frames := by
  induction reaches with
  | task id signal stands going =>
    rcases stands with ended | fits
    · rw [going] at ended
      cases ended
    · exact fits
  | wait r made => exact ⟨trivial, made⟩
  | step before ran ih =>
    obtain ⟨progress, after, same, fits⟩ := Loop.fits_advance tidy _ ih.1 ih.2
    rw [ran] at same
    cases same
    exact fits
  | again before ran course ih =>
    obtain ⟨progress, after, same, fits⟩ := Loop.fits_advance tidy _ ih.1 ih.2
    rw [ran] at same
    cases same
    exact ⟨fits.1, course.holds.current.trans fits.2⟩

theorem Body.current (tidy : code.Tidy) {board : Option Nat} {w : World σ} (body : Body code board w) :
    w.current = board := by
  induction body with
  | call dispatch enters => exact dispatch.current enters
  | resume reaches => exact (reaches.nested tidy).2
  | further before course ih => exact course.holds.current.trans ih

/-- A routine that a call with a board as context gives is bound to the board. -/
theorem Board.bound_of_callBound {b : Nat} {f : Value} {args : List Value} {w after : World σ} {r : Nat}
    (ran : (Board.callBound code b f args).run w = (.ok (.routine r), after)) :
    ∃ inner, after.routine r = ⟨.bound b inner, false⟩ := by
  unfold Board.callBound at ran
  rcases called : (Act.inContext (some b) (Board.call code f args)).run w with ⟨failure | v, inside⟩
  · rw [run_bind_error called] at ran
    cases ran
  · rw [run_bind_ok called] at ran
    unfold Board.bind at ran
    split at ran
    next inner =>
      cases ran
      exact ⟨inner, World.routine_push_newest rfl⟩
    next other =>
      cases ran
      exact absurd rfl (other r)

section Relay

def noteBoard : Act (List (Option Nat)) Unit := modify fun w => { w with user := w.user ++ [w.current] }

/-- User code that only notes where it is. -/
def quiet : UserCode (List (Option Nat)) where
  call _ _ := do
    noteBoard
    pure (.value .nothing)
  resume _ _ _ _ := do
    noteBoard
    pure (.value .nothing)
  run _ _ := pure []
  label? _ _ := none

/-- User code that has board 1 run a task; all of it but number 0 is asynchronous and pauses once. -/
def relay : UserCode (List (Option Nat)) where
  call id _ :=
    if id = 0 then do
      noteBoard
      let _ ← Board.runTask quiet 1 (.callable (.user 1)) .nothing .nothing
      noteBoard
      pure (.value .nothing)
    else pure .routine
  resume _ _ stretch _ := do
    noteBoard
    pure (if stretch = 0 then .pause else .value .nothing)
  run _ _ := pure []
  label? _ _ := none

theorem own_noteBoard (w : World (List (Option Nat))) : Own w (noteBoard.run w).2 where
  current := rfl
  tasks := Nat.le_refl _
  kept _ _ := ⟨rfl, rfl, fun finished => finished⟩
  fresh _ known new := absurd known (Nat.not_lt.mpr new)
  routines := Nat.le_refl _
  bodies _ _ := rfl

theorem lawful_quiet : Lawful quiet :=
  .intro (fun _ _ w => (Course.stay w).own (own_noteBoard w))
    (fun _ _ _ _ w => (Course.stay w).own (own_noteBoard w)) fun _ _ w => .stay w

theorem lawful_relay : Lawful relay := by
  refine .intro (fun id args w => ?_) (fun _ _ _ _ w => (Course.stay w).own (own_noteBoard w))
    fun _ _ w => .stay w
  by_cases first : id = 0
  · subst first
    have noted := (Course.stay w).own (own_noteBoard w)
    have asked := noted.operation lawful_quiet (.runTask 1 (.callable (.user 1)) .nothing .nothing)
    exact asked.own (own_noteBoard _)
  · have calls : (relay.call id args).run w = (.ok .routine, w) := by simp [relay, first]
    rw [calls]
    exact .stay w

end Relay

end TaskBoard
