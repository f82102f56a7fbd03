import TaskBoard.Board.Dispatch

/-!
The loop that runs routines. A routine runs on a stack of frames: what it awaits runs above it, a bound
routine changes the context when it begins and changes it back when it ends. Jobs wait in one queue, first
come first served; a turn runs the jobs that waited when it began. A task runs its routine until it gives
up its turn and queues its next job behind all others; it keeps its own context meanwhile, and when it
ends its watchers are told by jobs of their own. A failure stays with its task, but one that is to end the
program also leaves the loop, for whoever runs it. Without a running loop a routine is run to completion in
a loop of its own, which then cancels what is left.
-/

namespace TaskBoard.Loop

variable {σ : Type} (code : UserCode σ)

/-- A routine cannot let the end-of-iteration signal through. -/
def sealed : Failure → Failure
  | .raised "StopIteration" _ => .signalEscaped
  | failure => failure

/-- What one step of a run leads to. -/
inductive Progress where
  | going (frames : List Frame) (signal : Signal)
  | halted (halt : Halt)
  deriving Repr

def setCurrent (current : Option Nat) : Act σ Unit := modify fun w => { w with current := current }

def beginRoutine (r : Nat) (frames : List Frame) : Act σ Progress := do
  let w ← get
  let routine := w.routine r
  if routine.begun then pure (.going frames (.sent (.error Failure.spent)))
  else
    set (w.setRoutine r { routine with begun := true })
    match routine.body with
    | .user id args => pure (.going (.user id args 0 :: frames) (.sent (.ok .nothing)))
    | .bound b inner => do
      setCurrent (some b)
      pure (.going (.scope b w.current :: frames) (.begin inner))

/-- What user code that awaits a value goes on with. -/
def awaiting : Value → Signal
  | .routine r => .begin r
  | _ => .sent (.error .wrongType)

def runStretch (id : Nat) (args : List Value) (stretch : Nat) (frames : List Frame)
    (result : Except Failure Value) : Act σ Progress := do
  match ← Act.attempt (code.resume id args stretch result) with
  | .ok (.value v) => pure (.going frames (.sent (.ok v)))
  | .ok .pause => pure (.halted (.paused (.user id args (stretch + 1) :: frames)))
  | .ok (.await v) => pure (.going (.user id args (stretch + 1) :: frames) (awaiting v))
  | .error failure => pure (.going frames (.sent (.error (sealed failure))))

/-- One step of a run. A bound routine that ends restores the context and passes its result on. -/
def advance : List Frame → Signal → Act σ Progress
  | frames, .begin r => beginRoutine r frames
  | [], .sent result => pure (.halted (.ended result))
  | .scope _ before :: frames, .sent result => do
    setCurrent before
    pure (.going frames (.sent result))
  | .user id args stretch :: frames, .sent result => runStretch code id args stretch frames result

/-- Restores the context that held before any of the frames. -/
def abandon : List Frame → Act σ Unit
  | [] => pure ()
  | .user _ _ _ :: frames => abandon frames
  | .scope _ before :: frames => do
    setCurrent before
    abandon frames

/-- Runs until the run halts; one that takes too many steps is given up. -/
def proceed : Nat → List Frame → Signal → Act σ Halt
  | 0, frames, _ => do
    abandon frames
    pure (.ended (.error .tooDeep))
  | left + 1, frames, signal => do
    match ← advance code frames signal with
    | .going frames signal => proceed left frames signal
    | .halted halt => pure halt

def queue (job : Job) : Act σ Unit := modify fun w => w.queue job

/-- Makes a task of a routine in the present context and queues its first job. -/
def makeTask (r : Nat) : Act σ Nat := do
  let w ← get
  let id := w.tasks.size
  set { w with tasks := w.tasks.push ⟨[], .begin r, w.current, false, none, []⟩ }
  queue (.step id)
  pure id

/-- Has a watcher told when a task ends, or by the next job if it has ended. -/
def watch (id : Nat) (watcher : Watcher) : Act σ Unit :=
  modify fun w =>
    let t := w.task id
    if t.finished then w.queue (.notify id watcher)
    else w.setTask id { t with watchers := t.watchers ++ [watcher] }

theorem run_watch {id : Nat} {w : World σ} (unfinished : (w.task id).outcome = none) (watcher : Watcher) :
    (watch id watcher).run w =
      (.ok (), w.setTask id { w.task id with watchers := (w.task id).watchers ++ [watcher] }) := by
  have changes : (watch id watcher).run w = (.ok (), if (w.task id).finished then w.queue (.notify id watcher)
      else w.setTask id { w.task id with watchers := (w.task id).watchers ++ [watcher] }) := rfl
  rw [changes, Task.finished, unfinished]
  rfl

/-- A task that has just been made might as well have been made with its watcher. -/
theorem run_watch_newest {tasks : Array Task} {t : Task} {w : World σ} (made : w.tasks = tasks.push t)
    (unfinished : t.outcome = none) (watcher : Watcher) :
    (watch tasks.size watcher).run w =
      (.ok (), { w with tasks := tasks.push { t with watchers := t.watchers ++ [watcher] } }) := by
  have newest : w.task tasks.size = t := World.task_push_newest (w := { w with tasks := tasks }) made
  have told : ∀ task, (tasks.push t).setIfInBounds tasks.size task = tasks.push task := by grind
  rw [run_watch (by rw [newest, unfinished]), newest, World.setTask, made, told]

/-- Ends a task and queues the jobs that tell its watchers. -/
def finish (id : Nat) (outcome : Outcome) : Act σ Unit :=
  modify fun w =>
    let t := w.task id
    t.watchers.foldl (fun w watcher => w.queue (.notify id watcher))
      (w.setTask id { t with outcome := some outcome, watchers := [] })

theorem run_finish (id : Nat) (outcome : Outcome) (w : World σ) :
    (finish id outcome).run w =
      (.ok (), { w.setTask id { w.task id with outcome := some outcome, watchers := [] } with
        loop := w.loop.map fun l => { l with ready := l.ready ++ (w.task id).watchers.map (.notify id) } }) := by
  have queued := World.foldl_queue (w.task id).watchers (Job.notify id)
    (w.setTask id { w.task id with outcome := some outcome, watchers := [] })
  exact congrArg (Prod.mk (Except.ok ())) queued

/-- Asks a task to end when it goes on; a task that has ended cannot be asked. -/
def cancel (id : Nat) : Act σ Bool :=
  modifyGet fun w =>
    let t := w.task id
    if t.finished then (false, w) else (true, w.setTask id { t with cancelling := true })

/-- Takes what a task goes on with. A routine that is cancelled before it begins never runs. -/
def takeSignal (id : Nat) : Act σ Signal :=
  modifyGet fun w =>
    let t := w.task id
    if t.cancelling then
      let w := w.setTask id { t with cancelling := false }
      match t.next with
      | .begin r => (.sent (.error .cancelled), w.setRoutine r { w.routine r with begun := true })
      | .sent _ => (.sent (.error .cancelled), w)
    else (t.next, w)

/-- Has a task go on with some frames and a context in its next turn. -/
def suspend (id : Nat) (frames : List Frame) (current : Option Nat) : Act σ Unit := do
  modify fun w =>
    w.setTask id { w.task id with frames := frames, next := .sent (.ok .nothing), current := current }
  queue (.step id)

/-- How a task ends with a result. A request to end that came from its last stretch is heeded. -/
def outcomeFor (cancelling : Bool) : Except Failure Value → Outcome
  | .ok v => if cancelling then .cancelled else .value v
  | .error .cancelled => .cancelled
  | .error failure => .failed failure

/-- Lets a failure out of the loop that is to end it; others stay where they were raised. -/
def letOut {α : Type} : Except Failure α → Act σ Unit
  | .ok _ => pure ()
  | .error failure => if failure.endsLoop then throw failure else pure ()

theorem world_letOut {α : Type} (result : Except Failure α) (w : World σ) : ((letOut result).run w).2 = w := by
  cases result with
  | ok a => rfl
  | error failure =>
    have either : ∀ ends : Bool, ((if ends then throw failure else pure () : Act σ Unit).run w).2 = w := by
      intro ends
      cases ends <;> rfl
    exact either failure.endsLoop

/-- What becomes of a task whose run has halted. -/
def settle (id : Nat) (current : Option Nat) : Halt → Act σ Unit
  | .paused frames => suspend id frames current
  | .ended result => do
    finish id (outcomeFor ((← get).task id).cancelling result)
    letOut result

theorem world_settle_ended (id : Nat) (current : Option Nat) (result : Except Failure Value) (w : World σ) :
    ((settle id current (.ended result)).run w).2 =
      ((finish id (outcomeFor (w.task id).cancelling result)).run w).2 :=
  world_letOut result ((finish id (outcomeFor (w.task id).cancelling result)).run w).2

/-- Runs a task in its own context until it gives up its turn or ends. -/
def step (id : Nat) : Act σ Unit := do
  let t := (← get).task id
  if !t.finished then
    let signal ← takeSignal id
    let (halt, current) ← Act.within t.current (proceed code code.patience t.frames signal)
    settle id current halt

def failedMapper (name : String) : String := "Mapper of " ++ name ++ " failed"

/-- Passes on the value of a group's mapper; its failure is logged, if its name can be told, and its
cancellation ignored. -/
def forward (group : Nat) (receiver current : Option Nat) : Outcome → Act σ Unit
  | .cancelled => pure ()
  | .failed failure => do
    let w ← get
    match w.heap.shown (w.group group).name with
    | .error _ => pure ()
    | .ok name => do
      Act.note (.reported group name failure)
      Act.logFailure (failedMapper name) failure
  | .value v =>
    match receiver with
    | none => pure ()
    | some id => do
      Act.note (.delivered group id v)
      let _ ← Act.inContext current (Board.callUser code id [v])

def setLoop (change : Loop → Loop) : Act σ Unit :=
  modify fun w => { w with loop := w.loop.map change }

/-- One awaited task less; the last one queues what comes after. -/
def countDown (l : Loop) : Loop :=
  match l.awaited with
  | 1 => { l with awaited := 0 }.push (if l.halting then .halt else .wake)
  | n => { l with awaited := n - 1 }

def notify (id : Nat) : Watcher → Act σ Unit
  | .forward group receiver current => do
    match ((← get).task id).outcome with
    | some outcome => forward code group receiver current outcome
    | none => pure ()
  | .counted => setLoop countDown
  | .last => do
    -- a failure that has ended the loop need not stop it
    if !((← get).task id).endsLoop then setLoop fun l => { l with stopping := true }

theorem run_notify_last (id : Nat) (w : World σ) : (notify code id .last).run w =
    (.ok (), if (w.task id).endsLoop then w
      else { w with loop := w.loop.map fun l => { l with stopping := true } }) := by
  have either : ∀ ends : Bool,
      (if !ends then setLoop fun l => { l with stopping := true } else pure () : Act σ Unit).run w =
        (.ok (), if ends then w else { w with loop := w.loop.map fun l => { l with stopping := true } }) := by
    intro ends
    cases ends <;> rfl
  exact either (w.task id).endsLoop

/-- Runs a job; the caller looks after its own waking. A watcher that fails changes nothing else, unless it ends the
loop. -/
def runJob : Job → Act σ Unit
  | .step id => step code id
  | .notify id watcher => do letOut (← Act.attempt (notify code id watcher))
  | .wake => pure ()
  | .halt => setLoop fun l => { l with stopping := true }

theorem world_runJob_notify (id : Nat) (watcher : Watcher) (w : World σ) :
    ((runJob code (.notify id watcher)).run w).2 = ((notify code id watcher).run w).2 :=
  world_letOut ((notify code id watcher).run w).1 ((notify code id watcher).run w).2

def nextJob : Act σ (Option Job) :=
  modifyGet fun w =>
    match w.loop with
    | none => (none, w)
    | some l =>
      match l.ready with
      | [] => (none, w)
      | job :: rest => (some job, { w with loop := some { l with ready := rest } })

def runUntilWake : Nat → Act σ Unit
  | 0 => pure ()
  | left + 1 => do
    match ← nextJob with
    | none => pure ()
    | some .wake => pure ()
    | some job => do
      runJob code job
      runUntilWake left

/-- Gives up one turn of the loop. -/
def pause : Act σ Unit := do
  queue .wake
  runUntilWake code code.patience

def pauses : Nat → Act σ Unit
  | 0 => pure ()
  | n + 1 => do
    pause code
    pauses n

def outcomeOf (id : Nat) : Act σ Outcome := do
  return ((← get).task id).outcome.getD .cancelled

/-- Has the loop halt or wake the caller once all of the tasks have ended. -/
def countTasks (ids : List Nat) (halting : Bool) : Act σ Unit := do
  setLoop fun l => { l with awaited := ids.length, halting := halting }
  ids.forM fun id => watch id .counted

def waitAll (ids : List Nat) : Act σ (List Outcome) := do
  if ids ≠ [] then
    countTasks ids false
    runUntilWake code code.patience
  ids.mapM outcomeOf

/-- Runs as part of the caller, giving up a turn of the loop wherever the run gives up its own. -/
def waitFor : Nat → List Frame → Signal → Act σ Value
  | 0, frames, _ => do
    abandon frames
    throw .tooDeep
  | left + 1, frames, signal => do
    match ← proceed code code.patience frames signal with
    | .ended result => Act.ofExcept result
    | .paused frames => do
      match ← Act.attempt (pause code) with
      | .ok _ => waitFor left frames (.sent (.ok .nothing))
      | .error failure => do
        abandon frames
        throw failure

def waitRoutine (r : Nat) : Act σ Value := waitFor code code.patience [] (.begin r)

def runJobs : Nat → Act σ Unit
  | 0 => pure ()
  | n + 1 => do
    match ← nextJob with
    | none => pure ()
    | some job => do
      runJob code job
      runJobs n

/-- Runs the jobs that wait at this moment. -/
def turn : Act σ Unit := do
  match (← get).loop with
  | none => pure ()
  | some l => runJobs code l.ready.length

def turns : Nat → Act σ Unit
  | 0 => pure ()
  | n + 1 => do
    turn code
    turns n

def isStopping : Act σ Bool := do
  match (← get).loop with
  | none => pure true
  | some l => pure l.stopping

/-- Runs turns until the loop is told to stop. -/
def turnsUntilStop : Nat → Act σ Unit
  | 0 => pure ()
  | left + 1 => do
    turn code
    if !(← isStopping) then turnsUntilStop left

/-- The tasks numbered from `first` on that have not ended. -/
def unfinished (first : Nat) (w : World σ) : List Nat :=
  (List.range w.tasks.size).filter fun id => first ≤ id && !(w.task id).finished

/-- Cancels the tasks that are left and waits for them. -/
def cancelAll (ids : List Nat) : Act σ Unit := do
  if ids ≠ [] then
    setLoop fun l => { l with stopping := false }
    ids.forM fun id => do
      let _ ← cancel id
    countTasks ids true
    turnsUntilStop code code.patience

/-- How many turns a loop runs for its own tidying before it is closed. -/
def closingTurns : Nat := 4

def unwatch (id : Nat) (watcher : Watcher) : Act σ Unit :=
  modify fun w =>
    let t := w.task id
    w.setTask id { t with watchers := t.watchers.filter (· ≠ watcher) }

/-- Closes a loop that was opened for a task, when there were `first` tasks before. -/
def close (main first : Nat) : Act σ Unit := do
  unwatch main .last
  cancelAll code (unfinished first (← get))
  turns code closingTurns

/-- Runs a routine in a loop of its own. A failure that ends the loop is passed on once the loop is closed. -/
def runToCompletion (r : Nat) : Act σ Value := do
  let first := (← get).tasks.size
  modify fun w => { w with loop := some {} }
  let main ← makeTask r
  watch main .last
  let ran ← Act.attempt (turnsUntilStop code code.patience)
  let closed ← Act.attempt (close code main first)
  modify fun w => { w with loop := none }
  Act.ofExcept closed
  Act.ofExcept ran
  match ← outcomeOf main with
  | .value v => pure v
  | .failed failure => throw failure
  | .cancelled => throw .cancelled

end TaskBoard.Loop
