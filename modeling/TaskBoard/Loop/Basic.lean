import TaskBoard.Failure

/-!
Routines and the loop that runs them: a queue of jobs, and tasks that each run one routine and tell their
watchers when they end. A routine may await others, which then run inside it.
-/

namespace TaskBoard

/-- What a routine runs. -/
inductive RoutineBody where
  /-- A call of asynchronous user code. -/
  | user (code : Nat) (args : List Value)
  /-- Another routine, with a board as context. -/
  | bound (board inner : Nat)
  deriving Repr, Inhabited

/-- A routine can be begun once. -/
structure Routine where
  body : RoutineBody
  begun : Bool := false
  deriving Repr, Inhabited

/-- A routine that has begun and waits for what it awaits. -/
inductive Frame where
  /-- User code that has run some of its stretches. -/
  | user (code : Nat) (args : List Value) (stretch : Nat)
  /-- A routine bound to a board; `before` is the context that held when it began. -/
  | scope (board : Nat) (before : Option Nat)
  deriving Repr

/-- What a run goes on with: a routine that begins, or a result for the innermost frame. -/
inductive Signal where
  | begin (routine : Nat)
  | sent (result : Except Failure Value)
  deriving Repr

/-- Where a run halts. -/
inductive Halt where
  /-- The innermost frame gives up its turn. -/
  | paused (frames : List Frame)
  | ended (result : Except Failure Value)
  deriving Repr

/-- How a task of the loop has ended. -/
inductive Outcome where
  | value (v : Value)
  | failed (failure : Failure)
  | cancelled
  deriving Repr

/-- Who is told when a task ends. -/
inductive Watcher where
  /-- The value of a group's mapper goes to `receiver`, in the context `current`. -/
  | forward (group : Nat) (receiver : Option Nat) (current : Option Nat)
  /-- One of several tasks that somebody waits for. -/
  | counted
  /-- The loop itself, which stops after the turn. -/
  | last
  deriving DecidableEq, Repr

/-- A run of a routine by the loop. -/
structure Task where
  /-- What has begun and not ended, the innermost first. -/
  frames : List Frame := []
  next : Signal
  /-- The context in which it goes on. -/
  current : Option Nat
  /-- Whether it goes on with a cancellation instead. -/
  cancelling : Bool := false
  outcome : Option Outcome := none
  watchers : List Watcher := []
  deriving Repr

namespace Task

def finished (t : Task) : Bool := t.outcome.isSome

/-- Whether the task has ended the loop. -/
def endsLoop (t : Task) : Bool :=
  match t.outcome with
  | some (.failed failure) => failure.endsLoop
  | _ => false

end Task

/-- What waits in the ready queue of the loop. -/
inductive Job where
  | step (task : Nat)
  | notify (task : Nat) (watcher : Watcher)
  /-- The caller that gave up its turn goes on. -/
  | wake
  /-- All awaited tasks have ended. -/
  | halt
  deriving DecidableEq, Repr

structure Loop where
  ready : List Job := []
  /-- How many tasks are still awaited. -/
  awaited : Nat := 0
  /-- Whether the loop halts when nothing is awaited any more, or else wakes the caller. -/
  halting : Bool := false
  stopping : Bool := false
  deriving DecidableEq, Repr

namespace Loop

def push (l : Loop) (job : Job) : Loop := { l with ready := l.ready ++ [job] }

@[simp] theorem ready_push (l : Loop) (job : Job) : (l.push job).ready = l.ready ++ [job] := rfl

end Loop

end TaskBoard
