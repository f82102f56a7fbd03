import TaskBoard.World

/-!
Actions on the world. An action that fails keeps the changes made before the failure. User code is a
record of actions: a call gives a value or a routine, and a routine runs in stretches until it has a
value, waiting after each for its turn or for another routine.
-/

namespace TaskBoard

abbrev Act (σ : Type) := ExceptT Failure (StateM (World σ))

/-- What a call of user code gives. -/
inductive Reply where
  | value (v : Value)
  | routine
  deriving Repr

/-- What a stretch of asynchronous user code ends with. -/
inductive Stretch where
  | value (v : Value)
  /-- It gives up its turn. -/
  | pause
  /-- It awaits a value, which has to be a routine. -/
  | await (v : Value)
  deriving Repr

/-- A name that a program file defines. `home` is the name of the program that a function was written
in; other values have none. -/
structure Definition where
  name : String
  value : Value
  home : Option Value
  deriving Repr

structure UserCode (σ : Type) where
  call : Nat → List Value → Act σ Reply
  /-- Runs one stretch of a routine, given how many have run and what the last one has waited for. -/
  resume : Nat → List Value → Nat → Except Failure Value → Act σ Stretch
  /-- Runs a program file from its start, under a name. -/
  run : Nat → Value → Act σ (List Definition)
  /-- The name that a callable carries, if any. -/
  label? : σ → Nat → Option Value
  /-- How many jobs, turns or steps somebody who waits for the code will sit through. -/
  patience : Nat := 1000000

namespace Act

variable {σ α : Type}

/-- The result of an action, with a failure as a value. -/
def attempt (act : Act σ α) : Act σ (Except Failure α) := ExceptT.mk (Except.ok <$> act.run)

def ofExcept (result : Except Failure α) : Act σ α := ExceptT.mk (pure result)

/-- Runs an action in a context and restores the one that held before. -/
def inContext (current : Option Nat) (act : Act σ α) : Act σ α :=
  ExceptT.mk fun w =>
    let (result, after) := act.run { w with current := current }
    (result, { after with current := w.current })

/-- Runs an action in a context, gives the context that it ends in and restores the one that held before. -/
def within (current : Option Nat) (act : Act σ α) : Act σ (α × Option Nat) :=
  ExceptT.mk fun w =>
    let (result, after) := act.run { w with current := current }
    (result.map fun a => (a, after.current), { after with current := w.current })

def heap : Act σ Heap := do return (← get).heap

/-- Applies an operation that may change the heap. -/
def onHeap (f : Heap → Except Failure (α × Heap)) : Act σ α := do
  let (a, h) ← ofExcept (f (← heap))
  modify fun w => { w with heap := h }
  pure a

def newList (items : List Value) : Act σ Value :=
  onHeap fun h =>
    let (cell, h) := h.newList items
    pure (.list cell, h)

def newMap (content : Mapping) : Act σ Value :=
  onHeap fun h =>
    let (cell, h) := h.newMap content
    pure (.map cell, h)

def newNan : Act σ Double := onHeap fun h => pure h.newNan

def log (severity : Severity) (text : String) : Act σ Unit :=
  modify fun w => { w with log := w.log.push ⟨severity, text, none⟩ }

/-- Logs a line that tells of values. Such a line is put into words only when it is written down: where that
fails the line is lost, and nothing else. -/
def logWords (severity : Severity) (words : Heap → Except Failure String) : Act σ Unit :=
  modify fun w =>
    match words w.heap with
    | .ok text => { w with log := w.log.push ⟨severity, text, none⟩ }
    | .error _ => w

def logFailure (text : String) (failure : Failure) : Act σ Unit :=
  modify fun w => { w with log := w.log.push ⟨.error, text, some failure⟩ }

/-- Logs a failure that is an error; an exit or a cancellation goes on. -/
def logError (text : String) (failure : Failure) : Act σ Unit :=
  if failure.isError then logFailure text failure else throw failure

def board (id : Nat) : Act σ Board := do return (← get).board id

/-- The elements of a collection; any other value is refused. -/
def elements (v : Value) : Act σ (List Value) := do
  match v.elements? (← heap) with
  | some items => pure items
  | none => throw .wrongType

def newGroup (name data : Value) : Act σ Nat := do
  let g ← onHeap fun h => Group.ofConfig h name data
  modifyGet fun w => (w.groups.size, { w with groups := w.groups.push g })

def note (deed : GroupDeed) : Act σ Unit := modify fun w => { w with past := deed :: w.past }

def newRoutine (body : RoutineBody) : Act σ Value :=
  modifyGet fun w => (.routine w.routines.size, { w with routines := w.routines.push ⟨body, false⟩ })

end Act

end TaskBoard
