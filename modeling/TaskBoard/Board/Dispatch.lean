import TaskBoard.Act

/-!
Running tasks. A name leads to the registered task or, where there is none, to the runner of the host
tool; a callable is called with the board as context, and a routine that it gives keeps that context
for the time when it runs.
-/

namespace TaskBoard.Board

variable {σ : Type} (code : UserCode σ)

def callUser (id : Nat) (args : List Value) : Act σ Value := do
  match ← code.call id args with
  | .value v => pure v
  | .routine => Act.newRoutine (.user id args)

def runHost (b : Nat) (name args callback : Value) : Act σ Value := do
  callUser code (← Act.board b).runner [name, args, callback]

/-- Calls a value; what is not callable is refused. -/
def call (f : Value) (args : List Value) : Act σ Value :=
  match f, args with
  | .callable (.user id), _ => callUser code id args
  | .callable (.hostTask b name), [] => runHost code b (.text name) .nothing .nothing
  | .callable (.hostTask b name), [callback] => runHost code b (.text name) .nothing callback
  | _, _ => throw .wrongType

/-- Binds a routine to a board; other values stay as they are. -/
def bind (b : Nat) : Value → Act σ Value
  | .routine r => Act.newRoutine (.bound b r)
  | v => pure v

theorem bind_of_plain {v : Value} (plain : ∀ r, v ≠ .routine r) (b : Nat) : (bind b v : Act σ Value) = pure v := by
  cases v with
  | routine r => exact absurd rfl (plain r)
  | _ => rfl

def callBound (b : Nat) (f : Value) (args : List Value) : Act σ Value := do
  bind b (← Act.inContext (some b) (call code f args))

def arguments (args : Value) : Act σ (List Value) := do
  if args.truthy (← Act.heap) then Act.elements args else pure []

def runDirect (b : Nat) (f args : Value) : Act σ Value := do
  callBound code b f (← arguments args)

/-- Runs a task; a value that refers to no task gives the board itself. -/
def runTask (b : Nat) (task args callback : Value) : Act σ Value :=
  match TaskRef.ofValue task with
  | .direct f => runDirect code b f args
  | .noTask => pure (.board b)
  | .named name => do
    match ← Act.ofExcept ((← Act.board b).registry.get .task name) with
    | some f => if f.isCallable then runDirect code b f args else runHost code b name args callback
    | none => runHost code b name args callback

def initOne (b : Nat) (name : String) : Act σ Unit := do
  match (← Act.board b).registry.inits.at? name with
  | some f =>
    if f.isCallable then
      let _ ← callBound code b f [.board b]
      Act.log .debug (" -  Task initializer " ++ name ++ " initialized.")
  | none => pure ()

/-- The names that a request for initializers stands for: all registered ones, or those listed. -/
def initNames (b : Nat) (names : Value) : Act σ (List Value) := do
  match names with
  | .nothing => return (← Act.board b).registry.inits.keys
  | _ => Act.elements names

/-- Runs initializers: one by name, those of a list in order, or all of them; lists may hold lists, as
deep as the first argument allows. A list is read once, before the first of its initializers runs: one that changes
the list has no say in what is run after it. -/
def initWithin : Nat → Nat → Value → Act σ Unit
  | 0, _, _ => throw .tooDeep
  | depth + 1, b, names => do
    match names with
    | .text name => initOne code b name
    | _ => do
      Act.log .info "Initializing tasks..."
      (← initNames b names).forM (initWithin depth b)
      Act.log .info "Tasks initialized."

def initDepth : Nat := 900

def init (b : Nat) (names : Value) : Act σ Unit := initWithin code initDepth b names

end TaskBoard.Board
