import TaskBoard.Board.Dispatch

/-!
Running a task of the host tool. The runner holds the task definitions and settings on top of their own
`DOIT_CONFIG`; a run hands the command line to the tool, logs a code other than zero and passes it to
the callback.
-/

namespace TaskBoard

structure HostRunner where
  definitions : Value
  settings : Mapping
  deriving Repr

namespace HostRunner

/-- A pair that is given as a collection of two elements. -/
def pairOf (h : Heap) (v : Value) : Except Failure (Value × Value) := do
  match v.elements? h with
  | none => throw .wrongType
  | some [key, value] => if key.hashable then pure (key, value) else throw .wrongType
  | some _ => throw .badValue

/-- A copy of a mapping, also of one that is given as a collection of pairs. -/
def copyOf (h : Heap) (v : Value) : Except Failure Mapping := do
  match v with
  | .map cell => pure (h.mapAt cell)
  | _ =>
    match v.elements? h with
    | none => throw .wrongType
    | some items => return Mapping.ofList (← items.mapM (pairOf h))

def make (h : Heap) (definitions settings : Value) : Except Failure HostRunner := do
  if settings.truthy h then pure ⟨definitions, ← copyOf h settings⟩ else pure ⟨definitions, {}⟩

def settingsKey : Value := .text "DOIT_CONFIG"

def members (h : Heap) (r : HostRunner) : Except Failure (Mapping × Heap) := do
  let members ← copyOf h r.definitions
  if r.settings.size = 0 then pure (members, h)
  else
    let own ← match members.get? settingsKey with
      | some v => copyOf h v
      | none => pure {}
    let merged := r.settings.entries.foldl (fun m (key, v) => m.insert key v) own
    let (cell, h) := h.newMap merged
    pure (members.insert settingsKey (.map cell), h)

/-- The command line of a task: its name and the texts of its arguments. -/
def commandLine (h : Heap) (name args : Value) : Except Failure (List String) := do
  let args ← if args.truthy h then
      match args.elements? h with
      | some items => pure items
      | none => throw .wrongType
    else pure []
  let words ← args.mapM h.shown
  match name with
  | .text s => pure (s :: words)
  | _ => throw .wrongType

/-- An exit code in digits; only numbers have them. -/
def digits : Value → Except Failure String
  | .flag b => pure (if b then "1" else "0")
  | .whole i => Number.writeWhole i
  | .real x => if x.isFinite then Number.writeWhole x.truncate else throw .wrongType
  | _ => throw .wrongType

variable {σ : Type} (code : UserCode σ)

/-- Runs a task by the tool, which is user code that takes the definitions and the command line and
gives an exit code. -/
def run (tool : Nat) (r : HostRunner) (name args callback : Value) : Act σ Value := do
  let argv ← Act.ofExcept (commandLine (← Act.heap) name args)
  Act.log .info ("Running host task: " ++ String.intercalate " " argv)
  let definitions ← Act.newMap (← Act.onHeap fun h => r.members h)
  let line ← Act.newList (argv.map .text)
  let exitCode ← Board.callUser code tool [definitions, line]
  if exitCode.truthy (← Act.heap) then
    Act.logWords .warning fun h => do
      return "Host task " ++ (← h.shown name) ++ " exited with code " ++ (← digits exitCode)
  match callback with
  | .nothing => pure ()
  | f => do
    let _ ← Board.call code f [exitCode]
  pure exitCode

end HostRunner

end TaskBoard
