import TaskBoard.Board.Dispatch
import TaskBoard.Pattern.Watch

/-!
The task that a watch pattern has for an event. The event's path stands for the mark in the pattern; a
name without a registered callable leads to the host runner, and an event whose type the pattern does
not list gets no task.
-/

namespace TaskBoard.Board

variable {σ : Type}

/-- What happened to a path. -/
structure WatchEvent where
  type : Value
  path : Value
  deriving Repr

def placePath (pattern path : Value) : Except Failure String :=
  match pattern, path with
  | .text pattern, .text path => pure (WatchPattern.substituteFile pattern path)
  | .text _, _ => throw .wrongType
  | _, _ => throw .noMember

def acceptsType (p : WatchPattern) (type : Value) : Bool :=
  match type with
  | .text name => p.accepts name
  | _ => p.types.isNone

/-- The registered callable of a name, or the fallback that runs the host tool's task. -/
def watchedTask (b : Nat) (registry : Registry) (name : String) : Value :=
  match registry.tasks.at? name with
  | some f => if f.isCallable then f else .callable (.hostTask b name)
  | none => .callable (.hostTask b name)

/-- Resolves the task that a pattern runs for an event; the descriptor is given even without one. -/
def eventTask (b : Nat) (pattern : Value) (event : WatchEvent) : Act σ Value := do
  let p := WatchPattern.parse (← Act.ofExcept (placePath pattern event.path))
  let task := watchedTask b (← Act.board b).registry p.task
  if acceptsType p event.type then pure (.eventTask p.occasion p.task task p.part)
  else
    Act.logWords .debug fun h => do return "Event " ++ (← h.shown event.type) ++ " on " ++ (← h.shown event.path) ++
      " skipped for " ++ p.task ++ " (when: " ++ p.occasion ++ ")"
    pure (.eventTask p.occasion p.task .nothing p.part)

def defaultEnvironment : String := "development"

/-- The environment of a board: read once, then kept as a configuration. -/
def environment (b : Nat) : Act σ Value := do
  let w ← get
  let stored := Value.ofOption ((w.board b).registry.configs.at? "environment")
  if stored.truthy w.heap then pure stored
  else
    let name : Value := .text (w.environment.getD defaultEnvironment)
    set (w.setBoard b { w.board b with
      registry := (w.board b).registry.put .config (.text "environment") name })
    pure name

/-- The entry of `options` for the environment, an empty mapping where there is none. -/
def byEnvironment (b : Nat) (options : Value) : Act σ Value := do
  let name ← environment b
  match options with
  | .map cell =>
    if name.hashable then
      match ((← Act.heap).mapAt cell).get? name with
      | some v => pure v
      | none => Act.newMap {}
    else throw .wrongType
  | _ => Act.newMap {}

end TaskBoard.Board
