import TaskBoard.Session.Report

/-!
Single questions to the library, asked with literals and answered by pictures: readings of documents
and files, groups and references, runs of the host tool.
-/

namespace TaskBoard.Session

def inspectConfig (data : Literal) : Play Picture := do
  let v ← build data
  picture (← Act.ofExcept (Config.accept (← Act.heap) v))

def inspectDocument (text : Literal) : Play Picture := do
  let text ← textOr .noMember text
  picture (← Act.onHeap fun h => Config.ofText h text.toList)

def inspectFile (path : Literal) : Play Picture := do
  picture (← Board.readDocument (← textOr .wrongType path))

def inspectReference (value : Literal) : Play Picture := do
  picture (TaskRef.ofValue (← build value)).toValue

def inspectProgram (base : String) (path : Literal) : Play Picture := do
  drawMapping (← Board.loadProgram (code base) (← textOr .wrongType path))

/-- Loads a configuration file for a new board, and tells what happened. -/
def inspectLoading (base : String) (path : Literal) : Play (Answer × Happening) := do
  let path ← textOr .wrongType path
  let b ← makeBoard base {}
  let answer ← Act.attempt (do picture (← Board.loadConfig (code base) b path) : Play Picture)
  return (answer, ← takeHappening)

def inspectGroups (configs : Literal) : Play Picture := do
  match ← build configs with
  | .map cell => do
    let groups ← Board.eachGroup (do return (← Act.heap).mapAt cell) pure
    return .list (← groups.mapM fun g => picture (.group g))
  | _ => throw .noMember

/-- A question to a group: the entry under a key, with a default if `lenient`. -/
structure Lookup where
  key : Literal
  lenient : Bool
  default : Literal

def ask (g : Nat) (lookup : Lookup) : Play Picture := do
  let key ← build lookup.key
  let default ← build lookup.default
  let group := (← get).group g
  picture (← Act.onHeap fun h => if lookup.lenient then group.getOr h key default else group.get h key)

def inspectGroup (name data : Literal) (lookups : List Lookup) : Play (Picture × List Answer) := do
  let g ← Act.newGroup (← build name) (← build data)
  let shape ← picture (.group g)
  return (shape, ← lookups.mapM fun lookup => Act.attempt (ask g lookup))

/-- A run of a host task. -/
structure HostCall where
  name : Literal
  args : Literal
  observer : Option Observer

structure HostReport where
  members : Picture
  settings : Picture
  calls : List (Answer × Happening)
  definitions : Picture

def callHost (base : String) (tool : Nat) (r : HostRunner) (call : HostCall) :
    Play (Answer × Happening) := do
  let _ ← takeHappening
  let act : Play Picture := do
    let name ← build call.name
    let args ← build call.args
    let callback ← newObserver .callback call.observer
    let callback := Value.ofOption (callback.map fun id => .callable (.user id))
    picture (← r.run (code base) tool name args callback)
  let answer ← Act.attempt act
  return (answer, ← takeHappening)

def inspectHost (base : String) (definitions settings : Literal) (codes : List (String × Int))
    (calls : List HostCall) : Play HostReport := do
  let definitions ← build definitions
  let settings ← build settings
  let r ← Act.ofExcept (HostRunner.make (← Act.heap) definitions settings)
  let tool ← newActor (.tool codes)
  let members ← drawMapping (← Act.onHeap fun h => r.members h)
  let reports ← calls.mapM (callHost base tool r)
  return ⟨members, ← drawMapping r.settings, reports, ← picture definitions⟩

end TaskBoard.Session
