import TaskBoard.Board.Destinations
import TaskBoard.Config
import TaskBoard.Loop.Run

/-!
Resolving source groups. A group gets its files first, pattern by pattern, then its destination, and
both are written back into its mapping; then the mapper of the destination runs with the group. The
value of a mapper goes to a receiver, at once or when its routine ends. Collecting walks the live
configurations, which must not grow meanwhile.
-/

namespace TaskBoard.Board

variable {σ : Type} (code : UserCode σ)

/-- Passes the value of a group's mapper to a receiver, if there is one. -/
def deliver (group : Nat) (receiver : Option Nat) (v : Value) : Act σ Unit := do
  match receiver with
  | none => pure ()
  | some id => do
    Act.note (.delivered group id v)
    let _ ← callUser code id [v]

/-- Runs the routine of a group's mapper: as a task of the running loop, or else to its end. -/
def schedule (group r : Nat) (receiver : Option Nat) : Act σ (Option Nat) := do
  let w ← get
  match w.loop with
  | none => do
    deliver code group receiver (← Loop.runToCompletion code r)
    pure none
  | some _ => do
    let task ← Loop.makeTask r
    Loop.watch task (.forward group receiver w.current)
    pure (some task)

def editGroup (g : Nat) (change : Group → Group) : Act σ Unit :=
  modify fun w => w.setGroup g (change (w.group g))

def writeEntry (g : Nat) (key : String) (v : Value) : Act σ Unit := do
  match ((← get).group g).data with
  | .map cell => modify fun w => { w with heap := w.heap.putEntry cell (.text key) v }
  | _ => throw .wrongType

/-- The files of all patterns of a group, in their order. -/
def groupFiles (b g : Nat) : Act σ (List Value) := do
  let lists ← ((← get).group g).source.mapM (resolveSources code b)
  pure lists.flatten

def setFiles (g : Nat) (files : List Value) : Act σ Unit := do
  match ← Act.newList files with
  | .list cell => do
    editGroup g fun group => { group with files := cell }
    writeEntry g "files" (.list cell)
  | _ => pure ()

def settleDestination (b g : Nat) : Act σ Unit := do
  match ((← get).group g).destination with
  | .text pattern => do
    let destination ← resolveDestination b (.text pattern)
    editGroup g fun group => { group with destination := destination }
    writeEntry g "des" destination
  | _ => pure ()

/-- Runs the mapper of a group's destination, if it has one that can be called. -/
def runMapper (b g : Nat) (receiver : Option Nat) : Act σ Unit := do
  match ((← get).group g).destination with
  | .destination _ mapper =>
    if mapper.isCallable then
      Act.note (.mapped g mapper)
      match ← callBound code b mapper [.group g] with
      | .routine r => do
        let task ← schedule code g r receiver
        editGroup g fun group => { group with pending := task }
      | v => deliver code g receiver v
  | _ => pure ()

def resolveGroup (b g : Nat) (receiver : Option Nat) : Act σ Unit := do
  setFiles g (← groupFiles code b g)
  settleDestination b g
  runMapper code b g receiver

/-- Resolves a group that is given as its mapping; nothing else is a group. -/
def parseGroup (b : Nat) (data : Value) (receiver : Option Nat) : Act σ Nat := do
  match data with
  | .group g => do
    resolveGroup code b g receiver
    pure g
  | .map _ => do
    let g ← Act.newGroup (.text "") data
    resolveGroup code b g receiver
    pure g
  | _ => throw .noMember

/-- Visits the entries of a mapping as they stand when their turn comes. A mapping whose size is no
longer the one at the start ends the walk with a failure, also after its last entry. -/
def walk {α : Type} (content : Act σ Mapping) (size : Nat) (visit : Value → Value → Act σ (List α)) :
    Nat → Act σ (List α)
  | 0 => do
    if (← content).size ≠ size then throw .changedDuringWalk
    pure []
  | left + 1 => do
    let m ← content
    if m.size ≠ size then throw .changedDuringWalk
    match m.entries[size - (left + 1)]? with
    | none => pure []
    | some (key, v) => do
      let found ← visit key v
      let others ← walk content size visit left
      pure (found ++ others)

def walkAll {α : Type} (content : Act σ Mapping) (visit : Value → Value → Act σ (List α)) :
    Act σ (List α) := do
  let size := (← content).size
  walk content size visit size

def visitEntry {α : Type} (visit : Nat → Act σ α) (config group data : Value) : Act σ (List α) := do
  let h ← Act.heap
  if data.declaresGroup h then
    let name ← Act.ofExcept (Config.label h config group)
    let g ← Act.newGroup (.text name) data
    return [← visit g]
  else pure []

def eachGroup {α : Type} (configs : Act σ Mapping) (visit : Nat → Act σ α) : Act σ (List α) :=
  walkAll configs fun name config =>
    match config with
    | .map cell =>
      walkAll (do return (← Act.heap).mapAt cell) fun group data => visitEntry visit name group data
    | _ => pure []

def resolveDeclared (b : Nat) (receiver : Option Nat) (g : Nat) : Act σ Nat := do
  let name := ((← get).group g).name
  Act.logWords .info fun h => do return "Getting the source files of: " ++ (← h.shown name)
  resolveGroup code b g receiver
  Act.logWords .info fun h => do return "Source files of " ++ (← h.shown name) ++ " successfully collected."
  pure g

def edit (b : Nat) (change : Board → Board) : Act σ Unit :=
  modify fun w => w.setBoard b (change (w.board b))

/-- Resolves every source group that the configurations of a board declare. -/
def collect (b : Nat) (receiver : Option Nat) : Act σ (List Nat) := do
  let configs : Act σ Mapping := do return (← Act.board b).registry.configs
  let groups ← eachGroup configs (resolveDeclared code b receiver)
  edit b fun board => { board with groups := groups }
  pure groups

def pending (b : Nat) : Act σ (List Nat) := do
  let w ← get
  return (w.board b).groups.filterMap fun g => (w.group g).pending

end TaskBoard.Board
