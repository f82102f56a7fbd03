import TaskBoard.Session.Replay

/-!
Running a session and reporting on it: the answer of every operation, what was recorded and logged while
it ran, and what its board looks like afterwards.
-/

namespace TaskBoard.Session

structure BoardSetup where
  cwd : Option String := none
  config : Option Literal := none
  /-- The patterns that a recording glob primitive knows; without it the file tree is searched. -/
  files : Option (List (String × Literal)) := none
  codes : List (String × Int) := []

/-- What surrounds a session. -/
structure Setting where
  /-- The directory under which files are written. -/
  base : String := "/"
  cwd : String := "/"
  files : List (String × Draft) := []
  clock : Clock := .whole 0
  environment : Option String := none

inductive Progress where
  | pending
  | done
  | failed
  | cancelled
  deriving DecidableEq, Repr

def Progress.ofTask (t : Task) : Progress :=
  match t.outcome with
  | none => pending
  | some (.value _) => done
  | some (.failed _) => failed
  | some .cancelled => cancelled

/-- What a board looks like. -/
structure BoardPicture where
  tasks : Picture
  inits : Picture
  plugins : Picture
  configs : Picture
  groups : List (Picture × Option Progress)

/-- What happened while something ran. -/
structure Happening where
  trace : List TraceEntry
  log : List LogLine

structure StepReport where
  answer : Answer
  happening : Happening
  board : Except Failure BoardPicture

structure Report where
  start : Happening
  steps : List StepReport

def drawMapping (m : Mapping) : Play Picture :=
  .map <$> m.entries.mapM fun (key, v) => do return (← picture key, ← picture v)

def drawGroup (g : Nat) : Play (Picture × Option Progress) := do
  let w ← get
  return (← picture (.group g), (w.group g).pending.map fun id => Progress.ofTask (w.task id))

def drawBoard (b : Nat) : Play BoardPicture := do
  let board ← Act.board b
  let r := board.registry
  return ⟨← drawMapping r.tasks, ← drawMapping r.inits, ← drawMapping r.plugins,
    ← drawMapping r.configs, ← board.groups.mapM drawGroup⟩

/-- Takes what was recorded and logged since the last time. -/
def takeHappening : Play Happening :=
  modifyGet fun w =>
    (⟨w.user.trace.toList, w.log.toList⟩,
      { w with log := #[], user := { w.user with trace := #[] } })

/-- Makes a board and configures it. -/
def makeBoard (base : String) (setup : BoardSetup) : Play Nat := do
  let w ← get
  let b := w.boards.size
  let runner ← newActor (.runner b setup.codes)
  let lister ← setup.files.mapM fun files => newActor (.lister b files)
  let board : Board :=
    { cwd := setup.cwd.getD (String.ofList w.files.cwd), lister := lister, runner := runner }
  modify fun w => { w with boards := w.boards.push board }
  match setup.config with
  | none => pure ()
  | some config => do
    match ← build config with
    | .nothing => pure ()
    | v => Board.configure (code base) b v
  pure b

def report (base : String) : Request → Play StepReport
  | .mk b operation => do
    let answer ← Act.attempt (perform (code base) base b operation)
    let happening ← takeHappening
    return ⟨answer, happening, ← Act.attempt (drawBoard b)⟩

def replay (base : String) (boards : List BoardSetup) (requests : List Request) (loop : Bool) :
    Play Report := do
  let _ ← boards.mapM (makeBoard base)
  let start ← takeHappening
  if loop then modify fun w => { w with loop := some {} }
  return ⟨start, ← requests.mapM (report base)⟩

/-- The directories that a path names, made where they are missing. -/
def prepare (setting : Setting) : Play Unit := do
  modify fun w =>
    { w with
      clock := setting.clock
      environment := setting.environment
      files := (w.files.makeDirectories (Path.parts setting.base.toList)) }
  setting.files.forM fun (path, draft) => writeFile setting.base path draft
  modify fun w => { w with files := { w.files with cwd := setting.cwd.toList } }

def play {α : Type} (setting : Setting) (act : Play α) : Except Failure α :=
  ((do prepare setting; act : Play α).run ({ user := {} } : World Recorder)).1

end TaskBoard.Session
