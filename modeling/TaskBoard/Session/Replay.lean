import TaskBoard.Board.Loading
import TaskBoard.Board.Watching
import TaskBoard.Files.Writing
import TaskBoard.HostRun
import TaskBoard.Session.Recorder

/-!
How scripted callables act and how the operations of a session are performed. A script may perform
operations itself, whose callables may perform others; `codeWithin` is that tower cut at a depth.
-/

namespace TaskBoard.Session

def groupArgument : List Value → Except Failure Nat
  | [] => throw .outOfRange
  | .group g :: _ => pure g
  | _ => throw .noMember

def filesCell (args : List Value) : Play Nat := do
  let g ← Act.ofExcept (groupArgument args)
  return ((← get).group g).files

def addFile (args : List Value) (file : String) : Play Unit := do
  let cell ← filesCell args
  modify fun w =>
    { w with heap := w.heap.setList cell (w.heap.listAt cell ++ [.text file]) }

/-- An element counted from the start, or from the end by a negative number. -/
def elementAt? {α : Type} (items : List α) (index : Int) : Option α :=
  if index < 0 then
    if items.length < index.natAbs then none else items[items.length - index.natAbs]?
  else items[index.toNat]?

def position? : Value → Option Int
  | .whole i => some i
  | .flag b => some (if b then 1 else 0)
  | _ => none

/-- The entry of a mapping under a key, or the element of a sequence at a position. -/
def partOf (h : Heap) (v key : Value) : Except Failure Value :=
  match v with
  | .map _ | .set _ => Group.entry h v key
  | _ =>
    match v.elements? h, position? key with
    | some items, some i =>
      match elementAt? items i with
      | some item => pure item
      | none => throw .outOfRange
    | _, _ => throw .wrongType

/-- What a script ends with. -/
def conclude (s : Script) (args : List Value) : Play Value := do
  raiseIf s.manner.raising
  match s.manner.argument with
  | some i =>
    match elementAt? args i with
    | some v => pure v
    | none => throw .outOfRange
  | none =>
    if s.manner.files then
      let cell ← filesCell args
      Act.newList ((← Act.heap).listAt cell)
    else build s.result

/-- Records a call and does what the script asks for before its end; `perform` performs an operation. -/
def begin (perform : Request → Play Picture) (s : Script) (args : List Value) : Play Unit := do
  record (.called s.manner.name (← args.mapM picture) (← get).current)
  s.operations.forM fun request => do
    record (.performed (← Act.attempt (perform request)))
  match s.manner.append with
  | some file => addFile args file
  | none => pure ()

/-- The first value under a name, or a default. -/
def choose {α : Type} (table : List (String × α)) (default : α) (name : Value) : α :=
  match name with
  | .text s => ((table.find? (·.1 == s)).map (·.2)).getD default
  | _ => default

/-- The exit code of a task: the last one that is given for its name, or zero. -/
def exitCode (codes : List (String × Int)) (task : Value) : Value :=
  .whole (choose codes.reverse 0 task)

/-- A recorder in place of the glob primitive. -/
def listFiles (board : Nat) (files : List (String × Literal)) : List Value → Play Value
  | [pattern] => do
    record (.listed (← picture pattern) board)
    build (choose files (.list []) pattern)
  | _ => throw .wrongType

/-- A recorder in place of the host runner; the callback gets the exit code. -/
def runHost (code : UserCode Recorder) (board : Nat) (codes : List (String × Int)) :
    List Value → Play Value
  | [name, args, callback] => do
    record (.ran (← picture name) (← picture args) (!callback.isNothing) board)
    let exitCode := exitCode codes name
    if !callback.isNothing then
      let _ ← Board.call code callback [exitCode]
    pure exitCode
  | _ => throw .wrongType

/-- A recorder in place of the host tool; the task is the first word of the command line. -/
def runTool (codes : List (String × Int)) : List Value → Play Value
  | [_, line] => do
    record (.handed (← picture line))
    let words ← Act.elements line
    pure (exitCode codes (words.headD .nothing))
  | _ => throw .wrongType

def observe (post : Post) (o : Observer) : List Value → Play Value
  | [v] => do
    record (.observed post (← picture v))
    raiseIf o.raising
    pure .nothing
  | _ => throw .wrongType

/-- Defines the names of a program in order; a name that is defined again keeps its place. -/
def define (found : List Definition) (d : Definition) : List Definition :=
  if found.any (·.name == d.name) then
    found.map fun other => if other.name == d.name then d else other
  else found ++ [d]

/-- Where a function is written: in the program, under the name that it has at that moment, or
elsewhere. -/
def homeOf (name : Value) : Literal → Option Value
  | .callable s =>
    if s.manner.object then none else if s.manner.foreign then some (.text "elsewhere") else some name
  | _ => none

/-- The name of a program that was run under a name, once it has defined some names itself. -/
def nameNow (name : Value) (found : List Definition) : Value :=
  ((found.find? (·.name == "__name__")).map (·.value)).getD name

def runProgram (id : Nat) (name : Value) : Play (List Definition) := do
  match (← get).user.programs[id]? with
  | none => pure []
  | some program => do
    let found ← program.definitions.foldlM
      (fun found (own, literal) => do
        let v ← build literal
        return define found ⟨own, v, homeOf (nameNow name found) literal⟩) []
    raiseIf program.raising
    pure found

def labelOf (r : Recorder) (id : Nat) : Option Value :=
  match r.actors[id]? with
  | some (.script _ label) => label
  | _ => none

section Operations

variable (code : UserCode Recorder)

def declared (b : Nat) : Declared → Play Value
  | .literal data => build data
  | .entry config group => do
    let config ← build config
    let group ← build group
    match ← Act.ofExcept ((← Act.board b).registry.get .config config) with
    | none => throw .missingKey
    | some v => do Act.ofExcept (partOf (← Act.heap) v group)

/-- Resolves a group that is declared in a mapping, under a name if one is given. -/
def parseGroup (b : Nat) (data : Declared) (name : Option Literal) (receiver : Option Nat) :
    Play Nat := do
  let data ← declared b data
  match name with
  | none => Board.parseGroup code b data receiver
  | some name => do
    let g ← Act.newGroup (← build name) data
    Board.parseGroup code b (.group g) receiver

/-- An installed plugin, as the action that loads it. -/
def supply (entry : String × Supply) : String × Play Value :=
  (entry.1,
    match entry.2 with
    | .value l => build l
    | .failure r => raise r)

/-- Runs a task; when awaiting, a routine is run to its end and nothing else is accepted. -/
def runTask (b : Nat) (task args : Literal) (callback : Option Nat) (awaiting : Bool) :
    Play Value := do
  let task ← build task
  let args ← build args
  let callback := Value.ofOption (callback.map fun id => .callable (.user id))
  let v ← Board.runTask code b task args callback
  if !awaiting then pure v
  else
    match v, (← get).loop with
    | .routine r, some _ => Loop.waitRoutine code r
    | .routine r, none => Loop.runToCompletion code r
    | _, some _ => throw .wrongType
    | _, none => throw .badValue

def outcomePicture : Outcome → Play Picture
  | .value v => picture v
  | .failed failure => pure (.failure failure)
  | .cancelled => pure (.failure .cancelled)

/-- Resolves an event's task and, if asked, calls it. -/
def event (b : Nat) (pattern type path : Literal) (calling : Bool) (callback : Option Nat) :
    Play Picture := do
  let resolved ← Board.eventTask b (← build pattern) ⟨← build type, ← build path⟩
  if !calling then picture resolved
  else
    match resolved with
    | .eventTask _ _ .nothing _ => return .list [← picture resolved]
    | .eventTask _ _ task _ => do
      let args := match callback with
        | none => []
        | some id => [.callable (.user id)]
      let v ← Board.call code task args
      return .list [← picture resolved, ← picture v]
    | v => picture v

def content : Draft → Play Entry
  | .directory => pure .directory
  | .text s => pure (.file (.text s))
  | .bytes b => pure (.file (.bytes b))
  | .program definitions raising => do
    return .file (.program (← newProgram ⟨definitions, raising⟩))

/-- The place of a path that need not exist yet, seen from a directory. -/
def placeOf (base path : String) : Route := Path.parts (Path.absolute base.toList path.toList)

def writeFile (base path : String) (draft : Draft) : Play Unit := do
  let entry ← content draft
  let files := (← get).files
  let files ← Act.ofExcept (files.write (placeOf base path) entry)
  modify fun w => { w with files := files }

def removeFile (base path : String) : Play Unit := do
  let files ← Act.ofExcept ((← get).files.remove (placeOf base path))
  modify fun w => { w with files := files }

def cancel (b : Nat) (index : Int) : Play Bool := do
  match elementAt? (← Board.pending b) index with
  | some task => Loop.cancel task
  | none => throw .outOfRange

/-- Performs an operation of a board. `base` is the directory that written files are placed in. -/
def perform (base : String) (b : Nat) : Operation → Play Picture
  | .register kind name value => do
    Board.registerAs b (← build kind) (← build name) (← build value)
    pure (.board b)
  | .get kind name => do
    picture (← Board.lookUp b (← build kind) (← build name))
  | .resolve value => do
    let ref := TaskRef.ofValue (← build value)
    picture (Value.ofOption (← Act.ofExcept (ref.resolve (← Act.board b).registry)))
  | .bundle entries source => do
    Board.registerBundle code b (← build entries) (← build source)
    pure .nothing
  | .configure config => do
    Board.configure code b (← build config)
    pure (.board b)
  | .load tasks observer => do
    let tasks ← build tasks
    Board.load code b tasks (← newObserver .receiver observer)
    pure (.board b)
  | .loadPlugins .nothing => do
    Board.loadInstalledPlugins b []
    pure (.board b)
  | .loadPlugins plugins => do
    Board.loadPlugins b (← build plugins)
    pure (.board b)
  | .loadInstalled group entries => do
    record (.lookedUp (group.getD Board.pluginGroup))
    Board.loadInstalledPlugins b (entries.map supply)
    pure (.board b)
  | .init names => do
    Board.init code b (← build names)
    pure (.board b)
  | .runTask task args observer awaiting => do
    picture (← runTask code b task args (← newObserver .callback observer) awaiting)
  | .collect observer => do
    let groups ← Board.collect code b (← newObserver .receiver observer)
    return .list (← groups.mapM fun g => picture (.group g))
  | .parseGroup data name observer => do
    picture (.group (← parseGroup code b data name (← newObserver .receiver observer)))
  | .sources pattern => do
    return .list (← (← Board.resolveSources code b (← build pattern)).mapM picture)
  | .destination pattern => do picture (← Board.resolveDestination b (← build pattern))
  | .event pattern type path calling observer => do
    event code b pattern type path calling (← newObserver .callback observer)
  | .byEnvironment options => do picture (← Board.byEnvironment b (← build options))
  | .paths => do
    let board ← Act.board b
    picture (← Act.newMap (board.paths (← Act.heap)))
  | .setClock none => throw .missingKey
  | .setClock (some clock) => do
    modify fun w => { w with clock := clock }
    pure .nothing
  | .write path draft => do
    writeFile base path draft
    pure .nothing
  | .remove path => do
    removeFile base path
    pure .nothing
  | .pause turns => do
    Loop.pauses code turns
    pure .nothing
  | .drain => do
    return .list (← (← Loop.waitAll code (← Board.pending b)).mapM outcomePicture)
  | .cancel index => do return .flag (← cancel b index)

def performRequest (base : String) : Request → Play Picture
  | .mk b operation => perform code base b operation

def callActor (base : String) (actor : Actor) (args : List Value) : Play Reply := do
  match actor with
  | .script s _ =>
    if s.manner.deferred then pure .routine
    else
      begin (performRequest code base) s args
      return .value (← conclude s args)
  | .lister board files => .value <$> listFiles board files args
  | .runner board codes => .value <$> runHost code board codes args
  | .tool codes => .value <$> runTool codes args
  | .observer post o => .value <$> observe post o args

/-- A stretch of a routine: the script begins in the first and ends in the last. It keeps no failure to
itself. -/
def resumeActor (base : String) (actor : Actor) (args : List Value) (stretch : Nat) :
    Except Failure Value → Play Stretch
  | .error failure => throw failure
  | .ok _ => do
    match actor with
    | .script s _ => do
      if stretch = 0 then begin (performRequest code base) s args
      else record (.resumed s.manner.name (← get).current)
      if stretch < s.manner.yields then pure .pause else .value <$> conclude s args
    | _ => throw .wrongType

end Operations

def actor (id : Nat) : Play Actor := do
  match (← get).user.actors[id]? with
  | some a => pure a
  | none => throw .wrongType

/-- The user code of a session whose scripts nest up to a depth. -/
def codeWithin (base : String) : Nat → UserCode Recorder
  | 0 =>
    { call := fun _ _ => throw .tooDeep
      resume := fun _ _ _ _ => throw .tooDeep
      run := fun _ _ => throw .tooDeep
      label? := labelOf }
  | depth + 1 =>
    let inner := codeWithin base depth
    { call := fun id args => do callActor inner base (← actor id) args
      resume := fun id args stretch result => do
        resumeActor inner base (← actor id) args stretch result
      run := runProgram
      label? := labelOf }

def scriptDepth : Nat := 200

def code (base : String) : UserCode Recorder := codeWithin base scriptDepth

end TaskBoard.Session
