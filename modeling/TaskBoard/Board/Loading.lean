import TaskBoard.Board.Collect
import TaskBoard.Board.Program
import TaskBoard.Files.Reading

/-!
Loading configurations, tasks and plugins into a board, from mappings or from the files that a pattern
matches. A file that fails is logged and skipped; what comes before and after it is loaded all the same.
-/

namespace TaskBoard.Board

variable {σ : Type} (code : UserCode σ)

/-- A file name as it stands in messages. -/
def tidy (path : String) : List Char := Path.tidy path.toList

/-- Stores a value under a name that is a key. -/
def enter (b : Nat) (kind : RegistryKind) (name v : Value) : Act σ Unit := do
  let board ← Act.board b
  if (board.registry.mapping kind).contains name then
    Act.logWords .debug fun h => do return "Replacing " ++ kind.word ++ " " ++ (← h.shown name)
  edit b fun board => { board with registry := board.registry.put kind name v }

def register (b : Nat) (kind : RegistryKind) (name v : Value) : Act σ Unit :=
  if name.hashable then enter b kind name v else throw .wrongType

/-- Registers under the kind that a value names; any other value is refused. -/
def registerAs (b : Nat) (kind name v : Value) : Act σ Unit := do
  register b (← Act.ofExcept (RegistryKind.ofValue (← Act.heap) kind)) name v

def lookUp (b : Nat) (kind name : Value) : Act σ Value := do
  let kind ← Act.ofExcept (RegistryKind.ofValue (← Act.heap) kind)
  return Value.ofOption (← Act.ofExcept ((← Act.board b).registry.get kind name))

/-- Reads a configuration file in document form. -/
def readDocument (path : String) : Act σ Value := do
  let files := (← get).files
  if (← Act.ofExcept (files.lookup (tidy path))).isNone then
    throw (.configMissing (String.ofList (tidy path)))
  let text ← Act.ofExcept (files.readText (tidy path))
  Act.onHeap fun h => Config.ofText h text

/-- A provided configuration: none is empty, and all but mappings are refused. -/
def acceptProvided (path : String) (v : Value) : Act σ Value := do
  match v with
  | .nothing => Act.newMap {}
  | .map _ => do Act.ofExcept (Config.accept (← Act.heap) v)
  | _ => throw (.config (.notMapping (String.ofList (tidy path))))

def loadConfig (b : Nat) (path : String) : Act σ Value := do
  let suffix := String.ofList (Path.suffix path.toList)
  if suffix = ".yaml" ∨ suffix = ".yml" then readDocument path
  else if suffix ≠ ".py" then throw (.config (.unsupportedType (String.ofList (tidy path))))
  else do acceptProvided path (← configurationOf code b (← runProgram code (tidy path)))

def loadProgram (path : String) : Act σ Mapping := do
  exportsOf code (← runProgram code (tidy path))

/-- The files that a pattern matches, seen from the working directory of a board. -/
def filesOf (b : Nat) (pattern : Value) : Act σ (List String) := do
  match pattern with
  | .text s => do
    let board ← Act.board b
    let files := (← get).files
    let found ← Act.ofExcept (files.glob (Path.join board.cwd.toList s.toList))
    return (FileTree.sorted found).map String.ofList
  | _ => throw .wrongType

/-- The entries of a mapping; nothing else has them. -/
def entriesOf (v : Value) : Act σ (List (Value × Value)) := do
  match v with
  | .map cell => return ((← Act.heap).mapAt cell).entries
  | _ => throw .noMember

def configureEntry (b : Nat) (name v : Value) : Act σ Unit := do
  enter b .config name v
  Act.logWords .info fun h => do return "Configuration " ++ (← h.shown name) ++ " successfully imported."

def registerLoaded (b : Nat) (name v : Value) : Act σ Unit := do
  Act.logWords .debug fun h => do return " -  Registering configuration: " ++ (← h.shown name)
  enter b .config name v

def configureFile (b : Nat) (path : String) : Act σ Unit := do
  Act.log .info ("Importing configuration: " ++ path ++ "...")
  match ← Act.attempt (loadConfig code b path) with
  | .error failure => Act.logError ("Failed to import configuration " ++ path) failure
  | .ok configs => do
    (← entriesOf configs).forM fun (name, v) => registerLoaded b name v
    Act.log .info ("Configuration " ++ path ++ " successfully imported.")

/-- Merges configurations from a mapping, or from the files of a pattern. -/
def configure (b : Nat) (config : Value) : Act σ Unit := do
  match config with
  | .map _ => do (← entriesOf config).forM fun (name, v) => configureEntry b name v
  | _ => do (← filesOf b config).forM (configureFile code b)

def ownName (w : World σ) : Value → Option Value
  | .callable (.user id) => code.label? w.user id
  | .named name => some name
  | .group id => some (w.group id).name
  | .eventTask _ name _ _ => some (.text name)
  | _ => none

/-- The name under which an initializer is registered: its own, or else the source of its bundle, or
else `init`; empty ones do not count. -/
def initializerName (w : World σ) (source v : Value) : Value :=
  match (ownName code w v).filter (Value.truthy w.heap) with
  | some name => name
  | none => if source.truthy w.heap then source else .text "init"

/-- The words in which the log tells where an entry of a bundle goes. -/
def entryWords : RegistryKind → String
  | .init => "initializer"
  | .task => "shared task"
  | _ => "configuration"

/-- Registers an entry of a bundle. Its name is a key, but the one that an initializer carries need not be. -/
def registerEntry (b : Nat) (source name v : Value) : Act σ Unit := do
  let kind := RegistryKind.ofEntry name v
  let w ← get
  let place := if kind = .init then initializerName code w source v else name
  Act.logWords .debug fun h => do return " -  Registering " ++ entryWords kind ++ ": " ++ (← h.shown place)
  if kind = .init then register b kind place v else enter b kind place v

def registerBundle (b : Nat) (bundle source : Value) : Act σ Unit := do
  (← entriesOf bundle).forM fun (name, v) => registerEntry code b source name v

def loadFile (b : Nat) (path : String) : Act σ Unit := do
  Act.log .info ("Importing task: " ++ path ++ "...")
  match ← Act.attempt (loadProgram code path) with
  | .error failure => Act.logError ("Failed to import task " ++ path) failure
  | .ok exports => do
    let cwd := (← Act.board b).cwd.toList
    let source := toText (Path.relative (← get).files.cwd path.toList cwd)
    exports.entries.forM fun (name, v) => registerEntry code b source name v
    Act.log .info ("Task " ++ path ++ " successfully imported.")

/-- Registers a bundle of tasks, or those of the files of a pattern. -/
def registerTasks (b : Nat) (tasks : Value) : Act σ Unit := do
  match tasks with
  | .map _ => do
    Act.log .info "Importing task..."
    registerBundle code b tasks .nothing
    Act.log .info "Task successfully imported."
  | _ => do (← filesOf b tasks).forM (loadFile code b)

/-- Registers tasks and collects the sources. -/
def load (b : Nat) (tasks : Value) (receiver : Option Nat) : Act σ Unit := do
  registerTasks code b tasks
  let _ ← collect code b receiver

def registerPlugin (b : Nat) (name plugin : Value) : Act σ Unit := do
  Act.logWords .debug fun h => do return " -  Plugin " ++ (← h.shown name) ++ " registered."
  enter b .plugin name plugin

def loadPlugins (b : Nat) (plugins : Value) : Act σ Unit := do
  Act.log .info "Registering plugins..."
  (← entriesOf plugins).forM fun (name, plugin) => registerPlugin b name plugin
  Act.log .info "Registering plugins completed."

def pluginGroup : String := "doittea.plugins"

/-- Loads one installed plugin into a mapping; a failure is logged and skipped. -/
def loadInstalled (found : Mapping) (name : String) (plugin : Act σ Value) : Act σ Mapping := do
  match ← Act.attempt plugin with
  | .ok v => pure (found.insert (.text name) v)
  | .error failure => do
    Act.logError ("Failed to load plugin " ++ name) failure
    pure found

def loadInstalledPlugins (b : Nat) (installed : List (String × Act σ Value)) : Act σ Unit := do
  let found ← installed.foldlM (fun found (name, plugin) => loadInstalled found name plugin) {}
  loadPlugins b (← Act.newMap found)

end TaskBoard.Board
