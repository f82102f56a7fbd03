import TaskBoard.Board.Dispatch
import TaskBoard.Files.Glob
import TaskBoard.Pattern.Source

/-!
The files of a source pattern. Providers are plugins and tasks: their paths are made relative to the
working directory of the board and filtered by the extension that the pattern gives. The other patterns
go to the glob primitive, under the source root unless they are marked as verbatim.
-/

namespace TaskBoard.Board

variable {σ : Type} (code : UserCode σ)

def toText (path : List Char) : Value := .text (String.ofList path)

def glob (b : Nat) (pattern : String) : Act σ (List Value) := do
  let board ← Act.board b
  match board.lister with
  | some id => do Act.elements (← callUser code id [.text pattern])
  | none => do
    let files := (← get).files
    return (← Act.ofExcept (files.list board.cwd.toList pattern.toList)).map toText

def stripped (cwd : String) : Value → Except Failure (List Char)
  | .text path => pure (Path.stripCwd path.toList cwd.toList)
  | _ => throw .noMember

/-- Whether a file name has the extension; any has the missing one. -/
def hasExtension (extension : Option String) (file : List Char) : Bool :=
  match extension with
  | none => true
  | some e => ('.' :: e.toList).isSuffixOf file

/-- The files of a provider that gave `paths`. -/
def provided (b : Nat) (extension : Option String) (paths : Value) : Act σ (List Value) := do
  match paths with
  | .nothing => pure []
  | _ => do
    let entries ← Act.elements paths
    let cwd := (← Act.board b).cwd
    let files ← Act.ofExcept (entries.mapM (stripped cwd))
    pure ((files.filter (hasExtension extension)).map toText)

/-- A root for joining paths: a missing or empty one is the empty path, a text is itself. -/
def rootPath (h : Heap) (root : Option Value) : Except Failure (List Char) :=
  match root with
  | some (.text path) => pure path.toList
  | some v => if v.truthy h then throw .wrongType else pure []
  | none => pure []

/-- A pattern under the source root, in normal form; a final slash is kept. -/
def rooted (root pattern : List Char) : List Char :=
  Path.normal (Path.join root pattern) ++ (if Path.endsWithSlash pattern then ['/'] else [])

/-- The files that a provider's registry entry gives: none when it is missing. -/
def listFiles (b : Nat) : SourcePattern → Act σ (List Value)
  | .plugin name extension => do
    match Value.ofOption ((← Act.board b).registry.plugins.at? name) with
    | .nothing => pure []
    | plugin => do provided b extension (← call code plugin [])
  | .task name extension => do
    match Value.ofOption ((← Act.board b).registry.tasks.at? name) with
    | .nothing => pure []
    | task => do provided b extension (← runTask code b task .nothing .nothing)
  | .verbatim pattern => glob code b pattern
  | .rooted pattern => do
    let h ← Act.heap
    let root ← Act.ofExcept (rootPath h (((← Act.board b).paths h).at? "src"))
    glob code b (String.ofList (rooted root pattern.toList))

/-- The files of a pattern, which must be a text. -/
def resolveSources (b : Nat) : Value → Act σ (List Value)
  | .text pattern => do
    let files ← listFiles code b (SourcePattern.parse pattern)
    Act.log .debug (" -  Collected " ++ toString files.length ++ " files from " ++ pattern)
    pure files
  | _ => throw .noMember

end TaskBoard.Board
