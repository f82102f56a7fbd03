import TaskBoard.Board.Dispatch

/-!
Program files. Running a file defines names; next to them a program has the names that every program
has, and it may define a function `__getattr__` that gives the values of all others. Its exports are
the names that it lists, or else the functions written under its own name and its mappings.
-/

namespace TaskBoard

structure Program where
  definitions : List Definition
  /-- The names that every program has, unless it defines them itself. -/
  standard : List (String × Value)
  deriving Repr

namespace Program

variable {σ : Type}

def valueOf? (p : Program) (name : String) : Option Value :=
  match p.definitions.find? (·.name == name) with
  | some d => some d.value
  | none => (p.standard.find? (·.1 == name)).map (·.2)

def nameOf (path : List Char) : List Char := "doittea_".toList ++ Path.stem path

/-- Whether a file is the program of a whole directory. -/
def isDirectoryProgram (path : List Char) : Bool := Path.fileName path == "__init__.py".toList

/-- The name that a program belongs to: its own one for the program of a directory, or else what stands
before the last dot of its name. -/
def packageOf (path : List Char) : List Char :=
  let name := nameOf path
  if isDirectoryProgram path then name
  else ((name.reverse.dropWhile (· ≠ '.')).drop 1).reverse

def placeOf (cwd path : List Char) : List Char :=
  if Path.isAbsolute path then path else Text.dropEnd '/' cwd ++ '/' :: path

def standardTexts (place path : List Char) : List (String × List Char) :=
  [("__name__", nameOf path), ("__package__", packageOf path), ("__file__", place)]

/-- The names that every program has. The program of a directory tells where it looks for others. -/
def standardNames (cwd path : List Char) : Act σ (List (String × Value)) := do
  let place := placeOf cwd path
  let texts := (standardTexts place path).map fun (name, text) => (name, .text (String.ofList text))
  let annotations ← Act.newMap {}
  let shared := texts ++ [("__doc__", .nothing), ("__annotations__", annotations)]
  if isDirectoryProgram path then
    let directory := Value.text (String.ofList (Path.split place).1)
    return shared ++ [("__path__", ← Act.newList [directory])]
  else pure shared

/-- Whether a definition is exported where no list of names is given. -/
def exports (p : Program) (d : Definition) : Bool :=
  let own := match d.home, p.valueOf? "__name__" with
    | some home, some name => home.sameKey name
    | _, _ => false
  d.name.toList.head? != some '_' && (own || d.value.isMap)

end Program

def Failure.isNoMember : Failure → Bool
  | .noMember => true
  | .raised kind _ => kind == "AttributeError"
  | _ => false

namespace Board

variable {σ : Type} (code : UserCode σ)

def endsWith (path : List Char) (ending : String) : Bool := ending.toList.isSuffixOf path

/-- Runs the program at a path in its tidy form. A compiled program cannot be run here. -/
def runProgram (path : List Char) : Act σ Program := do
  let files := (← get).files
  match ← Act.ofExcept (files.lookup path) with
  | none => throw (.moduleMissing (String.ofList path))
  | some entry =>
    if endsWith path ".so" then throw .badImport
    else if endsWith path ".py" ∨ endsWith path ".pyc" then
      match entry with
      | .directory => throw .isDirectory
      | .file content => do
        if endsWith path ".pyc" then throw .badImport
        let definitions ← match content with
          | .program id => code.run id (.text (String.ofList (Program.nameOf path)))
          | _ => pure []
        pure ⟨definitions, ← Program.standardNames files.cwd path⟩
    else throw (.config (.cannotImport (String.ofList path)))

def member (p : Program) (name : String) : Act σ Value := do
  match p.valueOf? name, p.valueOf? "__getattr__" with
  | some v, _ => pure v
  | none, some f => call code f [.text name]
  | none, none => throw .noMember

/-- The value of a name of a program, nothing when it has no such name. -/
def memberOrNothing (p : Program) (name : String) : Act σ Value := do
  match ← Act.attempt (member code p name) with
  | .ok v => pure v
  | .error failure => if failure.isNoMember then pure .nothing else throw failure

/-- An exported name with its value. -/
def exported (p : Program) : Value → Act σ (Value × Value)
  | .text name => return (.text name, ← member code p name)
  | _ => throw .wrongType

def exportsOf (p : Program) : Act σ Mapping := do
  match ← memberOrNothing code p "__all__" with
  | .nothing =>
    pure (Mapping.ofList ((p.definitions.filter p.exports).map fun d => (.text d.name, d.value)))
  | names => do
    let pairs ← (← Act.elements names).mapM (exported code p)
    pure (Mapping.ofList pairs)

/-- The configuration that a program provides: what its function `configure` gives for the board, or
else its value `CONFIG`. -/
def configurationOf (b : Nat) (p : Program) : Act σ Value := do
  let factory ← memberOrNothing code p "configure"
  if factory.isCallable then call code factory [.board b] else memberOrNothing code p "CONFIG"

end Board

end TaskBoard
