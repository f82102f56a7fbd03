import TaskBoard.Act
import TaskBoard.Picture
import TaskBoard.Session.Script

/-!
What a session records, and the values of its literals. Every callable of a session is an actor with a
number; building a literal makes the actors that stand in it.
-/

namespace TaskBoard.Session

/-- What an operation answers: a picture of its result, or a failure. -/
abbrev Answer := Except Failure Picture

/-- Where an observer stands: at the end of a mapper or at the end of a host task. -/
inductive Post where
  | receiver
  | callback
  deriving DecidableEq, Repr

inductive TraceEntry where
  | called (name : String) (args : List Picture) (board : Option Nat)
  | resumed (name : String) (board : Option Nat)
  | performed (answer : Answer)
  | listed (pattern : Picture) (board : Nat)
  | ran (task args : Picture) (callback : Bool) (board : Nat)
  | handed (line : Picture)
  | observed (post : Post) (value : Picture)
  | lookedUp (group : String)

inductive Actor where
  | script (script : Script) (label : Option Value)
  /-- Lists the files of the patterns that it knows. -/
  | lister (board : Nat) (files : List (String × Literal))
  /-- Runs host tasks of a board with given exit codes. -/
  | runner (board : Nat) (codes : List (String × Int))
  /-- The host tool itself, with given exit codes. -/
  | tool (codes : List (String × Int))
  | observer (post : Post) (observer : Observer)

structure Recorder where
  actors : Array Actor := #[]
  programs : Array ProgramDraft := #[]
  trace : Array TraceEntry := #[]

abbrev Play (α : Type) := Act Recorder α

def Recorder.nameOf (r : Recorder) (id : Nat) : Option String :=
  match r.actors[id]? with
  | some (.script s _) => some s.manner.name
  | _ => none

def record (entry : TraceEntry) : Play Unit :=
  modify fun w => { w with user := { w.user with trace := w.user.trace.push entry } }

def newActor (actor : Actor) : Play Nat :=
  modifyGet fun w =>
    (w.user.actors.size, { w with user := { w.user with actors := w.user.actors.push actor } })

def newProgram (program : ProgramDraft) : Play Nat :=
  modifyGet fun w =>
    (w.user.programs.size,
      { w with user := { w.user with programs := w.user.programs.push program } })

def picture (v : Value) : Play Picture := do
  let w ← get
  Act.ofExcept (w.draw w.user.nameOf v)

mutual

def build : Literal → Play Value
  | .nothing => pure .nothing
  | .flag b => pure (.flag b)
  | .whole i => pure (.whole i)
  | .real x => if x.isNaN then .real <$> Act.newNan else pure (.real x)
  | .text s => pure (.text s)
  | .list items => do Act.newList (← buildAll items)
  | .map entries => do Act.newMap (← buildEntries entries {})
  | .tuple items => .tuple <$> buildAll items
  | .callable (.mk manner operations (some label) result) => do
    let v ← build label
    let id ← newActor (.script (.mk manner operations (some label) result) (some v))
    pure (.callable (.user id))
  | .callable (.mk manner operations none result) => do
    pure (.callable (.user (← newActor (.script (.mk manner operations none result) none))))
  | .named name => .named <$> build name
  | .direct target => .direct <$> build target
  | .noTask => pure .noTask

def buildAll : List Literal → Play (List Value)
  | [] => pure []
  | item :: rest => do
    let v ← build item
    pure (v :: (← buildAll rest))

def buildEntries : List (Literal × Literal) → Mapping → Play Mapping
  | [], m => pure m
  | (key, value) :: rest, m => do
    let k ← build key
    let v ← build value
    if k.hashable then buildEntries rest (m.insert k v) else throw .wrongType

end

/-- The text of a literal; another value fails as told. -/
def textOr (failure : Failure) (l : Literal) : Play String := do
  match ← build l with
  | .text s => pure s
  | _ => throw failure

def newObserver (post : Post) : Option Observer → Play (Option Nat)
  | none => pure none
  | some o => some <$> newActor (.observer post o)

def raise {α : Type} (r : Raising) : Play α := throw (.raised r.kind r.text)

def raiseIf : Option Raising → Play Unit
  | none => pure ()
  | some r => raise r

end TaskBoard.Session
