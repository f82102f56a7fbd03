import TaskBoard.Number.Clock

/-!
Sessions on boards: values as they are asked for, callables that follow a script, and the operations
that a session consists of. A literal is not yet a value: each time it is built it gives new lists, new
mappings and new callables.
-/

namespace TaskBoard.Session

/-- A failure that a script asks for. -/
structure Raising where
  kind : String
  text : String
  deriving DecidableEq, Repr

/-- Somebody who records what is passed on, and may fail afterwards. -/
structure Observer where
  raising : Option Raising := none
  deriving DecidableEq, Repr

/-- The traits of a scripted callable that hold no literals. -/
structure Manner where
  name : String
  /-- Whether a call only gives a routine, in which the script runs. -/
  deferred : Bool := false
  /-- How many turns of the loop the routine gives up. -/
  yields : Nat := 0
  /-- A text to add to the files of the first argument. -/
  append : Option String := none
  raising : Option Raising := none
  /-- The argument to give back. -/
  argument : Option Int := none
  /-- Whether to give back the files of the first argument. -/
  files : Bool := false
  /-- Whether it is an object that can be called instead of a function. -/
  object : Bool := false
  /-- Whether it was written in another file than the one that defines it. -/
  foreign : Bool := false
  deriving DecidableEq, Repr

mutual

inductive Literal where
  | nothing
  | flag (b : Bool)
  | whole (i : Int)
  | real (x : Double)
  | text (s : String)
  | list (items : List Literal)
  | map (entries : List (Literal × Literal))
  | tuple (items : List Literal)
  | callable (script : Script)
  | named (name : Literal)
  | direct (target : Literal)
  | noTask

/-- What a scripted callable does: the operations, then the rest by its manner; `label` is the name that
it carries, `result` what it gives if nothing else is asked for. -/
inductive Script where
  | mk (manner : Manner) (operations : List Request) (label : Option Literal) (result : Literal)

/-- An operation on a board of the session. -/
inductive Request where
  | mk (board : Nat) (operation : Operation)

inductive Operation where
  | register (kind name value : Literal)
  | get (kind name : Literal)
  | resolve (value : Literal)
  | bundle (entries source : Literal)
  | configure (config : Literal)
  | load (tasks : Literal) (observer : Option Observer)
  | loadPlugins (plugins : Literal)
  | loadInstalled (group : Option String) (entries : List (String × Supply))
  | init (names : Literal)
  | runTask (task args : Literal) (observer : Option Observer) (awaiting : Bool)
  | collect (observer : Option Observer)
  | parseGroup (data : Declared) (name : Option Literal) (observer : Option Observer)
  | sources (pattern : Literal)
  | destination (pattern : Literal)
  | event (pattern type path : Literal) (call : Bool) (observer : Option Observer)
  | byEnvironment (options : Literal)
  | paths
  /-- Sets the time; a missing time is refused. -/
  | setClock (clock : Option Clock)
  | write (path : String) (content : Draft)
  | remove (path : String)
  | pause (turns : Nat)
  | drain
  | cancel (index : Int)

/-- Where a group is declared: in a mapping of its own, or in a configuration of the board. -/
inductive Declared where
  | literal (data : Literal)
  | entry (config group : Literal)

/-- What an installed entry supplies. -/
inductive Supply where
  | value (v : Literal)
  | failure (raising : Raising)

/-- The content of a file to be written. -/
inductive Draft where
  | directory
  | text (s : String)
  | bytes (b : List UInt8)
  | program (definitions : List (String × Literal)) (raising : Option Raising)

end

instance : Inhabited Literal := ⟨.nothing⟩

instance : Inhabited Script := ⟨.mk ⟨"", false, 0, none, none, none, false, false, false⟩ [] none .nothing⟩

instance : Inhabited Operation := ⟨.paths⟩

instance : Inhabited Request := ⟨.mk 0 .paths⟩

instance : Inhabited Supply := ⟨.value .nothing⟩

instance : Inhabited Draft := ⟨.directory⟩

/-- The definitions of a program file, and the failure that running it ends with. -/
structure ProgramDraft where
  definitions : List (String × Literal)
  raising : Option Raising := none

namespace Script

def manner : Script → Manner
  | mk manner _ _ _ => manner

def operations : Script → List Request
  | mk _ operations _ _ => operations

def label : Script → Option Literal
  | mk _ _ label _ => label

def result : Script → Literal
  | mk _ _ _ result => result

end Script

end TaskBoard.Session
