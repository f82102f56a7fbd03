import TaskBoard.Value

/-!
Why an operation fails. `ConfigFault` lists the ways in which a configuration is refused, with the
message of each; `Failure` adds what user code raises and what a value of the wrong shape causes.
-/

namespace TaskBoard

/-- How a configuration or task file is refused. -/
inductive ConfigFault where
  | invalidSyntax
  | rootNotMapping
  | pathsNotMapping
  | sourceEntries (label : String)
  | sourceShape (label : String)
  | destinationShape (label : String)
  | unsupportedType (path : String)
  | cannotImport (path : String)
  | notMapping (path : String)
  deriving DecidableEq, Repr

namespace ConfigFault

/-- Faults of the document itself, as opposed to those of loading a file. -/
def ofDocument : ConfigFault → Bool
  | invalidSyntax | rootNotMapping | pathsNotMapping => true
  | sourceEntries _ | sourceShape _ | destinationShape _ => true
  | unsupportedType _ | cannotImport _ | notMapping _ => false

def message : ConfigFault → String
  | invalidSyntax => "Invalid YAML syntax"
  | rootNotMapping => "Config root must be a mapping"
  | pathsNotMapping => "'paths' must be a mapping"
  | sourceEntries label => "Group '" ++ label ++ "': 'src' entries must be strings"
  | sourceShape label => "Group '" ++ label ++ "': 'src' must be a string or list of strings"
  | destinationShape label => "Group '" ++ label ++ "': 'des' must be a string"
  | unsupportedType path => "Unsupported config file type: " ++ path
  | cannotImport path => "Cannot import " ++ path
  | notMapping path => path ++ ": configure() or CONFIG must provide a mapping"

end ConfigFault

inductive Failure where
  /-- Raised by user code, with a kind and a text of its own. -/
  | raised (kind text : String)
  | config (fault : ConfigFault)
  /-- A registry kind that does not exist, as it is written. -/
  | unknownKind (written : String)
  | moduleMissing (path : String)
  | configMissing (path : String)
  /-- The operation is not defined for values of this type. -/
  | wrongType
  /-- The value has no such member. -/
  | noMember
  | missingKey
  | outOfRange
  | badValue
  | overflow
  /-- A mapping grew while it was being walked. -/
  | changedDuringWalk
  /-- The end-of-iteration signal left a coroutine. -/
  | signalEscaped
  /-- A second loop was asked for while one is running. -/
  | loopRunning
  | undecodable
  | isDirectory
  | fileMissing
  | notDirectory
  | fileExists
  | nameTooLong
  | badImport
  | cancelled
  | tooDeep
  deriving DecidableEq, Repr

namespace Failure

/-- The kinds that user code raises to end a program or a routine, and not to tell of an error. -/
def exits : List String :=
  ["BaseException", "BaseExceptionGroup", "GeneratorExit", "KeyboardInterrupt", "SystemExit"]

/-- Whether a failure is an error; exits and cancellations are none. -/
def isError : Failure → Bool
  | raised kind _ => !exits.contains kind
  | cancelled => false
  | _ => true

/-- Whether a failure ends a whole loop, wherever it is raised in one. -/
def endsLoop : Failure → Bool
  | raised kind _ => kind == "KeyboardInterrupt" || kind == "SystemExit"
  | _ => false

/-- A routine was begun twice. -/
def spent : Failure := raised "RuntimeError" "cannot reuse already awaited coroutine"

/-- The message, where the library fixes it. -/
def message? : Failure → Option String
  | raised _ text => some text
  | config fault => some fault.message
  | unknownKind written =>
    some ("Unknown registry kind: " ++ written ++
      ". Valid kinds: ('task', 'init', 'plugin', 'config')")
  | moduleMissing path => some ("Module file not found: " ++ path)
  | configMissing path => some ("Config file not found: " ++ path)
  | _ => none

end Failure

end TaskBoard
