import TaskBoard.Failure
import TaskBoard.Mapping
import TaskBoard.Value.Text

/-!
The four registries of a board and the references to tasks. Registering a name again replaces its value
and keeps its place; the kinds never touch each other.
-/

namespace TaskBoard

inductive RegistryKind where
  | task
  | init
  | plugin
  | config
  deriving DecidableEq, Repr

namespace RegistryKind

def word : RegistryKind → String
  | task => "task"
  | init => "init"
  | plugin => "plugin"
  | config => "config"

def all : List RegistryKind := [task, init, plugin, config]

def ofText? (text : String) : Option RegistryKind := all.find? (·.word == text)

/-- The kind that a value names; any other value is refused with its written form. -/
def ofValue (h : Heap) (v : Value) : Except Failure RegistryKind :=
  match v.text?.bind ofText? with
  | some kind => pure kind
  | none => do throw (.unknownKind (← h.written Heap.writingDepth v))

end RegistryKind

structure Registry where
  tasks : Mapping := {}
  inits : Mapping := {}
  plugins : Mapping := {}
  configs : Mapping := {}
  deriving Repr, Inhabited

namespace Registry

def mapping (r : Registry) : RegistryKind → Mapping
  | .task => r.tasks
  | .init => r.inits
  | .plugin => r.plugins
  | .config => r.configs

def put (r : Registry) (kind : RegistryKind) (name value : Value) : Registry :=
  match kind with
  | .task => { r with tasks := r.tasks.insert name value }
  | .init => { r with inits := r.inits.insert name value }
  | .plugin => { r with plugins := r.plugins.insert name value }
  | .config => { r with configs := r.configs.insert name value }

theorem mapping_put_self (r : Registry) (kind : RegistryKind) (name value : Value) :
    (r.put kind name value).mapping kind = (r.mapping kind).insert name value := by
  cases kind <;> rfl

theorem mapping_put_other (r : Registry) {kind other : RegistryKind} (name value : Value)
    (different : kind ≠ other) : (r.put kind name value).mapping other = r.mapping other := by
  cases kind <;> cases other <;> first | rfl | exact absurd rfl different

def get (r : Registry) (kind : RegistryKind) (name : Value) : Except Failure (Option Value) :=
  if name.hashable then pure ((r.mapping kind).get? name) else throw .wrongType

end Registry

/-- How a task is referred to: by a name that is looked up at every use, directly, or not at all. -/
inductive TaskRef where
  | named (name : Value)
  | direct (target : Value)
  | noTask
  deriving Repr

namespace TaskRef

def ofValue : Value → TaskRef
  | .named name => named name
  | .direct target => direct target
  | .noTask => noTask
  | .text name => named (.text name)
  | .callable c => direct (.callable c)
  | _ => noTask

def toValue : TaskRef → Value
  | named name => .named name
  | direct target => .direct target
  | noTask => .noTask

/-- The task that a reference leads to; a missing name leads to none. -/
def resolve (r : Registry) : TaskRef → Except Failure (Option Value)
  | named name => r.get .task name
  | direct target => pure (some target)
  | noTask => pure none

end TaskRef

/-- Where an entry of a bundle goes: `init` is an initializer, callables are tasks, the rest are
configurations. -/
def RegistryKind.ofEntry (name value : Value) : RegistryKind :=
  if name.sameKey (.text "init") then .init
  else if value.isCallable then .task
  else .config

end TaskBoard
