import TaskBoard.Document.Content
import TaskBoard.Value.Text

/-!
Configurations: mappings from names to values, where a mapping inside such a value that has a `src`
entry declares a source group. `Config.check` accepts a value or tells the first fault that it meets:
the root, then `paths`, then the groups in the order in which they stand, sources before destinations.
Every group needs a label, even if nothing is wrong with it.
-/

namespace TaskBoard.Config

def label (h : Heap) (config group : Value) : Except Failure String := do
  pure ((← h.shown config) ++ ":" ++ (← h.shown group))

def isText (v : Value) : Bool := v.text?.isSome

def checkSource (h : Heap) (name : String) : Value → Except ConfigFault Unit
  | .text _ => pure ()
  | .list cell => if (h.listAt cell).all isText then pure () else throw (.sourceEntries name)
  | _ => throw (.sourceShape name)

def checkDestination (name : String) (destination : Option Value) : Except ConfigFault Unit :=
  match destination with
  | none => pure ()
  | some v => if v.isNothing || isText v then pure () else throw (.destinationShape name)

/-- A check whose fault is the failure of a configuration. -/
def orFail {α : Type} : Except ConfigFault α → Except Failure α
  | .ok a => pure a
  | .error fault => throw (.config fault)

def checkContent (h : Heap) (config group : Value) (content : Mapping) : Except Failure Unit :=
  match content.at? "src" with
  | none => pure ()
  | some source => do
    let name ← label h config group
    orFail (checkSource h name source)
    orFail (checkDestination name (content.at? "des"))

def checkGroup (h : Heap) (config group : Value) : Value → Except Failure Unit
  | .map cell => checkContent h config group (h.mapAt cell)
  | _ => pure ()

def checkEntry (h : Heap) (config : Value) : Value → Except Failure Unit
  | .map cell => (h.mapAt cell).entries.forM fun (group, v) => checkGroup h config group v
  | _ => pure ()

def checkPaths (paths : Option Value) : Except ConfigFault Unit :=
  match paths with
  | none => pure ()
  | some v => if v.isNothing || v.isMap then pure () else throw .pathsNotMapping

def check (h : Heap) : Value → Except Failure Unit
  | .map cell => do
    let content := h.mapAt cell
    orFail (checkPaths (content.at? "paths"))
    content.entries.forM fun (name, v) => checkEntry h name v
  | _ => throw (.config .rootNotMapping)

def accept (h : Heap) (v : Value) : Except Failure Value := do
  check h v
  pure v

/-- Reads a configuration from the text of a document; an empty document is an empty mapping. -/
def ofText (h : Heap) (text : List Char) : Except Failure (Value × Heap) := do
  let (v, h) ← Document.read text h
  let (v, h) := if v.isNothing then
      let (cell, h) := h.newMap {}
      (Value.map cell, h)
    else (v, h)
  pure (← accept h v, h)

end TaskBoard.Config
