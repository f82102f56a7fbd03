import TaskBoard.Failure
import TaskBoard.Heap

/-!
Source groups: a name for messages, the source patterns, the destination as it is declared or as it was
resolved, and the mapping that the group was read from. Its files stand in a list that the mapping
shares once the group is resolved.
-/

namespace TaskBoard

structure Group where
  name : Value
  source : List Value
  destination : Value
  data : Value
  /-- The list that holds the files. -/
  files : Nat
  /-- The task that runs an asynchronous mapper. -/
  pending : Option Nat := none
  deriving Repr, Inhabited

/-- What happens to a group once it is resolved. -/
inductive GroupDeed where
  /-- Its mapper is called with it. -/
  | mapped (group : Nat) (mapper : Value)
  /-- The value of its mapper goes to a receiver. -/
  | delivered (group receiver : Nat) (v : Value)
  /-- The failure of its mapper is logged under its name. -/
  | reported (group : Nat) (name : String) (failure : Failure)
  deriving Repr

namespace GroupDeed

def group : GroupDeed → Nat
  | mapped group _ => group
  | delivered group _ _ => group
  | reported group _ _ => group

end GroupDeed

namespace Group

/-- The entry of a mapping, which must be one and must have it. -/
def entry (h : Heap) (data key : Value) : Except Failure Value :=
  match data with
  | .map cell =>
    if key.hashable then
      match (h.mapAt cell).get? key with
      | some v => pure v
      | none => throw .missingKey
    else throw .wrongType
  | _ => throw .wrongType

def patterns (h : Heap) : Value → Except Failure (List Value)
  | .text s => pure [.text s]
  | v =>
    match v.elements? h with
    | some items => pure items
    | none => throw .wrongType

def destinationOf (h : Heap) : Value → Value
  | .map cell => Value.ofOption ((h.mapAt cell).at? "des")
  | _ => .nothing

def ofConfig (h : Heap) (name data : Value) : Except Failure (Group × Heap) := do
  let source ← patterns h (← entry h data (.text "src"))
  let (files, grown) := h.newList []
  pure (⟨name, source, destinationOf h data, data, files, none⟩, grown)

/-- The own value under a key, or the entry of the mapping. -/
def get (h : Heap) (g : Group) (key : Value) : Except Failure (Value × Heap) :=
  if key.sameKey (.text "files") then pure (.list g.files, h)
  else if key.sameKey (.text "des") then pure (g.destination, h)
  else if key.sameKey (.text "src") then
    let (cell, h) := h.newList g.source
    pure (.list cell, h)
  else do pure (← entry h g.data key, h)

/-- As `get`, with a value to give where the mapping has no entry. -/
def getOr (h : Heap) (g : Group) (key default : Value) : Except Failure (Value × Heap) :=
  match g.get h key with
  | .error .missingKey => pure (default, h)
  | result => result

end Group

/-- Whether a value declares a group: it is a mapping whose `src` counts as true. -/
def Value.declaresGroup (h : Heap) : Value → Bool
  | map cell =>
    match (h.mapAt cell).at? "src" with
    | some source => source.truthy h
    | none => false
  | _ => false

end TaskBoard
