import TaskBoard.Document.Graph
import TaskBoard.Document.Scalar
import TaskBoard.Heap

/-!
The values of a document. Collections are made empty when they are first met and filled in the order in
which they were met, so a collection may contain itself and every alias of a node is one value. Before
a mapping is filled its merge keys give way to the pairs of the mappings they name.
-/

namespace TaskBoard.Document

namespace Node

def tag : Node → Tag
  | scalar tag _ => tag
  | sequence tag _ => tag
  | mapping tag _ => tag

def withTag (tag : Tag) : Node → Node
  | scalar _ text => scalar tag text
  | sequence _ items => sequence tag items
  | mapping _ pairs => mapping tag pairs

end Node

namespace Graph

def tagOf (g : Graph) (id : Nat) : Tag := (g.node id).tag

def pairsOf (g : Graph) (id : Nat) : List (Nat × Nat) :=
  match g.node id with
  | .mapping _ pairs => pairs
  | _ => []

def setPairs (g : Graph) (id : Nat) (pairs : List (Nat × Nat)) : Graph :=
  g.replace id (.mapping (g.tagOf id) pairs)

/-- The keys `=` of a mapping become ordinary texts. -/
def settleDefaults (g : Graph) (id : Nat) : Graph :=
  (g.pairsOf id).foldl
    (fun g (key, _) =>
      if g.tagOf key = .defaultValue then g.replace key ((g.node key).withTag .str) else g)
    g

/-- Takes the first pair with a merge key out of a list. -/
def takeMerge (g : Graph) : List (Nat × Nat) → Option (Nat × List (Nat × Nat))
  | [] => none
  | (key, value) :: rest =>
    if g.tagOf key = .merge then some (value, rest)
    else (g.takeMerge rest).map fun (merged, others) => (merged, (key, value) :: others)

/-- How many pairs have a merge key; merging uses each of them up. -/
def mergeCount (g : Graph) : Nat :=
  g.nodes.foldl
    (fun n node =>
      match node with
      | .mapping _ pairs => n + (pairs.filter fun (key, _) => g.tagOf key = .merge).length
      | _ => n)
    0

/-- The pairs of each mapping of a list, every one merged first by `merge`. -/
def pairsOfAll (merge : Nat → Graph → Except Failure Graph) :
    List Nat → Graph → Except Failure (List (List (Nat × Nat)) × Graph)
  | [], g => pure ([], g)
  | item :: items, g =>
    match g.node item with
    | .mapping _ _ => do
      let g ← merge item g
      let pairs := g.pairsOf item
      let (others, g) ← pairsOfAll merge items g
      pure (pairs :: others, g)
    | _ => throw malformed

/-- How many times mappings may lead on from one to another; a longer way is refused. -/
def linkLimit : Nat := 980

/-- Puts the pairs that the merge keys of a mapping name in front of its own pairs; `depth` is how many
merge keys led to it, `gathered` are the pairs found so far. Of several mappings in a list the last one
comes first. -/
def mergeRest : Nat → Nat → List (Nat × Nat) → Nat → Graph → Except Failure Graph
  | 0, _, gathered, id, g => pure (g.setPairs id (gathered ++ g.pairsOf id))
  | fuel + 1, depth, gathered, id, g => do
    if linkLimit < depth then throw .tooDeep
    let g := g.settleDefaults id
    match g.takeMerge (g.pairsOf id) with
    | none => pure (g.setPairs id (gathered ++ g.pairsOf id))
    | some (value, rest) => do
      let g := g.setPairs id rest
      match g.node value with
      | .mapping _ _ => do
        let g ← mergeRest fuel (depth + 1) [] value g
        mergeRest fuel depth (gathered ++ g.pairsOf value) id g
      | .sequence _ items => do
        let (lists, g) ← pairsOfAll (mergeRest fuel (depth + 1) []) items g
        mergeRest fuel depth (gathered ++ lists.reverse.flatten) id g
      | .scalar _ _ => throw malformed

def merge (g : Graph) (id : Nat) : Except Failure Graph := mergeRest (g.mergeCount + 1) 0 [] id g

end Graph

/-- A document whose values are being made. -/
structure Draft where
  graph : Graph
  heap : Heap
  /-- The values of the nodes met so far. -/
  made : List (Nat × Value) := []
  /-- The collections that are still empty: their nodes and cells. -/
  waiting : List (Nat × Nat) := []

namespace Draft

abbrev Making (α : Type) := StateT Draft (Except Failure) α

/-- The text of a scalar, or of the value under the key `=` of a mapping. -/
def scalarText (g : Graph) : Nat → Nat → Except Failure (List Char)
  | 0, _ => throw .tooDeep
  | fuel + 1, id =>
    match g.node id with
    | .scalar _ text => pure text
    | .sequence _ _ => throw malformed
    | .mapping _ pairs =>
      match pairs.find? fun (key, _) => g.tagOf key = .defaultValue with
      | some (_, value) => scalarText g fuel value
      | none => throw malformed

def textOf (id : Nat) : Making (List Char) := do
  let g := (← get).graph
  scalarText g (Graph.linkLimit + 1) id

def makeList (id : Nat) : Making Nat :=
  modifyGet fun d =>
    let (cell, heap) := d.heap.newList []
    (cell, { d with heap := heap, waiting := d.waiting ++ [(id, cell)] })

def makeMap (id : Nat) : Making Nat :=
  modifyGet fun d =>
    let (cell, heap) := d.heap.newMap {}
    (cell, { d with heap := heap, waiting := d.waiting ++ [(id, cell)] })

/-- A moment is read from the node itself, which must be a scalar. -/
def timestamp (id : Nat) : Making Value := do
  let text ← textOf id
  match (← get).graph.node id with
  | .scalar _ _ => Scalar.toTimestamp text
  | _ => throw .wrongType

def newNan : Making Double :=
  modifyGet fun d =>
    let (x, heap) := d.heap.newNan
    (x, { d with heap := heap })

/-- A floating-point value; what is no number is a value of its own, unless the word for it is written. -/
def floating (text : List Char) : Making Value := do
  let x ← Scalar.toFloat text
  if x.isNaN && !Scalar.isNanWord text then .real <$> newNan else pure (.real x)

def fresh (id : Nat) : Making Value := do
  match (← get).graph.tagOf id with
  | .null => do
    let _ ← textOf id
    pure .nothing
  | .bool => do Scalar.toBool (← textOf id)
  | .int => do Scalar.toInt (← textOf id)
  | .float => do floating (← textOf id)
  | .binary => do Scalar.toBinary (← textOf id)
  | .timestamp => timestamp id
  | .str => do pure (.text (String.ofList (← textOf id)))
  | .seq | .omap | .pairs => .list <$> makeList id
  | .set => .set <$> makeList id
  | .map => .map <$> makeMap id
  | .merge | .defaultValue | .unknown => throw malformed

def valueOf (id : Nat) : Making Value := do
  match (← get).made.find? (·.1 == id) with
  | some (_, v) => pure v
  | none => do
    let v ← fresh id
    modify fun d => { d with made := (id, v) :: d.made }
    pure v

def mappingOf (id : Nat) : Making Mapping := do
  let d ← get
  match d.graph.node id with
  | .mapping _ _ => do
    let g ← d.graph.merge id
    set { d with graph := g }
    (g.pairsOf id).foldlM
      (fun m (key, value) => do
        let k ← valueOf key
        if !k.hashable then throw malformed
        pure (m.insert k (← valueOf value)))
      ({} : Mapping)
  | _ => throw malformed

def itemsOf (id : Nat) : Making (List Nat) := do
  match (← get).graph.node id with
  | .sequence _ items => pure items
  | _ => throw malformed

def pairOf (id : Nat) : Making Value := do
  match (← get).graph.node id with
  | .mapping _ [(key, value)] => do
    let k ← valueOf key
    pure (.tuple [k, ← valueOf value])
  | _ => throw malformed

def fill (id cell : Nat) : Making Unit := do
  match (← get).graph.tagOf id with
  | .seq => do
    let items ← (← itemsOf id).mapM valueOf
    modify fun d => { d with heap := d.heap.setList cell items }
  | .omap | .pairs => do
    let items ← (← itemsOf id).mapM pairOf
    modify fun d => { d with heap := d.heap.setList cell items }
  | .set => do
    let members ← mappingOf id
    modify fun d => { d with heap := d.heap.setList cell members.keys }
  | _ => do
    let content ← mappingOf id
    modify fun d => { d with heap := d.heap.setMap cell content }

/-- Fills the waiting collections, first come first filled. Each node waits at most once. -/
def fillAll : Nat → Making Unit
  | 0 => pure ()
  | fuel + 1 => do
    match (← get).waiting with
    | [] => pure ()
    | (id, cell) :: rest => do
      modify fun d => { d with waiting := rest }
      fill id cell
      fillAll fuel

end Draft

/-- The value of a text and the heap that holds its parts; an empty text has no value. -/
def read (text : List Char) (heap : Heap) : Except Failure (Value × Heap) := do
  match ← Tree.ofText? text with
  | none => pure (.nothing, heap)
  | some tree => do
    let (root, graph) ← Graph.ofTree tree
    let making : Draft.Making Value := do
      let v ← Draft.valueOf root
      Draft.fillAll (graph.nodes.size + 1)
      pure v
    let (v, d) ← making.run { graph := graph, heap := heap }
    pure (v, d.heap)

end TaskBoard.Document
