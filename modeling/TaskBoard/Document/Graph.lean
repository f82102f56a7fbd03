import TaskBoard.Document.Tag
import TaskBoard.Document.Tree

/-!
The nodes of a document with their aliases resolved. Every node has a number; an alias is the number of
the node that carries the anchor, so one node may stand in many places, even inside itself.
-/

namespace TaskBoard.Document

inductive Node where
  | scalar (tag : Tag) (text : List Char)
  | sequence (tag : Tag) (items : List Nat)
  | mapping (tag : Tag) (pairs : List (Nat × Nat))

structure Graph where
  nodes : Array Node := #[]
  anchors : List (List Char × Nat) := []

namespace Graph

def node (g : Graph) (id : Nat) : Node := g.nodes.getD id (.scalar .null [])

def replace (g : Graph) (id : Nat) (n : Node) : Graph :=
  { g with nodes := g.nodes.setIfInBounds id n }

abbrev Build (α : Type) := StateT Graph (Except Failure) α

def add (anchor : Option (List Char)) (n : Node) : Build Nat := do
  let g ← get
  let id := g.nodes.size
  match anchor with
  | none => set { g with nodes := g.nodes.push n }
  | some name =>
    if g.anchors.any (·.1 == name) then throw malformed
    set { g with nodes := g.nodes.push n, anchors := (name, id) :: g.anchors }
  pure id

def scalarTag (p : Properties) (text : List Char) (plain : Bool) : Tag :=
  match p.tag with
  | some name => Tag.ofName name
  | none => if plain then Scalar.impliedTag text else .str

def collectionTag (p : Properties) (implied : Tag) : Tag :=
  match p.tag with
  | some name => Tag.ofName name
  | none => implied

mutual

/-- Adds the nodes of a tree; a collection gets its number before its parts do. -/
def addTree : Tree → Build Nat
  | .reference name => do
    match (← get).anchors.find? (·.1 == name) with
    | some (_, id) => pure id
    | none => throw malformed
  | .scalar p text plain =>
    add p.anchor (.scalar (scalarTag p text plain) text)
  | .sequence p items => do
    let tag := collectionTag p .seq
    let id ← add p.anchor (.sequence tag [])
    let parts ← addTrees items
    modify fun g => g.replace id (.sequence tag parts)
    pure id
  | .mapping p pairs => do
    let tag := collectionTag p .map
    let id ← add p.anchor (.mapping tag [])
    let parts ← addPairs pairs
    modify fun g => g.replace id (.mapping tag parts)
    pure id

def addTrees : List Tree → Build (List Nat)
  | [] => pure []
  | item :: rest => do
    let id ← addTree item
    let others ← addTrees rest
    pure (id :: others)

def addPairs : List (Tree × Tree) → Build (List (Nat × Nat))
  | [] => pure []
  | (key, value) :: rest => do
    let k ← addTree key
    let v ← addTree value
    let others ← addPairs rest
    pure ((k, v) :: others)

end

/-- The graph of a tree and the number of its outermost node. -/
def ofTree (tree : Tree) : Except Failure (Nat × Graph) := (addTree tree).run {}

end Graph

end TaskBoard.Document
