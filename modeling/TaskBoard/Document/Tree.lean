import TaskBoard.Document.Token.Lexer

/-!
The syntax tree of a document. The grammar reads the tokens of one document; an anchor, a tag or both
may precede the content of a node, and missing content is an empty plain scalar. An alias must name an
anchor that was met before, and no two nodes carry the same anchor; the first fault in the order of the
tokens is the one that is told.
-/

namespace TaskBoard.Document

structure Properties where
  anchor : Option (List Char) := none
  /-- The full tag; none when the content decides. -/
  tag : Option (List Char) := none

inductive Tree where
  | reference (name : List Char)
  | scalar (properties : Properties) (text : List Char) (plain : Bool)
  | sequence (properties : Properties) (items : List Tree)
  | mapping (properties : Properties) (pairs : List (Tree × Tree))
  deriving Inhabited

namespace Tree

def empty : Tree := scalar {} [] true

/-- The tag handles that are known without a directive. -/
def standardHandles : List (List Char × List Char) :=
  [(['!'], ['!']), (['!', '!'], "tag:yaml.org,2002:".toList)]

/-- How many collections may be nested; a deeper document is refused. -/
def nestingLimit : Nat := 490

/-- The unread tokens, and the failure that is met behind them. -/
structure Input where
  tokens : List Token
  ending : Failure
  handles : List (List Char × List Char) := standardHandles
  /-- The anchors met so far. -/
  anchors : List (List Char) := []

abbrev Grammar (α : Type) := StateT Input (Except Failure) α

def peek : Grammar Token := do
  match (← get).tokens with
  | [] => throw (← get).ending
  | t :: _ => pure t

def skip : Grammar Unit := modify fun i => { i with tokens := i.tokens.tail }

def take (t : Token) : Grammar Unit := do
  if (← peek) == t then skip else throw malformed

def takeIf (t : Token) : Grammar Bool := do
  if (← peek) == t then
    skip
    pure true
  else pure false

/-- The tag that a handle and the rest of a tag make; a handle must be known. -/
def resolveTag (handle : Option (List Char)) (rest : List Char) : Grammar (List Char) := do
  match handle with
  | none => pure rest
  | some handle =>
    match (← get).handles.find? (·.1 == handle) with
    | some (_, replacement) => pure (replacement ++ rest)
    | none => throw malformed

def anchorName : Grammar (Option (List Char)) := do
  match ← peek with
  | .anchor name => do
    skip
    pure (some name)
  | _ => pure none

/-- A tag as it is written, its handle apart. -/
def writtenTag : Grammar (Option (Option (List Char) × List Char)) := do
  match ← peek with
  | .tag handle rest => do
    skip
    pure (some (handle, rest))
  | _ => pure none

def resolveWritten (written : Option (Option (List Char) × List Char)) :
    Grammar (Option (List Char)) :=
  match written with
  | none => pure none
  | some (handle, rest) => some <$> resolveTag handle rest

/-- An anchor and a tag, in either order. -/
def properties : Grammar Properties := do
  match ← anchorName with
  | some name => do
    let written ← writtenTag
    pure ⟨some name, ← resolveWritten written⟩
  | none => do
    let written ← writtenTag
    let anchor ← if written.isSome then anchorName else pure none
    pure ⟨anchor, ← resolveWritten written⟩

/-- Notes the anchor of a node, which must be new. -/
def declareAnchor (p : Properties) : Grammar Unit := do
  match p.anchor with
  | none => pure ()
  | some name => do
    if (← get).anchors.contains name then throw malformed
    modify fun i => { i with anchors := name :: i.anchors }

/-- An alias stands for a node whose anchor was met before. -/
def knownReference (name : List Char) : Grammar Tree := do
  if (← get).anchors.contains name then pure (reference name) else throw malformed

def Properties.isEmpty (p : Properties) : Bool := p.anchor.isNone && p.tag.isNone

/-- The tag `!` alone asks for the content to decide. -/
def isOpenTag (p : Properties) : Bool :=
  match p.tag with
  | none => true
  | some tag => tag == ['!']

def withoutOpenTag (p : Properties) : Properties := if isOpenTag p then ⟨p.anchor, none⟩ else p

def endsBlockEntry : Token → Bool
  | .blockEntry | .blockEnd => true
  | _ => false

def endsLooseEntry : Token → Bool
  | .blockEntry | .key | .value | .blockEnd => true
  | _ => false

def endsBlockPart : Token → Bool
  | .key | .value | .blockEnd => true
  | _ => false

def endsFlowItemKey : Token → Bool
  | .value | .flowEntry | .flowSequenceEnd => true
  | _ => false

def endsFlowItemValue : Token → Bool
  | .flowEntry | .flowSequenceEnd => true
  | _ => false

def endsFlowKey : Token → Bool
  | .value | .flowEntry | .flowMappingEnd => true
  | _ => false

def endsFlowValue : Token → Bool
  | .flowEntry | .flowMappingEnd => true
  | _ => false

def separate (first : Bool) : Grammar Unit := if first then pure () else take .flowEntry

/-- Missing content, which only a node with an anchor or a tag may have. -/
def emptyOr (p : Properties) : Grammar Tree := do
  if Properties.isEmpty p then throw malformed
  declareAnchor p
  pure (scalar (withoutOpenTag p) [] (isOpenTag p))

mutual

/-- A node. Block collections need `block`; with `loose`, entries of a sequence may follow that are not
indented. `depth` counts the collections around the node; the last argument bounds the derivation. -/
def node (block loose : Bool) (depth : Nat) : Nat → Grammar Tree
  | 0 => throw malformed
  | fuel + 1 => do
    match ← peek with
    | .reference name => do
      skip
      knownReference name
    | _ => do
      let p ← properties
      let inner := withoutOpenTag p
      let next ← peek
      if nestingLimit < depth then throw .tooDeep
      if loose && next == .blockEntry then
        declareAnchor p
        sequence inner <$> looseEntries (depth + 1) fuel
      else
        match next with
        | .scalar text plain => do
          skip
          declareAnchor p
          pure (scalar inner text ((plain && p.tag.isNone) || p.tag == some ['!']))
        | .flowSequenceStart => do
          skip
          declareAnchor p
          sequence inner <$> flowItems true (depth + 1) fuel
        | .flowMappingStart => do
          skip
          declareAnchor p
          mapping inner <$> flowPairs true (depth + 1) fuel
        | .blockSequenceStart =>
          if block then do
            skip
            declareAnchor p
            sequence inner <$> blockEntries (depth + 1) fuel
          else emptyOr p
        | .blockMappingStart =>
          if block then do
            skip
            declareAnchor p
            mapping inner <$> blockPairs (depth + 1) fuel
          else emptyOr p
        | _ => emptyOr p
termination_by structural fuel => fuel

def nodeUnless (ends : Token → Bool) (block loose : Bool) (depth : Nat) : Nat → Grammar Tree
  | 0 => throw malformed
  | fuel + 1 => do
    if ends (← peek) then pure empty else node block loose depth fuel
termination_by structural fuel => fuel

def blockEntries (depth : Nat) : Nat → Grammar (List Tree)
  | 0 => throw malformed
  | fuel + 1 => do
    if ← takeIf .blockEntry then
      let item ← nodeUnless endsBlockEntry true false depth fuel
      let others ← blockEntries depth fuel
      pure (item :: others)
    else do
      take .blockEnd
      pure []
termination_by structural fuel => fuel

def looseEntries (depth : Nat) : Nat → Grammar (List Tree)
  | 0 => throw malformed
  | fuel + 1 => do
    if ← takeIf .blockEntry then
      let item ← nodeUnless endsLooseEntry true false depth fuel
      let others ← looseEntries depth fuel
      pure (item :: others)
    else pure []
termination_by structural fuel => fuel

def blockPairs (depth : Nat) : Nat → Grammar (List (Tree × Tree))
  | 0 => throw malformed
  | fuel + 1 => do
    if ← takeIf .key then
      let key ← nodeUnless endsBlockPart true true depth fuel
      let value ← if ← takeIf .value then nodeUnless endsBlockPart true true depth fuel
        else pure empty
      let others ← blockPairs depth fuel
      pure ((key, value) :: others)
    else do
      take .blockEnd
      pure []
termination_by structural fuel => fuel

def flowItems (first : Bool) (depth : Nat) : Nat → Grammar (List Tree)
  | 0 => throw malformed
  | fuel + 1 => do
    if ← takeIf .flowSequenceEnd then pure []
    else
      separate first
      if ← takeIf .key then
        let key ← nodeUnless endsFlowItemKey false false (depth + 1) fuel
        let value ← if ← takeIf .value then nodeUnless endsFlowItemValue false false (depth + 1) fuel
          else pure empty
        let others ← flowItems false depth fuel
        pure (mapping {} [(key, value)] :: others)
      else if ← takeIf .flowSequenceEnd then pure []
      else
        let item ← node false false depth fuel
        let others ← flowItems false depth fuel
        pure (item :: others)
termination_by structural fuel => fuel

def flowPairs (first : Bool) (depth : Nat) : Nat → Grammar (List (Tree × Tree))
  | 0 => throw malformed
  | fuel + 1 => do
    if ← takeIf .flowMappingEnd then pure []
    else
      separate first
      if ← takeIf .key then
        let key ← nodeUnless endsFlowKey false false depth fuel
        let value ← if ← takeIf .value then nodeUnless endsFlowValue false false depth fuel
          else pure empty
        let others ← flowPairs false depth fuel
        pure ((key, value) :: others)
      else if ← takeIf .flowMappingEnd then pure []
      else
        let key ← node false false depth fuel
        let others ← flowPairs false depth fuel
        pure ((key, empty) :: others)
termination_by structural fuel => fuel

end

/-- Reads the directives in front of a document. Only version 1 is known, and neither the version nor
a handle may be given twice. -/
def directives : Nat → Bool → List (List Char × List Char) →
    Grammar (List (List Char × List Char))
  | 0, _, handles => pure handles
  | fuel + 1, versioned, handles => do
    match ← peek with
    | .directive (.version major _) => do
      if versioned || major != 1 then throw malformed
      skip
      directives fuel true handles
    | .directive (.handle name replacement) => do
      if handles.any (·.1 == name) then throw malformed
      skip
      directives fuel versioned ((name, replacement) :: handles)
    | .directive .other => do
      skip
      directives fuel versioned handles
    | _ => pure handles

def endsContent : Token → Bool
  | .directive _ | .documentStart | .documentEnd | .streamEnd => true
  | _ => false

def opensDocument : Token → Bool
  | .directive _ | .documentStart => true
  | _ => false

def skipDocumentEnds : Nat → Grammar Unit
  | 0 => pure ()
  | fuel + 1 => do
    if ← takeIf .documentEnd then skipDocumentEnds fuel

/-- The end of the stream, after marks that end the document. Another document is refused once its start
was read. -/
def endOfStream (fuel : Nat) : Grammar Unit := do
  skipDocumentEnds fuel
  if (← peek) != .streamEnd then
    let _ ← directives (fuel + 1) false []
    let _ ← peek
    throw malformed

def document : Grammar (Option Tree) := do
  let size := (← get).tokens.length
  let fuel := 4 * size + 8
  let next ← peek
  if next == .streamEnd then pure none
  else
    let tree ← (do
      if opensDocument next then
        let handles ← directives (size + 1) false []
        modify fun i => { i with handles := handles ++ standardHandles }
        take .documentStart
        if endsContent (← peek) then pure empty else node true false 0 fuel
      else node true false 0 fuel)
    endOfStream size
    pure (some tree)

def ofText? (text : List Char) : Except Failure (Option Tree) :=
  let (tokens, failure) := tokens text
  (document.run { tokens := tokens, ending := failure.getD malformed }).map (·.1)

end Tree

end TaskBoard.Document
