import TaskBoard.Session.Report

/-!
Single questions to the text patterns, asked with literals: only texts are patterns and paths, and what
is refused for another value depends on the question.
-/

namespace TaskBoard.Session

def inspectSourcePattern (text : Literal) : Play SourcePattern :=
  SourcePattern.parse <$> textOr .noMember text

/-- The output and the mapper of a destination; a collection without a mark is an output as it is. -/
def inspectDestinationPattern (text : Literal) : Play (Picture × Option String) := do
  match ← build text with
  | .text s =>
    let p := DestinationPattern.parse s
    pure (.text p.out, p.mapper)
  | v => do
    if ← Act.ofExcept (Board.holdsMark (← Act.heap) v) then throw .noMember
    return (← picture v, none)

def inspectTokens (text : Literal) : Play (List WatchToken) := do
  return WatchToken.tokenize (← textOr .wrongType text).toList

def inspectWatchPattern (text : Literal) (types : List Literal) :
    Play (WatchPattern × List Bool) := do
  let p := WatchPattern.parse (← textOr .noMember text)
  return (p, (← types.mapM build).map (Board.acceptsType p))

def inspectSubstitution (text path : Literal) : Play String := do
  Act.ofExcept (Board.placePath (← build text) (← build path))

def inspectStripping (path cwd : Literal) : Play String := do
  let cwd ← textOr .noMember cwd
  return String.ofList (← Act.ofExcept (Board.stripped cwd (← build path)))

/-- The files that a pattern matches below a root; an empty root counts as none. -/
def inspectListing (root pattern : Literal) : Play (List String) := do
  let pattern := (← textOr .noMember pattern).toList
  let root ← build root
  let files := (← get).files
  let root ← if Path.isAbsolute (FileTree.unmarked pattern) then pure []
    else Act.ofExcept (Board.rootPath (← Act.heap) (some root))
  return (← Act.ofExcept (files.list root pattern)).map String.ofList

end TaskBoard.Session
