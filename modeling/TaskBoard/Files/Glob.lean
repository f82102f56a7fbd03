import TaskBoard.Files.Tree
import TaskBoard.Files.Wildcard

/-!
The paths of a tree that a pattern matches. A pattern is cut at slashes; `**` as a whole part matches
any depth, names that begin with a dot are matched only by a part that begins with one, and a final
slash asks for directories. `FileTree.list` is the glob primitive of a board: sorted, and relative to
a root when one is given.
-/

namespace TaskBoard

namespace FileTree

def hasWildcard (pattern : List Char) : Bool :=
  pattern.any fun c => c == '*' || c == '?' || c == '['

def isHidden : List Char → Bool
  | '.' :: _ => true
  | _ => false

/-- Joins a directory and a name, either of which may be empty. -/
def beside (directory name : List Char) : List Char :=
  if directory.isEmpty then name
  else if name.isEmpty then directory
  else Path.join directory name

/-- The names inside a directory that is given as a path, the working directory for the empty path. -/
def namesIn (tree : FileTree) (directory : List Char) (directoriesOnly : Bool) : List (List Char) :=
  match tree.locate? (if directory.isEmpty then ['.'] else directory) with
  | none => []
  | some place =>
    if tree.isDirectoryAt place then
      (tree.names place).filter fun name =>
        !directoriesOnly || tree.isDirectoryAt (place ++ [name])
    else []

def below (tree : FileTree) (directoriesOnly : Bool) : Nat → List Char → List (List Char)
  | 0, _ => []
  | depth + 1, directory =>
    ((tree.namesIn directory directoriesOnly).filter (!isHidden ·)).flatMap fun name =>
      name :: (tree.below directoriesOnly depth (beside directory name)).map (beside name)

def depth (tree : FileTree) : Nat :=
  tree.entries.foldl (fun most (place, _) => max most place.length) 0 + 1

def matchName (tree : FileTree) (directory part : List Char) : List (List Char) :=
  if part.isEmpty then
    if tree.isDirectory directory then [[]] else []
  else if tree.exists? (beside directory part) then [part]
  else []

/-- Whether the part `**` matches a directory itself. Where the primitive looks first, the path has to lead
to a directory, as the empty one does, which is the working directory. -/
def matchesItself (tree : FileTree) (directory : List Char) : Bool :=
  !tree.looks || directory.isEmpty || tree.isDirectory directory

/-- What a pattern part with wildcards matches inside a directory. The part `**` matches the directory
itself and whatever is below it. -/
def matchWildcard (tree : FileTree) (directory part : List Char) (directoriesOnly : Bool) :
    List (List Char) :=
  if part = ['*', '*'] then
    (if tree.matchesItself directory then [[]] else []) ++ tree.below directoriesOnly tree.depth directory
  else
    let items := Wildcard.parse part
    (tree.namesIn directory directoriesOnly).filter fun name =>
      (isHidden part || !isHidden name) && Wildcard.covers items name

/-- What a single pattern part matches inside a directory. A directory cannot be listed when its path
holds the NUL character. -/
def matchPart (tree : FileTree) (directory part : List Char) (directoriesOnly : Bool) :
    Except Failure (List (List Char)) :=
  if !hasWildcard part then pure (tree.matchName directory part)
  else if directory.contains '\x00' then throw .badValue
  else pure (tree.matchWildcard directory part directoriesOnly)

/-- The paths that a pattern without wildcards matches: itself, if it denotes something. -/
def matchPlain (tree : FileTree) (pattern : List Char) : List (List Char) :=
  let (directory, part) := Path.split pattern
  let found := if part.isEmpty then tree.isDirectory directory else tree.exists? pattern
  if found then [pattern] else []

/-- The paths that a pattern matches, in the order in which the tree lists them. The first argument
bounds the number of parts; the pattern's length is enough. -/
def matchPattern (tree : FileTree) : Nat → List Char → Bool → Except Failure (List (List Char))
  | 0, _, _ => pure []
  | steps + 1, pattern, directoriesOnly => do
    let (directory, part) := Path.split pattern
    if !hasWildcard pattern then pure (tree.matchPlain pattern)
    else if directory.isEmpty then tree.matchPart [] part directoriesOnly
    else
      let directories ←
        if directory ≠ pattern ∧ hasWildcard directory then tree.matchPattern steps directory true
        else pure [directory]
      let found ← directories.mapM fun directory => do
        return (← tree.matchPart directory part directoriesOnly).map (Path.join directory)
      pure found.flatten

def glob (tree : FileTree) (pattern : List Char) : Except Failure (List (List Char)) := do
  let found ← tree.matchPattern (pattern.length + 1) pattern false
  if pattern.isEmpty || pattern.take 2 == ['*', '*'] then
    match found with
    | [] :: rest => pure rest
    | _ => pure found
  else pure found

def sorted (paths : List (List Char)) : List (List Char) := paths.mergeSort Text.atMost

/-- The pattern without the `!` that marks it as verbatim. -/
def unmarked : List Char → List Char
  | '!' :: rest => rest
  | pattern => pattern

/-- A matched path seen from `root`, its final slash kept. -/
def seenFrom (tree : FileTree) (root path : List Char) : List Char :=
  Path.relative tree.cwd path root ++ (if Path.endsWithSlash path then ['/'] else [])

/-- The sorted matches of a pattern; a relative one is matched below `root`, unless that is empty, and
its matches are relative to it. -/
def list (tree : FileTree) (root pattern : List Char) : Except Failure (List (List Char)) := do
  let pattern := unmarked pattern
  if root.isEmpty || Path.isAbsolute pattern then return sorted (← tree.glob pattern)
  else return sorted ((← tree.glob (Path.join root pattern)).map (tree.seenFrom root))

end FileTree

end TaskBoard
