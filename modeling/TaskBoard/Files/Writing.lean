import TaskBoard.Files.Tree

/-!
Changing a directory tree. What is written must not stand below a file, nor take the place of something
of the other kind; the directories on the way are made.
-/

namespace TaskBoard

namespace FileTree

def isFileAt (tree : FileTree) (route : Route) : Bool :=
  match tree.entry? route with
  | some (.file _) => true
  | _ => false

/-- Puts an entry at a route, in place of the one that is there. -/
def put (tree : FileTree) (route : Route) (entry : Entry) : FileTree :=
  { tree with entries := tree.entries.filter (·.1 ≠ route) ++ [(route, entry)] }

/-- Makes the directories on the way to `route` and itself, where they are missing. -/
def makeDirectories (tree : FileTree) (route : Route) : FileTree :=
  (List.range (route.length + 1)).foldl
    (fun tree size =>
      if (tree.entry? (route.take size)).isSome then tree else tree.put (route.take size) .directory)
    tree

def checkNames (route : Route) : Except Failure Unit := do
  if route.any (·.contains '\x00') then throw .badValue
  if route.any (nameLimit < byteLength ·) then throw .nameTooLong

/-- The directory of a place may be missing, but it may not be a file, nor stand below one. -/
def checkDirectory (tree : FileTree) (directory : Route) : Except Failure Unit := do
  if (List.range directory.length).any fun size => tree.isFileAt (directory.take size) then
    throw .notDirectory
  if tree.isFileAt directory then throw .fileExists

def write (tree : FileTree) (route : Route) (entry : Entry) : Except Failure FileTree := do
  checkNames route
  tree.checkDirectory route.dropLast
  match entry with
  | .directory =>
    if tree.isFileAt route then throw .fileExists
    pure (tree.makeDirectories route)
  | .file _ =>
    if tree.isDirectoryAt route then throw .isDirectory
    pure ((tree.makeDirectories route.dropLast).put route entry)

def remove (tree : FileTree) (route : Route) : Except Failure FileTree := do
  checkNames route
  if (List.range route.length).any fun size => tree.isFileAt (route.take size) then
    throw .notDirectory
  match tree.entry? route with
  | none => throw .fileMissing
  | some .directory => throw .isDirectory
  | some (.file _) => pure { tree with entries := tree.entries.filter (·.1 ≠ route) }

end FileTree

end TaskBoard
