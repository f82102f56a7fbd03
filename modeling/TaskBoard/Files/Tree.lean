import TaskBoard.Failure
import TaskBoard.Path

/-!
A directory tree without links, and what a path text denotes in it. A place in the tree is the list
of names that leads to it from the root. Names and paths have a greatest length, counted in bytes; a
longer one denotes nothing, and that is told apart from a name that is missing.
-/

namespace TaskBoard

abbrev Route := List (List Char)

inductive Content where
  | text (s : String)
  | bytes (b : List UInt8)
  /-- Code of the user's, by its number. -/
  | program (id : Nat)
  deriving Repr

inductive Entry where
  | directory
  | file (content : Content)
  deriving Repr

structure FileTree where
  entries : List (Route × Entry) := []
  /-- The working directory, from which relative paths start. -/
  cwd : List Char := ['/']
  /-- Whether the glob primitive looks for a directory before a part `**` matches it. Its releases differ
  here: without a look, a path that leads nowhere is matched as well. -/
  looks : Bool := false

namespace FileTree

def entry? (tree : FileTree) (route : Route) : Option Entry :=
  if route = [] then some .directory
  else (tree.entries.find? (·.1 = route)).map (·.2)

def isDirectoryAt (tree : FileTree) (route : Route) : Bool :=
  match tree.entry? route with
  | some .directory => true
  | _ => false

def names (tree : FileTree) (route : Route) : List (List Char) :=
  tree.entries.filterMap fun (place, _) =>
    if place.dropLast = route then place.getLast? else none

/-- Why a path denotes nothing. -/
inductive Absence where
  | missing
  | tooLong
  deriving DecidableEq, Repr

def nameLimit : Nat := 255

def pathLimit : Nat := 4095

def byteLength (text : List Char) : Nat := text.foldl (fun size c => size + c.utf8Size) 0

/-- Follows the parts of a path from a place that exists; only a directory can be left again. -/
def follow (tree : FileTree) : Route → List (List Char) → Except Absence Route
  | place, [] => pure place
  | place, part :: rest =>
    if tree.isDirectoryAt place then
      if part = [] ∨ part = ['.'] then follow tree place rest
      else if part = ['.', '.'] then follow tree place.dropLast rest
      else if nameLimit < byteLength part then throw .tooLong
      else
        let next := place ++ [part]
        if (tree.entry? next).isSome then follow tree next rest else throw .missing
    else throw .missing

/-- The place that a path text denotes. The empty path denotes nothing, and neither does one that holds
the NUL character. -/
def locate (tree : FileTree) (path : List Char) : Except Absence Route :=
  if path = [] ∨ path.contains '\x00' then throw .missing
  else if pathLimit < byteLength path then throw .tooLong
  else
    let start := if Path.isAbsolute path then [] else Path.parts tree.cwd
    tree.follow start (Text.pieces '/' path)

/-- The place that a path text denotes, if there is something. -/
def locate? (tree : FileTree) (path : List Char) : Option Route := (tree.locate path).toOption

def exists? (tree : FileTree) (path : List Char) : Bool := (tree.locate? path).isSome

def isDirectory (tree : FileTree) (path : List Char) : Bool :=
  match tree.locate? path with
  | some place => tree.isDirectoryAt place
  | none => false

/-- The entry that a path text denotes, if there is one; a text that is too long is refused. -/
def lookup (tree : FileTree) (path : List Char) : Except Failure (Option Entry) :=
  match tree.locate path with
  | .ok place => pure (tree.entry? place)
  | .error .missing => pure none
  | .error .tooLong => throw .nameTooLong

end FileTree

end TaskBoard
