import TaskBoard.Text.Pieces

/-!
Slash-separated paths as lists of characters: joining, the normal form, the path from one directory to
another, and the removal of a working directory from the front. The tidy form is the one in which a
file is named in messages.
-/

namespace TaskBoard.Path

def isAbsolute : List Char → Bool
  | '/' :: _ => true
  | _ => false

def endsWithSlash (path : List Char) : Bool := path.getLast? == some '/'

/-- `path` seen from the directory `root`; an absolute path stays as it is. -/
def join (root path : List Char) : List Char :=
  if isAbsolute path then path
  else if root.isEmpty || endsWithSlash root then root ++ path
  else root ++ '/' :: path

/-- The parts of a path between slashes, without empty ones. -/
def parts (path : List Char) : List (List Char) :=
  (Text.pieces '/' path).filter (· ≠ [])

/-- How many slashes the normal form keeps in front: exactly two stay two. -/
def leadingSlashes : List Char → Nat
  | '/' :: '/' :: '/' :: _ => 1
  | '/' :: '/' :: _ => 2
  | '/' :: _ => 1
  | _ => 0

/-- One step of the normal form on the parts already kept, last one first: `.` adds nothing and `..`
takes back the last part that is not itself `..`. -/
def settle (absolute : Bool) (kept : List (List Char)) (part : List Char) : List (List Char) :=
  if part = [] ∨ part = ['.'] then kept
  else if part = ['.', '.'] then
    match kept with
    | [] => if absolute then [] else [part]
    | last :: before => if last = ['.', '.'] then part :: kept else before
  else part :: kept

def joinParts (list : List (List Char)) : List Char := Text.joinPieces ['/'] list

def normal (path : List Char) : List Char :=
  let slashes := leadingSlashes path
  let kept := ((Text.pieces '/' path).foldl (settle (slashes ≠ 0)) []).reverse
  match List.replicate slashes '/' ++ joinParts kept with
  | [] => ['.']
  | result => result

def absolute (cwd path : List Char) : List Char :=
  normal (if isAbsolute path then path else join cwd path)

/-- How many parts two lists have in common at their start. -/
def commonLength : List (List Char) → List (List Char) → Nat
  | a :: as, b :: bs => if a = b then commonLength as bs + 1 else 0
  | _, _ => 0

/-- The path that leads from the directory `start` to `path`. -/
def relative (cwd path start : List Char) : List Char :=
  let origin := parts (absolute cwd start)
  let target := parts (absolute cwd path)
  let shared := commonLength origin target
  match List.replicate (origin.length - shared) ['.', '.'] ++ target.drop shared with
  | [] => ['.']
  | route => joinParts route

/-- The directory part and the last part; the slashes between them go, a root keeps its slash. -/
def split (path : List Char) : List Char × List Char :=
  let last := (path.reverse.takeWhile (· ≠ '/')).reverse
  let head := path.take (path.length - last.length)
  if head.all (· == '/') then (head, last) else (Text.dropEnd '/' head, last)

/-- Removes the working directory, when it is a whole prefix, and one slash. -/
def stripCwd (path cwd : List Char) : List Char :=
  let root := Text.dropEnd '/' cwd
  let inner :=
    if root ≠ [] ∧ (path = root ∨ (root ++ ['/']).isPrefixOf path) then path.drop root.length
    else path
  match inner with
  | '/' :: rest => rest
  | rest => rest

/-- The tidy form of a file name: no `.` parts, no doubled or final slash, `..` kept. -/
def tidy (path : List Char) : List Char :=
  let kept := (parts path).filter (· ≠ ['.'])
  match List.replicate (leadingSlashes path) '/' ++ joinParts kept with
  | [] => ['.']
  | result => result

def fileName (path : List Char) : List Char :=
  match (parts path).filter (· ≠ ['.']) with
  | [] => []
  | kept => kept.getLastD []

/-- The suffix of a file name from its last dot, unless that dot opens or closes the name. -/
def suffix (path : List Char) : List Char :=
  let name := fileName path
  let tail := (name.reverse.takeWhile (· ≠ '.')).reverse
  let before := name.length - tail.length
  if tail = [] ∨ before ≤ 1 then [] else '.' :: tail

def stem (path : List Char) : List Char :=
  (fileName path).take ((fileName path).length - (suffix path).length)

end TaskBoard.Path
