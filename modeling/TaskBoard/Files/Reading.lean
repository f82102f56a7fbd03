import TaskBoard.Failure
import TaskBoard.Files.Tree

/-!
Reading the text of a file: its bytes must be well formed, and every kind of line break becomes one
newline.
-/

namespace TaskBoard

/-- Every line break becomes a newline: a carriage return, alone or before a newline, is one break. -/
def Text.unifyBreaks : List Char → List Char
  | [] => []
  | '\r' :: '\n' :: rest => '\n' :: unifyBreaks rest
  | '\r' :: rest => '\n' :: unifyBreaks rest
  | c :: rest => c :: unifyBreaks rest

namespace Content

/-- The text of a file; a program is no text here. -/
def decode : Content → Except Failure String
  | text s => pure s
  | bytes b =>
    match String.fromUTF8? ⟨b.toArray⟩ with
    | some s => pure s
    | none => throw .undecodable
  | program _ => pure ""

end Content

namespace FileTree

def readText (tree : FileTree) (path : List Char) : Except Failure (List Char) := do
  match ← tree.lookup path with
  | none => throw .fileMissing
  | some .directory => throw .isDirectory
  | some (.file content) => return Text.unifyBreaks (← content.decode).toList

end FileTree

end TaskBoard
