import TaskBoard.Text.Pieces

/-!
Source patterns. The first character tells where the files come from: `#` a plugin, `@` a task, `!` a
glob that is passed on as it stands; any other pattern is a glob under the source root. A provider's
name may be followed by `:` and an extension.
-/

namespace TaskBoard

inductive SourcePattern where
  | plugin (name : String) (extension : Option String)
  | task (name : String) (extension : Option String)
  | verbatim (pattern : String)
  | rooted (pattern : String)
  deriving DecidableEq, Repr

namespace SourcePattern

/-- The second piece of a text cut at `:`, unless it is missing or empty. -/
def suffixPiece : List (List Char) → Option String
  | _ :: [] :: _ => none
  | _ :: piece :: _ => some (String.ofList piece)
  | _ => none

def firstPiece (parts : List (List Char)) : String := String.ofList (parts.headD [])

def parse (text : String) : SourcePattern :=
  match text.toList with
  | '#' :: rest =>
    let parts := Text.pieces ':' rest
    plugin (firstPiece parts) (suffixPiece parts)
  | '@' :: rest =>
    let parts := Text.pieces ':' rest
    task (firstPiece parts) (suffixPiece parts)
  | '!' :: _ => verbatim text
  | _ => rooted text

end SourcePattern

end TaskBoard
