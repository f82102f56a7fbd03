import TaskBoard.Text.Pieces

/-!
Destination patterns: an output path, and after `@` the name of a mapper task. In the path of a
pattern with a mapper every `$VERSION$` stands for the current time in milliseconds.
-/

namespace TaskBoard

structure DestinationPattern where
  out : String
  mapper : Option String
  deriving DecidableEq, Repr

namespace DestinationPattern

def parse (text : String) : DestinationPattern :=
  match Text.pieces '@' text.toList with
  | out :: mapper :: _ => ⟨String.ofList out, some (String.ofList mapper)⟩
  | _ => ⟨text, none⟩

def versionPlaceholder : String := "$VERSION$"

def stampVersion (stamp out : String) : String :=
  String.ofList (Text.replaceWord versionPlaceholder.toList stamp.toList out.toList)

end DestinationPattern

end TaskBoard
