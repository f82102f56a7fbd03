import TaskBoard.Text.Blank
import TaskBoard.Text.Digit
import TaskBoard.Text.Pieces

/-!
Watch patterns. A pattern names a task; braces hold the event types that trigger it, separated by
bars, and a part after `:` is passed on. `tokenize` cuts a name into literal text and filter groups,
leftmost group first; only the first group of a pattern decides, later ones are dropped from the name.
-/

namespace TaskBoard

inductive WatchToken where
  | text (s : List Char)
  | filter (content : List Char)
  deriving DecidableEq, Repr

/-- The characters that may stand inside a filter group. -/
def isFilterChar (c : Char) : Bool :=
  Text.isAsciiLetter c || Text.isDigit c || c == '|' || Text.isBlank c

/-- The content of a filter group at the start of the text, and what follows the group. -/
def filterGroup? : List Char → Option (List Char × List Char)
  | '{' :: rest =>
    match rest.takeWhile isFilterChar, rest.dropWhile isFilterChar with
    | first :: others, '}' :: after => some (first :: others, after)
    | _, _ => none
  | _ => none

theorem filterGroup?_shorter {text content after : List Char}
    (found : filterGroup? text = some (content, after)) : after.length < text.length := by
  unfold filterGroup? at found
  split at found
  · rename_i rest
    split at found
    · rename_i taken dropped
      simp only [Option.some.injEq, Prod.mk.injEq] at found
      obtain ⟨_, rfl⟩ := found
      have bound := (List.dropWhile_suffix (p := isFilterChar) (l := rest)).length_le
      rw [dropped] at bound
      simp only [List.length_cons] at *
      omega
    · simp at found
  · simp at found

namespace WatchToken

def tokenize (text : List Char) : List WatchToken :=
  match text with
  | [] => []
  | c :: rest =>
    match _found : filterGroup? (c :: rest) with
    | some (content, after) => filter (content.filter (!Text.isBlank ·)) :: tokenize after
    | none =>
      match tokenize rest with
      | WatchToken.text s :: tokens => WatchToken.text (c :: s) :: tokens
      | tokens => WatchToken.text [c] :: tokens
termination_by text.length
decreasing_by
  · exact filterGroup?_shorter _found
  · simp

def literal : WatchToken → List Char
  | text s => s
  | filter _ => []

/-- The event types that a filter lists: its non-empty pieces between bars. -/
def eventTypes? : WatchToken → Option (List String)
  | text _ => none
  | filter content =>
    some (((Text.pieces '|' content).filter (· ≠ [])).map String.ofList)

end WatchToken

structure WatchPattern where
  /-- The name of the task, without its filter groups. -/
  task : String
  /-- The event types that trigger the task; all of them when no group is written. -/
  types : Option (List String)
  /-- What follows the first `:`, unless it is empty. -/
  part : Option String
  deriving DecidableEq, Repr

namespace WatchPattern

def filePlaceholder : String := "%FILE%"

/-- Writes `path` for every file placeholder of the pattern. -/
def substituteFile (pattern path : String) : String :=
  String.ofList (Text.replaceWord filePlaceholder.toList path.toList pattern.toList)

def parse (pattern : String) : WatchPattern :=
  match Text.pieces ':' pattern.toList with
  | [] => ⟨"", none, none⟩
  | name :: others =>
    let tokens := WatchToken.tokenize name
    { task := String.ofList (tokens.flatMap WatchToken.literal)
      types := tokens.findSome? WatchToken.eventTypes?
      part := match others with
        | [] => none
        | [] :: _ => none
        | piece :: _ => some (String.ofList piece) }

/-- The filter in words: the accepted types, or `all`. -/
def occasion (p : WatchPattern) : String :=
  match p.types with
  | none => "all"
  | some types => String.intercalate ", " types

def accepts (p : WatchPattern) (eventType : String) : Bool :=
  match p.types with
  | none => true
  | some types => types.contains eventType

end WatchPattern

end TaskBoard
