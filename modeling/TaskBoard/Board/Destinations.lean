import TaskBoard.Board.Sources
import TaskBoard.Pattern.Destination

/-!
Destinations. A pattern with a mapper becomes an output path under the destination root, with the time
in place of each version mark, and the mapper that is registered at that moment. Any other pattern
stays as it is.
-/

namespace TaskBoard.Board

variable {σ : Type}

def stampOf (clock : Clock) : Except Failure String := do Number.writeWhole (← clock.milliseconds)

/-- The current time as it is written into paths. -/
def versionStamp : Act σ String := do Act.ofExcept (stampOf (← get).clock)

/-- Whether a collection that is no text holds the mark of a mapper. -/
def holdsMark (h : Heap) : Value → Except Failure Bool
  | .bytes _ => throw .wrongType
  | v =>
    match v.elements? h with
    | some items => pure (items.any (Value.sameKey (.text "@")))
    | none => throw .wrongType

def resolveDestination (b : Nat) (pattern : Value) : Act σ Value := do
  match pattern with
  | .text s =>
    let parsed := DestinationPattern.parse s
    match parsed.mapper with
    | none => pure pattern
    | some mapper => do
      let out := DestinationPattern.stampVersion (← versionStamp) parsed.out
      let h ← Act.heap
      let board ← Act.board b
      let root ← Act.ofExcept (rootPath h ((board.paths h).at? "des"))
      pure (.destination (String.ofList (Path.join root out.toList))
        (Value.ofOption (board.registry.tasks.at? mapper)))
  | _ => do
    if ← Act.ofExcept (holdsMark (← Act.heap) pattern) then throw .noMember
    pure pattern

end TaskBoard.Board
