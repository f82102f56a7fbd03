import TaskBoard.Number.Reading
import TaskBoard.World

/-!
Pictures of values: what a value looked like at one moment, with the content of every list and mapping
in it, untouched by later changes.
-/

namespace TaskBoard

inductive Picture where
  | nothing
  | flag (b : Bool)
  | whole (i : Int)
  | real (x : Double)
  | text (s : String)
  | list (items : List Picture)
  | map (entries : List (Picture × Picture))
  | tuple (items : List Picture)
  | set (items : List Picture)
  | date (d : Date)
  | moment (m : Moment)
  | bytes (b : List UInt8)
  /-- A callable with a name of its own, or one without. -/
  | callable (name : Option String)
  | named (name : Picture)
  | direct (target : Picture)
  | noTask
  | destination (out : String) (mapper : Picture)
  | group (name source destination files : Picture)
  | eventTask (occasion name : String) (task : Picture) (part : Option String)
  | board (id : Nat)
  | routine
  | failure (f : Failure)
  deriving Repr, Inhabited

namespace World

variable {σ : Type}

/-- How deep values are opened for a picture. -/
def pictureDepth : Nat := 900

/-- The picture of a value whose parts are opened up to a depth. An integer that cannot be written cannot be
drawn. -/
def drawWithin (w : World σ) (nameOf : Nat → Option String) : Nat → Value → Except Failure Picture
  | 0, _ => throw .tooDeep
  | depth + 1, v => do
    let draw := w.drawWithin nameOf depth
    match v with
    | .nothing => pure .nothing
    | .flag b => pure (.flag b)
    | .whole i => do
      let _ ← Number.writeWhole i
      pure (.whole i)
    | .real x => pure (.real x)
    | .text s => pure (.text s)
    | .list cell => .list <$> (w.heap.listAt cell).mapM draw
    | .map cell =>
      .map <$> (w.heap.mapAt cell).entries.mapM fun (k, v) => do pure (← draw k, ← draw v)
    | .tuple items => .tuple <$> items.mapM draw
    | .set cell => .set <$> (w.heap.listAt cell).mapM draw
    | .date d => pure (.date d)
    | .moment m => pure (.moment m)
    | .bytes b => pure (.bytes b)
    | .callable (.user id) => pure (.callable (nameOf id))
    | .callable (.hostTask _ _) => pure (.callable none)
    | .named name => .named <$> draw name
    | .direct target => .direct <$> draw target
    | .noTask => pure .noTask
    | .destination out mapper => .destination out <$> draw mapper
    | .group id => do
      let g := w.group id
      let name ← draw g.name
      let source ← g.source.mapM draw
      let destination ← draw g.destination
      pure (.group name (.list source) destination (← draw (.list g.files)))
    | .eventTask occasion name task part => do
      pure (.eventTask occasion name (← draw task) part)
    | .board id => pure (.board id)
    | .routine _ => pure .routine

def draw (w : World σ) (nameOf : Nat → Option String) (v : Value) : Except Failure Picture :=
  w.drawWithin nameOf pictureDepth v

end World

end TaskBoard
