import TaskBoard.Session.Recorder
import TaskBoard.Walk

/-!
Walks over the items of a literal, with a script for every call of the step and a plan of what happens
between the calls.
-/

namespace TaskBoard.Session

/-- The calls of a step since the last look, and where the walk stands. -/
structure WalkPoint where
  calls : List (Picture × Nat)
  state : WalkState Value

structure WalkReport where
  points : List WalkPoint
  /-- Why the walk failed, with the reason drawn. -/
  fault : Option (WalkFault Picture)
  value : Option Picture
  /-- Whether the walk gave back the very thing that was walked. -/
  same : Bool

/-- A move as it is written down; it uses the pair of its own call. -/
inductive Move where
  | advance
  | abort (reason : Option Literal)
  | abortWith (failure : Failure)
  | raise (failure : Failure)
  | append (item : Literal)
  | pop

/-- What happens between the calls. -/
inductive Event where
  | turn
  | advance (pair : Nat)
  | abort (pair : Nat) (reason : Option Literal)
  | append (item : Literal)
  | pop
  | cancel

def buildReason : Option Literal → Play (Option Value)
  | none => pure none
  | some reason => some <$> build reason

/-- The move of a call, as a function of the pair of that call. -/
def buildMove : Move → Play (Nat → WalkMove Value)
  | .advance => pure fun own => .use (.advance own)
  | .abort reason => do
    let reason ← buildReason reason
    pure fun own => .use (.abort own reason)
  | .abortWith failure => pure fun own => .use (.abortWith own failure)
  | .raise failure => pure fun _ => .raise failure
  | .append item => do
    let v ← build item
    pure fun _ => .use (.append v)
  | .pop => pure fun _ => .use .pop

def buildEvent : Event → Play (WalkEvent Value)
  | .turn => pure .turn
  | .advance pair => pure (.use (.advance pair))
  | .abort pair reason => do return .use (.abort pair (← buildReason reason))
  | .append item => do return .use (.append (← build item))
  | .pop => pure (.use .pop)
  | .cancel => pure (.use .cancel)

/-- The moves of a call: those of the script, or the same for all calls after its end. -/
def stepOf (script : List (List (Nat → WalkMove Value))) (rest : List (Nat → WalkMove Value)) :
    WalkStep Value :=
  fun call => (script[call]?.getD rest).map fun move => move call

/-- A look at a walk of which `seen` calls are known. -/
def lookAt (w : Walk Value) (seen : Nat) : Play WalkPoint := do
  let calls ← (w.calls.drop seen).mapM fun (item, index) => do return (← picture item, index)
  return ⟨calls, w.state⟩

/-- Whether an event uses a pair that was never handed out. -/
def usesUnknown (w : Walk Value) : WalkEvent Value → Bool
  | .use (.advance pair) | .use (.abort pair _) => w.pairs.length ≤ pair
  | _ => false

def act (step : WalkStep Value) (w : Walk Value) (event : WalkEvent Value) : Play (Walk Value) :=
  if usesUnknown w event then throw .missingKey
  else
    match event, w.subject with
    | .use .pop, .map _ => throw .wrongType
    | _, _ =>
      match w.handle step event with
      | (w, none) => pure w
      | (_, some failure) => throw failure

def actions (step : WalkStep Value) (seen : Nat) :
    List (List Event) → Walk Value → Play (List WalkPoint × Walk Value)
  | [], w => do return ([← lookAt w seen], w)
  | events :: rest, w => do
    let point ← lookAt w seen
    let after ← (← events.mapM buildEvent).foldlM (act step) w
    let (points, last) ← actions step w.calls.length rest after
    return (point :: points, last)

def drawFault : WalkFault Value → Play (WalkFault Picture)
  | .aborted none => pure (.aborted none)
  | .aborted (some reason) => do return .aborted (some (← picture reason))
  | .raised failure => pure (.raised failure)
  | .notSequence => pure .notSequence

def sameObject : Value → Value → Bool
  | .list a, .list b => a == b
  | .tuple a, .tuple b => a.length == b.length
  | _, _ => false

def startWalk (step : WalkStep Value) (subject : Value) : Play (Walk Value) := do
  match Walk.begin step (← Act.heap) subject with
  | (w, none) => pure w
  | (_, some failure) => throw failure

/-- The value of a walk's subject, with the items that it has now. -/
def drawSubject (w : Walk Value) : Value → Play Picture
  | .list _ => .list <$> w.items.mapM picture
  | v => picture v

def inspectWalk (items : Literal) (script : List (List Move))
    (rest : List Move) (plan : List (List Event)) :
    Play WalkReport := do
  let subject ← build items
  let script ← script.mapM fun moves => moves.mapM buildMove
  let rest ← rest.mapM buildMove
  let step := stepOf script rest
  let w ← startWalk step subject
  let (points, w) ← actions step 0 plan w
  match w.state with
  | .failed fault => return ⟨points, some (← drawFault fault), none, false⟩
  | .resolved v => return ⟨points, none, some (← drawSubject w v), sameObject v subject⟩
  | _ => return ⟨points, none, none, false⟩

end TaskBoard.Session
