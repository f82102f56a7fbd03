import TaskBoard.Failure
import TaskBoard.Heap

/-!
Walking a list one item at a time. Every call of a step hands out a pair of an `advance` and an `abort`
that together can be used once, in the call or at any later time. To advance schedules the next call for
the next turn of the loop; to abort settles the walk as failed. The list may change while it is walked:
each call looks at the list as it is then. A walk keeps what has happened to it.
-/

namespace TaskBoard

/-- What is handed to a step: where the walk goes on, and whether it was used. -/
structure WalkPair where
  index : Nat
  used : Bool := false
  deriving DecidableEq, Repr

/-- Why a walk failed. -/
inductive WalkFault (α : Type) where
  | aborted (reason : Option α)
  | raised (failure : Failure)
  /-- Only lists and tuples are walked. -/
  | notSequence
  deriving DecidableEq, Repr

namespace WalkFault

def message? {α : Type} : WalkFault α → Option String
  | aborted _ => none
  | raised failure => failure.message?
  | notSequence => some "This iterator only can iterate a list or tuple."

end WalkFault

inductive WalkState (α : Type) where
  | pending
  | resolved (subject : α)
  | failed (fault : WalkFault α)
  | cancelled
  deriving DecidableEq, Repr

namespace WalkState

def settled {α : Type} : WalkState α → Bool
  | pending => false
  | _ => true

end WalkState

/-- What anybody may do with a walk at any time: use a pair, change the list, or cancel the walk. -/
inductive WalkUse (α : Type) where
  | advance (pair : Nat)
  | abort (pair : Nat) (reason : Option α)
  | abortWith (pair : Nat) (failure : Failure)
  | append (item : α)
  | pop
  | cancel
  deriving DecidableEq, Repr

/-- What a step does in a call. -/
inductive WalkMove (α : Type) where
  | use (u : WalkUse α)
  /-- A use whose failure the step keeps to itself. -/
  | attempt (u : WalkUse α)
  | raise (failure : Failure)
  deriving DecidableEq, Repr

/-- What happens to a walk between the calls of its step. -/
inductive WalkEvent (α : Type) where
  | turn
  | use (u : WalkUse α)
  deriving DecidableEq, Repr

/-- A step, given as its moves in every call; the number of a call is that of its pair. -/
abbrev WalkStep (α : Type) := Nat → List (WalkMove α)

/-- What happens to a walk, one thing at a time. -/
inductive WalkDeed (α : Type) where
  /-- A turn of the loop begins. -/
  | turn
  /-- The walk goes on at an index: at its start, or because a pair advanced. -/
  | reach (index : Nat)
  /-- The step is called and gets a new pair. -/
  | call (item : α) (index : Nat)
  /-- The step ends, with the failure that it raises, if any. -/
  | leave (failure : Option Failure)
  /-- Somebody does something, to whatever effect. -/
  | use (u : WalkUse α)
  | settle (state : WalkState α)
  deriving DecidableEq, Repr

namespace WalkDeed

def call? {α : Type} : WalkDeed α → Option (α × Nat)
  | call item index => some (item, index)
  | _ => none

end WalkDeed

/-- A walk over the items of `subject`. -/
structure Walk (α : Type) where
  subject : α
  items : List α
  /-- Whether items can be added and taken away. -/
  mutable : Bool
  pairs : List WalkPair := []
  /-- The indices that wait for the next turn. -/
  scheduled : List Nat := []
  /-- What has happened so far, the latest first. -/
  past : List (WalkDeed α) := []
  state : WalkState α := .pending
  deriving DecidableEq, Repr

namespace Walk

variable {α : Type}

/-- A walk after an operation, and the failure that the operation itself ended with. -/
abbrev Result (α : Type) := Walk α × Option Failure

/-- The calls of the step in a past, the first one first. -/
def callsOf (past : List (WalkDeed α)) : List (α × Nat) := (past.filterMap WalkDeed.call?).reverse

def calls (w : Walk α) : List (α × Nat) := callsOf w.past

def note (w : Walk α) (deed : WalkDeed α) : Walk α := { w with past := deed :: w.past }

def settle (w : Walk α) (state : WalkState α) : Walk α :=
  if w.state.settled then w else { w.note (.settle state) with state := state }

/-- The end-of-iteration signal cannot be the failure of a walk. -/
def isSignal : Failure → Bool
  | .raised kind _ => kind == "StopIteration"
  | _ => false

/-- Settles a pending walk as failed. A walk refuses the end-of-iteration signal and stays pending. -/
def failWith (w : Walk α) (failure : Failure) : Result α :=
  if w.state.settled then (w, none)
  else if isSignal failure then (w, some .wrongType)
  else (w.settle (.failed (.raised failure)), none)

/-- Takes a pair for its only use, and tells where the walk stood; nothing if it was used before or
never handed out. -/
def take (w : Walk α) (pair : Nat) : Option (Nat × Walk α) :=
  match w.pairs[pair]? with
  | some p =>
    if p.used then none
    else some (p.index, { w with pairs := w.pairs.set pair { p with used := true } })
  | none => none

def advance (w : Walk α) (pair : Nat) : Walk α :=
  match w.take pair with
  | some (index, w) => { w with scheduled := w.scheduled ++ [index + 1] }
  | none => w

def abort (w : Walk α) (pair : Nat) (reason : Option α) : Walk α :=
  match w.take pair with
  | some (_, w) => w.settle (.failed (.aborted reason))
  | none => w

def abortWith (w : Walk α) (pair : Nat) (failure : Failure) : Result α :=
  match w.take pair with
  | some (_, w) => w.failWith failure
  | none => (w, none)

def append (w : Walk α) (item : α) : Result α :=
  if w.mutable then ({ w with items := w.items ++ [item] }, none) else (w, some .noMember)

def pop (w : Walk α) : Result α :=
  if w.mutable then
    if w.items.isEmpty then (w, some .outOfRange)
    else ({ w with items := w.items.dropLast }, none)
  else (w, some .noMember)

def perform (w : Walk α) : WalkUse α → Result α
  | .advance pair => (w.advance pair, none)
  | .abort pair reason => (w.abort pair reason, none)
  | .abortWith pair failure => w.abortWith pair failure
  | .append item => w.append item
  | .pop => w.pop
  | .cancel => (w.settle .cancelled, none)

def use (w : Walk α) (u : WalkUse α) : Result α := (w.note (.use u)).perform u

def move (w : Walk α) : WalkMove α → Result α
  | .use u => w.use u
  | .attempt u => ((w.use u).1, none)
  | .raise failure => (w, some failure)

def moves : List (WalkMove α) → Walk α → Result α
  | [], w => (w, none)
  | first :: rest, w =>
    match w.move first with
    | (w, none) => moves rest w
    | (w, some failure) => (w, some failure)

/-- A walk in which the step was just called with an item: there is a new pair. -/
def handOut (w : Walk α) (item : α) (index : Nat) : Walk α :=
  { w.note (.call item index) with pairs := w.pairs ++ [⟨index, false⟩] }

/-- Ends a call of the step. An error that the step raises fails the walk; an exit or a cancellation
passes through it. -/
def leave (w : Walk α) : Option Failure → Result α
  | none => (w.note (.leave none), none)
  | some failure =>
    let w := w.note (.leave (some failure))
    if failure.isError then w.failWith failure else (w, some failure)

/-- Calls the step with an item and a new pair. -/
def call (step : WalkStep α) (w : Walk α) (item : α) (index : Nat) : Result α :=
  let (w, failure) := moves (step w.pairs.length) (w.handOut item index)
  w.leave failure

/-- Goes on at an index: the next call, or the end of the walk when there is no such item. -/
def run (step : WalkStep α) (w : Walk α) (index : Nat) : Result α :=
  let w := w.note (.reach index)
  if w.state.settled then (w, none)
  else
    match w.items[index]? with
    | none => (w.settle (.resolved w.subject), none)
    | some item => w.call step item index

def start (step : WalkStep α) (subject : α) (items : List α) (mutable : Bool) :
    Result α :=
  run step { subject := subject, items := items, mutable := mutable } 0

/-- The walk over something that is neither a list nor a tuple. -/
def refused (subject : α) : Walk α :=
  { subject := subject, items := [], mutable := false, state := .failed .notSequence }

/-- Starts the walk over a value, which must be a list or a tuple. -/
def begin (step : WalkStep Value) (h : Heap) : Value → Result Value
  | .list cell => start step (.list cell) (h.listAt cell) true
  | .tuple items => start step (.tuple items) items false
  | v => (refused v, none)

/-- One turn of the loop: what was scheduled before it runs in order. -/
def turn (step : WalkStep α) (w : Walk α) : Walk α :=
  w.scheduled.foldl (fun w index => (w.run step index).1) { w.note .turn with scheduled := [] }

def handle (step : WalkStep α) (w : Walk α) : WalkEvent α → Result α
  | .turn => (w.turn step, none)
  | .use u => w.use u

def follow (step : WalkStep α) (w : Walk α) (events : List (WalkEvent α)) : Walk α :=
  events.foldl (fun w event => (w.handle step event).1) w

@[simp] theorem settle_of_settled (w : Walk α) (state : WalkState α)
    (settled : w.state.settled = true) : w.settle state = w := by simp [settle, settled]

end Walk

end TaskBoard
