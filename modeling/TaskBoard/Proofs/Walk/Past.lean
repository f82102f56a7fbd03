import TaskBoard.Walk

/-!
What the past of a walk tells: who used which pair first, how the list stands, which indices wait for a
turn, how the walk was settled and what it has to be settled with at once. A past has the latest deed
first, so each of these is a recursion from the latest deed back to the start.
-/

namespace TaskBoard

def WalkUse.pair? {α : Type} : WalkUse α → Option Nat
  | .advance pair | .abort pair _ | .abortWith pair _ => some pair
  | .append _ | .pop | .cancel => none

/-- What a walk is started on. -/
structure WalkGround (α : Type) where
  subject : α
  items : List α
  mutable : Bool

namespace Walk

variable {α : Type}

/-- The first use of a pair since it was handed out. -/
def firstUse? (pair : Nat) : List (WalkDeed α) → Option (WalkUse α)
  | [] => none
  | .use u :: past =>
    match firstUse? pair past with
    | some first => some first
    | none => if u.pair? = some pair ∧ pair < (callsOf past).length then some u else none
  | .turn :: past | .reach _ :: past | .call _ _ :: past | .leave _ :: past | .settle _ :: past =>
    firstUse? pair past

/-- Whether a pair was handed out and not used yet. -/
def fresh (past : List (WalkDeed α)) (pair : Nat) : Bool :=
  pair < (callsOf past).length && (firstUse? pair past).isNone

/-- How the list stands. -/
def itemsAfter (ground : WalkGround α) : List (WalkDeed α) → List α
  | [] => ground.items
  | .use (.append item) :: past =>
    if ground.mutable then itemsAfter ground past ++ [item] else itemsAfter ground past
  | .use .pop :: past =>
    if ground.mutable then (itemsAfter ground past).dropLast else itemsAfter ground past
  | _ :: past => itemsAfter ground past

/-- How the walk was settled; the first time counts. -/
def stateAfter : List (WalkDeed α) → WalkState α
  | [] => .pending
  | .settle state :: past => if (stateAfter past).settled then stateAfter past else state
  | _ :: past => stateAfter past

/-- The indices that wait for a turn: the first use of a pair to advance adds one, and one is taken
whenever the walk goes on. -/
def waiting : List (WalkDeed α) → List Nat
  | [] => []
  | .use (.advance pair) :: past =>
    if fresh past pair then waiting past ++ [pair + 1] else waiting past
  | .reach _ :: past => (waiting past).tail
  | _ :: past => waiting past

/-- What a pending walk has to be settled with at once: the error that its step raised, or what the
first use of a pair aborts with. -/
def owed : List (WalkDeed α) → Option (WalkState α)
  | .leave (some failure) :: past =>
    if !(stateAfter past).settled && failure.isError && !isSignal failure then
      some (.failed (.raised failure))
    else none
  | .use (.abort pair reason) :: past =>
    if !(stateAfter past).settled && fresh past pair then some (.failed (.aborted reason)) else none
  | .use (.abortWith pair failure) :: past =>
    if !(stateAfter past).settled && fresh past pair && !isSignal failure then
      some (.failed (.raised failure))
    else none
  | _ => none

section Calls

variable (past : List (WalkDeed α))

@[simp] theorem callsOf_nil : callsOf ([] : List (WalkDeed α)) = [] := rfl

@[simp] theorem callsOf_call (item : α) (index : Nat) :
    callsOf (.call item index :: past) = callsOf past ++ [(item, index)] := by
  simp [callsOf, WalkDeed.call?]

@[simp] theorem callsOf_turn : callsOf (.turn :: past) = callsOf past := rfl

@[simp] theorem callsOf_reach (index : Nat) : callsOf (.reach index :: past) = callsOf past := rfl

@[simp] theorem callsOf_leave (failure : Option Failure) :
    callsOf (.leave failure :: past) = callsOf past := rfl

@[simp] theorem callsOf_use (u : WalkUse α) : callsOf (.use u :: past) = callsOf past := rfl

@[simp] theorem callsOf_settle (state : WalkState α) :
    callsOf (.settle state :: past) = callsOf past := rfl

theorem callsOf_append_silent {later : List (WalkDeed α)} (silent : ∀ deed ∈ later, deed.call? = none) :
    callsOf (later ++ past) = callsOf past := by
  simp [callsOf, List.filterMap_append, List.filterMap_eq_nil_iff.mpr silent]

end Calls

theorem fresh_iff (past : List (WalkDeed α)) (pair : Nat) :
    fresh past pair = true ↔ pair < (callsOf past).length ∧ firstUse? pair past = none := by
  simp [fresh, Option.isNone_iff_eq_none]

/-- A deed that is no use of a fresh pair leaves the first uses as they are. -/
theorem firstUse?_use_of_not_fresh {u : WalkUse α} {past : List (WalkDeed α)}
    (old : ∀ pair, u.pair? = some pair → fresh past pair = false) (pair : Nat) :
    firstUse? pair (.use u :: past) = firstUse? pair past := by
  cases found : firstUse? pair past with
  | some first => simp only [firstUse?, found]
  | none =>
    simp only [firstUse?, found]
    rw [if_neg]
    rintro ⟨same, known⟩
    have stale := old pair same
    rw [Bool.eq_false_iff, Ne, fresh_iff] at stale
    exact stale ⟨known, found⟩

theorem firstUse?_use_other {u : WalkUse α} {pair other : Nat} (same : u.pair? = some pair)
    (different : other ≠ pair) (past : List (WalkDeed α)) :
    firstUse? other (.use u :: past) = firstUse? other past := by
  cases found : firstUse? other past with
  | some first => simp only [firstUse?, found]
  | none =>
    simp only [firstUse?, found]
    rw [if_neg]
    rintro ⟨own, -⟩
    rw [same] at own
    exact different (Option.some.inj own).symm

theorem firstUse?_use_fresh {u : WalkUse α} {pair : Nat} {past : List (WalkDeed α)}
    (same : u.pair? = some pair) (unused : fresh past pair = true) :
    firstUse? pair (.use u :: past) = some u := by
  rw [fresh_iff] at unused
  simp only [firstUse?, unused.2, same, unused.1, and_self, if_true]

theorem firstUse?_cons {pair : Nat} {first : WalkUse α} {past : List (WalkDeed α)}
    (found : firstUse? pair past = some first) (deed : WalkDeed α) :
    firstUse? pair (deed :: past) = some first := by
  cases deed <;> simp only [firstUse?, found]

theorem lt_of_firstUse? {pair : Nat} {first : WalkUse α} {past : List (WalkDeed α)}
    (found : firstUse? pair past = some first) : pair < (callsOf past).length := by
  induction past with
  | nil => simp [firstUse?] at found
  | cons deed past ih =>
    cases deed with
    | use u =>
      cases before : firstUse? pair past with
      | some earlier => exact ih (by simpa only [firstUse?, before] using found)
      | none =>
        simp only [firstUse?, before] at found
        split at found
        · rename_i condition
          exact condition.2
        · cases found
    | call item index =>
      have known := ih found
      simp only [callsOf_call, List.length_append, List.length_singleton]
      omega
    | turn => exact ih found
    | reach index => exact ih found
    | leave failure => exact ih found
    | settle state => exact ih found

theorem stateAfter_settle {past : List (WalkDeed α)} (open_ : (stateAfter past).settled = false)
    (state : WalkState α) : stateAfter (.settle state :: past) = state := by
  simp [stateAfter, open_]

end Walk

end TaskBoard
