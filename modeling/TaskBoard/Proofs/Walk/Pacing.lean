import TaskBoard.Proofs.Walk.Order

/-!
The progress of a walk whose pairs are all advanced, each so many turns of the loop after it was handed out, or in the
call itself. The list is not changed, and nobody aborts. Then the next call comes one turn after each advance, every
item is handed to the step once and in order, and after the last advance the walk resolves in the next turn.
-/

namespace TaskBoard.Walk

variable {α : Type} {delay : Nat → Nat} {ground : WalkGround α} {w : Walk α} {past : List (WalkDeed α)}
  {n spent pair turns : Nat}

/-- How many turns have begun since a pair was handed out. -/
def age (pair : Nat) : List (WalkDeed α) → Nat
  | [] => 0
  | .turn :: past => if pair < (callsOf past).length then age pair past + 1 else 0
  | .reach _ :: past | .call _ _ :: past | .leave _ :: past | .use _ :: past | .settle _ :: past => age pair past

/-- The pairs that are to be advanced between this turn and the next. -/
def due (delay : Nat → Nat) (past : List (WalkDeed α)) : List Nat :=
  (List.range (callsOf past).length).filter fun pair => 0 < delay pair ∧ age pair past = delay pair

/-- The step that advances in the call itself where there is no delay. -/
def paced (delay : Nat → Nat) : WalkStep α := fun pair => if delay pair = 0 then [.use (.advance pair)] else []

/-- A turn of the loop, after which the pairs are advanced whose time has come. -/
def tend (delay : Nat → Nat) (w : Walk α) : Walk α :=
  let w := w.turn (paced delay)
  w.follow (paced delay) ((due delay w.past).map fun pair => .use (.advance pair))

/-- A walk after so many turns of the loop. -/
def tended (delay : Nat → Nat) (w : Walk α) : Nat → Walk α
  | 0 => w
  | turns + 1 => (tended delay w turns).tend delay

/-- The turn in which the walk goes on at an index. -/
def turnOf (delay : Nat → Nat) : Nat → Nat
  | 0 => 0
  | index + 1 => turnOf delay index + delay index + 1

theorem age_turn (known : pair < (callsOf past).length) : age pair (.turn :: past) = age pair past + 1 := if_pos known

theorem age_other {deed : WalkDeed α} (other : deed ≠ .turn) (pair : Nat) (past : List (WalkDeed α)) :
    age pair (deed :: past) = age pair past := by
  cases deed with
  | turn => exact absurd rfl other
  | _ => rfl

/-- A pair that is not handed out yet has no age. -/
theorem age_of_unknown (unknown : (callsOf past).length ≤ pair) : age pair past = 0 := by
  induction past with
  | nil => rfl
  | cons deed past ih =>
    cases deed with
    | turn => exact if_neg (Nat.not_lt.mpr unknown)
    | call item index =>
      rw [callsOf_call, List.length_append] at unknown
      exact ih (Nat.le_of_succ_le unknown)
    | reach index => exact ih unknown
    | leave failure => exact ih unknown
    | use u => exact ih unknown
    | settle state => exact ih unknown

/-- A walk that has called its step so many times, where the time of some first pairs is over. -/
structure Course (delay : Nat → Nat) (ground : WalkGround α) (n spent : Nat) (w : Walk α) : Prop where
  subject : w.subject = ground.subject
  items : w.items = ground.items
  within : n ≤ ground.items.length
  made : callsOf w.past = ground.items.zipIdx.take n
  count : w.pairs.length = n
  known : spent ≤ n
  late : ∀ pair < spent, delay pair < age pair w.past

/-- A walk that goes on at an index. -/
structure Arrives (delay : Nat → Nat) (ground : WalkGround α) (index : Nat) (w : Walk α) : Prop
    extends Course delay ground index index w where
  state : w.state = .pending
  scheduled : w.scheduled = []

/-- A walk whose last pair was handed out some turns ago and is unused. -/
structure Holds (delay : Nat → Nat) (ground : WalkGround α) (pair turns : Nat) (w : Walk α) : Prop
    extends Course delay ground (pair + 1) pair w where
  state : w.state = .pending
  aged : age pair w.past = turns
  unused : w.pairs[pair]? = some ⟨pair, false⟩
  scheduled : w.scheduled = []

/-- A walk whose last pair was advanced when its time had come. -/
structure Goes (delay : Nat → Nat) (ground : WalkGround α) (pair : Nat) (w : Walk α) : Prop
    extends Course delay ground (pair + 1) pair w where
  state : w.state = .pending
  aged : age pair w.past = delay pair
  scheduled : w.scheduled = [pair + 1]

/-- A walk some turns after it has handed out its last pair. -/
inductive Waits (delay : Nat → Nat) (ground : WalkGround α) (pair : Nat) : Nat → Walk α → Prop where
  | holds {turns : Nat} {w : Walk α} (early : turns < delay pair) (holds : Holds delay ground pair turns w) :
    Waits delay ground pair turns w
  | goes {w : Walk α} (goes : Goes delay ground pair w) : Waits delay ground pair (delay pair) w

/-- A walk that has come to its end. -/
structure Arrived (delay : Nat → Nat) (ground : WalkGround α) (w : Walk α) : Prop
    extends Course delay ground ground.items.length ground.items.length w where
  state : w.state = .resolved ground.subject
  scheduled : w.scheduled = []

namespace Course

theorem length (course : Course delay ground n spent w) : (callsOf w.past).length = n := by
  rw [course.made, List.length_take, List.length_zipIdx, Nat.min_eq_left course.within]

theorem push (course : Course delay ground n spent w) {v : Walk α} {deed : WalkDeed α}
    (subject : v.subject = w.subject) (items : v.items = w.items) (count : v.pairs.length = w.pairs.length)
    (past : v.past = deed :: w.past) (silent : deed.call? = none) : Course delay ground n spent v where
  subject := subject.trans course.subject
  items := items.trans course.items
  within := course.within
  made := by
    rw [past, ← course.made]
    have quiet : ∀ other ∈ [deed], other.call? = none := fun other member => List.mem_singleton.mp member ▸ silent
    exact callsOf_append_silent w.past quiet
  count := count.trans course.count
  known := course.known
  late other first := by
    have late := course.late other first
    rw [past]
    by_cases turn : deed = .turn
    · have known := course.known
      rw [turn, age_turn (by rw [course.length]; omega)]
      omega
    · rwa [age_other turn]

theorem note (course : Course delay ground n spent w) {deed : WalkDeed α} (silent : deed.call? = none) :
    Course delay ground n spent (w.note deed) :=
  course.push rfl rfl rfl rfl silent

/-- Only the last pair can have its time to come. -/
theorem due_eq (course : Course delay ground (pair + 1) pair w) :
    due delay w.past = if 0 < delay pair ∧ age pair w.past = delay pair then [pair] else [] := by
  have others : (List.range pair).filter (fun pair => 0 < delay pair ∧ age pair w.past = delay pair) = [] := by
    rw [List.filter_eq_nil_iff]
    intro other member
    have late := course.late other (List.mem_range.mp member)
    simp only [decide_eq_true_eq]
    omega
  unfold due
  rw [course.length, List.range_succ, List.filter_append, others, List.nil_append]
  simp only [List.filter_cons, List.filter_nil, decide_eq_true_eq]

theorem due_eq_nil (course : Course delay ground n n w) : due delay w.past = [] := by
  unfold due
  rw [course.length, List.filter_eq_nil_iff]
  intro other member
  have late := course.late other (List.mem_range.mp member)
  simp only [decide_eq_true_eq]
  omega

end Course

namespace Waits

theorem course (waits : Waits delay ground pair turns w) : Course delay ground (pair + 1) pair w := by
  cases waits with
  | holds early holds => exact holds.toCourse
  | goes goes => exact goes.toCourse

theorem state (waits : Waits delay ground pair turns w) : w.state = .pending := by
  cases waits with
  | holds early holds => exact holds.state
  | goes goes => exact goes.state

theorem aged (waits : Waits delay ground pair turns w) : age pair w.past = turns := by
  cases waits with
  | holds early holds => exact holds.aged
  | goes goes => exact goes.aged

theorem turns_le (waits : Waits delay ground pair turns w) : turns ≤ delay pair := by
  cases waits with
  | holds early holds => exact Nat.le_of_lt early
  | goes goes => exact Nat.le_refl _

/-- In the turn of its call a pair is not advanced from outside. -/
theorem due_eq_nil (waits : Waits delay ground pair 0 w) : due delay w.past = [] := by
  rw [waits.course.due_eq, waits.aged, if_neg (by omega)]

end Waits

theorem use_advance_unused (unused : w.pairs[pair]? = some ⟨pair, false⟩) :
    (w.use (.advance pair)).1 = { w.note (.use (.advance pair)) with
      pairs := w.pairs.set pair ⟨pair, true⟩
      scheduled := w.scheduled ++ [pair + 1] } := by
  have taken : (w.note (.use (.advance pair))).take pair = some (pair, { w.note (.use (.advance pair)) with
      pairs := w.pairs.set pair ⟨pair, true⟩ }) := by
    unfold take
    rw [show (w.note (.use (.advance pair))).pairs = w.pairs from rfl, unused]
    rfl
  simp only [use, perform, advance, taken]
  rfl

theorem Holds.advance (holds : Holds delay ground pair (delay pair) w) :
    Goes delay ground pair (w.use (.advance pair)).1 := by
  rw [use_advance_unused holds.unused]
  exact ⟨holds.push rfl rfl List.length_set rfl rfl, holds.state, holds.aged, congrArg (· ++ [pair + 1]) holds.scheduled⟩

theorem Arrives.handOut (arrives : Arrives delay ground n w) {item : α} (found : ground.items[n]? = some item) :
    Holds delay ground n 0 ((w.note (.reach n)).handOut item n) where
  subject := arrives.subject
  items := arrives.items
  within := (List.getElem?_eq_some_iff.mp found).1
  made := by
    have inside := (List.getElem?_eq_some_iff.mp found).1
    change callsOf (.call item n :: .reach n :: w.past) = _
    rw [callsOf_call, callsOf_reach, arrives.made, List.take_add_one, List.getElem?_zipIdx, found]
    simp
  count := by
    change (w.pairs ++ [_]).length = n + 1
    rw [List.length_append, arrives.count, List.length_singleton]
  known := Nat.le_succ n
  late := arrives.late
  state := arrives.state
  aged := by
    change age n w.past = 0
    exact age_of_unknown (Nat.le_of_eq arrives.length)
  unused := by
    change (w.pairs ++ [_])[n]? = _
    rw [← arrives.count]
    exact List.getElem?_concat_length
  scheduled := arrives.scheduled

theorem Holds.note (holds : Holds delay ground pair turns w) {deed : WalkDeed α} (silent : deed.call? = none)
    (still : deed ≠ .turn) : Holds delay ground pair turns (w.note deed) :=
  ⟨holds.toCourse.note silent, holds.state, (age_other still pair w.past).trans holds.aged, holds.unused, holds.scheduled⟩

theorem Goes.note (goes : Goes delay ground pair w) {deed : WalkDeed α} (silent : deed.call? = none)
    (still : deed ≠ .turn) : Goes delay ground pair (w.note deed) :=
  ⟨goes.toCourse.note silent, goes.state, (age_other still pair w.past).trans goes.aged, goes.scheduled⟩

theorem Arrives.call (arrives : Arrives delay ground n w) {item : α} (found : ground.items[n]? = some item) :
    Waits delay ground n 0 ((w.note (.reach n)).call (paced delay) item n).1 := by
  have handed := arrives.handOut found
  have number : (w.note (.reach n)).pairs.length = n := arrives.count
  unfold Walk.call
  rw [number]
  by_cases now : delay n = 0
  · rw [show paced delay n = [WalkMove.use (α := α) (.advance n)] from if_pos now]
    have goes : Goes delay ground n (((w.note (.reach n)).handOut item n).use (.advance n)).1 := (now ▸ handed).advance
    have left : Goes delay ground n ((((w.note (.reach n)).handOut item n).use (.advance n)).1.note (.leave none)) :=
      goes.note rfl (by simp)
    exact now ▸ Waits.goes left
  · rw [show paced delay n = ([] : List (WalkMove α)) from if_neg now]
    exact .holds (Nat.pos_of_ne_zero now) (handed.note rfl (by simp))

theorem Arrives.run (arrives : Arrives delay ground n w) :
    (n < ground.items.length ∧ Waits delay ground n 0 (w.run (paced delay) n).1) ∨
      (n = ground.items.length ∧ Arrived delay ground (w.run (paced delay) n).1) := by
  have pending : (w.note (.reach n)).state.settled = false := by
    rw [show (w.note (.reach n)).state = w.state from rfl, arrives.state]
    rfl
  have items : (w.note (.reach n)).items = ground.items := arrives.items
  unfold Walk.run
  simp only [pending, items, Bool.false_eq_true, if_false]
  cases found : ground.items[n]? with
  | none =>
    have last : n = ground.items.length :=
      Nat.le_antisymm arrives.within (List.getElem?_eq_none_iff.mp found)
    subst last
    have resolved : (w.note (.reach ground.items.length)).settle (.resolved w.subject) =
        { (w.note (.reach ground.items.length)).note (.settle (.resolved w.subject)) with
          state := .resolved w.subject } := by
      unfold settle
      rw [pending]
      rfl
    refine .inr ⟨rfl, ?_⟩
    change Arrived delay ground ((w.note (.reach ground.items.length)).settle (.resolved w.subject))
    rw [resolved]
    refine ⟨?_, congrArg WalkState.resolved arrives.subject, arrives.scheduled⟩
    have reached : Course delay ground _ _ (w.note (.reach ground.items.length)) := arrives.toCourse.note rfl
    exact reached.push rfl rfl rfl rfl rfl
  | some item => exact .inl ⟨(List.getElem?_eq_some_iff.mp found).1, arrives.call found⟩

section Turns

theorem turn_idle {step : WalkStep α} (idle : w.scheduled = []) : w.turn step = w.note .turn := by
  unfold turn
  rw [idle]
  cases w
  cases idle
  rfl

theorem tend_of_due (quiet : due delay (w.turn (paced delay)).past = []) : w.tend delay = w.turn (paced delay) := by
  unfold tend
  dsimp only
  rw [quiet]
  rfl

/-- A pair whose time has not come gets older, and is advanced when it is old enough. -/
theorem Holds.tend (holds : Holds delay ground pair turns w) (early : turns < delay pair) :
    Waits delay ground pair (turns + 1) (w.tend delay) := by
  have aged : age pair (w.note .turn).past = turns + 1 := by
    rw [show (w.note .turn).past = .turn :: w.past from rfl, age_turn (by rw [holds.length]; omega), holds.aged]
  have older : Holds delay ground pair (turns + 1) (w.note .turn) :=
    ⟨holds.toCourse.note rfl, holds.state, aged, holds.unused, holds.scheduled⟩
  have turned : w.turn (paced delay) = w.note .turn := turn_idle holds.scheduled
  have due := older.due_eq
  rw [aged] at due
  by_cases now : turns + 1 = delay pair
  · rw [if_pos ⟨by omega, now⟩] at due
    have advanced : w.tend delay = ((w.note .turn).use (.advance pair)).1 := by
      unfold Walk.tend
      dsimp only
      rw [turned, due]
      rfl
    rw [advanced, now]
    exact .goes (now ▸ older).advance
  · rw [if_neg (by omega)] at due
    rw [tend_of_due (by rw [turned, due]), turned]
    exact .holds (by omega) older

/-- A turn after the last pair was advanced the walk goes on at the next index. -/
theorem Goes.turn (goes : Goes delay ground pair w) :
    ∃ v, Arrives delay ground (pair + 1) v ∧ w.turn (paced delay) = (v.run (paced delay) (pair + 1)).1 := by
  refine ⟨{ w.note .turn with scheduled := [] }, ⟨⟨goes.subject, goes.items, goes.within, goes.made, goes.count,
    Nat.le_refl _, ?_⟩, goes.state, rfl⟩, ?_⟩
  · intro other before
    change delay other < age other (.turn :: w.past)
    rw [age_turn (by rw [goes.length]; omega)]
    rcases Nat.lt_succ_iff_lt_or_eq.mp before with earlier | rfl
    · have late := goes.late other earlier
      omega
    · rw [goes.aged]
      exact Nat.lt_succ_self _
  · unfold Walk.turn
    rw [goes.scheduled]
    rfl

theorem Goes.tend (goes : Goes delay ground pair w) :
    (pair + 1 < ground.items.length ∧ Waits delay ground (pair + 1) 0 (w.tend delay)) ∨
      (pair + 1 = ground.items.length ∧ Arrived delay ground (w.tend delay)) := by
  obtain ⟨v, arrives, turned⟩ := goes.turn
  rcases arrives.run with ⟨inside, waits⟩ | ⟨last, arrived⟩
  · rw [← turned] at waits
    rw [tend_of_due waits.due_eq_nil]
    exact .inl ⟨inside, waits⟩
  · rw [← turned] at arrived
    rw [tend_of_due arrived.due_eq_nil]
    exact .inr ⟨last, arrived⟩

theorem Arrived.tend (arrived : Arrived delay ground w) : Arrived delay ground (w.tend delay) := by
  have turned : w.turn (paced delay) = w.note .turn := turn_idle arrived.scheduled
  have course : Course delay ground _ _ (w.note .turn) := arrived.toCourse.note rfl
  rw [tend_of_due (by rw [turned, course.due_eq_nil]), turned]
  exact ⟨course, arrived.state, arrived.scheduled⟩

theorem tended_cases (arrives : Arrives delay ground 0 w) (turns : Nat) :
    (∃ pair waited, turnOf delay pair + waited = turns ∧
      Waits delay ground pair waited (tended delay (w.run (paced delay) 0).1 turns)) ∨
    (turnOf delay ground.items.length ≤ turns ∧
      Arrived delay ground (tended delay (w.run (paced delay) 0).1 turns)) := by
  induction turns with
  | zero =>
    rcases arrives.run with ⟨-, waits⟩ | ⟨empty, arrived⟩
    · exact .inl ⟨0, 0, rfl, waits⟩
    · exact .inr ⟨by rw [← empty]; exact Nat.le_refl 0, arrived⟩
  | succ turns ih =>
    rcases ih with ⟨pair, waited, rfl, waits⟩ | ⟨spent, arrived⟩
    · cases waits with
      | holds early holds => exact .inl ⟨pair, waited + 1, rfl, holds.tend early⟩
      | goes goes =>
        rcases goes.tend with ⟨-, next⟩ | ⟨last, arrived⟩
        · exact .inl ⟨pair + 1, 0, rfl, next⟩
        · exact .inr ⟨by rw [← last]; exact Nat.le_refl _, arrived⟩
    · exact .inr ⟨Nat.le_succ_of_le spent, arrived.tend⟩

end Turns

theorem turnOf_mono (delay : Nat → Nat) {first second : Nat} (le : first ≤ second) :
    turnOf delay first ≤ turnOf delay second := by
  induction le with
  | refl => exact Nat.le_refl _
  | step _ ih =>
    simp only [turnOf]
    omega

theorem turnOf_zero (index : Nat) : turnOf (fun _ => 0) index = index := by
  induction index with
  | zero => rfl
  | succ index ih => simp [turnOf, ih]

/-- Between the turn of a call and that of the next the walk is pending, and has made the calls up to this one. -/
theorem tended_pending (arrives : Arrives delay ground 0 w) {turns index : Nat} (inside : index < ground.items.length)
    (reached : turnOf delay index ≤ turns) (before : turns < turnOf delay (index + 1)) :
    (tended delay (w.run (paced delay) 0).1 turns).state = .pending ∧
      (tended delay (w.run (paced delay) 0).1 turns).calls = ground.items.zipIdx.take (index + 1) := by
  rcases tended_cases arrives turns with ⟨pair, waited, rfl, waits⟩ | ⟨spent, -⟩
  · have late := waits.turns_le
    -- the turns from one call to the next do not overlap
    have same : pair = index := by
      rcases Nat.lt_trichotomy pair index with less | same | more
      · have later : turnOf delay (pair + 1) ≤ turnOf delay index := turnOf_mono delay less
        simp only [turnOf] at later
        omega
      · exact same
      · have later : turnOf delay (index + 1) ≤ turnOf delay pair := turnOf_mono delay more
        omega
    subst same
    exact ⟨waits.state, waits.course.made⟩
  · have later : turnOf delay (index + 1) ≤ turnOf delay ground.items.length := turnOf_mono delay inside
    omega

/-- From the turn on in which the walk goes on after the last item it is resolved, and has made all calls. -/
theorem tended_resolved (arrives : Arrives delay ground 0 w) {turns : Nat}
    (spent : turnOf delay ground.items.length ≤ turns) :
    (tended delay (w.run (paced delay) 0).1 turns).state = .resolved ground.subject ∧
      (tended delay (w.run (paced delay) 0).1 turns).calls = ground.items.zipIdx := by
  rcases tended_cases arrives turns with ⟨pair, waited, rfl, waits⟩ | ⟨-, arrived⟩
  · have late := waits.turns_le
    have later := turnOf_mono delay waits.course.within
    simp only [turnOf] at later
    omega
  · refine ⟨arrived.state, arrived.made.trans ?_⟩
    rw [← List.length_zipIdx (l := ground.items), List.take_length]

/-- A walk over a list or a tuple that nobody changes, with every pair advanced `delay` turns after it was handed out, or
in the call if there is no delay: the call of an item comes in the turn `turnOf` of its index and is the last one until
the next, and from the turn on that follows the last advance the walk is resolved with what is walked, with one call for
each item in order. Without delays there is one call in each turn. -/
theorem begin_progresses (delay : Nat → Nat) (h : Heap) (subject : Value) (ground : WalkGround Value)
    (found : WalkGround.ofValue? h subject = some ground) :
    let n := ground.items.length
    let w := fun delay turns => tended delay (begin (paced delay) h subject).1 turns
    (∀ turns index, index < n → turnOf delay index ≤ turns → turns < turnOf delay (index + 1) →
      (w delay turns).state = .pending ∧ (w delay turns).calls = ground.items.zipIdx.take (index + 1)) ∧
    (∀ turns, turnOf delay n ≤ turns →
      (w delay turns).state = .resolved subject ∧ (w delay turns).calls = ground.items.zipIdx) ∧
    ∀ turns, (w (fun _ => 0) turns).calls = ground.items.zipIdx.take (turns + 1) ∧
      (w (fun _ => 0) turns).calls.length = min (turns + 1) n ∧
      (w (fun _ => 0) turns).state = if turns < n then .pending else .resolved subject := by
  intro n w
  obtain ⟨rfl, -⟩ := begin_of_ground (paced delay) found
  have started : ∀ delay, (begin (paced delay) h ground.subject).1 =
      (({ subject := ground.subject, items := ground.items, mutable := ground.mutable } : Walk Value).run
        (paced delay) 0).1 := fun delay => congrArg Prod.fst (begin_of_ground (paced delay) found).2
  have arrives : ∀ delay, Arrives delay ground 0
      { subject := ground.subject, items := ground.items, mutable := ground.mutable } := fun delay =>
    ⟨⟨rfl, rfl, Nat.zero_le _, rfl, rfl, Nat.le_refl 0, fun _ none => absurd none (Nat.not_lt_zero _)⟩, rfl, rfl⟩
  simp only [w, started]
  refine ⟨fun turns index => tended_pending (arrives delay), fun turns => tended_resolved (arrives delay), fun turns => ?_⟩
  by_cases inside : turns < n
  · have pending := tended_pending (arrives fun _ => 0) inside (Nat.le_of_eq (turnOf_zero turns))
      (by rw [turnOf_zero]; exact Nat.lt_succ_self turns)
    refine ⟨pending.2, ?_, pending.1.trans (if_pos inside).symm⟩
    rw [pending.2, List.length_take, List.length_zipIdx]
  · have spent : n ≤ turns := Nat.le_of_not_lt inside
    have reached : turnOf (fun _ => 0) n ≤ turns := by rwa [turnOf_zero]
    have resolved := tended_resolved (arrives fun _ => 0) reached
    have all : ground.items.zipIdx.take (turns + 1) = ground.items.zipIdx :=
      List.take_of_length_le (by rw [List.length_zipIdx]; exact Nat.le_succ_of_le spent)
    refine ⟨resolved.2.trans all.symm, ?_, resolved.1.trans (if_neg inside).symm⟩
    rw [resolved.2, List.length_zipIdx]
    exact (Nat.min_eq_right (Nat.le_succ_of_le spent)).symm

/-- A list of two items, the first of which takes two turns. -/
theorem begin_progresses_slowly :
    let delay := fun pair => if pair = 0 then 2 else 0
    let h : Heap := { lists := #[[.text "a", .text "b"]] }
    let w := fun turns => tended delay (begin (paced delay) h (.list 0)).1 turns
    WalkGround.ofValue? h (.list 0) = some ⟨.list 0, [.text "a", .text "b"], true⟩ ∧
      ((w 2).state = .pending ∧ (w 2).calls = [(.text "a", 0)]) ∧
      ((w 3).state = .pending ∧ (w 3).calls = [(.text "a", 0), (.text "b", 1)]) ∧
      (w 4).state = .resolved (.list 0) ∧ (w 4).calls = [(.text "a", 0), (.text "b", 1)] := by
  intro delay h w
  have found : WalkGround.ofValue? h (.list 0) = some ⟨.list 0, [.text "a", .text "b"], true⟩ := rfl
  obtain ⟨pending, resolved, -⟩ := begin_progresses delay h (.list 0) _ found
  exact ⟨found, pending 2 0 (by decide) (by decide) (by decide), pending 3 1 (by decide) (by decide) (by decide),
    resolved 4 (by decide)⟩

end TaskBoard.Walk
