import TaskBoard.Proofs.Walk.Law

/-!
A walk is what its past tells, and the past obeys the law: this holds at the start and every use, every
call of the step and every turn of the loop keeps it.
-/

namespace TaskBoard.Walk

variable {α : Type} {ground : WalkGround α} {w : Walk α}

/-- The walk is what its lawful past tells. -/
structure Told (ground : WalkGround α) (w : Walk α) : Prop where
  subject : w.subject = ground.subject
  mutable : w.mutable = ground.mutable
  lawful : Lawful ground w.past
  items : w.items = itemsAfter ground w.past
  state : w.state = stateAfter w.past
  count : w.pairs.length = (callsOf w.past).length
  pair : ∀ n p, w.pairs[n]? = some p → p.index = n ∧ p.used = (firstUse? n w.past).isSome
  scheduled : w.scheduled = waiting w.past

/-- The walk has begun and nothing has to happen to it at once. -/
structure Calm (past : List (WalkDeed α)) : Prop where
  begun : past ≠ []
  owed : owed past = none
  midway : ¬Midway past

theorem not_midway {deed : WalkDeed α} {past : List (WalkDeed α)} (still : ∀ index, deed ≠ .reach index) :
    ¬Midway (deed :: past) := by
  rintro ⟨-, index, head⟩
  exact still index (Option.some.inj head)

theorem calm_cons {deed : WalkDeed α} {past : List (WalkDeed α)} (paid : owed (deed :: past) = none)
    (still : ∀ index, deed ≠ .reach index) : Calm (deed :: past) :=
  ⟨List.cons_ne_nil deed past, paid, not_midway still⟩

theorem Calm.fits {past : List (WalkDeed α)} (calm : Calm past) : past ≠ [] ∧ ¬Midway past :=
  ⟨calm.begun, calm.midway⟩

theorem Calm.lawful {past : List (WalkDeed α)} {deed : WalkDeed α} (calm : Calm past)
    (lawful : Lawful ground past) (fits : Fits ground past deed) : Lawful ground (deed :: past) :=
  ⟨lawful, fits, fun state owes => by rw [calm.owed] at owes; cases owes⟩

namespace Told

theorem noteItems (told : Told ground w) {deed : WalkDeed α} {items : List α}
    (lawful : Lawful ground (deed :: w.past)) (same : items = itemsAfter ground (deed :: w.past))
    (state : stateAfter (deed :: w.past) = stateAfter w.past)
    (calls : callsOf (deed :: w.past) = callsOf w.past)
    (firsts : ∀ n, firstUse? n (deed :: w.past) = firstUse? n w.past)
    (waits : waiting (deed :: w.past) = waiting w.past) :
    Told ground { w.note deed with items := items } where
  subject := told.subject
  mutable := told.mutable
  lawful := lawful
  items := same
  state := told.state.trans state.symm
  count := told.count.trans (congrArg List.length calls.symm)
  pair n p found := by
    rw [show ({ w.note deed with items := items } : Walk α).past = deed :: w.past from rfl, firsts n]
    exact told.pair n p found
  scheduled := told.scheduled.trans waits.symm

theorem note (told : Told ground w) {deed : WalkDeed α} (lawful : Lawful ground (deed :: w.past))
    (items : itemsAfter ground (deed :: w.past) = itemsAfter ground w.past)
    (state : stateAfter (deed :: w.past) = stateAfter w.past)
    (calls : callsOf (deed :: w.past) = callsOf w.past)
    (firsts : ∀ n, firstUse? n (deed :: w.past) = firstUse? n w.past)
    (waits : waiting (deed :: w.past) = waiting w.past) : Told ground (w.note deed) :=
  told.noteItems lawful (told.items.trans items.symm) state calls firsts waits

theorem note_turn (told : Told ground w) (calm : Calm w.past) : Told ground (w.note .turn) :=
  told.note (calm.lawful told.lawful calm.fits) rfl rfl rfl (fun _ => rfl) rfl

theorem note_leave (told : Told ground w) (calm : Calm w.past) (failure : Option Failure) :
    Told ground (w.note (.leave failure)) :=
  told.note (calm.lawful told.lawful calm.fits) rfl rfl rfl (fun _ => rfl) rfl

theorem note_stale (told : Told ground w) (calm : Calm w.past) {u : WalkUse α} {pair : Nat}
    (own : u.pair? = some pair) (stale : fresh w.past pair = false) : Told ground (w.note (.use u)) := by
  have firsts : ∀ n, firstUse? n (.use u :: w.past) = firstUse? n w.past := by
    apply firstUse?_use_of_not_fresh
    intro other same
    rw [own] at same
    rw [← Option.some.inj same, stale]
  have lawful : Lawful ground (.use u :: w.past) := calm.lawful told.lawful calm.fits
  cases u with
  | advance other =>
    have same : other = pair := Option.some.inj own
    subst same
    exact told.note lawful rfl rfl rfl firsts (by simp [waiting, stale])
  | abort other reason => exact told.note lawful rfl rfl rfl firsts rfl
  | abortWith other failure => exact told.note lawful rfl rfl rfl firsts rfl
  | append item => cases own
  | pop => cases own
  | cancel => cases own

theorem take (told : Told ground w) (deed : WalkDeed α) (pair : Nat) :
    (fresh w.past pair = true ∧ (w.note deed).take pair =
      some (pair, { w.note deed with pairs := w.pairs.set pair ⟨pair, true⟩ })) ∨
    (fresh w.past pair = false ∧ (w.note deed).take pair = none) := by
  have same : (w.note deed).pairs = w.pairs := rfl
  unfold Walk.take
  rw [same]
  cases found : w.pairs[pair]? with
  | none =>
    have outside := List.getElem?_eq_none_iff.mp found
    rw [told.count] at outside
    exact .inr ⟨by simp [fresh, Nat.not_lt.mpr outside], rfl⟩
  | some p =>
    obtain ⟨index, used⟩ := told.pair pair p found
    have inside := (List.getElem?_eq_some_iff.mp found).1
    rw [told.count] at inside
    by_cases unused : p.used = true
    · have first : (firstUse? pair w.past).isNone = false := by
        rw [unused] at used
        rw [Option.isNone_eq_false_iff, ← used]
      exact .inr ⟨by simp [fresh, first], by simp [unused]⟩
    · have first : (firstUse? pair w.past).isNone = true := by
        rw [Bool.not_eq_true] at unused
        rw [unused] at used
        simpa using used.symm
      exact .inl ⟨by simp [fresh, first, inside], by simp [unused, index]⟩

theorem used (told : Told ground w) (calm : Calm w.past) {u : WalkUse α} {pair : Nat}
    (own : u.pair? = some pair) (unused : fresh w.past pair = true) :
    Told ground { w.note (.use u) with
      pairs := w.pairs.set pair ⟨pair, true⟩, scheduled := waiting (.use u :: w.past) } where
  subject := told.subject
  mutable := told.mutable
  lawful := calm.lawful told.lawful calm.fits
  items := by cases u <;> first | exact told.items | cases own
  state := told.state
  count := by simpa [Walk.note] using told.count
  pair n p found := by
    simp only [Walk.note] at found ⊢
    rw [List.getElem?_set] at found
    split at found
    · rename_i same
      subst same
      split at found
      · cases found
        exact ⟨rfl, by rw [firstUse?_use_fresh own unused]; rfl⟩
      · cases found
    · rename_i different
      rw [firstUse?_use_other own (Ne.symm different)]
      exact told.pair n p found
  scheduled := rfl

theorem settle (told : Told ground w) {state : WalkState α} (pending : w.state.settled = false)
    (cause : Cause ground w.past state) (due : ∀ other, Walk.owed w.past = some other → other = state) :
    Told ground (w.settle state) ∧ Calm (w.settle state).past := by
  have before : (stateAfter w.past).settled = false := by rw [← told.state, pending]
  have result : w.settle state = { w.note (.settle state) with state := state } := by
    simp [Walk.settle, pending]
  rw [result]
  refine ⟨⟨told.subject, told.mutable, ⟨told.lawful, ⟨before, cause⟩, ?_⟩, told.items, ?_, told.count,
    told.pair, told.scheduled⟩, calm_cons rfl (by simp)⟩
  · intro other owes
    rw [due other owes]
  · exact (stateAfter_settle before state).symm

/-- A failure settles a pending walk, unless it is the end-of-iteration signal. -/
theorem failWith (told : Told ground w) {failure : Failure} (fits : w.past ≠ [] ∧ ¬Midway w.past)
    (owes : Walk.owed w.past = if !w.state.settled && !isSignal failure then
      some (.failed (.raised failure)) else none) :
    Told ground (w.failWith failure).1 ∧ Calm (w.failWith failure).1.past := by
  unfold Walk.failWith
  by_cases closed : w.state.settled = true
  · simp only [closed, Bool.not_true, Bool.false_and, Bool.false_eq_true, if_false] at owes
    simpa only [closed, if_true] using ⟨told, ⟨fits.1, owes, fits.2⟩⟩
  · rw [Bool.not_eq_true] at closed
    by_cases signal : isSignal failure = true
    · simp only [closed, signal, Bool.not_true, Bool.and_false, Bool.false_eq_true, if_false] at owes
      simpa only [closed, signal, if_true, Bool.false_eq_true, if_false] using ⟨told, ⟨fits.1, owes, fits.2⟩⟩
    · simp only [closed, signal, Bool.not_false, Bool.and_self, if_true] at owes
      simp only [closed, signal, Bool.false_eq_true, if_false]
      refine told.settle closed (.inl owes) fun other due => ?_
      rw [owes] at due
      exact (Option.some.inj due).symm

theorem use_advance (told : Told ground w) (calm : Calm w.past) (pair : Nat) :
    Told ground (w.use (.advance pair)).1 ∧ Calm (w.use (.advance pair)).1.past := by
  simp only [Walk.use, perform, advance]
  rcases told.take (.use (.advance pair)) pair with ⟨unused, taken⟩ | ⟨stale, taken⟩
  · have used := told.used calm (show (WalkUse.advance pair).pair? = some pair from rfl) unused
    rw [waiting, if_pos unused, ← told.scheduled] at used
    rw [taken]
    exact ⟨used, calm_cons rfl (by simp)⟩
  · rw [taken]
    exact ⟨told.note_stale calm rfl stale, calm_cons rfl (by simp)⟩

theorem use_abort (told : Told ground w) (calm : Calm w.past) (pair : Nat) (reason : Option α) :
    Told ground (w.use (.abort pair reason)).1 ∧ Calm (w.use (.abort pair reason)).1.past := by
  simp only [Walk.use, perform, abort]
  rcases told.take (.use (.abort pair reason)) pair with ⟨unused, taken⟩ | ⟨stale, taken⟩
  · have used := told.used calm (show (WalkUse.abort pair reason).pair? = some pair from rfl) unused
    rw [show waiting (.use (.abort pair reason) :: w.past) = w.scheduled from told.scheduled.symm] at used
    rw [taken]
    by_cases closed : w.state.settled = true
    · have still : (w.note (.use (.abort pair reason))).state.settled = true := closed
      simp only [Walk.settle, still, if_true]
      exact ⟨used, calm_cons (by simp [owed, ← told.state, closed]) (by simp)⟩
    · rw [Bool.not_eq_true] at closed
      have owes : owed (.use (.abort pair reason) :: w.past) = some (.failed (.aborted reason)) := by
        simp [owed, ← told.state, closed, unused]
      refine used.settle closed (.inl owes) fun other due => ?_
      exact Option.some.inj (due.symm.trans owes)
  · rw [taken]
    exact ⟨told.note_stale calm rfl stale, calm_cons (by simp [owed, stale]) (by simp)⟩

theorem use_abortWith (told : Told ground w) (calm : Calm w.past) (pair : Nat) (failure : Failure) :
    Told ground (w.use (.abortWith pair failure)).1 ∧
      Calm (w.use (.abortWith pair failure)).1.past := by
  simp only [Walk.use, perform, abortWith]
  rcases told.take (.use (.abortWith pair failure)) pair with ⟨unused, taken⟩ | ⟨stale, taken⟩
  · have used := told.used calm (show (WalkUse.abortWith pair failure).pair? = some pair from rfl) unused
    rw [show waiting (.use (.abortWith pair failure) :: w.past) = w.scheduled from
      told.scheduled.symm] at used
    rw [taken]
    refine used.failWith ⟨List.cons_ne_nil _ _, not_midway (by simp)⟩ ?_
    simp [Walk.note, owed, ← told.state, unused]
  · rw [taken]
    exact ⟨told.note_stale calm rfl stale, calm_cons (by simp [owed, stale]) (by simp)⟩

theorem use_append (told : Told ground w) (calm : Calm w.past) (item : α) :
    Told ground (w.use (.append item)).1 ∧ Calm (w.use (.append item)).1.past := by
  have firsts : ∀ n, firstUse? n (.use (.append item) :: w.past) = firstUse? n w.past :=
    firstUse?_use_of_not_fresh (by simp [WalkUse.pair?])
  have lawful : Lawful ground (.use (.append item) :: w.past) := calm.lawful told.lawful calm.fits
  have kind : (w.note (.use (.append item))).mutable = ground.mutable := told.mutable
  simp only [Walk.use, perform, append]
  by_cases changes : (w.note (.use (.append item))).mutable = true
  · rw [if_pos changes]
    rw [kind] at changes
    refine ⟨told.noteItems lawful ?_ rfl rfl firsts rfl, calm_cons rfl (by simp)⟩
    simp [Walk.note, itemsAfter, changes, told.items]
  · rw [if_neg changes]
    rw [kind] at changes
    exact ⟨told.note lawful (by simp [itemsAfter, changes]) rfl rfl firsts rfl, calm_cons rfl (by simp)⟩

theorem use_pop (told : Told ground w) (calm : Calm w.past) :
    Told ground (w.use .pop).1 ∧ Calm (w.use .pop).1.past := by
  have firsts : ∀ n, firstUse? n (.use .pop :: w.past) = firstUse? n w.past :=
    firstUse?_use_of_not_fresh (by simp [WalkUse.pair?])
  have lawful : Lawful ground (.use .pop :: w.past) := calm.lawful told.lawful calm.fits
  have kind : (w.note (.use .pop)).mutable = ground.mutable := told.mutable
  simp only [Walk.use, perform, pop]
  by_cases changes : (w.note (.use .pop)).mutable = true
  · rw [if_pos changes]
    rw [kind] at changes
    by_cases empty : (w.note (.use .pop)).items.isEmpty = true
    · rw [if_pos empty]
      refine ⟨told.note lawful ?_ rfl rfl firsts rfl, calm_cons rfl (by simp)⟩
      have none_left : itemsAfter ground w.past = [] := told.items.symm.trans (List.isEmpty_iff.mp empty)
      simp [itemsAfter, changes, none_left]
    · rw [if_neg empty]
      refine ⟨told.noteItems lawful ?_ rfl rfl firsts rfl, calm_cons rfl (by simp)⟩
      simp [Walk.note, itemsAfter, changes, told.items]
  · rw [if_neg changes]
    rw [kind] at changes
    exact ⟨told.note lawful (by simp [itemsAfter, changes]) rfl rfl firsts rfl, calm_cons rfl (by simp)⟩

theorem use_cancel (told : Told ground w) (calm : Calm w.past) :
    Told ground (w.use .cancel).1 ∧ Calm (w.use .cancel).1.past := by
  have firsts : ∀ n, firstUse? n (.use .cancel :: w.past) = firstUse? n w.past :=
    firstUse?_use_of_not_fresh (by simp [WalkUse.pair?])
  have noted : Told ground (w.note (.use .cancel)) :=
    told.note (calm.lawful told.lawful calm.fits) rfl rfl rfl firsts rfl
  simp only [Walk.use, perform]
  by_cases closed : w.state.settled = true
  · rw [settle_of_settled (w.note (.use .cancel)) _ closed]
    exact ⟨noted, calm_cons rfl (by simp)⟩
  · rw [Bool.not_eq_true] at closed
    exact noted.settle closed (.inr (.inl ⟨rfl, rfl⟩)) (by simp [Walk.note, owed])

/-- Whatever anybody does, the walk stays what its past tells. -/
theorem use (told : Told ground w) (calm : Calm w.past) (u : WalkUse α) :
    Told ground (w.use u).1 ∧ Calm (w.use u).1.past := by
  cases u with
  | advance pair => exact told.use_advance calm pair
  | abort pair reason => exact told.use_abort calm pair reason
  | abortWith pair failure => exact told.use_abortWith calm pair failure
  | append item => exact told.use_append calm item
  | pop => exact told.use_pop calm
  | cancel => exact told.use_cancel calm

theorem move (told : Told ground w) (calm : Calm w.past) (m : WalkMove α) :
    Told ground (w.move m).1 ∧ Calm (w.move m).1.past := by
  cases m with
  | use u => exact told.use calm u
  | attempt u => exact told.use calm u
  | raise failure => exact ⟨told, calm⟩

theorem moves (list : List (WalkMove α)) (told : Told ground w) (calm : Calm w.past) :
    Told ground (Walk.moves list w).1 ∧ Calm (Walk.moves list w).1.past := by
  induction list generalizing w with
  | nil => exact ⟨told, calm⟩
  | cons first rest ih =>
    obtain ⟨toldNext, calmNext⟩ := told.move calm first
    simp only [Walk.moves]
    split
    · rename_i after result
      rw [result] at toldNext calmNext
      exact ih toldNext calmNext
    · rename_i after failure result
      rw [result] at toldNext calmNext
      exact ⟨toldNext, calmNext⟩

theorem handOut (told : Told ground w) {item : α} {index : Nat} (pending : w.state.settled = false)
    (head : w.past.head? = some (.reach index)) (found : w.items[index]? = some item) :
    Told ground (w.handOut item index) ∧ Calm (w.handOut item index).past := by
  have before : (stateAfter w.past).settled = false := by rw [← told.state, pending]
  obtain ⟨count, -, -⟩ := told.lawful.standing.reached index head
  obtain ⟨earlier, same⟩ := List.head?_eq_some_iff.mp head
  have quiet : owed w.past = none := by rw [same]; rfl
  refine ⟨⟨told.subject, told.mutable, ⟨told.lawful, ⟨before, head, ?_⟩, ?_⟩, told.items, told.state, ?_,
    ?_, told.scheduled⟩, calm_cons rfl (by simp)⟩
  · rw [← told.items, found]
  · intro state owes
    rw [quiet] at owes
    cases owes
  · simp [Walk.handOut, Walk.note, told.count]
  · intro n p known
    simp only [Walk.handOut, Walk.note] at known ⊢
    rw [List.getElem?_append] at known
    split at known
    · exact told.pair n p known
    · rename_i outside
      rw [List.getElem?_singleton] at known
      split at known
      · rename_i last
        cases known
        have equal : n = index := by rw [told.count] at *; omega
        refine ⟨equal.symm, ?_⟩
        cases used : firstUse? n w.past with
        | none => simp [firstUse?, used]
        | some first =>
          have known := lt_of_firstUse? used
          omega
      · cases known

theorem leave (told : Told ground w) (calm : Calm w.past) (failure : Option Failure) :
    Told ground (w.leave failure).1 ∧ Calm (w.leave failure).1.past := by
  have noted := told.note_leave calm failure
  cases failure with
  | none => exact ⟨noted, calm_cons rfl (by simp)⟩
  | some failure =>
    simp only [Walk.leave]
    by_cases error : failure.isError = true
    · rw [if_pos error]
      refine noted.failWith ⟨List.cons_ne_nil _ _, not_midway (by simp)⟩ ?_
      simp [Walk.note, owed, ← told.state, error]
    · rw [if_neg error]
      exact ⟨noted, calm_cons (by simp [owed, error]) (by simp)⟩

theorem run (step : WalkStep α) {index : Nat} (told : Told ground (w.note (.reach index))) :
    Told ground (w.run step index).1 ∧ Calm (w.run step index).1.past := by
  simp only [Walk.run]
  by_cases closed : (w.note (.reach index)).state.settled = true
  · rw [if_pos closed]
    refine ⟨told, List.cons_ne_nil _ _, rfl, ?_⟩
    rintro ⟨open_, -⟩
    rw [← told.state, closed] at open_
    cases open_
  · rw [if_neg closed]
    rw [Bool.not_eq_true] at closed
    cases found : (w.note (.reach index)).items[index]? with
    | none =>
      have outside := List.getElem?_eq_none_iff.mp found
      rw [told.items] at outside
      refine told.settle closed (.inr (.inr ⟨by rw [told.subject], index, rfl, outside⟩)) ?_
      simp [Walk.note, owed]
    | some item =>
      obtain ⟨handed, calm⟩ := told.handOut closed rfl found
      obtain ⟨moved, calmMoved⟩ := handed.moves (step (w.note (.reach index)).pairs.length) calm
      exact moved.leave calmMoved _

/-- One turn of the loop: at most one index waits, and the walk goes on there. -/
theorem turn (step : WalkStep α) (told : Told ground w) (calm : Calm w.past) :
    Told ground (w.turn step) ∧ Calm (w.turn step).past := by
  have noted := told.note_turn calm
  unfold Walk.turn
  rcases told.lawful.standing.single with empty | ⟨last, -, one, -⟩
  · rw [← told.scheduled] at empty
    have same : ({ w.note .turn with scheduled := [] } : Walk α) = w.note .turn := by
      simp [Walk.note, empty]
    rw [empty, List.foldl_nil, same]
    exact ⟨noted, calm_cons rfl (by simp)⟩
  · have waits := told.scheduled.trans one
    rw [waits, List.foldl_cons, List.foldl_nil]
    apply Told.run
    exact ⟨noted.subject, noted.mutable, ⟨noted.lawful, .inr ⟨w.past, rfl, one⟩, by simp [owed, Walk.note]⟩,
      noted.items, noted.state, noted.count, noted.pair,
      by simp only [Walk.note, waiting, one, List.tail_cons]⟩

theorem handle (step : WalkStep α) (told : Told ground w) (calm : Calm w.past) (event : WalkEvent α) :
    Told ground (w.handle step event).1 ∧ Calm (w.handle step event).1.past := by
  cases event with
  | turn => exact told.turn step calm
  | use u => exact told.use calm u

theorem follow (step : WalkStep α) (events : List (WalkEvent α)) (told : Told ground w)
    (calm : Calm w.past) : Told ground (w.follow step events) ∧ Calm (w.follow step events).past := by
  induction events generalizing w with
  | nil => exact ⟨told, calm⟩
  | cons event events ih =>
    obtain ⟨toldNext, calmNext⟩ := told.handle step calm event
    exact ih toldNext calmNext

end Told

theorem told_start (step : WalkStep α) (ground : WalkGround α) :
    Told ground (start step ground.subject ground.items ground.mutable).1 ∧
      Calm (start step ground.subject ground.items ground.mutable).1.past := by
  apply Told.run
  exact ⟨rfl, rfl, ⟨trivial, .inl ⟨rfl, rfl⟩, by simp [owed]⟩, rfl, rfl, rfl, by simp [note], rfl⟩

/-- Whatever happens to a walk from its start, it is what its lawful past tells. -/
theorem told_run (step : WalkStep α) (ground : WalkGround α) (events : List (WalkEvent α)) :
    Told ground ((start step ground.subject ground.items ground.mutable).1.follow step events) ∧
      Calm ((start step ground.subject ground.items ground.mutable).1.follow step events).past :=
  (told_start step ground).1.follow step events (told_start step ground).2

end TaskBoard.Walk
