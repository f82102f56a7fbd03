import TaskBoard.Proofs.Walk.Order

/-!
How a walk fails. A failure that its step raises and what the first use of a pair aborts with settle a
pending walk at once, with the one exception of the end-of-iteration signal, which a walk refuses. A pending
walk can go on, because an index waits or its last pair is unused, unless that pair was used up by aborting
with the signal.
-/

namespace TaskBoard.Walk

variable {α : Type} {ground : WalkGround α} {past : List (WalkDeed α)}

/-- A pending walk that has begun has called its step. -/
theorem Lawful.called (lawful : Lawful ground past) (begun : past ≠ []) (still : ¬Midway past)
    (pending : (stateAfter past).settled = false) : callsOf past ≠ [] := by
  induction past with
  | nil => exact absurd rfl begun
  | cons deed past ih =>
    obtain ⟨before, fits, -⟩ := lawful
    cases deed with
    | turn => exact ih before fits.1 fits.2 pending
    | leave failure => exact ih before fits.1 fits.2 pending
    | use u => exact ih before fits.1 fits.2 pending
    | call item index => simp
    | reach index => exact absurd ⟨pending, index, rfl⟩ still
    | settle state =>
      rw [stateAfter_settle fits.1, fits.2.settled] at pending
      cases pending

/-- Somebody can move the walk on: an index waits, or the last pair is unused. -/
def Movable (past : List (WalkDeed α)) (last : Nat) : Prop :=
  waiting past ≠ [] ∨ firstUse? last past = none

/-- The last pair was used up by aborting with the end-of-iteration signal. -/
def Lost (past : List (WalkDeed α)) (last : Nat) : Prop :=
  ∃ failure, isSignal failure = true ∧ firstUse? last past = some (.abortWith last failure)

/-- A use that owes nothing leaves a pending walk movable or lost. -/
theorem movable_or_lost_use {last : Nat} (count : (callsOf past).length = last + 1)
    (pending : (stateAfter past).settled = false) (u : WalkUse α) (paid : owed (.use u :: past) = none)
    (before : Movable past last ∨ Lost past last) :
    Movable (.use u :: past) last ∨ Lost (.use u :: past) last := by
  rcases before with (waits | unused) | ⟨failure, signal, first⟩
  · refine .inl (.inl ?_)
    cases u <;> simp only [waiting, ne_eq, waits, not_false_eq_true]
    split <;> simp [waits]
  · have unusedBefore : fresh past last = true := (fresh_iff past last).mpr ⟨by omega, unused⟩
    by_cases own : u.pair? = some last
    · have first := firstUse?_use_fresh own unusedBefore
      cases u with
      | advance pair =>
        cases own
        exact .inl (.inl (by simp [waiting, unusedBefore]))
      | abort pair reason =>
        cases own
        simp [owed, pending, unusedBefore] at paid
      | abortWith pair failure =>
        cases own
        refine .inr ⟨failure, ?_, first⟩
        simpa [owed, pending, unusedBefore] using paid
      | append item => cases own
      | pop => cases own
      | cancel => cases own
    · refine .inl (.inr ?_)
      simp only [firstUse?, unused, own, false_and, if_false]
  · exact .inr ⟨failure, signal, firstUse?_cons first _⟩

/-- A pending walk to which nothing has to happen at once is movable or lost. -/
theorem Lawful.movable_or_lost (lawful : Lawful ground past) (calm : Calm past)
    (pending : (stateAfter past).settled = false) {last : Nat}
    (count : (callsOf past).length = last + 1) : Movable past last ∨ Lost past last := by
  induction past generalizing last with
  | nil => simp at count
  | cons deed past ih =>
    obtain ⟨before, fits, paid⟩ := lawful
    have earlier : (∀ state, deed ≠ .settle state) → owed past = none := by
      intro other
      cases owes : owed past with
      | none => rfl
      | some state => exact absurd (paid state owes) (other state)
    cases deed with
    | turn => exact ih before ⟨fits.1, earlier (by simp), fits.2⟩ pending count
    | leave failure => exact ih before ⟨fits.1, earlier (by simp), fits.2⟩ pending count
    | reach index => exact absurd ⟨pending, index, rfl⟩ calm.midway
    | settle state =>
      rw [stateAfter_settle fits.1, fits.2.settled] at pending
      cases pending
    | call item index =>
      simp only [callsOf_call, List.length_append, List.length_singleton] at count
      refine .inl (.inr ?_)
      cases used : firstUse? last past with
      | none => exact used
      | some first =>
        have known := lt_of_firstUse? used
        omega
    | use u =>
      have calmBefore : Calm past := ⟨fits.1, earlier (by simp), fits.2⟩
      have countBefore : (callsOf past).length = last + 1 := count
      have pendingBefore : (stateAfter past).settled = false := pending
      exact movable_or_lost_use countBefore pendingBefore u calm.owed
        (ih before calmBefore pendingBefore countBefore)

/-- A walk that is lost is not movable. -/
theorem Lawful.not_movable_of_lost (lawful : Lawful ground past) {last : Nat}
    (count : (callsOf past).length = last + 1) (lost : Lost past last) : ¬Movable past last := by
  obtain ⟨failure, -, first⟩ := lost
  rintro (waits | unused)
  · rcases lawful.standing.single with empty | ⟨other, countOther, -, found⟩
    · exact waits empty
    · have same : other = last := by omega
      rw [same, first] at found
      cases found
  · rw [first] at unused
    cases unused

/-- An index waits, or the last pair that was handed out is unused. -/
theorem Told.movable_iff {w : Walk α} (told : Told ground w) {last : Nat}
    (count : (callsOf w.past).length = last + 1) :
    (w.scheduled.length = 1 ∨ ∃ pair, w.pairs.getLast? = some pair ∧ pair.used = false) ↔
      Movable w.past last := by
  have known : last < w.pairs.length := by
    rw [told.count]
    omega
  obtain ⟨-, used⟩ := told.pair last w.pairs[last] (List.getElem?_eq_getElem known)
  have found : w.pairs.getLast? = some w.pairs[last] := by
    rw [List.getLast?_eq_getElem?, told.count, count, Nat.add_sub_cancel, List.getElem?_eq_getElem known]
  rw [found, told.scheduled]
  unfold Movable
  constructor
  · rintro (one | ⟨pair, same, unused⟩)
    · refine .inl fun empty => ?_
      rw [empty] at one
      cases one
    · cases same
      rw [unused] at used
      exact .inr (Option.isNone_iff_eq_none.mp (by simpa using used.symm))
  · rintro (waits | unused)
    · left
      have bound := told.lawful.standing.length_waiting
      have positive := List.length_pos_iff.mpr waits
      omega
    · exact .inr ⟨w.pairs[last], rfl, by rw [used, unused]; rfl⟩

/-- A walk is settled as failed next exactly if it owes that. -/
theorem Lawful.fails_next_iff {later earlier : List (WalkDeed α)}
    (lawful : Lawful ground (later ++ earlier)) (calm : Calm (later ++ earlier)) (fault : WalkFault α) :
    (∃ rest, later = rest ++ [.settle (.failed fault)]) ↔ owed earlier = some (.failed fault) := by
  constructor
  · rintro ⟨rest, rfl⟩
    rw [List.append_assoc] at lawful
    rcases lawful.fits.2 with owes | ⟨impossible, -⟩ | ⟨impossible, -⟩
    · exact owes
    · cases impossible
    · cases impossible
  · intro owes
    rcases lawful.pays owes with rfl | rest
    · have paid : owed earlier = none := calm.owed
      rw [owes] at paid
      cases paid
    · exact rest

/-- How a walk over a list or a tuple fails, over everything that can happen to it: an error that the step
raises in a pending walk, and what the first use of a pair aborts a pending walk with, settle it at once,
except the end-of-iteration signal, which never does; and a pending walk has an index that waits or an
unused last pair, except when that pair was used up by aborting with the signal. -/
theorem begin_fails_unless_signal (step : WalkStep Value) (h : Heap) (subject : Value)
    (events : List (WalkEvent Value)) (walked : (WalkGround.ofValue? h subject).isSome = true) :
    let w := (begin step h subject).1.follow step events
    (∀ later earlier failure, w.past = later ++ .leave (some failure) :: earlier →
      failure.isError = true → stateAfter earlier = .pending →
        ((∃ rest, later = rest ++ [.settle (.failed (.raised failure))]) ↔
          isSignal failure = false)) ∧
    (∀ later earlier pair failure, w.past = later ++ .use (.abortWith pair failure) :: earlier →
      fresh earlier pair = true → stateAfter earlier = .pending →
        ((∃ rest, later = rest ++ [.settle (.failed (.raised failure))]) ↔
          isSignal failure = false)) ∧
    (∀ later earlier pair reason, w.past = later ++ .use (.abort pair reason) :: earlier →
      fresh earlier pair = true → stateAfter earlier = .pending →
        ∃ rest, later = rest ++ [.settle (.failed (.aborted reason))]) ∧
    (w.state = .pending →
      ((w.scheduled.length = 1 ∨ ∃ pair, w.pairs.getLast? = some pair ∧ pair.used = false) ↔
        ¬∃ failure, isSignal failure = true ∧
          firstUse? (w.calls.length - 1) w.past =
            some (.abortWith (w.calls.length - 1) failure))) := by
  intro w
  obtain ⟨ground, found⟩ := Option.isSome_iff_exists.mp walked
  have run := told_run step ground events
  rw [← (begin_of_ground step found).2] at run
  obtain ⟨told, calm⟩ := run
  have along : ∀ {later earlier : List (WalkDeed Value)}, w.past = later ++ earlier →
      Lawful ground (later ++ earlier) ∧ Calm (later ++ earlier) := by
    intro later earlier split
    rw [← split]
    exact ⟨told.lawful, calm⟩
  refine ⟨?_, ?_, ?_, ?_⟩
  · intro later earlier failure split error pending
    obtain ⟨lawful, calm⟩ := along split
    rw [lawful.fails_next_iff calm]
    simp [owed, pending, WalkState.settled, error]
  · intro later earlier pair failure split unused pending
    obtain ⟨lawful, calm⟩ := along split
    rw [lawful.fails_next_iff calm]
    simp [owed, pending, WalkState.settled, unused]
  · intro later earlier pair reason split unused pending
    obtain ⟨lawful, calm⟩ := along split
    rw [lawful.fails_next_iff calm]
    simp [owed, pending, WalkState.settled, unused]
  · intro pending
    have unsettled : (stateAfter w.past).settled = false := by
      rw [← told.state, show w.state = .pending from pending]
      rfl
    have lawful := told.lawful
    have called := lawful.called calm.begun calm.midway unsettled
    have count : (callsOf w.past).length = w.calls.length - 1 + 1 :=
      (Nat.sub_add_cancel (List.length_pos_iff.mpr called)).symm
    rw [told.movable_iff count]
    constructor
    · exact fun movable lost => lawful.not_movable_of_lost count lost movable
    · exact fun kept => (lawful.movable_or_lost calm unsettled count).resolve_right kept

/-- Aborting with the end-of-iteration signal between the calls strands a walk. -/
theorem signal_strands_walk :
    let w := (begin (fun _ => []) ⟨#[[.nothing]], #[], 0⟩ (.list 0)).1.follow (fun _ => [])
      [.use (.abortWith 0 (.raised "StopIteration" "stop"))]
    w.state = .pending ∧
      ¬(w.scheduled.length = 1 ∨ ∃ pair, w.pairs.getLast? = some pair ∧ pair.used = false) := by
  obtain ⟨-, -, -, moves⟩ := begin_fails_unless_signal (fun _ => []) ⟨#[[.nothing]], #[], 0⟩ (.list 0)
    [.use (.abortWith 0 (.raised "StopIteration" "stop"))] rfl
  have pending := Eq.refl (WalkState.pending (α := Value))
  refine ⟨pending, fun movable => (moves pending).mp movable ?_⟩
  exact ⟨.raised "StopIteration" "stop", rfl, rfl⟩

end TaskBoard.Walk
