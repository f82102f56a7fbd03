import TaskBoard.Proofs.Walk.Growth
import TaskBoard.Proofs.Walk.Keeping

/-!
The order of a walk, over everything that can happen to it. The calls come in order, each with the item
that then stands at its index; a call after the first comes with a turn of the loop, after the pair before
it was first used and advanced; at most one index waits at any time; a settled walk calls nothing and keeps
its outcome; and it resolves with what is walked, where no item is left and every pair has advanced.
-/

namespace TaskBoard

/-- What a walk over a value is started on; only lists and tuples are walked. -/
def WalkGround.ofValue? (h : Heap) : Value → Option (WalkGround Value)
  | .list cell => some ⟨.list cell, h.listAt cell, true⟩
  | .tuple items => some ⟨.tuple items, items, false⟩
  | _ => none

namespace Walk

variable {α : Type} {w : Walk α}

/-- The order of a past. Each clause is about a deed and what came `earlier` and `later`. -/
structure Orderly (ground : WalkGround α) (past : List (WalkDeed α)) : Prop where
  /-- A call has its own number as index and gets the item that then stands there. -/
  call : ∀ later earlier item index, past = later ++ .call item index :: earlier →
    index = (callsOf earlier).length ∧ (itemsAfter ground earlier)[index]? = some item
  /-- A call after the first comes with a turn, before which the last pair was first used to advance. -/
  turn : ∀ later earlier item n, past = later ++ .call item (n + 1) :: earlier →
    ∃ before, earlier = .reach (n + 1) :: .turn :: before ∧ firstUse? n before = some (.advance n)
  single : ∀ later earlier, past = later ++ earlier → (waiting earlier).length ≤ 1
  closed : ∀ later earlier state, past = later ++ .settle state :: earlier →
    ∀ deed ∈ later, deed.call? = none ∧ ∀ other, deed ≠ .settle other
  resolved : ∀ later earlier value, past = later ++ .settle (.resolved value) :: earlier →
    value = ground.subject ∧ ∃ index before, earlier = .reach index :: before ∧
      (itemsAfter ground before).length ≤ index ∧ index = (callsOf before).length ∧
      ∀ n < index, firstUse? n before = some (.advance n)

theorem Standing.length_waiting {past : List (WalkDeed α)} (standing : Standing past) :
    (waiting past).length ≤ 1 := by
  rcases standing.single with empty | ⟨last, -, one, -⟩
  · simp [empty]
  · simp [one]

theorem Cause.reached {ground : WalkGround α} {past : List (WalkDeed α)} {value : α}
    (cause : Cause ground past (.resolved value)) : value = ground.subject ∧
      ∃ index, past.head? = some (.reach index) ∧ (itemsAfter ground past).length ≤ index := by
  rcases cause with owes | ⟨impossible, -⟩ | ⟨same, reached⟩
  · unfold owed at owes
    split at owes <;> first | (split at owes <;> cases owes) | cases owes
  · cases impossible
  · cases same
    exact ⟨rfl, reached⟩

theorem Lawful.orderly {ground : WalkGround α} {past : List (WalkDeed α)}
    (lawful : Lawful ground past) : Orderly ground past where
  call := by
    rintro later earlier item index rfl
    obtain ⟨-, head, found⟩ := lawful.fits
    exact ⟨(lawful.earlier.1.standing.reached index head).1, found⟩
  turn := by
    rintro later earlier item n rfl
    obtain ⟨-, head, -⟩ := lawful.fits
    obtain ⟨rest, rfl⟩ := List.head?_eq_some_iff.mp head
    rcases lawful.earlier.1.2.1 with ⟨-, impossible⟩ | ⟨before, rfl, one⟩
    · omega
    · refine ⟨before, rfl, ?_⟩
      rcases lawful.earlier.1.1.1.standing.single with empty | ⟨last, -, only, found⟩
      · rw [one] at empty
        cases empty
      · rw [one] at only
        have same : n = last := by simpa using only
        rw [same, found]
  single := by
    rintro later earlier rfl
    exact lawful.earlier.standing.length_waiting
  closed := by
    rintro later earlier state rfl
    have settled : (stateAfter (.settle state :: earlier)).settled = true := by
      rw [stateAfter_settle lawful.fits.1]
      exact lawful.fits.2.settled
    exact (lawful.closed settled).2
  resolved := by
    rintro later earlier value rfl
    obtain ⟨same, index, head, outside⟩ := lawful.fits.2.reached
    obtain ⟨before, rfl⟩ := List.head?_eq_some_iff.mp head
    obtain ⟨count, -, advanced⟩ := lawful.earlier.1.standing.reached index rfl
    exact ⟨same, index, before, rfl, outside, count, advanced⟩

/-- A value that cannot be walked: no event calls the step or changes the failure. -/
theorem follow_refused (step : WalkStep α) (subject : α) (events : List (WalkEvent α)) :
    ((refused subject).follow step events).calls = [] ∧
      ((refused subject).follow step events).state = .failed .notSequence := by
  have keep : ∀ (events : List (WalkEvent α)) (past : List (WalkDeed α)), callsOf past = [] →
      ∃ later, callsOf later = [] ∧
        ({ refused subject with past := past } : Walk α).follow step events =
          { refused subject with past := later } := by
    intro events
    induction events with
    | nil => exact fun past silent => ⟨past, silent, rfl⟩
    | cons event events ih =>
      intro past silent
      cases event with
      | turn => exact ih (.turn :: past) silent
      | use u =>
        have noted : (({ refused subject with past := past } : Walk α).use u).1 =
            { refused subject with past := .use u :: past } := by cases u <;> rfl
        obtain ⟨later, quiet, same⟩ := ih (.use u :: past) silent
        refine ⟨later, quiet, ?_⟩
        rw [← same, ← noted]
        rfl
  obtain ⟨later, silent, same⟩ := keep events [] rfl
  rw [show refused subject = { refused subject with past := [] } from rfl, same]
  exact ⟨silent, rfl⟩

theorem begin_of_ground {h : Heap} {subject : Value} {ground : WalkGround Value} (step : WalkStep Value)
    (found : WalkGround.ofValue? h subject = some ground) : ground.subject = subject ∧
      begin step h subject = start step ground.subject ground.items ground.mutable := by
  unfold WalkGround.ofValue? at found
  split at found <;> cases found <;> exact ⟨rfl, rfl⟩

theorem begin_of_no_ground {h : Heap} {subject : Value} (step : WalkStep Value)
    (found : WalkGround.ofValue? h subject = none) : begin step h subject = (refused subject, none) := by
  cases subject <;> first | rfl | cases found

/-- Whatever its step does and whatever happens between the calls, a walk over a list or a tuple keeps the
order, and once it is settled it calls nothing more and keeps its outcome. A walk over anything else fails
at once and calls nothing. -/
theorem begin_orderly (step : WalkStep Value) (h : Heap) (subject : Value)
    (events : List (WalkEvent Value)) :
    let w := (begin step h subject).1.follow step events
    match WalkGround.ofValue? h subject with
    | none => w.calls = [] ∧ w.state = .failed .notSequence
    | some ground =>
      ground.subject = subject ∧ Orderly ground w.past ∧ w.items = itemsAfter ground w.past ∧
        w.state = stateAfter w.past ∧ w.scheduled = waiting w.past ∧
        ∀ more, w.past <:+ (w.follow step more).past ∧ (w.state.settled = true →
          (w.follow step more).state = w.state ∧ (w.follow step more).calls = w.calls) := by
  intro w
  cases found : WalkGround.ofValue? h subject with
  | none =>
    simp only [w, begin_of_no_ground step found]
    exact follow_refused step subject events
  | some ground =>
    obtain ⟨same, started⟩ := begin_of_ground step found
    have told := (told_run step ground events).1
    rw [← started] at told
    refine ⟨same, told.lawful.orderly, told.items, told.state, told.scheduled, fun more => ?_⟩
    have grown := w.grows_follow step more
    refine ⟨grown, fun settled => ?_⟩
    have toldMore := (told_run step ground (events ++ more)).1
    have joined : (start step ground.subject ground.items ground.mutable).1.follow step (events ++ more) =
        w.follow step more := by
      simp only [w, started, follow, List.foldl_append]
    rw [joined] at toldMore
    obtain ⟨later, split⟩ := grown
    have lawful := toldMore.lawful
    rw [← split] at lawful
    rw [told.state] at settled
    obtain ⟨stays, quiet⟩ := lawful.closed settled
    refine ⟨by rw [toldMore.state, ← split, stays, told.state], ?_⟩
    simp only [calls, ← split]
    exact callsOf_append_silent w.past fun deed member => (quiet deed member).1

end Walk

end TaskBoard
