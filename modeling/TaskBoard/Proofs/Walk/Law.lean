import Mathlib.Tactic.ByContra
import TaskBoard.Proofs.Walk.Past

/-!
The law of a walk: which deed may follow which past. A past that obeys it has its calls in order, every
pair before the last one was first used to advance, and at most one index waits for a turn.
-/

namespace TaskBoard.Walk

variable {α : Type} {ground : WalkGround α}

/-- A pending walk has just gone on and has to call its step or to end. -/
def Midway (past : List (WalkDeed α)) : Prop :=
  (stateAfter past).settled = false ∧ ∃ index, past.head? = some (.reach index)

/-- What a walk may be settled with: what it owes, by its future being cancelled, or with the very thing
that is walked when no item is left. -/
def Cause (ground : WalkGround α) (past : List (WalkDeed α)) (state : WalkState α) : Prop :=
  owed past = some state ∨
  (state = .cancelled ∧ past.head? = some (.use .cancel)) ∨
  (state = .resolved ground.subject ∧
    ∃ index, past.head? = some (.reach index) ∧ (itemsAfter ground past).length ≤ index)

/-- Whether a deed may follow a past. -/
def Fits (ground : WalkGround α) (past : List (WalkDeed α)) : WalkDeed α → Prop
  | .reach index =>
    (past = [] ∧ index = 0) ∨ ∃ before, past = .turn :: before ∧ waiting before = [index]
  | .call item index =>
    (stateAfter past).settled = false ∧ past.head? = some (.reach index) ∧
      (itemsAfter ground past)[index]? = some item
  | .settle state => (stateAfter past).settled = false ∧ Cause ground past state
  | .turn | .leave _ | .use _ => past ≠ [] ∧ ¬Midway past

/-- Every deed fits what came before it, and what is owed is done at once. -/
def Lawful (ground : WalkGround α) : List (WalkDeed α) → Prop
  | [] => True
  | deed :: past =>
    Lawful ground past ∧ Fits ground past deed ∧
      ∀ state, owed past = some state → deed = .settle state

theorem Lawful.earlier {later earlier : List (WalkDeed α)}
    (lawful : Lawful ground (later ++ earlier)) : Lawful ground earlier := by
  induction later with
  | nil => exact lawful
  | cons deed later ih => exact ih lawful.1

theorem Lawful.fits {later earlier : List (WalkDeed α)} {deed : WalkDeed α}
    (lawful : Lawful ground (later ++ deed :: earlier)) : Fits ground earlier deed :=
  lawful.earlier.2.1

/-- What is owed is the next deed. -/
theorem Lawful.pays {later earlier : List (WalkDeed α)} {state : WalkState α}
    (lawful : Lawful ground (later ++ earlier)) (owes : owed earlier = some state) :
    later = [] ∨ ∃ rest, later = rest ++ [.settle state] := by
  rcases List.eq_nil_or_concat later with rfl | ⟨rest, deed, rfl⟩
  · exact .inl rfl
  · right
    rw [List.concat_eq_append, List.append_assoc] at lawful
    have next := lawful.earlier.2.2 state owes
    rw [List.concat_eq_append]
    exact ⟨rest, by rw [next]⟩

theorem settled_of_owed {past : List (WalkDeed α)} {state : WalkState α}
    (owes : owed past = some state) : state.settled = true := by
  unfold owed at owes
  split at owes
  · split at owes
    · cases owes
      rfl
    · cases owes
  · split at owes
    · cases owes
      rfl
    · cases owes
  · split at owes
    · cases owes
      rfl
    · cases owes
  · cases owes

theorem Cause.settled {past : List (WalkDeed α)} {state : WalkState α}
    (cause : Cause ground past state) : state.settled = true := by
  rcases cause with owes | ⟨rfl, -⟩ | ⟨rfl, -⟩
  · exact settled_of_owed owes
  · rfl
  · rfl

/-- How the calls, the pairs and the waiting indices of a past stand. -/
structure Standing (past : List (WalkDeed α)) : Prop where
  indices : (callsOf past).map (·.2) = List.range (callsOf past).length
  advanced : ∀ n, n + 1 < (callsOf past).length → firstUse? n past = some (.advance n)
  single : waiting past = [] ∨ ∃ last, (callsOf past).length = last + 1 ∧
    waiting past = [last + 1] ∧ firstUse? last past = some (.advance last)
  /-- The walk goes on where its calls end, after all pairs have advanced. -/
  reached : ∀ index, past.head? = some (.reach index) → index = (callsOf past).length ∧
    waiting past = [] ∧ ∀ n < index, firstUse? n past = some (.advance n)

namespace Standing

variable {past : List (WalkDeed α)}

theorem keep (standing : Standing past) {deed : WalkDeed α} (silent : callsOf (deed :: past) = callsOf past)
    (same : waiting (deed :: past) = waiting past) (still : ∀ index, deed ≠ .reach index) :
    Standing (deed :: past) where
  indices := by rw [silent, standing.indices]
  advanced n known := by
    rw [silent] at known
    exact firstUse?_cons (standing.advanced n known) deed
  single := by
    rw [silent, same]
    rcases standing.single with empty | ⟨last, count, one, found⟩
    · exact .inl empty
    · exact .inr ⟨last, count, one, firstUse?_cons found deed⟩
  reached index head := absurd (Option.some.inj head) (still index)

theorem last_of_fresh (standing : Standing past) {pair : Nat} (unused : fresh past pair = true) :
    (callsOf past).length = pair + 1 ∧ waiting past = [] := by
  rw [fresh_iff] at unused
  obtain ⟨known, absent⟩ := unused
  have last : (callsOf past).length = pair + 1 := by
    by_contra more
    have advanced := standing.advanced pair (by omega)
    rw [absent] at advanced
    cases advanced
  refine ⟨last, ?_⟩
  rcases standing.single with empty | ⟨other, count, -, found⟩
  · exact empty
  · have same : other = pair := by omega
    rw [same, absent] at found
    cases found

theorem use (standing : Standing past) (u : WalkUse α) : Standing (.use u :: past) := by
  cases u with
  | advance pair =>
    by_cases unused : fresh past pair = true
    · obtain ⟨last, empty⟩ := standing.last_of_fresh unused
      refine ⟨standing.indices, fun n known => firstUse?_cons (standing.advanced n known) _,
        .inr ⟨pair, last, ?_, firstUse?_use_fresh rfl unused⟩, by simp⟩
      simp [waiting, unused, empty]
    · exact standing.keep rfl (by simp [waiting, unused]) (by simp)
  | abort pair reason => exact standing.keep rfl rfl (by simp)
  | abortWith pair failure => exact standing.keep rfl rfl (by simp)
  | append item => exact standing.keep rfl rfl (by simp)
  | pop => exact standing.keep rfl rfl (by simp)
  | cancel => exact standing.keep rfl rfl (by simp)

theorem reach (standing : Standing past) {index : Nat} (fits : Fits ground past (.reach index)) :
    Standing (.reach index :: past) := by
  have goal : index = (callsOf past).length ∧ (waiting past).tail = [] ∧
      ∀ n < index, firstUse? n past = some (.advance n) := by
    rcases fits with ⟨rfl, rfl⟩ | ⟨before, rfl, one⟩
    · simp [waiting]
    · have stays : waiting (.turn :: before) = [index] := one
      rcases standing.single with empty | ⟨last, count, only, found⟩
      · rw [stays] at empty
        cases empty
      · rw [stays] at only
        have same : index = last + 1 := by simpa using only
        refine ⟨by omega, by simp [stays], fun n below => ?_⟩
        rcases Nat.lt_or_ge (n + 1) (callsOf (.turn :: before)).length with inner | outer
        · exact standing.advanced n inner
        · have equal : n = last := by omega
          rw [equal, found]
  obtain ⟨count, empty, advanced⟩ := goal
  refine ⟨standing.indices, fun n known => firstUse?_cons (standing.advanced n known) _, .inl empty, ?_⟩
  intro other head
  have same : index = other := by simpa using head
  subst same
  exact ⟨count, empty, fun n below => firstUse?_cons (advanced n below) _⟩

theorem call (standing : Standing past) {item : α} {index : Nat} (head : past.head? = some (.reach index)) :
    Standing (.call item index :: past) := by
  obtain ⟨count, empty, advanced⟩ := standing.reached index head
  refine ⟨?_, fun n known => ?_, .inl empty, by simp⟩
  · simp [standing.indices, count, List.range_succ]
  · simp only [callsOf_call, List.length_append, List.length_singleton] at known
    exact firstUse?_cons (advanced n (by omega)) _

end Standing

/-- The law keeps the calls in order, has every pair but the last advance, and lets one index wait. -/
theorem Lawful.standing {past : List (WalkDeed α)} (lawful : Lawful ground past) : Standing past := by
  induction past with
  | nil => exact ⟨rfl, by simp, .inl rfl, by simp⟩
  | cons deed past ih =>
    obtain ⟨before, fits, -⟩ := lawful
    have standing := ih before
    cases deed with
    | turn => exact standing.keep rfl rfl (by simp)
    | leave failure => exact standing.keep rfl rfl (by simp)
    | settle state => exact standing.keep rfl rfl (by simp)
    | use u => exact standing.use u
    | reach index => exact standing.reach fits
    | call item index => exact standing.call fits.2.1

/-- After a walk was settled it calls nothing and is not settled again. -/
theorem Lawful.closed {later earlier : List (WalkDeed α)} (lawful : Lawful ground (later ++ earlier))
    (closed : (stateAfter earlier).settled = true) :
    stateAfter (later ++ earlier) = stateAfter earlier ∧
      ∀ deed ∈ later, deed.call? = none ∧ ∀ state, deed ≠ .settle state := by
  induction later with
  | nil => simp
  | cons deed later ih =>
    obtain ⟨before, fits, -⟩ := lawful
    obtain ⟨same, quiet⟩ := ih before
    have stays : (stateAfter (later ++ earlier)).settled = true := by rw [same, closed]
    cases deed with
    | call item index => exact absurd fits.1 (by simp [stays])
    | settle state => exact absurd fits.1 (by simp [stays])
    | turn => exact ⟨same, by simpa [WalkDeed.call?] using quiet⟩
    | reach index => exact ⟨same, by simpa [WalkDeed.call?] using quiet⟩
    | leave failure => exact ⟨same, by simpa [WalkDeed.call?] using quiet⟩
    | use u => exact ⟨same, by simpa [WalkDeed.call?] using quiet⟩

end TaskBoard.Walk
