import TaskBoard.Walk

/-! The past of a walk only grows: whatever happens is added to what has happened. -/

namespace TaskBoard.Walk

variable {α : Type} {w : Walk α}

theorem grows_note (w : Walk α) (deed : WalkDeed α) : w.past <:+ (w.note deed).past :=
  List.suffix_cons deed w.past

theorem grows_settle (w : Walk α) (state : WalkState α) : w.past <:+ (w.settle state).past := by
  unfold settle
  split
  · exact List.suffix_refl _
  · exact w.grows_note _

theorem grows_failWith (w : Walk α) (failure : Failure) : w.past <:+ (w.failWith failure).1.past := by
  unfold failWith
  split
  · exact List.suffix_refl _
  · split
    · exact List.suffix_refl _
    · exact w.grows_settle _

theorem past_take {pair index : Nat} {taken : Walk α} (found : w.take pair = some (index, taken)) :
    taken.past = w.past := by
  unfold take at found
  split at found
  · split at found
    · cases found
    · cases found
      rfl
  · cases found

theorem grows_take {pair index : Nat} {taken : Walk α} (found : w.take pair = some (index, taken)) :
    w.past <:+ taken.past := by
  have same := past_take found
  exact same ▸ List.suffix_refl _

theorem grows_perform (w : Walk α) (u : WalkUse α) : w.past <:+ (w.perform u).1.past := by
  cases u with
  | advance pair =>
    simp only [perform, advance]
    split
    · rename_i found
      have grown := grows_take found
      exact grown
    · exact List.suffix_refl _
  | abort pair reason =>
    simp only [perform, abort]
    split
    · rename_i found
      exact (grows_take found).trans (grows_settle _ _)
    · exact List.suffix_refl _
  | abortWith pair failure =>
    simp only [perform, abortWith]
    split
    · rename_i found
      exact (grows_take found).trans (grows_failWith _ _)
    · exact List.suffix_refl _
  | append item =>
    simp only [perform, append]
    split <;> exact List.suffix_refl _
  | pop =>
    simp only [perform, pop]
    split
    · split <;> exact List.suffix_refl _
    · exact List.suffix_refl _
  | cancel => exact w.grows_settle _

theorem grows_use (w : Walk α) (u : WalkUse α) : w.past <:+ (w.use u).1.past :=
  (w.grows_note _).trans (grows_perform _ u)

theorem grows_moves (list : List (WalkMove α)) (w : Walk α) : w.past <:+ (moves list w).1.past := by
  induction list generalizing w with
  | nil => exact List.suffix_refl _
  | cons first rest ih =>
    have next : w.past <:+ (w.move first).1.past := by
      cases first with
      | use u => exact w.grows_use u
      | attempt u => exact w.grows_use u
      | raise failure => exact List.suffix_refl _
    simp only [moves]
    split
    · rename_i result
      rw [result] at next
      exact next.trans (ih _)
    · rename_i result
      rw [result] at next
      exact next

theorem grows_leave (w : Walk α) (failure : Option Failure) : w.past <:+ (w.leave failure).1.past := by
  cases failure with
  | none => exact w.grows_note _
  | some failure =>
    simp only [leave]
    split
    · exact (w.grows_note _).trans (grows_failWith _ failure)
    · exact w.grows_note _

theorem grows_call (step : WalkStep α) (w : Walk α) (item : α) (index : Nat) :
    w.past <:+ (w.call step item index).1.past := by
  have handed : w.past <:+ (w.handOut item index).past := w.grows_note _
  exact handed.trans ((grows_moves (step w.pairs.length) _).trans (grows_leave _ _))

theorem grows_run (step : WalkStep α) (w : Walk α) (index : Nat) :
    w.past <:+ (w.run step index).1.past := by
  simp only [run]
  split
  · exact w.grows_note _
  · split
    · exact (w.grows_note _).trans (grows_settle _ _)
    · exact (w.grows_note _).trans (grows_call step _ _ index)

theorem grows_turn (step : WalkStep α) (w : Walk α) : w.past <:+ (w.turn step).past := by
  have runs : ∀ (list : List Nat) (v : Walk α),
      v.past <:+ (list.foldl (fun v index => (v.run step index).1) v).past := by
    intro list
    induction list with
    | nil => exact fun v => List.suffix_refl _
    | cons index list ih => exact fun v => (v.grows_run step index).trans (ih _)
  exact (w.grows_note .turn).trans (runs w.scheduled { w.note .turn with scheduled := [] })

theorem grows_follow (step : WalkStep α) (w : Walk α) (events : List (WalkEvent α)) :
    w.past <:+ (w.follow step events).past := by
  induction events generalizing w with
  | nil => exact List.suffix_refl _
  | cons event events ih =>
    have next : w.past <:+ (w.handle step event).1.past := by
      cases event with
      | turn => exact w.grows_turn step
      | use u => exact w.grows_use u
    exact next.trans (ih _)

end TaskBoard.Walk
