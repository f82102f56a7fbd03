import TaskBoard.Board.Collect
import TaskBoard.Proofs.Ending

/-!
Walks over mappings that may change meanwhile. As long as the mapping stays as it is, a walk visits its entries
one by one, in their order, and ends where a visit fails or after the last of them.
-/

namespace TaskBoard.Board

open Act World

variable {σ α : Type} {content : Act σ Mapping} {m : Mapping} {visit : Value → Value → Act σ (List α)}
  {stays : List (Value × Value) → List α → World σ → Prop} {fails : Failure → World σ → Prop}

theorem ends_walk (reads : ∀ done found w, stays done found w → content.run w = (.ok m, w))
    (visits : ∀ done entry rest found w, m.entries = done ++ entry :: rest → stays done found w →
      Ends (visit entry.1 entry.2) w (fun more after => stays (done ++ [entry]) (found ++ more) after) fails)
    {done rest : List (Value × Value)} {found : List α} {w : World σ} (cut : m.entries = done ++ rest)
    (holds : stays done found w) :
    Ends (walk content m.size visit rest.length) w (fun others after => stays m.entries (found ++ others) after)
      fails := by
  induction rest generalizing done found w with
  | nil =>
    unfold walk
    apply Ends.run_bind (reads done found w holds)
    rw [if_neg fun differs => differs rfl]
    refine .pure ?_
    rw [cut, List.append_nil, List.append_nil]
    exact holds
  | cons entry rest ih =>
    have size : m.size - (rest.length + 1) = done.length := by
      rw [Mapping.size, cut, List.length_append, List.length_cons]
      omega
    have next : m.entries[done.length]? = some entry := by
      rw [cut]
      simp
    rw [List.length_cons]
    unfold walk
    apply Ends.run_bind (reads done found w holds)
    rw [if_neg fun differs => differs rfl, size, next]
    apply (visits done entry rest found w cut holds).bind
    intro more mid still
    apply (ih (by rw [cut, List.append_assoc]; rfl) still).bind
    intro others after last
    refine .pure ?_
    rwa [← List.append_assoc]

theorem ends_walkAll (stays : List (Value × Value) → List α → World σ → Prop)
    (reads : ∀ done found w, stays done found w → content.run w = (.ok m, w))
    (visits : ∀ done entry rest found w, m.entries = done ++ entry :: rest → stays done found w →
      Ends (visit entry.1 entry.2) w (fun more after => stays (done ++ [entry]) (found ++ more) after) fails)
    {w : World σ} (holds : stays [] [] w) :
    Ends (walkAll content visit) w (fun found after => stays m.entries found after) fails := by
  unfold walkAll
  apply Ends.run_bind (reads [] [] w holds)
  exact ends_walk reads visits (List.nil_append _).symm holds

/-- A walk over entries that are more or fewer than at its start fails, whether entries are left or not. -/
theorem run_walk_changed {w : World σ} (reads : content.run w = (.ok m, w)) {size : Nat} (differs : m.size ≠ size)
    (left : Nat) : (walk content size visit left).run w = (.error .changedDuringWalk, w) := by
  cases left <;>
  · unfold walk
    rw [run_bind_ok reads, if_pos differs]
    exact run_bind_error (run_throw w _)

end TaskBoard.Board
