import TaskBoard.Proofs.Forwarding.Declared
import TaskBoard.Proofs.Visiting

/-!
The scan of one configuration. As long as a world reads the declared groups as they were at the start, the scan
comes past those of the configuration one by one, in their order, until a visit fails.
-/

namespace TaskBoard

open Act World

variable {σ : Type}

/-- What the configurations of a board hold, and which of it declares a group, is as it was at the start. -/
structure World.Legible (b : Nat) (start w : World σ) : Prop where
  configs : ∀ cell, start.Configures b cell → w.heap.mapAt cell = start.heap.mapAt cell
  declaresGroup : ∀ cell, start.Configures b cell → ∀ name data, (name, data) ∈ (start.heap.mapAt cell).entries →
    data.declaresGroup w.heap = data.declaresGroup start.heap

namespace Board

section Scanning

variable {b : Nat} {start : World σ} {config : Value} {cell : Nat} {visit : Nat → Act σ Nat}
  {fails : Failure → World σ → Prop} {w : World σ} {content : Mapping}
  (course : List Declaration → List Nat → World σ → Prop)
  (visits : ∀ before d after gs w, start.heap.declaredIn (config, .map cell) = before ++ d :: after →
    course before gs w → (Value.map d.cell).declaresGroup w.heap = true →
    Ends (visitEntry visit d.config d.group (.map d.cell)) w
      (fun found later => course (before ++ [d]) (gs ++ found) later) fails)
include visits

section Walking

variable (declared : content.entries.filterMap (start.heap.declaration? config) =
    start.heap.declaredIn (config, .map cell))
  (declares : ∀ ds gs w, course ds gs w → ∀ entry ∈ content.entries,
    entry.2.declaresGroup w.heap = entry.2.declaresGroup start.heap)
include declares

theorem ends_entry {entry : Value × Value} {ds more : List Declaration} {gs : List Nat}
    (stands : entry ∈ content.entries)
    (split : start.heap.declaredIn (config, .map cell) =
      ds ++ (start.heap.declaration? config entry).toList ++ more)
    (holds : course ds gs w) :
    Ends (visitEntry visit config entry.1 entry.2) w
      (fun found after => course (ds ++ (start.heap.declaration? config entry).toList) (gs ++ found) after) fails := by
  obtain ⟨group, data⟩ := entry
  have same : data.declaresGroup w.heap = data.declaresGroup start.heap := declares ds gs w holds (group, data) stands
  by_cases here : data.declaresGroup start.heap = true
  · cases data with
    | map own =>
      have found : start.heap.declaration? config (group, .map own) = some ⟨config, group, own⟩ := if_pos here
      rw [found, Option.toList_some] at split ⊢
      rw [List.append_assoc] at split
      exact visits ds ⟨config, group, own⟩ more gs w split holds (same.trans here)
    | _ => cases here
  · have silent : start.heap.declaration? config (group, data) = none := by
      cases data with
      | map own => exact if_neg here
      | _ => rfl
    have passed : data.declaresGroup w.heap = false := by
      rw [same]
      exact Bool.eq_false_iff.mpr here
    unfold visitEntry
    apply Ends.run_bind (run_heap w)
    dsimp only
    rw [passed, silent, Option.toList_none, List.append_nil]
    refine .pure ?_
    rwa [List.append_nil]

include declared in
theorem ends_content (reads : ∀ ds gs w, course ds gs w → w.heap.mapAt cell = content) (holds : course [] [] w) :
    Ends (walkAll (do return (← Act.heap).mapAt cell) fun group data => visitEntry visit config group data) w
      (fun found after => course (start.heap.declaredIn (config, .map cell)) found after) fails := by
  rw [← declared]
  apply ends_walkAll fun past found w => course (past.filterMap (start.heap.declaration? config)) found w
  · intro past found w further
    apply (run_bind_ok (run_heap w)).trans
    rw [reads _ _ w further]
    rfl
  · intro past entry rest found w order further
    have stands : entry ∈ content.entries := by
      rw [order]
      simp
    have inside : start.heap.declaredIn (config, .map cell) = past.filterMap (start.heap.declaration? config) ++
        (start.heap.declaration? config entry).toList ++ rest.filterMap (start.heap.declaration? config) := by
      rw [← declared, order, List.filterMap_append, List.append_assoc]
      cases found : start.heap.declaration? config entry <;> simp [found]
    apply (ends_entry course visits declares stands inside further).mono
    · intro others after last
      have filtered : (past ++ [entry]).filterMap (start.heap.declaration? config) =
          past.filterMap (start.heap.declaration? config) ++ (start.heap.declaration? config entry).toList := by
        rw [List.filterMap_append]
        cases found : start.heap.declaration? config entry <;> simp [found]
      rwa [filtered]
    · exact fun _ _ failed => failed
  · exact holds

end Walking

theorem ends_configuration (configured : (config, .map cell) ∈ (start.board b).registry.configs.entries)
    (legible : ∀ ds gs w, course ds gs w → Legible b start w) (holds : course [] [] w) :
    Ends (walkAll (do return (← Act.heap).mapAt cell) fun group data => visitEntry visit config group data) w
      (fun found after => course (start.heap.declaredIn (config, .map cell)) found after) fails := by
  have declares : ∀ ds gs w, course ds gs w → ∀ entry ∈ (start.heap.mapAt cell).entries,
      entry.2.declaresGroup w.heap = entry.2.declaresGroup start.heap := fun ds gs w course entry member =>
    (legible ds gs w course).declaresGroup cell ⟨config, configured⟩ entry.1 entry.2 member
  apply ends_content course visits rfl declares _ holds
  exact fun ds gs w course => (legible ds gs w course).configs cell ⟨config, configured⟩

end Scanning

end Board

end TaskBoard
