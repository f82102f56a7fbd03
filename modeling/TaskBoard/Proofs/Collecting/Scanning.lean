import TaskBoard.Proofs.Collecting.Settling
import TaskBoard.Proofs.Scanning

/-!
The scan over the configurations, from its first declared group to its last or to the one that stops it. It comes
past the declared groups one by one, and what one visit preserves holds wherever the scan ends.
-/

namespace TaskBoard

open Act World

variable {σ : Type}

/-- The configurations of a board declare what they have declared at the start, whatever else was written into them. -/
structure World.Shows (b : Nat) (start w : World σ) : Prop where
  declared : ∀ config cell, start.Configures b cell →
    (w.heap.mapAt cell).entries.filterMap (start.heap.declaration? config) = start.heap.declaredIn (config, .map cell)
  entries : ∀ cell, start.Configures b cell → ∀ entry ∈ (w.heap.mapAt cell).entries,
    entry ∈ (start.heap.mapAt cell).entries ∨ entry.2.isMap = false

namespace Board

section Scanning

variable {s : Scope σ} {start first : World σ} {visit : Nat → Act σ Nat} {fails : Failure → World σ → Prop}
  (course : List Declaration → List Nat → World σ → Prop)

section Shown

variable (includes : Includes s start) (midway : ∀ ds gs w, course ds gs w → Midway s start w)
  (shows : ∀ ds gs w, course ds gs w → Shows s.board start w)
  (itself : ∀ cell, start.Configures s.board cell → start.Declares s.board cell → ∀ name,
    (name, Value.map cell) ∉ (start.heap.mapAt cell).entries)
  (visits : ∀ before d after gs w, start.declared s.board = before ++ d :: after → course before gs w →
    (Value.map d.cell).declaresGroup w.heap = true →
    Ends (visitEntry visit d.config d.group (.map d.cell)) w
      (fun found later => course (before ++ [d]) (gs ++ found) later ∧
        ∀ cell, start.Configures s.board cell → cell ≠ d.cell → later.heap.mapAt cell = w.heap.mapAt cell) fails)
include includes midway shows itself visits

theorem ends_content_shown {done rest : List (Value × Value)} {config : Value} {cell : Nat} {gs : List Nat} {w : World σ}
    (cut : (start.board s.board).registry.configs.entries = done ++ (config, .map cell) :: rest)
    (holds : course (done.flatMap start.heap.declaredIn) gs w) :
    Ends (walkAll (do return (← Act.heap).mapAt cell) fun group data => visitEntry visit config group data) w
      (fun found after => course (done.flatMap start.heap.declaredIn ++ start.heap.declaredIn (config, .map cell))
        (gs ++ found) after) fails := by
  have configures : start.Configures s.board cell := ⟨config, by rw [cut]; simp⟩
  have split : start.declared s.board = done.flatMap start.heap.declaredIn ++
      start.heap.declaredIn (config, .map cell) ++ rest.flatMap start.heap.declaredIn := by
    unfold World.declared
    rw [cut, List.flatMap_append, List.flatMap_cons, List.append_assoc]
  let content := w.heap.mapAt cell
  -- the walk of this configuration carries along that it stays as the walk has found it
  let inside := fun ds found (late : World σ) =>
    course (done.flatMap start.heap.declaredIn ++ ds) (gs ++ found) late ∧ late.heap.mapAt cell = content
  have declares : ∀ ds found late, inside ds found late → ∀ entry ∈ content.entries,
      entry.2.declaresGroup late.heap = entry.2.declaresGroup start.heap := by
    rintro ds found late ⟨holds', -⟩ ⟨name, v⟩ member
    rcases (shows _ _ w holds).entries cell configures _ member with old | plain
    · exact (midway _ _ late holds').declaresGroup includes configures old
    · cases v with
      | map own => cases plain
      | _ => rfl
  apply (ends_content inside _ ((shows _ _ w holds).declared config cell configures) declares _ _).mono
  · exact fun found after last => last.1
  · exact fun _ _ failed => failed
  · rintro before d after found late front ⟨holds', stays⟩ still
    have cut' : start.declared s.board = done.flatMap start.heap.declaredIn ++ before ++
        d :: (after ++ rest.flatMap start.heap.declaredIn) := by
      rw [split, front]
      simp
    have other : cell ≠ d.cell := by
      rintro rfl
      obtain ⟨cell, same, -, entry, -⟩ := mem_declaredIn (front ▸ List.mem_append_right _ List.mem_cons_self)
      cases same
      exact itself _ configures ⟨d, by rw [cut']; simp, rfl⟩ _ entry
    apply (visits _ d _ _ late cut' holds' still).mono
    · rintro more last ⟨reached, kept⟩
      refine ⟨?_, (kept cell configures other).trans stays⟩
      simpa only [List.append_assoc] using reached
    · exact fun _ _ failed => failed
  · exact fun _ _ _ course => course.2
  · exact ⟨by simpa using holds, rfl⟩

/-- A scan comes past all that is declared, in its order, until a visit fails. Configurations may be visited themselves
as groups, but not while they are walked. -/
theorem ends_eachGroup_shown (begins : course [] [] first) :
    Ends (eachGroup (do return (← Act.board s.board).registry.configs) visit) first
      (fun gs after => course (start.declared s.board) gs after) fails := by
  unfold eachGroup
  apply ends_walkAll fun done gs w => course (done.flatMap start.heap.declaredIn) gs w
  · intro done gs w holds
    apply (run_bind_ok (run_board w s.board)).trans
    rw [(midway _ _ w holds).board]
    rfl
  · rintro done ⟨config, data⟩ rest gs w cut holds
    rw [List.flatMap_append, List.flatMap_singleton]
    cases data with
    | map cell => exact ends_content_shown course includes midway shows itself visits cut holds
    | _ =>
      refine .pure ?_
      simpa [Heap.declaredIn] using holds
  · exact begins

end Shown

theorem ends_eachGroup (covers : Covers s start) (midway : ∀ ds gs w, course ds gs w → Midway s start w)
    (visits : ∀ before d after gs w, start.declared s.board = before ++ d :: after → course before gs w →
      (Value.map d.cell).declaresGroup w.heap = true →
      Ends (visitEntry visit d.config d.group (.map d.cell)) w
        (fun found later => course (before ++ [d]) (gs ++ found) later) fails)
    (begins : course [] [] first) :
    Ends (eachGroup (do return (← Act.board s.board).registry.configs) visit) first
      (fun gs after => course (start.declared s.board) gs after) fails := by
  have configs : ∀ ds gs w, course ds gs w → ∀ cell, start.Configures s.board cell →
      w.heap.mapAt cell = start.heap.mapAt cell := fun ds gs w holds cell configured =>
    (midway ds gs w holds).configs covers configured
  apply ends_eachGroup_shown course covers.toIncludes midway
  · intro ds gs w holds
    refine ⟨fun config cell configured => ?_, fun cell configured entry member => .inl ?_⟩
    · rw [configs ds gs w holds cell configured]
      rfl
    · rwa [configs ds gs w holds cell configured] at member
  · exact fun cell configured declares => absurd configured (covers.apart cell (covers.own cell declares))
  · intro before d after gs w cut holds declares
    apply (visits before d after gs w cut holds declares).mono
    · intro found later reached
      refine ⟨reached, fun cell configured _ => ?_⟩
      rw [configs _ _ later reached cell configured, configs _ _ w holds cell configured]
    · exact fun _ _ failed => failed
  · exact begins

end Scanning

end Board

end TaskBoard
