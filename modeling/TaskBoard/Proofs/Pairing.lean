import TaskBoard.Proofs.Visiting

/-!
Two runs abreast. Each starts in a world of its own; either both return, and what they return and the worlds that they
end in fit together, or both fail alike. Two walks over mappings of one size go abreast if their visits do, also when
the mappings change meanwhile.
-/

namespace TaskBoard

open Act

variable {σ α β γ δ : Type}

/-- Two actions from two worlds both return, or both fail with the same failure. -/
inductive Act.Abreast (act : Act σ α) (other : Act σ β) (w v : World σ)
    (fit : α → World σ → β → World σ → Prop) (fails : World σ → World σ → Prop) : Prop where
  | returned {a : α} {b : β} {after late : World σ} (first : act.run w = (.ok a, after))
    (second : other.run v = (.ok b, late)) (fits : fit a after b late) : Abreast act other w v fit fails
  | failed {failure : Failure} {after late : World σ} (first : act.run w = (.error failure, after))
    (second : other.run v = (.error failure, late)) (unfits : fails after late) : Abreast act other w v fit fails

namespace Act.Abreast

variable {act : Act σ α} {other : Act σ β} {w v : World σ} {fit : α → World σ → β → World σ → Prop}
  {fails : World σ → World σ → Prop} {next : α → Act σ γ} {further : β → Act σ δ}
  {fits : γ → World σ → δ → World σ → Prop}

theorem pure {a : α} {b : β} (fits : fit a w b v) : Abreast (pure a) (pure b) w v fit fails :=
  .returned (run_pure w a) (run_pure v b) fits

theorem bind (both : Abreast act other w v fit fails)
    (rest : ∀ a after b late, fit a after b late → Abreast (next a) (further b) after late fits fails) :
    Abreast (act >>= next) (other >>= further) w v fits fails := by
  cases both with
  | failed first second unfits => exact .failed (run_bind_error first) (run_bind_error second) unfits
  | returned first second fitting =>
    cases rest _ _ _ _ fitting with
    | returned third fourth fits =>
      exact .returned ((run_bind_ok first).trans third) ((run_bind_ok second).trans fourth) fits
    | failed third fourth unfits =>
      exact .failed ((run_bind_ok first).trans third) ((run_bind_ok second).trans fourth) unfits

/-- What comes after two actions whose runs are known. -/
theorem run_bind {a : α} {b : β} {after late : World σ} (first : act.run w = (.ok a, after))
    (second : other.run v = (.ok b, late)) (rest : Abreast (next a) (further b) after late fits fails) :
    Abreast (act >>= next) (other >>= further) w v fits fails := by
  have both : Abreast act other w v (fun a' after' b' late' => a' = a ∧ after' = after ∧ b' = b ∧ late' = late) fails :=
    .returned first second ⟨rfl, rfl, rfl, rfl⟩
  apply both.bind
  rintro _ _ _ _ ⟨rfl, rfl, rfl, rfl⟩
  exact rest

/-- Two actions go abreast if what is known of their ends cannot set them apart. -/
theorem of_ends {seen : α → World σ → Prop} {reseen : β → World σ → Prop} {left right : Failure → World σ → Prop}
    (first : Ends act w seen left) (second : Ends other v reseen right)
    (returned : ∀ a after b late, seen a after → reseen b late → fit a after b late)
    (failed : ∀ failure after trouble late, left failure after → right trouble late →
      trouble = failure ∧ fails after late)
    (apart : ∀ a after trouble late, seen a after → ¬right trouble late)
    (asunder : ∀ failure after b late, left failure after → ¬reseen b late) : Abreast act other w v fit fails := by
  rcases ran : act.run w with ⟨failure | a, after⟩ <;> rcases passed : other.run v with ⟨trouble | b, late⟩
  · obtain ⟨rfl, unfits⟩ :=
      failed failure after trouble late (first.failed failure after ran) (second.failed trouble late passed)
    exact .failed ran passed unfits
  · exact absurd (second.returned b late passed) (asunder failure after b late (first.failed failure after ran))
  · exact absurd (second.failed trouble late passed) (apart a after trouble late (first.returned a after ran))
  · exact .returned ran passed (returned a after b late (first.returned a after ran) (second.returned b late passed))

end Act.Abreast

namespace Board

variable {content : Act σ Mapping} {visit : Value → Value → Act σ (List α)}
  {stays : List α → World σ → List α → World σ → Prop} {fails : World σ → World σ → Prop}

/-- What a walk reads is of one size in two worlds, and visits of the entries in one place go abreast. -/
structure Paired (content : Act σ Mapping) (visit : Value → Value → Act σ (List α))
    (stays : List α → World σ → List α → World σ → Prop) (fails : World σ → World σ → Prop) : Prop where
  reads : ∀ found w others v, stays found w others v → ∃ m n : Mapping,
    content.run w = (.ok m, w) ∧ content.run v = (.ok n, v) ∧ n.size = m.size ∧
      ∀ (i : Nat) (entry again : Value × Value), m.entries[i]? = some entry → n.entries[i]? = some again →
        Abreast (visit entry.1 entry.2) (visit again.1 again.2) w v
          (fun more after rest late => stays (found ++ more) after (others ++ rest) late) fails
  changed : ∀ found w others v, stays found w others v → fails w v

theorem abreast_walk (paired : Paired content visit stays fails) (size left : Nat)
    {found others : List α} {w v : World σ} (holds : stays found w others v) :
    Abreast (walk content size visit left) (walk content size visit left) w v
      (fun more after rest late => stays (found ++ more) after (others ++ rest) late) fails := by
  induction left generalizing found others w v with
  | zero =>
    obtain ⟨m, n, read, reread, same, -⟩ := paired.reads found w others v holds
    by_cases differs : m.size ≠ size
    · exact .failed (run_walk_changed read differs 0) (run_walk_changed reread (same ▸ differs) 0)
        (paired.changed found w others v holds)
    unfold walk
    apply Abreast.run_bind read reread
    rw [same, if_neg differs]
    refine .pure ?_
    rwa [List.append_nil, List.append_nil]
  | succ left ih =>
    obtain ⟨m, n, read, reread, same, visits⟩ := paired.reads found w others v holds
    by_cases differs : m.size ≠ size
    · exact .failed (run_walk_changed read differs _) (run_walk_changed reread (same ▸ differs) _)
        (paired.changed found w others v holds)
    unfold walk
    apply Abreast.run_bind read reread
    rw [same, if_neg differs, if_neg differs]
    cases here : m.entries[size - (left + 1)]? with
    | none =>
      have there : n.entries[size - (left + 1)]? = none := by
        rw [List.getElem?_eq_none_iff] at here ⊢
        exact le_of_eq_of_le same here
      rw [there]
      refine .pure ?_
      rwa [List.append_nil, List.append_nil]
    | some entry =>
      have within : size - (left + 1) < n.entries.length := by
        obtain ⟨below, -⟩ := List.getElem?_eq_some_iff.mp here
        exact lt_of_lt_of_eq below same.symm
      rw [List.getElem?_eq_getElem within]
      apply (visits _ entry _ here (List.getElem?_eq_getElem within)).bind
      intro more after rest late still
      apply (ih still).bind
      intro found' after' others' late' last
      refine .pure ?_
      rwa [← List.append_assoc, ← List.append_assoc]

theorem abreast_walkAll (paired : Paired content visit stays fails) {w v : World σ} (holds : stays [] w [] v) :
    Abreast (walkAll content visit) (walkAll content visit) w v stays fails := by
  obtain ⟨m, n, read, reread, same, -⟩ := paired.reads [] w [] v holds
  unfold walkAll
  apply Abreast.run_bind read reread
  rw [same]
  exact abreast_walk paired m.size m.size holds

end Board

end TaskBoard
