import TaskBoard.Proofs.Acting

/-!
What holds when an action has ended, also if it has failed: one condition on its result, one on its
failure, and the world that it ends in as part of both.
-/

namespace TaskBoard.Act

variable {σ α β : Type}

/-- Whatever an action ends with from a world, a result or a failure, fits the world that it ends in. -/
structure Ends (act : Act σ α) (w : World σ) (fit : α → World σ → Prop) (fails : Failure → World σ → Prop) :
    Prop where
  returned : ∀ a after, act.run w = (.ok a, after) → fit a after
  failed : ∀ failure after, act.run w = (.error failure, after) → fails failure after

namespace Ends

variable {act : Act σ α} {w : World σ} {fit : α → World σ → Prop} {fails : Failure → World σ → Prop}

theorem of_ok {a : α} {after : World σ} (ran : act.run w = (.ok a, after)) (fits : fit a after) :
    Ends act w fit fails where
  returned a' after' same := by
    rw [ran] at same
    cases same
    exact fits
  failed failure after' same := by
    rw [ran] at same
    cases same

theorem of_error {failure : Failure} {after : World σ} (ran : act.run w = (.error failure, after))
    (fits : fails failure after) : Ends act w fit fails where
  returned a after' same := by
    rw [ran] at same
    cases same
  failed failure' after' same := by
    rw [ran] at same
    cases same
    exact fits

theorem pure {a : α} (fits : fit a w) : Ends (pure a) w fit fails := of_ok (run_pure w a) fits

theorem of_run {other : Act σ α} (same : act.run w = other.run w) (ends : Ends other w fit fails) :
    Ends act w fit fails :=
  ⟨fun a after ran => ends.returned a after (same ▸ ran), fun failure after ran => ends.failed failure after (same ▸ ran)⟩

theorem ofExcept (result : Except Failure α) :
    Ends (ofExcept result) w (fun _ after => after = w) fun _ after => after = w where
  returned _ _ ran := (Prod.mk.inj ran).2.symm
  failed _ _ ran := (Prod.mk.inj ran).2.symm

theorem mono {more : α → World σ → Prop} {worse : Failure → World σ → Prop} (ends : Ends act w fit fails)
    (fits : ∀ a after, fit a after → more a after)
    (unfits : ∀ failure after, fails failure after → worse failure after) :
    Ends act w more worse where
  returned a after ran := fits a after (ends.returned a after ran)
  failed failure after ran := unfits failure after (ends.failed failure after ran)

theorem bind {next : α → Act σ β} {fits : β → World σ → Prop} (first : Ends act w fit fails)
    (rest : ∀ a after, fit a after → Ends (next a) after fits fails) : Ends (act >>= next) w fits fails := by
  rcases ran : act.run w with ⟨failure | a, mid⟩
  · exact of_error (run_bind_error ran) (first.failed failure mid ran)
  · have later := rest a mid (first.returned a mid ran)
    have run : (act >>= next).run w = (next a).run mid := run_bind_ok ran
    exact ⟨fun b after same => later.returned b after (run ▸ same),
      fun failure after same => later.failed failure after (run ▸ same)⟩

/-- What comes after an action whose run is known. -/
theorem run_bind {next : α → Act σ β} {fits : β → World σ → Prop} {a : α} {mid : World σ}
    (ran : act.run w = (.ok a, mid)) (rest : Ends (next a) mid fits fails) : Ends (act >>= next) w fits fails := by
  have first : Ends act w (fun a' after => a' = a ∧ after = mid) fails := of_ok ran ⟨rfl, rfl⟩
  apply first.bind
  rintro _ _ ⟨rfl, rfl⟩
  exact rest

theorem logWords_bind {severity : Severity} {words : Heap → Except Failure String} {next : PUnit → Act σ β}
    {fits : β → World σ → Prop} (rest : ∀ log, Ends (next ⟨⟩) { w with log } fits fails) :
    Ends (logWords severity words >>= next) w fits fails := by
  obtain ⟨log, told⟩ := run_logWords severity words w
  exact run_bind told (rest log)

theorem yields (ends : Ends act w fit fun _ _ => False) : Yields act w fit := by
  rcases ran : act.run w with ⟨failure | a, after⟩
  · exact absurd (ends.failed failure after ran) id
  · exact .intro ran (ends.returned a after ran)

theorem of_yields (yields : Yields act w fit) : Ends act w fit fails := by
  obtain ⟨a, after, ran, fits⟩ := yields
  exact of_ok ran fits

/-- An action ends with what it ends with. -/
theorem ran (act : Act σ α) (w : World σ) :
    Ends act w (fun a after => act.run w = (.ok a, after)) (fun failure after => act.run w = (.error failure, after)) :=
  ⟨fun _ _ ran => ran, fun _ _ ran => ran⟩

theorem both {more : α → World σ → Prop} {worse : Failure → World σ → Prop} (first : Ends act w fit fails)
    (second : Ends act w more worse) :
    Ends act w (fun a after => fit a after ∧ more a after)
      (fun failure after => fails failure after ∧ worse failure after) where
  returned a after ran := ⟨first.returned a after ran, second.returned a after ran⟩
  failed failure after ran := ⟨first.failed failure after ran, second.failed failure after ran⟩

/-- What an action keeps holds of the world that it ends in, whatever it ends with. -/
theorem keeps {R : World σ → World σ → Prop} (ends : Ends act w fit fails) (kept : Keeps R act) :
    Ends act w (fun a after => fit a after ∧ R w after) (fun failure after => fails failure after ∧ R w after) where
  returned a after ran := ⟨ends.returned a after ran, by simpa [ran] using kept w⟩
  failed failure after ran := ⟨ends.failed failure after ran, by simpa [ran] using kept w⟩

end Ends

end TaskBoard.Act
