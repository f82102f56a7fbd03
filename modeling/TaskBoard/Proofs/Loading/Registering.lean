import TaskBoard.Proofs.Collecting.Holding
import TaskBoard.Proofs.Loading.Entering

/-!
Registering bundles. A bundle without an initializer only adds its entries to the registries, in their order,
whatever else there is in the world; so registering two bundles one after the other comes to the same registries
as registering both at once.
-/

namespace TaskBoard

open Act World

variable {σ : Type}

namespace Registry

/-- The registries with the entries of a bundle, each where it belongs. -/
def extend (r : Registry) (entries : List (Value × Value)) : Registry :=
  entries.foldl (fun r entry => r.put (RegistryKind.ofEntry entry.1 entry.2) entry.1 entry.2) r

theorem extend_append (r : Registry) (first second : List (Value × Value)) :
    r.extend (first ++ second) = (r.extend first).extend second := by
  unfold extend
  exact List.foldl_append

theorem mem_mapping_put {r : Registry} {kind place : RegistryKind} {name value : Value} {entry : Value × Value}
    (member : entry ∈ ((r.put place name value).mapping kind).entries) :
    entry ∈ (r.mapping kind).entries ∨ entry.2 = value := by
  by_cases same : place = kind
  · subst same
    rw [mapping_put_self] at member
    exact Mapping.mem_write member
  · rw [mapping_put_other r name value same] at member
    exact .inl member

theorem mem_mapping_extend {r : Registry} {kind : RegistryKind} {entry : Value × Value}
    {entries : List (Value × Value)} (member : entry ∈ ((r.extend entries).mapping kind).entries) :
    entry ∈ (r.mapping kind).entries ∨ entry.2 ∈ entries.map (·.2) := by
  induction entries generalizing r with
  | nil => exact .inl member
  | cons first rest ih =>
    rcases ih member with before | later
    · rcases mem_mapping_put before with earlier | same
      · exact .inl earlier
      · exact .inr (by simp [same])
    · exact .inr (List.mem_cons_of_mem _ later)

end Registry

namespace World

/-- The world in which some entries are registered at a board. -/
def enter (w : World σ) (b : Nat) (entries : List (Value × Value)) : World σ :=
  w.setBoard b { w.board b with registry := (w.board b).registry.extend entries }

/-- The world in which a bundle is registered at a board. -/
def loaded (w : World σ) (b cell : Nat) : World σ := w.enter b (w.heap.mapAt cell).entries

theorem board_enter {w : World σ} {b : Nat} (known : b < w.boards.size) (entries : List (Value × Value)) :
    (w.enter b entries).board b = { w.board b with registry := (w.board b).registry.extend entries } :=
  board_setBoard_self _ known

@[simp] theorem size_boards_enter (w : World σ) (b : Nat) (entries : List (Value × Value)) :
    (w.enter b entries).boards.size = w.boards.size := Array.size_setIfInBounds

@[simp] theorem size_boards_loaded (w : World σ) (b cell : Nat) : (w.loaded b cell).boards.size = w.boards.size :=
  size_boards_enter w b _

theorem enter_enter {w : World σ} {b : Nat} (known : b < w.boards.size) (first second : List (Value × Value)) :
    (w.enter b first).enter b second = w.enter b (first ++ second) := by
  unfold enter
  rw [board_setBoard_self _ known, Registry.extend_append]
  simp [World.setBoard]

theorem enter_nil (w : World σ) (b : Nat) : w.enter b [] = w := setBoard_board w b

end World

namespace Board

variable {code : UserCode σ} {b : Nat} {receiver : Option Nat} {w : World σ}

theorem ends_registerEntry {source name v : Value} (plain : name.sameKey (.text "init") = false) :
    Ends (registerEntry code b source name v) w
      (fun _ after => ∃ log, after = { w.enter b [(name, v)] with log }) (fun _ _ => True) := by
  have place : RegistryKind.ofEntry name v ≠ .init := by
    unfold RegistryKind.ofEntry
    rw [plain]
    by_cases callable : v.isCallable = true <;> simp [callable]
  unfold registerEntry
  apply Ends.run_bind (run_get w)
  dsimp only
  rw [if_neg place]
  apply Ends.logWords_bind
  intro log
  rw [if_neg place]
  obtain ⟨lines, -, ran⟩ := run_enter b (RegistryKind.ofEntry name v) name v { w with log }
  exact .of_ok ran ⟨_, rfl⟩

theorem ends_registerEntries {source : Value} (known : b < w.boards.size) {entries : List (Value × Value)}
    (plain : ∀ entry ∈ entries, entry.1.sameKey (.text "init") = false) :
    Ends (entries.forM fun entry => registerEntry code b source entry.1 entry.2) w
      (fun _ after => ∃ log, after = { w.enter b entries with log }) (fun _ _ => True) := by
  induction entries generalizing w with
  | nil => exact .of_ok (run_pure w _) ⟨w.log, by rw [enter_nil]⟩
  | cons entry rest ih =>
    -- the log is the one thing that depends on how the entries are put in
    refine Ends.bind (ends_registerEntry (plain entry List.mem_cons_self)) ?_
    rintro _ _ ⟨log, rfl⟩
    have further : b < ({ w.enter b [entry] with log } : World σ).boards.size := by
      simpa [World.enter, World.setBoard] using known
    apply (ih further fun other member => plain other (List.mem_cons_of_mem _ member)).mono
    · rintro _ _ ⟨last, rfl⟩
      have joined := enter_enter known [entry] rest
      exact ⟨last, congrArg (fun after : World σ => { after with log := last }) joined⟩
    · exact fun _ _ _ => trivial

theorem ends_load {cell : Nat} (known : b < w.boards.size)
    (plain : ∀ entry ∈ (w.heap.mapAt cell).entries, entry.1.sameKey (.text "init") = false) :
    Ends (load code b (.map cell) receiver) w
      (fun _ after => ∃ log gs, (collect code b receiver).run { w.loaded b cell with log } = (.ok gs, after))
      (fun _ _ => True) := by
  let begun : World σ := { w with log := w.log.push ⟨.info, "Importing task...", none⟩ }
  have read : (entriesOf (.map cell)).run begun = (.ok (w.heap.mapAt cell).entries, begun) := rfl
  have registers : Ends (registerBundle code b (.map cell) .nothing) begun
      (fun _ after => ∃ log, after = { w.loaded b cell with log }) (fun _ _ => True) := by
    unfold registerBundle
    have here : b < begun.boards.size := known
    apply Ends.run_bind read
    exact ends_registerEntries here plain
  have entered : Ends (registerTasks code b (.map cell)) w (fun _ after => ∃ log, after = { w.loaded b cell with log })
      (fun _ _ => True) := by
    unfold registerTasks
    dsimp only
    apply Ends.run_bind (run_modify w _)
    refine Ends.bind registers ?_
    rintro _ _ ⟨log, rfl⟩
    exact .of_ok (run_modify _ _) ⟨_, rfl⟩
  apply Ends.bind entered
  rintro _ _ ⟨log, rfl⟩
  rcases ran : (collect code b receiver).run { w.loaded b cell with log } with ⟨failure | gs, after⟩
  · exact .of_error (run_bind_error ran) trivial
  · exact .of_ok (run_bind_ok ran) ⟨log, gs, ran⟩

end Board

end TaskBoard
