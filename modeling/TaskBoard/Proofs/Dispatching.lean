import TaskBoard.Board.Sources
import TaskBoard.Proofs.Acting

/-!
What the operations of a board do around the calls of user code: they read, make routines, change the
context for a call and log. A relation between worlds that user code keeps, and that all of this keeps, is
kept by everything that dispatches.
-/

namespace TaskBoard

open Act

variable {σ : Type} {code : UserCode σ} {R : World σ → World σ → Prop}

/-- A relation that is kept by user code and by what surrounds its calls. -/
structure Carries (code : UserCode σ) (R : World σ → World σ → Prop) : Prop where
  call : ∀ id args, Keeps R (code.call id args)
  routine : ∀ body, Keeps R (newRoutine body : Act σ Value)
  context : ∀ {α : Type} (current : Option Nat) {act : Act σ α}, Keeps R act → Keeps R (inContext current act)
  log : ∀ severity text, severity ≠ .error → Keeps R (log severity text : Act σ Unit)

namespace Board

variable [Std.Refl R] [IsTrans (World σ) R]

omit [IsTrans (World σ) R] in
theorem keeps_board (b : Nat) : Keeps R (Act.board b : Act σ Board) := fun w => refl_of R w

omit [IsTrans (World σ) R] in
theorem keeps_heap : Keeps R (heap : Act σ Heap) := fun w => refl_of R w

theorem keeps_elements (v : Value) : Keeps R (elements v : Act σ (List Value)) := by
  refine Keeps.bind Keeps.get fun w => ?_
  split
  · exact Keeps.pure _
  · exact Keeps.throw _

section Calls

variable (carries : Carries code R)
include carries

theorem keeps_callUser (id : Nat) (args : List Value) : Keeps R (callUser code id args) := by
  apply Keeps.bind (carries.call id args)
  intro reply
  cases reply with
  | value v => exact Keeps.pure v
  | routine => exact carries.routine _

theorem keeps_runHost (b : Nat) (name args callback : Value) :
    Keeps R (runHost code b name args callback) :=
  Keeps.bind (keeps_board b) fun _ => keeps_callUser carries _ _

theorem keeps_call (f : Value) (args : List Value) : Keeps R (call code f args) := by
  unfold call
  split
  · exact keeps_callUser carries _ _
  · exact keeps_runHost carries _ _ _ _
  · exact keeps_runHost carries _ _ _ _
  · exact Keeps.throw _

omit [IsTrans (World σ) R] in
theorem keeps_bind (b : Nat) (v : Value) : Keeps R (bind b v : Act σ Value) := by
  unfold bind
  split
  · exact carries.routine _
  · exact Keeps.pure _

theorem keeps_callBound (b : Nat) (f : Value) (args : List Value) :
    Keeps R (callBound code b f args) :=
  Keeps.bind (carries.context _ (keeps_call carries f args)) fun v => keeps_bind carries b v

theorem keeps_runDirect (b : Nat) (f args : Value) : Keeps R (runDirect code b f args) := by
  refine Keeps.bind (Keeps.bind keeps_heap fun h => ?_) fun args => keeps_callBound carries b f args
  split
  · exact keeps_elements args
  · exact Keeps.pure _

theorem keeps_runTask (b : Nat) (task args callback : Value) :
    Keeps R (runTask code b task args callback) := by
  unfold runTask
  split
  · exact keeps_runDirect carries _ _ _
  · exact Keeps.pure _
  · refine Keeps.bind (keeps_board b) fun board => ?_
    refine Keeps.bind (Keeps.ofExcept _) fun found => ?_
    split
    · split
      · exact keeps_runDirect carries _ _ _
      · exact keeps_runHost carries _ _ _ _
    · exact keeps_runHost carries _ _ _ _

theorem keeps_initOne (b : Nat) (name : String) : Keeps R (initOne code b name) := by
  refine Keeps.bind (keeps_board b) fun board => ?_
  split
  · split
    · exact Keeps.bind (keeps_callBound carries b _ _) fun _ => carries.log _ _ (by decide)
    · exact Keeps.pure _
  · exact Keeps.pure _

omit carries in
theorem keeps_initNames (b : Nat) (names : Value) : Keeps R (initNames b names : Act σ (List Value)) := by
  unfold initNames
  split
  · exact Keeps.bind (keeps_board b) fun _ => Keeps.pure _
  · exact keeps_elements names

theorem keeps_initWithin (depth b : Nat) (names : Value) : Keeps R (initWithin code depth b names) := by
  induction depth generalizing names with
  | zero => exact Keeps.throw _
  | succ depth ih =>
    unfold initWithin
    split
    · exact keeps_initOne carries b _
    · apply Keeps.bind (carries.log _ _ (by decide))
      intro _
      refine Keeps.bind (keeps_initNames b names) fun names => ?_
      exact Keeps.bind (Keeps.forM ih names) fun _ => carries.log _ _ (by decide)

theorem keeps_init (b : Nat) (names : Value) : Keeps R (init code b names) := keeps_initWithin carries _ b names

theorem keeps_glob (b : Nat) (pattern : String) : Keeps R (glob code b pattern) := by
  refine Keeps.bind (keeps_board b) fun board => ?_
  split
  · exact Keeps.bind (keeps_callUser carries _ _) fun v => keeps_elements v
  · exact Keeps.bind Keeps.get fun w => Keeps.bind (Keeps.ofExcept _) fun _ => Keeps.pure _

omit carries in
theorem keeps_provided (b : Nat) (extension : Option String) (paths : Value) :
    Keeps R (provided b extension paths : Act σ (List Value)) := by
  unfold provided
  split
  · exact Keeps.pure _
  · refine Keeps.bind (keeps_elements paths) fun entries => ?_
    refine Keeps.bind (keeps_board b) fun board => ?_
    exact Keeps.bind (Keeps.ofExcept _) fun _ => Keeps.pure _

theorem keeps_listFiles (b : Nat) (pattern : SourcePattern) : Keeps R (listFiles code b pattern) := by
  cases pattern with
  | plugin name extension =>
    refine Keeps.bind (keeps_board b) fun board => ?_
    split
    · exact Keeps.pure _
    · exact Keeps.bind (keeps_call carries _ _) fun paths => keeps_provided b extension paths
  | task name extension =>
    refine Keeps.bind (keeps_board b) fun board => ?_
    split
    · exact Keeps.pure _
    · exact Keeps.bind (keeps_runTask carries b _ _ _) fun paths => keeps_provided b extension paths
  | verbatim pattern => exact keeps_glob carries b pattern
  | rooted pattern =>
    refine Keeps.bind keeps_heap fun h => ?_
    refine Keeps.bind (keeps_board b) fun board => ?_
    exact Keeps.bind (Keeps.ofExcept _) fun root => keeps_glob carries b _

theorem keeps_resolveSources (b : Nat) (pattern : Value) : Keeps R (resolveSources code b pattern) := by
  unfold resolveSources
  split
  · apply Keeps.bind (keeps_listFiles carries b _)
    intro files
    apply Keeps.bind (carries.log _ _ (by decide))
    intro _
    exact Keeps.pure files
  · exact Keeps.throw _

end Calls

end Board

end TaskBoard
