import TaskBoard.Board.Loading
import TaskBoard.Proofs.Dispatching

/-!
What reading files does to the rest of the world. A document only fills the heap; a program runs the user's code,
its file from the start and what the file defines. A relation between worlds that the user's code keeps, and for
which the heap does not count, is kept by whatever a file is loaded with.
-/

namespace TaskBoard

open Act

variable {σ : Type} {code : UserCode σ} {R : World σ → World σ → Prop}

/-- A relation that is kept by user code, by running the files of programs and by filling the heap. -/
structure Reads (code : UserCode σ) (R : World σ → World σ → Prop) : Prop where
  carries : Carries code R
  run : ∀ id name, Keeps R (code.run id name)
  onHeap : ∀ {α : Type} (f : Heap → Except Failure (α × Heap)), Keeps R (onHeap f : Act σ α)

namespace Board

variable [Std.Refl R] [IsTrans (World σ) R] (reads : Reads code R)
include reads

theorem keeps_readDocument (path : String) : Keeps R (readDocument path : Act σ Value) := by
  refine Keeps.bind Keeps.get fun w => ?_
  refine Keeps.bind (Keeps.ofExcept _) fun found => ?_
  dsimp only
  split
  · exact Keeps.throw_bind _ _
  · exact Keeps.bind (Keeps.ofExcept _) fun text => reads.onHeap _

theorem keeps_standardNames (cwd path : List Char) :
    Keeps R (Program.standardNames cwd path : Act σ (List (String × Value))) := by
  unfold Program.standardNames
  apply Keeps.bind (reads.onHeap _)
  intro annotations
  split
  · exact Keeps.bind (reads.onHeap _) fun _ => Keeps.pure _
  · exact Keeps.pure _

theorem keeps_runProgram (path : List Char) : Keeps R (runProgram code path) := by
  unfold runProgram
  refine Keeps.bind Keeps.get fun w => ?_
  refine Keeps.bind (Keeps.ofExcept _) fun found => ?_
  split
  · exact Keeps.throw _
  · split
    · exact Keeps.throw _
    · split
      · split
        · exact Keeps.throw _
        · have standard : ∀ definitions, Keeps R (do
              pure ⟨definitions, ← Program.standardNames w.files.cwd path⟩ : Act σ Program) := fun _ =>
            Keeps.bind (keeps_standardNames reads _ _) fun _ => Keeps.pure _
          split
          · dsimp only
            split
            · exact Keeps.throw_bind _ _
            · exact Keeps.bind (reads.run _ _) standard
          · dsimp only
            split
            · exact Keeps.throw_bind _ _
            · exact Keeps.bind (Keeps.pure _) standard
      · exact Keeps.throw _

theorem keeps_member (p : Program) (name : String) : Keeps R (member code p name) := by
  unfold member
  split
  · exact Keeps.pure _
  · exact keeps_call reads.carries _ _
  · exact Keeps.throw _

theorem keeps_memberOrNothing (p : Program) (name : String) : Keeps R (memberOrNothing code p name) := by
  apply Keeps.bind (Keeps.attempt (keeps_member reads p name))
  intro found
  split
  · exact Keeps.pure _
  · split
    · exact Keeps.pure _
    · exact Keeps.throw _

theorem keeps_exportsOf (p : Program) : Keeps R (exportsOf code p) := by
  apply Keeps.bind (keeps_memberOrNothing reads p _)
  intro names
  split
  · exact Keeps.pure _
  · refine Keeps.bind (keeps_elements _) fun names => Keeps.bind (Keeps.mapM (fun name => ?_) names) fun _ =>
      Keeps.pure _
    unfold exported
    split
    · exact Keeps.bind (keeps_member reads p _) fun _ => Keeps.pure _
    · exact Keeps.throw _

theorem keeps_loadProgram (path : String) : Keeps R (loadProgram code path) :=
  Keeps.bind (keeps_runProgram reads _) fun p => keeps_exportsOf reads p

theorem keeps_loadConfig (b : Nat) (path : String) : Keeps R (loadConfig code b path) := by
  have accept : ∀ v, Keeps R (acceptProvided path v : Act σ Value) := by
    intro v
    unfold acceptProvided
    split
    · exact reads.onHeap _
    · exact Keeps.bind keeps_heap fun _ => Keeps.ofExcept _
    · exact Keeps.throw _
  have provide : ∀ p, Keeps R (configurationOf code b p) := by
    intro p
    apply Keeps.bind (keeps_memberOrNothing reads p _)
    intro factory
    split
    · exact keeps_call reads.carries _ _
    · exact keeps_memberOrNothing reads p _
  unfold loadConfig
  dsimp only
  split
  · exact keeps_readDocument reads path
  · split
    · exact Keeps.throw _
    · exact Keeps.bind (keeps_runProgram reads _) fun p => Keeps.bind (provide p) fun v => accept v

end Board

end TaskBoard
