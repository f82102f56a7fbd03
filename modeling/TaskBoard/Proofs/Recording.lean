import TaskBoard.Board.Collect
import TaskBoard.Proofs.Dispatching

/-!
What is written while groups are made and resolved: the heap and the records of groups. A relation between worlds
that overlooks these writes is kept by every step of it that user code has no part in. One that listing files, calling
a mapper and passing on what it gives keep as well is kept by a whole collection.
-/

namespace TaskBoard

open Act

variable {σ : Type} {code : UserCode σ} {R : World σ → World σ → Prop}

/-- A relation that holds whatever is written into the heap and the records of groups. -/
structure Overlooks (R : World σ → World σ → Prop) : Prop where
  heap : ∀ w heap, R w { w with heap := heap }
  record : ∀ w g record, R w (w.setGroup g record)
  group : ∀ w record, R w { w with groups := w.groups.push record }

namespace Board

theorem run_resolveDeclared {b g : Nat} {receiver : Option Nat} {w : World σ} {name : String}
    (named : (w.group g).name = .text name) :
    (resolveDeclared code b receiver g).run w = (do
      Act.log .info ("Getting the source files of: " ++ name)
      resolveGroup code b g receiver
      Act.log .info ("Source files of " ++ name ++ " successfully collected.")
      pure g : Act σ Nat).run w := by
  unfold resolveDeclared
  rw [run_bind_ok (run_get w), named]
  rfl

variable [Std.Refl R] [IsTrans (World σ) R]

theorem keeps_resolveDestination (b : Nat) (pattern : Value) : Keeps R (resolveDestination b pattern : Act σ Value) := by
  unfold resolveDestination
  split
  · dsimp only
    split
    · exact Keeps.pure _
    · refine Keeps.bind (Keeps.bind Keeps.get fun _ => Keeps.ofExcept _) fun stamp => ?_
      refine Keeps.bind keeps_heap fun h => ?_
      refine Keeps.bind (keeps_board b) fun board => ?_
      exact Keeps.bind (Keeps.ofExcept _) fun _ => Keeps.pure _
  · refine Keeps.bind keeps_heap fun h => ?_
    refine Keeps.bind (Keeps.ofExcept _) fun marked => ?_
    split
    · exact Keeps.throw_bind _ _
    · exact Keeps.pure _

theorem keeps_groupFiles {b : Nat} (sources : ∀ pattern, Keeps R (resolveSources code b pattern)) (g : Nat) :
    Keeps R (groupFiles code b g) :=
  Keeps.bind Keeps.get fun _ => Keeps.bind (Keeps.mapM sources _) fun _ => Keeps.pure _

section Writing

variable (overlooks : Overlooks R)
include overlooks

theorem keeps_onHeap {α : Type} (f : Heap → Except Failure (α × Heap)) : Keeps R (onHeap f : Act σ α) := by
  refine Keeps.bind keeps_heap fun h => Keeps.bind (Keeps.ofExcept _) fun made => ?_
  exact Keeps.bind (Keeps.modify fun w => overlooks.heap w _) fun _ => Keeps.pure _

theorem keeps_newGroup (name data : Value) : Keeps R (newGroup name data : Act σ Nat) :=
  Keeps.bind (keeps_onHeap overlooks _) fun _ => Keeps.modifyGet fun w => overlooks.group w _

omit [Std.Refl R] [IsTrans (World σ) R] in
theorem keeps_editGroup (g : Nat) (change : Group → Group) : Keeps R (editGroup g change : Act σ Unit) :=
  Keeps.modify fun w => overlooks.record w g _

theorem keeps_writeEntry (g : Nat) (key : String) (v : Value) : Keeps R (writeEntry g key v : Act σ Unit) := by
  refine Keeps.bind Keeps.get fun w => ?_
  split
  · exact Keeps.modify fun w => overlooks.heap w _
  · exact Keeps.throw _

theorem keeps_setFiles (g : Nat) (files : List Value) : Keeps R (setFiles g files : Act σ Unit) := by
  refine Keeps.bind (keeps_onHeap overlooks _) fun list => ?_
  split
  · exact Keeps.bind (keeps_editGroup overlooks g _) fun _ => keeps_writeEntry overlooks g _ _
  · exact Keeps.pure _

theorem keeps_settleDestination (b g : Nat) : Keeps R (settleDestination b g : Act σ Unit) := by
  refine Keeps.bind Keeps.get fun w => ?_
  split
  · refine Keeps.bind (keeps_resolveDestination b _) fun destination => ?_
    exact Keeps.bind (keeps_editGroup overlooks g _) fun _ => keeps_writeEntry overlooks g _ _
  · exact Keeps.pure _

end Writing

theorem keeps_walkAll {α : Type} {content : Act σ Mapping} {visit : Value → Value → Act σ (List α)}
    (looks : Keeps R content) (visits : ∀ key v, Keeps R (visit key v)) : Keeps R (walkAll content visit) := by
  apply Keeps.bind looks
  intro m
  generalize m.size = size
  suffices goal : ∀ left, Keeps R (walk content size visit left) from goal size
  intro left
  induction left with
  | zero =>
    apply Keeps.bind looks
    intro m
    dsimp only
    split
    · exact Keeps.throw_bind _ _
    · exact Keeps.pure _
  | succ left ih =>
    apply Keeps.bind looks
    intro m
    dsimp only
    split
    · exact Keeps.throw_bind _ _
    · split
      · exact Keeps.pure _
      · exact Keeps.bind (visits _ _) fun _ => Keeps.bind ih fun _ => Keeps.pure _

theorem keeps_eachGroup (overlooks : Overlooks R) {α : Type} {configs : Act σ Mapping} {visit : Nat → Act σ α}
    (looks : Keeps R configs) (visits : ∀ g, Keeps R (visit g)) : Keeps R (eachGroup configs visit) := by
  refine keeps_walkAll looks fun name config => ?_
  split
  · refine keeps_walkAll (Keeps.bind keeps_heap fun _ => Keeps.pure _) fun group data => ?_
    refine Keeps.bind keeps_heap fun h => ?_
    split
    · refine Keeps.bind (Keeps.ofExcept _) fun name => ?_
      apply Keeps.bind (keeps_newGroup overlooks _ _)
      intro g
      exact Keeps.bind (visits g) fun _ => Keeps.pure _
    · exact Keeps.pure _
  · exact Keeps.pure _

end Board

/-- A relation that is kept by all that a collection has done, whatever it writes itself: files are listed, a mapper is
called right after that is noted, and what it gives is passed on. -/
structure Collects (code : UserCode σ) (b : Nat) (receiver : Option Nat) (R : World σ → World σ → Prop) : Prop
    extends Overlooks R where
  board : ∀ w board, R w (w.setBoard b board)
  log : ∀ severity text, severity ≠ .error → Keeps R (log severity text : Act σ Unit)
  sources : ∀ pattern, Keeps R (Board.resolveSources code b pattern)
  mapper : ∀ g mapper, Keeps R (do note (.mapped g mapper); Board.callBound code b mapper [.group g])
  schedule : ∀ g r, Keeps R (Board.schedule code g r receiver)
  deliver : ∀ g v, Keeps R (Board.deliver code g receiver v)

namespace Board

variable {b : Nat} {receiver : Option Nat} [Std.Refl R] [IsTrans (World σ) R] (collects : Collects code b receiver R)
include collects

theorem keeps_runMapper (g : Nat) : Keeps R (runMapper code b g receiver) := by
  refine Keeps.bind Keeps.get fun w => ?_
  split
  next out mapper _ =>
    split
    · rw [← bind_assoc]
      refine Keeps.bind (collects.mapper g mapper) fun v => ?_
      split
      · exact Keeps.bind (collects.schedule g _) fun _ => keeps_editGroup collects.toOverlooks g _
      · exact collects.deliver g _
    · exact Keeps.pure _
  · exact Keeps.pure _

theorem keeps_resolveGroup (g : Nat) : Keeps R (resolveGroup code b g receiver) := by
  apply Keeps.bind (keeps_groupFiles collects.sources g)
  intro files
  apply Keeps.bind (keeps_setFiles collects.toOverlooks g files)
  intro _
  exact Keeps.bind (keeps_settleDestination collects.toOverlooks b g) fun _ => keeps_runMapper collects g

theorem keeps_parseGroup (data : Value) : Keeps R (parseGroup code b data receiver) := by
  unfold parseGroup
  split
  · exact Keeps.bind (keeps_resolveGroup collects _) fun _ => Keeps.pure _
  · apply Keeps.bind (keeps_newGroup collects.toOverlooks _ _)
    intro g
    exact Keeps.bind (keeps_resolveGroup collects g) fun _ => Keeps.pure _
  · exact Keeps.throw _

theorem keeps_resolveDeclared (g : Nat) : Keeps R (resolveDeclared code b receiver g) := by
  refine Keeps.bind Keeps.get fun w => ?_
  apply Keeps.bind (Keeps.logWords fun _ => collects.log _ _ (by decide))
  intro _
  refine Keeps.bind (keeps_resolveGroup collects g) fun _ => ?_
  exact Keeps.bind (Keeps.logWords fun _ => collects.log _ _ (by decide)) fun _ => Keeps.pure g

theorem keeps_collect : Keeps R (collect code b receiver) := by
  have looks : Keeps R (do return (← Act.board b).registry.configs : Act σ Mapping) :=
    Keeps.bind (keeps_board b) fun _ => Keeps.pure _
  refine Keeps.bind (keeps_eachGroup collects.toOverlooks looks (keeps_resolveDeclared collects)) fun groups => ?_
  exact Keeps.bind (Keeps.modify fun w => collects.board w _) fun _ => Keeps.pure groups

end Board

end TaskBoard
