import Mathlib.Order.Defs.Unbundled
import TaskBoard.Act

/-!
How contexts nest. The context in which a run goes on is the board of its innermost bound routine, or else
the context in which the run was made; every bound routine remembers the context around it. A task stands
on the context in which it was made as long as this holds of its frames, or once it has ended. A change of
the world spares contexts if every task goes on standing on its own one, and holds them if also whoever
was at work has the context that he had.
-/

namespace TaskBoard

/-- The board of the innermost bound routine, or else the context around all of them. -/
def boardOf (made : Option Nat) : List Frame → Option Nat
  | [] => made
  | .user _ _ _ :: frames => boardOf made frames
  | .scope b _ :: _ => some b

/-- Every bound routine remembers the context around it. -/
def Nested (made : Option Nat) : List Frame → Prop
  | [] => True
  | .user _ _ _ :: frames => Nested made frames
  | .scope _ before :: frames => before = boardOf made frames ∧ Nested made frames

/-- A task has ended, or goes on where its frames are, seen from the context in which it was made. -/
def Task.StandsOn (t : Task) (made : Option Nat) : Prop :=
  t.finished = true ∨ (Nested made t.frames ∧ t.current = boardOf made t.frames)

theorem Task.standsOn_of_finished {t : Task} (finished : t.finished = true) (made : Option Nat) :
    t.StandsOn made := .inl finished

/-- Only the frames, the context and the end of a task matter. -/
theorem Task.StandsOn.keep {t other : Task} {made : Option Nat} (stands : t.StandsOn made)
    (finished : t.finished = true → other.finished = true) (frames : other.frames = t.frames)
    (current : other.current = t.current) : other.StandsOn made := by
  rcases stands with ended | ⟨nested, inside⟩
  · exact .inl (finished ended)
  · right
    rw [frames, current]
    exact ⟨nested, inside⟩

namespace World

variable {σ : Type}

/-- No task loses its context, new ones have one, and routines stay what they are. -/
structure Spares (before after : World σ) : Prop where
  tasks : before.tasks.size ≤ after.tasks.size
  stands : ∀ id < before.tasks.size, ∀ made,
    (before.task id).StandsOn made → (after.task id).StandsOn made
  made : ∀ id < after.tasks.size, before.tasks.size ≤ id → ∃ made, (after.task id).StandsOn made
  routines : before.routines.size ≤ after.routines.size
  bodies : ∀ r < before.routines.size, (after.routine r).body = (before.routine r).body

/-- No task loses its context, and neither does whoever was at work. -/
structure Holds (before after : World σ) : Prop extends Spares before after where
  current : after.current = before.current

namespace Spares

theorem refl (w : World σ) : Spares w w :=
  ⟨Nat.le_refl _, fun _ _ _ stands => stands, fun _ known new => absurd known (Nat.not_lt.mpr new),
    Nat.le_refl _, fun _ _ => rfl⟩

theorem trans {first second third : World σ} (early : Spares first second) (late : Spares second third) :
    Spares first third where
  tasks := Nat.le_trans early.tasks late.tasks
  stands id known made stands :=
    late.stands id (Nat.lt_of_lt_of_le known early.tasks) made (early.stands id known made stands)
  made id known new := by
    rcases Nat.lt_or_ge id second.tasks.size with older | newer
    · obtain ⟨made, stands⟩ := early.made id older new
      exact ⟨made, late.stands id older made stands⟩
    · exact late.made id known newer
  routines := Nat.le_trans early.routines late.routines
  bodies r known := by
    rw [late.bodies r (Nat.lt_of_lt_of_le known early.routines), early.bodies r known]

instance : Std.Refl (Spares (σ := σ)) := ⟨refl⟩

instance : IsTrans (World σ) Spares := ⟨fun _ _ _ => trans⟩

variable {before after : World σ}

theorem of_same (spares : Spares before after) {other : World σ} (tasks : other.tasks = after.tasks)
    (routines : other.routines = after.routines) : Spares before other := by
  have task : ∀ id, other.task id = after.task id := fun id => by simp only [task, tasks]
  have routine : ∀ r, other.routine r = after.routine r := fun r => by simp only [routine, routines]
  refine ⟨tasks ▸ spares.tasks, ?_, ?_, routines ▸ spares.routines, ?_⟩
  · intro id known made stands
    rw [task]
    exact spares.stands id known made stands
  · intro id known new
    rw [tasks] at known
    rw [task]
    exact spares.made id known new
  · intro r known
    rw [routine]
    exact spares.bodies r known

theorem setTask (spares : Spares before after) {id : Nat} {t : Task}
    (keeps : ∀ made, (before.task id).StandsOn made → t.StandsOn made) :
    Spares before (after.setTask id t) := by
  have stood : ∀ other made, (other = id → other < after.tasks.size → t.StandsOn made) →
      (after.task other).StandsOn made → ((after.setTask id t).task other).StandsOn made := by
    intro other made own stands
    by_cases same : other = id
    · subst same
      rcases Nat.lt_or_ge other after.tasks.size with known | unknown
      · rw [task_setTask_self t known]
        exact own rfl known
      · rw [task_of_unknown unknown] at stands
        rwa [task_of_unknown (by simpa using unknown)]
    · rwa [task_setTask_other after t same]
  refine ⟨by simpa using spares.tasks, ?_, ?_, spares.routines, spares.bodies⟩
  · intro other known made stands
    exact stood other made (fun same _ => keeps made (same ▸ stands)) (spares.stands other known made stands)
  · intro other known new
    rw [size_tasks_setTask] at known
    by_cases same : other = id
    · subst same
      have stands : (before.task other).StandsOn none := by
        rw [task_of_unknown new]
        exact .inr ⟨trivial, rfl⟩
      rw [task_setTask_self t known]
      exact ⟨none, keeps none stands⟩
    · rw [task_setTask_other after t same]
      exact spares.made other known new

/-- A new task stands on the context in which it is made. -/
theorem pushTask (spares : Spares before after) (t : Task) {made : Option Nat} (stands : t.StandsOn made) :
    Spares before { after with tasks := after.tasks.push t } := by
  refine ⟨?_, ?_, ?_, spares.routines, spares.bodies⟩
  · simpa using Nat.le_succ_of_le spares.tasks
  · intro id known made stands
    rw [task_push_older rfl (Nat.lt_of_lt_of_le known spares.tasks)]
    exact spares.stands id known made stands
  · intro id known new
    rw [Array.size_push] at known
    rcases Nat.lt_succ_iff_lt_or_eq.mp known with early | rfl
    · rw [task_push_older rfl early]
      exact spares.made id early new
    · rw [task_push_newest rfl]
      exact ⟨made, stands⟩

theorem pushRoutine (spares : Spares before after) (r : Routine) :
    Spares before { after with routines := after.routines.push r } := by
  refine ⟨spares.tasks, spares.stands, spares.made, ?_, ?_⟩
  · simpa using Nat.le_succ_of_le spares.routines
  · intro id known
    rw [routine_push_older rfl (Nat.lt_of_lt_of_le known spares.routines), spares.bodies id known]

theorem beginRoutine (spares : Spares before after) (r : Nat) :
    Spares before (after.setRoutine r { after.routine r with begun := true }) := by
  refine ⟨spares.tasks, spares.stands, spares.made, ?_, ?_⟩
  · simpa [setRoutine] using spares.routines
  · intro id known
    rw [← spares.bodies id known]
    by_cases same : id = r
    · subst same
      rw [routine_setRoutine_self _ (Nat.lt_of_lt_of_le known spares.routines)]
    · rw [routine_setRoutine_other after _ same]

/-- The present context does not matter to tasks. -/
theorem switch {current other : Option Nat} (spares : Spares { before with current := current } after) :
    Spares before { after with current := other } :=
  ⟨spares.tasks, spares.stands, spares.made, spares.routines, spares.bodies⟩

end Spares

namespace Holds

theorem refl (w : World σ) : Holds w w := ⟨.refl w, rfl⟩

theorem trans {first second third : World σ} (early : Holds first second) (late : Holds second third) :
    Holds first third :=
  ⟨early.toSpares.trans late.toSpares, late.current.trans early.current⟩

instance : Std.Refl (Holds (σ := σ)) := ⟨refl⟩

instance : IsTrans (World σ) Holds := ⟨fun _ _ _ => trans⟩

theorem of_same {before after : World σ} (tasks : after.tasks = before.tasks)
    (routines : after.routines = before.routines) (current : after.current = before.current) :
    Holds before after :=
  ⟨(Spares.refl before).of_same tasks routines, current⟩

end Holds

end World

end TaskBoard
