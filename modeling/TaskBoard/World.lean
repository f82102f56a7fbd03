import TaskBoard.Board.Basic
import TaskBoard.Files.Tree
import TaskBoard.Group
import TaskBoard.Log
import TaskBoard.Loop.Basic
import TaskBoard.Number.Clock

/-!
The state that boards and user code share: the heap, the boards and their groups, the routines that
calls have given, and the loop that runs them. `σ` is the state of the user's code.
-/

namespace TaskBoard

structure World (σ : Type) where
  heap : Heap := {}
  boards : Array Board := #[]
  groups : Array Group := #[]
  /-- What has happened to groups, the latest first. -/
  past : List GroupDeed := []
  routines : Array Routine := #[]
  tasks : Array Task := #[]
  /-- The running loop, if there is one. -/
  loop : Option Loop := none
  /-- The board whose task is being run. -/
  current : Option Nat := none
  log : Array LogLine := #[]
  files : FileTree := {}
  clock : Clock := .whole 0
  environment : Option String := none
  user : σ

namespace World

variable {σ : Type}

def board (w : World σ) (id : Nat) : Board := w.boards.getD id default

def setBoard (w : World σ) (id : Nat) (b : Board) : World σ :=
  { w with boards := w.boards.setIfInBounds id b }

def group (w : World σ) (id : Nat) : Group := w.groups.getD id default

def setGroup (w : World σ) (id : Nat) (g : Group) : World σ :=
  { w with groups := w.groups.setIfInBounds id g }

def routine (w : World σ) (id : Nat) : Routine := w.routines.getD id default

def setRoutine (w : World σ) (id : Nat) (r : Routine) : World σ :=
  { w with routines := w.routines.setIfInBounds id r }

def task (w : World σ) (id : Nat) : Task := w.tasks.getD id ⟨[], .begin 0, none, false, none, []⟩

def setTask (w : World σ) (id : Nat) (t : Task) : World σ :=
  { w with tasks := w.tasks.setIfInBounds id t }

def queue (w : World σ) (job : Job) : World σ := { w with loop := w.loop.map (·.push job) }

@[simp] theorem heap_setBoard (w : World σ) (id : Nat) (b : Board) :
    (w.setBoard id b).heap = w.heap := rfl

@[simp] theorem heap_setGroup (w : World σ) (id : Nat) (g : Group) :
    (w.setGroup id g).heap = w.heap := rfl

@[simp] theorem boards_setGroup (w : World σ) (id : Nat) (g : Group) :
    (w.setGroup id g).boards = w.boards := rfl

theorem board_setBoard_self {w : World σ} {id : Nat} (b : Board) (known : id < w.boards.size) :
    (w.setBoard id b).board id = b := by
  simp [setBoard, board, Array.getD_eq_getD_getElem?, known]

theorem group_setGroup_self {w : World σ} {id : Nat} (g : Group) (known : id < w.groups.size) :
    (w.setGroup id g).group id = g := by
  simp [setGroup, group, Array.getD_eq_getD_getElem?, known]

theorem group_setGroup_other (w : World σ) {id other : Nat} (g : Group) (different : other ≠ id) :
    (w.setGroup id g).group other = w.group other := by
  simp [setGroup, group, Array.getD_eq_getD_getElem?, Array.getElem?_setIfInBounds_ne different.symm]

@[simp] theorem size_groups_setGroup (w : World σ) (id : Nat) (g : Group) :
    (w.setGroup id g).groups.size = w.groups.size := by simp [setGroup]

theorem task_setTask_self {w : World σ} {id : Nat} (t : Task) (known : id < w.tasks.size) :
    (w.setTask id t).task id = t := by
  simp [setTask, task, Array.getD_eq_getD_getElem?, known]

theorem task_setTask_other (w : World σ) {id other : Nat} (t : Task) (different : other ≠ id) :
    (w.setTask id t).task other = w.task other := by
  simp [setTask, task, Array.getD_eq_getD_getElem?, Array.getElem?_setIfInBounds_ne different.symm]

@[simp] theorem size_tasks_setTask (w : World σ) (id : Nat) (t : Task) :
    (w.setTask id t).tasks.size = w.tasks.size := by simp [setTask]

theorem task_of_unknown {w : World σ} {id : Nat} (unknown : w.tasks.size ≤ id) :
    w.task id = ⟨[], .begin 0, none, false, none, []⟩ := by
  simp [task, Array.getD_eq_getD_getElem?, unknown]

theorem routine_setRoutine_self {w : World σ} {id : Nat} (r : Routine) (known : id < w.routines.size) :
    (w.setRoutine id r).routine id = r := by
  simp [setRoutine, routine, Array.getD_eq_getD_getElem?, known]

theorem routine_setRoutine_other (w : World σ) {id other : Nat} (r : Routine) (different : other ≠ id) :
    (w.setRoutine id r).routine other = w.routine other := by
  simp [setRoutine, routine, Array.getD_eq_getD_getElem?, Array.getElem?_setIfInBounds_ne different.symm]

section Made

variable {w after : World σ} {id : Nat}

theorem group_push_older {g : Group} (groups : after.groups = w.groups.push g) (known : id < w.groups.size) :
    after.group id = w.group id := by
  simp [group, groups, Array.getD_eq_getD_getElem?, Array.getElem?_push, Nat.ne_of_lt known]

theorem group_push_newest {g : Group} (groups : after.groups = w.groups.push g) : after.group w.groups.size = g := by
  simp [group, groups, Array.getD_eq_getD_getElem?]

theorem routine_push_older {r : Routine} (routines : after.routines = w.routines.push r) (known : id < w.routines.size) :
    after.routine id = w.routine id := by
  simp [routine, routines, Array.getD_eq_getD_getElem?, Array.getElem?_push, Nat.ne_of_lt known]

theorem routine_push_newest {r : Routine} (routines : after.routines = w.routines.push r) :
    after.routine w.routines.size = r := by
  simp [routine, routines, Array.getD_eq_getD_getElem?]

theorem task_push_older {t : Task} (tasks : after.tasks = w.tasks.push t) (known : id < w.tasks.size) :
    after.task id = w.task id := by
  simp [task, tasks, Array.getD_eq_getD_getElem?, Array.getElem?_push, Nat.ne_of_lt known]

theorem task_push_newest {t : Task} (tasks : after.tasks = w.tasks.push t) : after.task w.tasks.size = t := by
  simp [task, tasks, Array.getD_eq_getD_getElem?]

theorem task_of_same (tasks : after.tasks = w.tasks) (id : Nat) : after.task id = w.task id := by
  simp only [task, tasks]

theorem task_set_self {t : Task} (tasks : after.tasks = w.tasks.setIfInBounds id t) (known : id < w.tasks.size) :
    after.task id = t :=
  (task_of_same (w := w.setTask id t) tasks id).trans (task_setTask_self t known)

theorem task_set_other {t : Task} (tasks : after.tasks = w.tasks.setIfInBounds id t) {other : Nat}
    (different : other ≠ id) : after.task other = w.task other :=
  (task_of_same (w := w.setTask id t) tasks other).trans (task_setTask_other w t different)

end Made

/-- Queueing jobs one by one puts them at the end of the queue. -/
theorem foldl_queue {α : Type} (items : List α) (job : α → Job) (w : World σ) :
    items.foldl (fun w item => w.queue (job item)) w =
      { w with loop := w.loop.map fun l => { l with ready := l.ready ++ items.map job } } := by
  induction items generalizing w with
  | nil => simp
  | cons item items ih =>
    rw [List.foldl_cons, ih]
    cases found : w.loop <;> simp [queue, found, Loop.push]

end World

end TaskBoard
