import TaskBoard.Proofs.Collecting.Sharing

/-!
What is seen of a group: its name, its patterns, its files and its destination. A group that was made of a mapping of
the board looks the same after everything that leaves the board alone.
-/

namespace TaskBoard

variable {σ : Type}

/-- What somebody sees of a group. -/
structure View where
  name : Value
  source : List Value
  files : List Value
  destination : Value

/-- The mapper that is called with a group. -/
def View.mapper? (view : View) : Option Value :=
  match view.destination with
  | .destination _ mapper => if mapper.isCallable then some mapper else none
  | _ => none

def World.view (w : World σ) (g : Nat) : View :=
  ⟨(w.group g).name, (w.group g).source, w.heap.listAt (w.group g).files, (w.group g).destination⟩

namespace World

/-- A group whose record was made of a mapping of the board, with a list of files that exists. -/
structure Enrolled (s : Scope σ) (w : World σ) (g : Nat) : Prop where
  born : g < w.groups.size
  data : ∃ cell, (w.group g).data = .map cell ∧ s.mine (.map cell)
  known : (w.group g).files < w.heap.lists.size

namespace Enrolled

variable {s : Scope σ} {but : Nat → Prop} {w after : World σ} {g : Nat}

theorem group_eq (enrolled : Enrolled s w g) (leaves : Leaves s but w after) : after.group g = w.group g := by
  obtain ⟨cell, data, mine⟩ := enrolled.data
  exact leaves.made g enrolled.born cell data mine

theorem view_eq (enrolled : Enrolled s w g) (leaves : Leaves s but w after) : after.view g = w.view g := by
  obtain ⟨cell, data, mine⟩ := enrolled.data
  have same := leaves.files g enrolled.born cell data mine enrolled.known
  rw [view, view, enrolled.group_eq leaves, same]

theorem leaves (enrolled : Enrolled s w g) (leaves : Leaves s but w after) : Enrolled s after g := by
  have record := enrolled.group_eq leaves
  obtain ⟨cell, data, mine⟩ := enrolled.data
  refine ⟨Nat.lt_of_lt_of_le enrolled.born leaves.grouped, ⟨cell, by rw [record, data], mine⟩, ?_⟩
  rw [record]
  exact Nat.lt_of_lt_of_le enrolled.known leaves.listed

theorem regrouped (enrolled : Enrolled s w g) (b : Nat) (gs : List Nat) : Enrolled s (w.regrouped b gs) g :=
  ⟨enrolled.born, enrolled.data, enrolled.known⟩

end Enrolled

section During

variable {s : Scope σ} {start before w : World σ} {cell g : Nat} {record : Group} {files : List Value}
  {content : Mapping}

theorem During.enrolled (during : During s start before cell g record files content w) (mine : s.mine (.map cell)) :
    Enrolled s w g := by
  refine ⟨during.born, ⟨cell, by rw [during.stands, during.data], mine⟩, ?_⟩
  rw [during.stands]
  exact during.known

theorem During.view_eq (during : During s start before cell g record files content w) :
    w.view g = ⟨record.name, record.source, files, record.destination⟩ := by
  rw [view, during.stands, during.reads]

end During

end World

end TaskBoard
