import TaskBoard.Proofs.Context.Running
import TaskBoard.Proofs.Loading.Reading
import TaskBoard.Proofs.Recording

/-!
What the operations of a board do to contexts: nothing that outlasts them. The one place where a context
begins is the call of a value with a board as context, and it ends there; a routine that such a call gives
is bound to the board.
-/

namespace TaskBoard.Board

open Act World

variable {σ : Type} {code : UserCode σ}

section Collect

theorem holds_edit (b : Nat) (change : Board → Board) : Keeps Holds (edit b change : Act σ Unit) :=
  Keeps.modify fun _ => .of_same rfl rfl rfl

variable (tidy : code.Tidy)
include tidy

theorem holds_deliver (group : Nat) (receiver : Option Nat) (v : Value) :
    Keeps Holds (deliver code group receiver v) := by
  cases receiver with
  | none => exact Keeps.pure _
  | some id =>
    exact Keeps.bind (holds_note _) fun _ => Keeps.bind (keeps_callUser tidy.carries id [v]) fun _ => Keeps.pure _

theorem holds_schedule (group r : Nat) (receiver : Option Nat) :
    Keeps Holds (schedule code group r receiver) := by
  refine Keeps.bind Keeps.get fun w => ?_
  split
  · apply Keeps.bind (Loop.holds_runToCompletion tidy r)
    intro v
    exact Keeps.bind (holds_deliver tidy group receiver v) fun _ => Keeps.pure _
  · exact Keeps.bind (Loop.holds_makeTask r) fun task => Keeps.bind (Loop.holds_watch task _) fun _ => Keeps.pure _

theorem collects_holds (b : Nat) (receiver : Option Nat) : Collects code b receiver Holds where
  heap _ _ := .of_same rfl rfl rfl
  record _ _ _ := .of_same rfl rfl rfl
  group _ _ := .of_same rfl rfl rfl
  board _ _ := .of_same rfl rfl rfl
  log severity text _ := holds_log severity text
  sources := keeps_resolveSources tidy.carries b
  mapper _ mapper := Keeps.bind (holds_note _) fun _ => keeps_callBound tidy.carries b mapper _
  schedule g r := holds_schedule tidy g r receiver
  deliver g v := holds_deliver tidy g receiver v

theorem holds_parseGroup (b : Nat) (data : Value) (receiver : Option Nat) :
    Keeps Holds (parseGroup code b data receiver) := keeps_parseGroup (collects_holds tidy b receiver) data

theorem holds_collect (b : Nat) (receiver : Option Nat) : Keeps Holds (collect code b receiver) :=
  keeps_collect (collects_holds tidy b receiver)

end Collect

section Loading

theorem holds_enter (b : Nat) (kind : RegistryKind) (name v : Value) :
    Keeps Holds (enter b kind name v : Act σ Unit) := by
  refine Keeps.bind (keeps_board b) fun board => ?_
  dsimp only
  split
  · exact Keeps.bind (Keeps.logWords fun _ => holds_log _ _) fun _ => holds_edit b _
  · exact holds_edit b _

theorem holds_register (b : Nat) (kind : RegistryKind) (name v : Value) :
    Keeps Holds (register b kind name v : Act σ Unit) := by
  unfold register
  split
  · exact holds_enter b kind name v
  · exact Keeps.throw _

theorem holds_filesOf (b : Nat) (pattern : Value) : Keeps Holds (filesOf b pattern : Act σ (List String)) := by
  unfold filesOf
  split
  · refine Keeps.bind (keeps_board b) fun board => ?_
    refine Keeps.bind Keeps.get fun w => ?_
    exact Keeps.bind (Keeps.ofExcept _) fun _ => Keeps.pure _
  · exact Keeps.throw _

theorem holds_entriesOf (v : Value) : Keeps Holds (entriesOf v : Act σ (List (Value × Value))) := by
  unfold entriesOf
  split
  · exact Keeps.bind keeps_heap fun _ => Keeps.pure _
  · exact Keeps.throw _

theorem holds_logError (text : String) (failure : Failure) :
    Keeps Holds (logError text failure : Act σ Unit) := by
  unfold logError
  split
  · exact holds_logFailure _ _
  · exact Keeps.throw _

theorem holds_registerEntry (b : Nat) (source name v : Value) :
    Keeps Holds (registerEntry code b source name v) := by
  refine Keeps.bind Keeps.get fun w => ?_
  apply Keeps.bind (Keeps.logWords fun _ => holds_log _ _)
  intro _
  split
  · exact holds_register b _ _ _
  · exact holds_enter b _ _ _

theorem holds_registerBundle (b : Nat) (bundle source : Value) :
    Keeps Holds (registerBundle code b bundle source) := by
  unfold registerBundle
  refine Keeps.bind (holds_entriesOf bundle) fun entries => Keeps.forM (fun (name, v) => ?_) entries
  exact holds_registerEntry b source name v

variable (tidy : code.Tidy)
include tidy

theorem reads_of_tidy : Reads code Holds := ⟨tidy.carries, tidy.run, holds_onHeap⟩

theorem holds_configure (b : Nat) (config : Value) : Keeps Holds (configure code b config) := by
  unfold configure
  split
  · refine Keeps.bind (holds_entriesOf _) fun entries => Keeps.forM (fun entry => ?_) entries
    exact Keeps.bind (holds_enter b _ _ _) fun _ => Keeps.logWords fun _ => holds_log _ _
  · refine Keeps.bind (holds_filesOf b _) fun paths => Keeps.forM (fun path => ?_) paths
    apply Keeps.bind (holds_log _ _)
    intro _
    apply Keeps.bind (Keeps.attempt (keeps_loadConfig (reads_of_tidy tidy) b path))
    intro found
    split
    · exact holds_logError _ _
    · refine Keeps.bind (holds_entriesOf _) fun entries => Keeps.bind (Keeps.forM (fun entry => ?_) entries) fun _ =>
        holds_log _ _
      exact Keeps.bind (Keeps.logWords fun _ => holds_log _ _) fun _ => holds_enter b _ _ _

theorem holds_registerTasks (b : Nat) (tasks : Value) : Keeps Holds (registerTasks code b tasks) := by
  unfold registerTasks
  split
  · apply Keeps.bind (holds_log _ _)
    intro _
    exact Keeps.bind (holds_registerBundle b _ _) fun _ => holds_log _ _
  · refine Keeps.bind (holds_filesOf b _) fun paths => Keeps.forM (fun path => ?_) paths
    apply Keeps.bind (holds_log _ _)
    intro _
    apply Keeps.bind (Keeps.attempt (keeps_loadProgram (reads_of_tidy tidy) path))
    intro exports
    split
    · exact holds_logError _ _
    · refine Keeps.bind (keeps_board b) fun board => ?_
      refine Keeps.bind Keeps.get fun w => ?_
      dsimp only
      refine Keeps.bind (Keeps.forM (fun (name, v) => ?_) _) fun _ => holds_log _ _
      exact holds_registerEntry b _ name v

theorem holds_load (b : Nat) (tasks : Value) (receiver : Option Nat) :
    Keeps Holds (load code b tasks receiver) :=
  Keeps.bind (holds_registerTasks tidy b tasks) fun _ => Keeps.bind (holds_collect tidy b receiver) fun _ => Keeps.pure _

end Loading

end TaskBoard.Board
