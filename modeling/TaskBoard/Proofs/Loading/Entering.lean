import Mathlib.Data.List.TakeWhile
import TaskBoard.Board.Loading
import TaskBoard.Proofs.Driving
import TaskBoard.Proofs.Ending

/-!
Entering what files give into the registries. Whatever registers entries, one by one and with a line or two in
the log for each, puts them into the registries in their order and leaves all else as it is. It comes to an end
only at a name that is asked whether it can be a key and cannot: the names of a mapping's entries are keys
already. So the operations that register a mapping, a bundle or plugins differ in what they log only.
-/

namespace TaskBoard

open Act

variable {σ α β : Type}

/-- A place in the registries of a board and what goes there. -/
structure Slot where
  kind : RegistryKind
  name : Value
  value : Value

/-- Whether an entry of a mapping can be stored. The name of an entry is a key, and only an initializer goes
under another one. -/
def Slot.fits (slot : Slot) : Bool := slot.kind != .init || slot.name.hashable

namespace Registry

def putAll (r : Registry) (slots : List Slot) : Registry :=
  slots.foldl (fun r slot => r.put slot.kind slot.name slot.value) r

theorem putAll_append (r : Registry) (first second : List Slot) :
    r.putAll (first ++ second) = (r.putAll first).putAll second := List.foldl_append

end Registry

def Board.filled (board : Board) (slots : List Slot) : Board :=
  { board with registry := board.registry.putAll slots }

theorem Board.filled_append (board : Board) (first second : List Slot) :
    board.filled (first ++ second) = (board.filled first).filled second := by
  simp only [Board.filled, Registry.putAll_append]

/-- No error is told of. -/
def Harmless (lines : List LogLine) : Prop := ∀ line ∈ lines, line.severity ≠ .error

theorem Harmless.append {first second : List LogLine} (one : Harmless first) (two : Harmless second) :
    Harmless (first ++ second) := by
  intro line member
  rcases List.mem_append.mp member with early | late
  · exact one line early
  · exact two line late

theorem harmless_nil : Harmless [] := by simp [Harmless]

theorem harmless_singleton {severity : Severity} {text : String} (harmless : severity ≠ .error) :
    Harmless [⟨severity, text, none⟩] := by
  simpa [Harmless] using harmless

namespace World

variable {w : World σ} {b : Nat}

def filled (w : World σ) (b : Nat) (slots : List Slot) : World σ := w.setBoard b ((w.board b).filled slots)

def noting (w : World σ) (lines : List LogLine) : World σ := { w with log := w.log ++ lines.toArray }

@[simp] theorem heap_filled (w : World σ) (b : Nat) (slots : List Slot) : (w.filled b slots).heap = w.heap := rfl

@[simp] theorem user_filled (w : World σ) (b : Nat) (slots : List Slot) : (w.filled b slots).user = w.user := rfl

@[simp] theorem heap_noting (w : World σ) (lines : List LogLine) : (w.noting lines).heap = w.heap := rfl

@[simp] theorem user_noting (w : World σ) (lines : List LogLine) : (w.noting lines).user = w.user := rfl

@[simp] theorem boards_noting (w : World σ) (lines : List LogLine) : (w.noting lines).boards = w.boards := rfl

theorem noting_nil (w : World σ) : w.noting [] = w := by simp [noting]

theorem noting_noting (w : World σ) (first second : List LogLine) :
    (w.noting first).noting second = w.noting (first ++ second) := by
  simp [noting]

theorem run_log (w : World σ) (severity : Severity) (text : String) :
    (Act.log severity text : Act σ Unit).run w = (.ok ⟨⟩, w.noting [⟨severity, text, none⟩]) := rfl

theorem filled_noting (w : World σ) (b : Nat) (slots : List Slot) (lines : List LogLine) :
    (w.noting lines).filled b slots = (w.filled b slots).noting lines := rfl

theorem getElem?_filled (w : World σ) (b : Nat) (slots : List Slot) :
    (w.filled b slots).boards[b]? = w.boards[b]?.map (·.filled slots) := by
  by_cases known : b < w.boards.size
  · simp [filled, setBoard, board, Array.getD_eq_getD_getElem?, known]
  · simp [filled, setBoard, known]

theorem filled_of_unknown (unknown : w.boards.size ≤ b) (slots : List Slot) : w.filled b slots = w := by
  have same : w.boards.setIfInBounds b ((w.board b).filled slots) = w.boards :=
    Array.setIfInBounds_eq_of_size_le unknown
  rw [filled, setBoard, same]

theorem setBoard_board (w : World σ) (b : Nat) : w.setBoard b (w.board b) = w := by
  have same : w.boards.setIfInBounds b (w.board b) = w.boards := by
    apply Array.ext_getElem?
    intro i
    rw [Array.getElem?_setIfInBounds]
    split
    next own =>
      subst own
      split
      next known => simp [board, Array.getD_eq_getD_getElem?, known]
      next unknown => simp [unknown]
    next => rfl
  rw [setBoard, same]

theorem filled_nil (w : World σ) (b : Nat) : w.filled b [] = w := setBoard_board w b

theorem filled_filled (w : World σ) (b : Nat) (first second : List Slot) :
    (w.filled b first).filled b second = w.filled b (first ++ second) := by
  rcases Nat.lt_or_ge b w.boards.size with known | unknown
  · have read : (w.filled b first).board b = (w.board b).filled first := board_setBoard_self _ known
    rw [filled, read, filled, filled, Board.filled_append]
    simp [setBoard]
  · rw [filled_of_unknown unknown, filled_of_unknown unknown, filled_of_unknown unknown]

end World

/-- An action that logs, and no error, and does no more. -/
def Tells (act : Act σ PUnit) : Prop := ∀ w, ∃ lines, Harmless lines ∧ act.run w = (.ok ⟨⟩, w.noting lines)

section Tells

variable {severity : Severity} (harmless : severity ≠ .error)
include harmless

theorem tells_log (text : String) : Tells (log severity text : Act σ Unit) := fun w =>
  ⟨[⟨severity, text, none⟩], harmless_singleton harmless, World.run_log w severity text⟩

theorem tells_logWords (words : Heap → Except Failure String) : Tells (logWords severity words : Act σ Unit) := by
  intro w
  cases told : words w.heap with
  | error failure => exact ⟨[], harmless_nil, by rw [run_logWords_error told, World.noting_nil]⟩
  | ok text =>
    rw [run_logWords_ok told]
    exact tells_log harmless text w

end Tells

/-- An action that fills the slots which it finds in its world, up to the first one that does not fit, and logs. It
fails when there is such a slot, and then only. -/
def Files (act : Act σ PUnit) (b : Nat) (fits : Slot → Bool) (slots : World σ → List Slot) : Prop :=
  ∀ w, ∃ lines, Harmless lines ∧
    act.run w = (if (slots w).all fits then .ok ⟨⟩ else .error .wrongType,
      (w.filled b ((slots w).takeWhile fits)).noting lines)

namespace Files

variable {b : Nat} {fits : Slot → Bool} {slots : World σ → List Slot}

theorem forM {act : α → Act σ PUnit} {slot : World σ → α → Slot}
    (steady : ∀ w slots lines, slot ((w.filled b slots).noting lines) = slot w) {items : List α}
    (each : ∀ item, Files (act item) b fits fun w => [slot w item]) :
    Files (items.forM act) b fits fun w => items.map (slot w) := by
  induction items with
  | nil =>
    intro w
    refine ⟨[], harmless_nil, ?_⟩
    change _ = (_, (w.filled b []).noting [])
    rw [World.filled_nil, World.noting_nil]
    rfl
  | cons item items ih =>
    intro w
    have opened : (item :: items).forM act = act item >>= fun _ => items.forM act := rfl
    obtain ⟨early, quiet, ran⟩ := each item w
    simp only [opened, List.map_cons, List.takeWhile_cons, List.all_cons]
    cases fit : fits (slot w item) with
    | false =>
      have refused : (act item).run w = (.error .wrongType, (w.filled b []).noting early) := by simpa [fit] using ran
      exact ⟨early, quiet, run_bind_error refused⟩
    | true =>
      have filed : (act item).run w = (.ok ⟨⟩, (w.filled b [slot w item]).noting early) := by simpa [fit] using ran
      obtain ⟨late, still, others⟩ := ih ((w.filled b [slot w item]).noting early)
      simp only [steady] at others
      refine ⟨early ++ late, quiet.append still, ?_⟩
      rw [run_bind_ok filed, others, World.filled_noting, World.filled_filled, World.noting_noting]
      rfl

theorem tell_bind {tell act : Act σ PUnit} (tells : Tells tell) (steady : ∀ w lines, slots (w.noting lines) = slots w)
    (files : Files act b fits slots) : Files (tell >>= fun _ => act) b fits slots := by
  intro w
  obtain ⟨first, quiet, told⟩ := tells w
  obtain ⟨lines, still, ran⟩ := files (w.noting first)
  refine ⟨first ++ lines, quiet.append still, ?_⟩
  rw [run_bind_ok told, ran, steady, World.filled_noting, World.noting_noting]

theorem bind_tell {act tell : Act σ PUnit} (tells : Tells tell) (files : Files act b fits slots) :
    Files (act >>= fun _ => tell) b fits slots := by
  intro w
  obtain ⟨lines, quiet, ran⟩ := files w
  split at ran
  next all =>
    obtain ⟨more, still, told⟩ := tells ((w.filled b ((slots w).takeWhile fits)).noting lines)
    refine ⟨lines ++ more, quiet.append still, ?_⟩
    rw [run_bind_ok ran, told, World.noting_noting, if_pos all]
  next some => exact ⟨lines, quiet, by rw [run_bind_error ran, if_neg some]⟩

/-- Where all slots fit, all are filled. -/
theorem run_ok {act : Act σ PUnit} (files : Files act b fits slots) {w : World σ} (all : (slots w).all fits = true) :
    ∃ lines, Harmless lines ∧ act.run w = (.ok ⟨⟩, (w.filled b (slots w)).noting lines) := by
  obtain ⟨lines, quiet, ran⟩ := files w
  rw [if_pos all, List.takeWhile_eq_self_iff.mpr (List.all_eq_true.mp all)] at ran
  exact ⟨lines, quiet, ran⟩

theorem run_error {act : Act σ PUnit} (files : Files act b fits slots) {w : World σ} (some : (slots w).all fits = false) :
    ∃ after, act.run w = (.error .wrongType, after) := by
  obtain ⟨lines, -, ran⟩ := files w
  rw [some] at ran
  exact ⟨_, ran⟩

end Files

namespace Board

variable {code : UserCode σ} {b : Nat}

section Register

variable {kind : RegistryKind} {name v : Value}

theorem run_enter (b : Nat) (kind : RegistryKind) (name v : Value) (w : World σ) :
    ∃ lines, Harmless lines ∧
      (enter b kind name v).run w = (.ok ⟨⟩, (w.filled b [⟨kind, name, v⟩]).noting lines) := by
  have stored : ∀ w : World σ, (edit b fun board => { board with registry := board.registry.put kind name v }).run w =
      (.ok ⟨⟩, w.filled b [⟨kind, name, v⟩]) := fun _ => rfl
  unfold enter
  rw [run_bind_ok (run_board w b)]
  split
  · have tells := tells_logWords (σ := σ) (show Severity.debug ≠ .error by decide) fun h => do
      return "Replacing " ++ kind.word ++ " " ++ (← h.shown name)
    obtain ⟨lines, quiet, told⟩ := tells w
    exact ⟨lines, quiet, by rw [run_bind_ok told, stored, World.filled_noting]⟩
  · exact ⟨[], harmless_nil, by rw [stored, World.noting_nil]⟩

theorem files_enter (free : kind ≠ .init) :
    Files (enter b kind name v : Act σ PUnit) b Slot.fits fun _ => [⟨kind, name, v⟩] := by
  intro w
  have fit : Slot.fits ⟨kind, name, v⟩ = true := by simp [Slot.fits, free]
  obtain ⟨lines, quiet, ran⟩ := run_enter b kind name v w
  exact ⟨lines, quiet, by simpa [fit] using ran⟩

theorem files_register :
    Files (register b kind name v : Act σ PUnit) b (fun slot => slot.name.hashable) fun _ => [⟨kind, name, v⟩] := by
  intro w
  unfold register
  cases key : name.hashable with
  | true =>
    obtain ⟨lines, quiet, ran⟩ := run_enter b kind name v w
    exact ⟨lines, quiet, by simpa [key] using ran⟩
  | false =>
    refine ⟨[], harmless_nil, ?_⟩
    simp [key, World.filled_nil, World.noting_nil]

end Register

def configSlots (entries : List (Value × Value)) : List Slot :=
  entries.map fun entry => ⟨.config, entry.1, entry.2⟩

def bundleSlot (code : UserCode σ) (w : World σ) (source : Value) (entry : Value × Value) : Slot :=
  let kind := RegistryKind.ofEntry entry.1 entry.2
  ⟨kind, if kind = .init then initializerName code w source entry.2 else entry.1, entry.2⟩

def bundleSlots (code : UserCode σ) (w : World σ) (source : Value) (entries : List (Value × Value)) : List Slot :=
  entries.map (bundleSlot code w source)

def pluginSlots (entries : List (Value × Value)) : List Slot :=
  entries.map fun entry => ⟨.plugin, entry.1, entry.2⟩

/-- Registers the entries of a bundle that comes from a source. -/
def enterBundle (code : UserCode σ) (b : Nat) (entries : List (Value × Value)) (source : Value) : Act σ PUnit :=
  entries.forM fun entry => registerEntry code b source entry.1 entry.2

theorem files_registerLoaded (entries : List (Value × Value)) :
    Files (entries.forM fun entry => registerLoaded b entry.1 entry.2 : Act σ PUnit) b Slot.fits
      fun _ => configSlots entries :=
  Files.forM (fun _ _ _ => rfl) fun _ =>
    .tell_bind (tells_logWords (by decide) _) (fun _ _ => rfl) (files_enter (by decide))

theorem files_configure (code : UserCode σ) (b cell : Nat) :
    Files (configure code b (.map cell)) b Slot.fits fun w => configSlots (w.heap.mapAt cell).entries := by
  have each : ∀ entries : List (Value × Value),
      Files (entries.forM fun entry => configureEntry b entry.1 entry.2 : Act σ PUnit) b Slot.fits
        fun _ => configSlots entries := fun entries =>
    Files.forM (fun _ _ _ => rfl) fun _ => .bind_tell (tells_logWords (by decide) _) (files_enter (by decide))
  exact fun w => each (w.heap.mapAt cell).entries w

theorem run_registerEntry (source : Value) (entry : Value × Value) (w : World σ) :
    (registerEntry code b source entry.1 entry.2).run w = (do
      let slot := bundleSlot code w source entry
      Act.logWords .debug fun h => do
        return " -  Registering " ++ entryWords slot.kind ++ ": " ++ (← h.shown slot.name)
      if slot.kind = .init then register b slot.kind slot.name slot.value
      else enter b slot.kind slot.name slot.value : Act σ PUnit).run w := by
  unfold registerEntry
  rw [run_bind_ok (run_get w)]
  rfl

theorem files_slot (slot : Slot) :
    Files (if slot.kind = .init then register b slot.kind slot.name slot.value
      else enter b slot.kind slot.name slot.value : Act σ PUnit) b Slot.fits fun _ => [slot] := by
  split
  next initial =>
    intro w
    have asked : slot.fits = slot.name.hashable := by simp [Slot.fits, initial]
    obtain ⟨lines, quiet, ran⟩ := @files_register σ b slot.kind slot.name slot.value w
    exact ⟨lines, quiet, by simpa [List.takeWhile_cons, asked] using ran⟩
  next free => exact files_enter free

theorem files_enterBundle (code : UserCode σ) (b : Nat) (entries : List (Value × Value)) (source : Value) :
    Files (enterBundle code b entries source) b Slot.fits fun w => bundleSlots code w source entries := by
  refine Files.forM (fun _ _ _ => rfl) fun entry w => ?_
  rw [run_registerEntry]
  exact (files_slot _).tell_bind (tells_logWords (by decide) _) (fun _ _ => rfl) w

theorem files_loadPlugins (cell : Nat) :
    Files (loadPlugins b (.map cell) : Act σ PUnit) b Slot.fits fun w => pluginSlots (w.heap.mapAt cell).entries := by
  have each : ∀ entries : List (Value × Value),
      Files (entries.forM fun entry => registerPlugin b entry.1 entry.2 : Act σ PUnit) b Slot.fits
        fun _ => pluginSlots entries := fun entries =>
    Files.forM (fun _ _ _ => rfl) fun _ =>
      .tell_bind (tells_logWords (by decide) _) (fun _ _ => rfl) (files_enter (by decide))
  apply Files.tell_bind (tells_log (by decide) _) (fun _ _ => rfl)
  exact fun w => (each (w.heap.mapAt cell).entries).bind_tell (tells_log (by decide) _) w

theorem all_fits_configSlots (entries : List (Value × Value)) : (configSlots entries).all Slot.fits = true := by
  simp [configSlots, Slot.fits]

theorem all_fits_pluginSlots (entries : List (Value × Value)) : (pluginSlots entries).all Slot.fits = true := by
  simp [pluginSlots, Slot.fits]

end Board

end TaskBoard
