import Mathlib.Order.Defs.Unbundled
import TaskBoard.Act

/-!
How actions run, what they keep and what they yield. A relation between worlds is kept by an action if
every world that the action starts in is related to the one it ends in, whether it fails or not. What is
reflexive and transitive and kept by the parts of an action is kept by the whole. An action yields a result
from one world if it does not fail there.
-/

namespace TaskBoard.Act

variable {σ α β : Type}

section Runs

variable (w : World σ)

@[simp] theorem run_pure (a : α) : (pure a : Act σ α).run w = (.ok a, w) := rfl

@[simp] theorem run_throw (failure : Failure) : (throw failure : Act σ α).run w = (.error failure, w) := rfl

@[simp] theorem run_get : (get : Act σ (World σ)).run w = (.ok w, w) := rfl

@[simp] theorem run_set (after : World σ) : (set after : Act σ PUnit).run w = (.ok ⟨⟩, after) := rfl

@[simp] theorem run_modify (change : World σ → World σ) :
    (modify change : Act σ PUnit).run w = (.ok ⟨⟩, change w) := rfl

@[simp] theorem run_modifyGet (change : World σ → α × World σ) :
    (modifyGet change : Act σ α).run w = (.ok (change w).1, (change w).2) := rfl

@[simp] theorem run_ofExcept (result : Except Failure α) : (ofExcept result : Act σ α).run w = (result, w) := rfl

@[simp] theorem run_attempt (act : Act σ α) : (attempt act).run w = (.ok (act.run w).1, (act.run w).2) := rfl

theorem run_attempt_ok {act : Act σ α} {a : α} {w after : World σ} (ran : act.run w = (.ok a, after)) :
    (attempt act).run w = (.ok (.ok a), after) := by rw [run_attempt, ran]

@[simp] theorem run_board (b : Nat) : (board b : Act σ Board).run w = (.ok (w.board b), w) := rfl

@[simp] theorem run_heap : (heap : Act σ Heap).run w = (.ok w.heap, w) := rfl

variable {w}

section Words

variable {severity : Severity} {words : Heap → Except Failure String}

theorem run_logWords_ok {text : String} (told : words w.heap = .ok text) :
    (logWords severity words).run w = (log severity text).run w := by
  unfold logWords
  rw [run_modify, told]
  rfl

theorem run_logWords_error {failure : Failure} (untold : words w.heap = .error failure) :
    (logWords severity words).run w = (.ok (), w) := by
  unfold logWords
  rw [run_modify, untold]

theorem run_logWords (severity : Severity) (words : Heap → Except Failure String) (w : World σ) :
    ∃ log, (logWords severity words).run w = (.ok (), { w with log }) := by
  cases told : words w.heap with
  | ok text => exact ⟨_, run_logWords_ok told⟩
  | error failure => exact ⟨w.log, run_logWords_error told⟩

end Words

theorem run_bind_ok {act : Act σ α} {next : α → Act σ β} {a : α} {after : World σ}
    (ran : act.run w = (.ok a, after)) : (act >>= next).run w = (next a).run after := by
  change (ExceptT.bindCont next (act.run w).1).run (act.run w).2 = _
  rw [ran]
  rfl

theorem run_bind_error {act : Act σ α} {next : α → Act σ β} {failure : Failure} {after : World σ}
    (ran : act.run w = (.error failure, after)) : (act >>= next).run w = (.error failure, after) := by
  change (ExceptT.bindCont next (act.run w).1).run (act.run w).2 = _
  rw [ran]
  rfl

theorem world_bind_pure {act : Act σ α} {give : α → β} : ((act >>= fun a => pure (give a)).run w).2 = (act.run w).2 := by
  rcases ran : act.run w with ⟨failure | a, after⟩
  · rw [run_bind_error ran]
  · rw [run_bind_ok ran]
    rfl

theorem run_bind_congr {act other : Act σ α} {next : α → Act σ β} {v : World σ} (same : act.run w = other.run v) :
    (act >>= next).run w = (other >>= next).run v := by
  change (ExceptT.bindCont next (act.run w).1).run (act.run w).2 = _
  rw [same]
  rfl

theorem run_onHeap_ok {f : Heap → Except Failure (α × Heap)} {a : α} {h : Heap} (made : f w.heap = .ok (a, h)) :
    (onHeap f).run w = (.ok a, { w with heap := h }) := by
  unfold onHeap
  rw [run_bind_ok (run_heap w), made]
  rfl

theorem run_onHeap_error {f : Heap → Except Failure (α × Heap)} {failure : Failure} (made : f w.heap = .error failure) :
    (onHeap f).run w = (.error failure, w) := by
  unfold onHeap
  rw [run_bind_ok (run_heap w), made]
  rfl

theorem run_inContext {act : Act σ α} {current : Option Nat} {result : Except Failure α} {after : World σ}
    (ran : act.run { w with current := current } = (result, after)) :
    (inContext current act).run w = (result, { after with current := w.current }) := by
  have opened : (inContext current act).run w =
      (fun ended : Except Failure α × World σ => (ended.1, { ended.2 with current := w.current }))
        (act.run { w with current := current }) := rfl
  rw [opened, ran]

theorem run_inContext_congr {act other : Act σ α} {current : Option Nat}
    (same : act.run { w with current := current } = other.run { w with current := current }) :
    (inContext current act).run w = (inContext current other).run w := by
  rcases ran : act.run { w with current := current } with ⟨result, after⟩
  rw [run_inContext ran, run_inContext (same.symm.trans ran)]

theorem run_within_ok {act : Act σ α} {current : Option Nat} {a : α} {after : World σ}
    (ran : act.run { w with current := current } = (.ok a, after)) :
    (within current act).run w = (.ok (a, after.current), { after with current := w.current }) := by
  have opened : (within current act).run w =
      (fun ended : Except Failure α × World σ =>
        (ended.1.map fun a => (a, ended.2.current), { ended.2 with current := w.current }))
        (act.run { w with current := current }) := rfl
  rw [opened, ran]
  rfl

end Runs

/-- An action that never fails. -/
def Total (act : Act σ α) : Prop := ∀ w, ∃ a after, act.run w = (.ok a, after)

namespace Total

theorem pure (a : α) : Total (pure a : Act σ α) := fun w => ⟨a, w, rfl⟩

theorem get : Total (get : Act σ (World σ)) := fun w => ⟨w, w, rfl⟩

theorem set (after : World σ) : Total (set after : Act σ PUnit) := fun _ => ⟨_, _, rfl⟩

theorem modify (change : World σ → World σ) : Total (modify change : Act σ PUnit) := fun _ => ⟨_, _, rfl⟩

theorem modifyGet (change : World σ → α × World σ) : Total (modifyGet change : Act σ α) :=
  fun _ => ⟨_, _, rfl⟩

theorem attempt (act : Act σ α) : Total (attempt act) := fun _ => ⟨_, _, rfl⟩

theorem within {act : Act σ α} (total : Total act) (current : Option Nat) : Total (within current act) := by
  intro w
  obtain ⟨a, after, ran⟩ := total { w with current := current }
  exact ⟨_, _, run_within_ok ran⟩

theorem bind {act : Act σ α} {next : α → Act σ β} (first : Total act) (rest : ∀ a, Total (next a)) :
    Total (act >>= next) := by
  intro w
  obtain ⟨a, after, ran⟩ := first w
  rw [run_bind_ok ran]
  exact rest a after

end Total

/-- Whatever world an action starts in, it ends in one related to it. -/
def Keeps (R : World σ → World σ → Prop) (act : Act σ α) : Prop := ∀ w, R w (act.run w).2

namespace Keeps

variable {R : World σ → World σ → Prop}

theorem modify {change : World σ → World σ} (kept : ∀ w, R w (change w)) :
    Keeps R (modify change : Act σ PUnit) := kept

theorem modifyGet {change : World σ → α × World σ} (kept : ∀ w, R w (change w).2) :
    Keeps R (modifyGet change : Act σ α) := kept

theorem attempt {act : Act σ α} (kept : Keeps R act) : Keeps R (attempt act) := kept

section Refl

variable [Std.Refl R]

theorem pure (a : α) : Keeps R (pure a : Act σ α) := fun w => refl_of R w

theorem throw_bind (failure : Failure) (next : α → Act σ β) : Keeps R (throw failure >>= next) := fun w =>
  refl_of R w

theorem throw (failure : Failure) : Keeps R (throw failure : Act σ α) := fun w => refl_of R w

theorem get : Keeps R (get : Act σ (World σ)) := fun w => refl_of R w

theorem ofExcept (result : Except Failure α) : Keeps R (ofExcept result : Act σ α) := fun w => refl_of R w

theorem unchanged {act : Act σ α} (same : ∀ w, (act.run w).2 = w) : Keeps R act := by
  intro w
  rw [same w]
  exact refl_of R w

theorem logWords {severity : Severity} {words : Heap → Except Failure String}
    (logs : ∀ text, Keeps R (log severity text : Act σ Unit)) : Keeps R (logWords severity words : Act σ Unit) := by
  intro w
  cases told : words w.heap with
  | error failure =>
    rw [run_logWords_error told]
    exact refl_of R w
  | ok text =>
    rw [run_logWords_ok told]
    exact logs text w

end Refl

variable [IsTrans (World σ) R]

theorem bind {act : Act σ α} {next : α → Act σ β} (first : Keeps R act) (rest : ∀ a, Keeps R (next a)) :
    Keeps R (act >>= next) := by
  intro w
  rcases ran : act.run w with ⟨_ | a, after⟩
  · rw [run_bind_error ran]
    have kept := first w
    rwa [ran] at kept
  · rw [run_bind_ok ran]
    have kept := first w
    rw [ran] at kept
    exact trans_of R kept (rest a after)

variable [Std.Refl R]

theorem forM_of_mem {act : α → Act σ PUnit} {items : List α} (each : ∀ item ∈ items, Keeps R (act item)) :
    Keeps R (items.forM act) := by
  induction items with
  | nil => exact Keeps.pure PUnit.unit
  | cons item items ih =>
    have later := ih fun other member => each other (List.mem_cons_of_mem item member)
    exact bind (each item List.mem_cons_self) fun _ => later

theorem forM {act : α → Act σ PUnit} (each : ∀ a, Keeps R (act a)) (items : List α) :
    Keeps R (items.forM act) := forM_of_mem fun item _ => each item

theorem mapM {act : α → Act σ β} (each : ∀ a, Keeps R (act a)) (items : List α) :
    Keeps R (items.mapM act) := by
  induction items with
  | nil => exact Keeps.pure []
  | cons item items ih =>
    rw [List.mapM_cons]
    exact bind (each item) fun b => bind ih fun bs => Keeps.pure (b :: bs)

end Keeps

/-- From a world an action returns, and its result and the world that it ends in fit. -/
def Yields (act : Act σ α) (w : World σ) (fit : α → World σ → Prop) : Prop :=
  ∃ a after, act.run w = (.ok a, after) ∧ fit a after

namespace Yields

variable {act : Act σ α} {w : World σ} {fit : α → World σ → Prop}

theorem intro {a : α} {after : World σ} (ran : act.run w = (.ok a, after)) (fits : fit a after) :
    Yields act w fit := ⟨a, after, ran, fits⟩

theorem pure {a : α} (fits : fit a w) : Yields (pure a) w fit := intro (run_pure w a) fits

theorem modify {change : World σ → World σ} {fit : PUnit → World σ → Prop} (fits : fit ⟨⟩ (change w)) :
    Yields (modify change) w fit := intro (run_modify w change) fits

theorem of_run {other : Act σ α} (same : act.run w = other.run w) (yields : Yields other w fit) : Yields act w fit := by
  rwa [Yields, same]

theorem mono {more : α → World σ → Prop} (yields : Yields act w fit)
    (fits : ∀ a after, act.run w = (.ok a, after) → fit a after → more a after) : Yields act w more := by
  obtain ⟨a, after, ran, fitting⟩ := yields
  exact intro ran (fits a after ran fitting)

theorem bind {next : α → Act σ β} {fits : β → World σ → Prop} (first : Yields act w fit)
    (rest : ∀ a after, fit a after → Yields (next a) after fits) : Yields (act >>= next) w fits := by
  obtain ⟨a, mid, ran, fitting⟩ := first
  obtain ⟨b, after, ranLater, fitsLater⟩ := rest a mid fitting
  exact ⟨b, after, (run_bind_ok ran).trans ranLater, fitsLater⟩

theorem run_bind {next : α → Act σ β} {fits : β → World σ → Prop} {a : α} {mid : World σ}
    (ran : act.run w = (.ok a, mid)) (rest : Yields (next a) mid fits) : Yields (act >>= next) w fits := by
  obtain ⟨b, after, ranLater, fitting⟩ := rest
  exact ⟨b, after, (run_bind_ok ran).trans ranLater, fitting⟩

/-- Actions one after another keep what each of them keeps. -/
theorem mapM {β : Type} {act : α → Act σ β} {stays : World σ → Prop} {items : List α}
    (each : ∀ item ∈ items, ∀ w, stays w → Yields (act item) w fun _ after => stays after) (holds : stays w) :
    Yields (items.mapM act) w fun _ after => stays after := by
  induction items generalizing w with
  | nil => exact pure holds
  | cons item items ih =>
    rw [List.mapM_cons]
    apply (each item (by simp) w holds).bind
    intro first mid still
    apply (ih (fun item member => each item (by simp [member])) still).bind
    intro others after last
    exact pure last

theorem inContext {current : Option Nat}
    (yields : Yields act { w with current := current } fun a after => fit a { after with current := w.current }) :
    Yields (inContext current act) w fit := by
  obtain ⟨a, after, ran, fitting⟩ := yields
  exact intro (run_inContext ran) fitting

theorem keeps {R : World σ → World σ → Prop} (yields : Yields act w fit) (kept : Keeps R act) :
    Yields act w fun a after => fit a after ∧ R w after := by
  apply yields.mono
  intro a after ran fits
  have related := kept w
  rw [ran] at related
  exact ⟨fits, related⟩

end Yields

end TaskBoard.Act
