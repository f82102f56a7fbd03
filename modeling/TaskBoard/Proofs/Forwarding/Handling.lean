import TaskBoard.Board.Collect
import TaskBoard.Proofs.Forwarding.Interleaving

/-!
How a collection handles the mapper of a group: there is none, or it gives a value that is delivered at
once, or a task runs on and its outcome is told later. What stands of a group after that is not changed by
whatever happens later, but that a task goes forward.
-/

namespace TaskBoard

open Act World

variable {σ : Type}

inductive Handling where
  | unmapped
  | plain (mapper value : Value)
  | task (track : Track)

/-- The call of a mapper with its group, right after it is noted, and what it gives. -/
structure Called (code : UserCode σ) (b g : Nat) (mapper given : Value) (before after : World σ) : Prop where
  noted : before.past.head? = some (.mapped g mapper)
  ran : (Board.callBound code b mapper [.group g]).run before = (.ok given, after)

/-- A value is handed to the receiver, if there is one, right after that is noted. -/
def Receives (code : UserCode σ) (receiver : Option Nat) (g : Nat) (v : Value) (before after : World σ) : Prop :=
  match receiver with
  | none => after = before
  | some id => ∃ given,
      (Board.callUser code id [v]).run { before with past := .delivered g id v :: before.past } = (.ok given, after)

namespace Handling

/-- How a handling has come about between two worlds, for a group and its mapper. -/
inductive Origin (code : UserCode σ) (b : Nat) (receiver : Option Nat) (g : Nat) (first last : World σ) :
    Option Value → Handling → Prop where
  | unmapped : Origin code b receiver g first last none .unmapped
  | plain {mapper value : Value} {before after told : World σ} (early : Ledger first before)
    (called : Called code b g mapper value before after) (settled : ∀ r, value ≠ .routine r)
    (handed : Receives code receiver g value after told) (late : Ledger told last) :
    Origin code b receiver g first last (some mapper) (.plain mapper value)
  | task {t : Track} {r : Nat} {before after made : World σ} (early : Ledger first before)
    (called : Called code b g t.mapper (.routine r) before after)
    (makes : (Loop.makeTask r).run after = (.ok t.task, made)) (late : Ledger made last)
    (about : t.group = g) (tells : t.receiver = receiver) :
    Origin code b receiver g first last (some t.mapper) (.task t)

/-- What stands of a group right after it was handled so. -/
def Begins (receiver : Option Nat) (g : Nat) : Handling → World σ → Prop
  | unmapped, w => Idle g w ∧ (w.group g).pending = none ∧ w.deedsOf g = []
  | plain mapper value, w => Idle g w ∧ (w.group g).pending = none ∧
      w.deedsOf g = .mapped g mapper :: (receiver.map fun id => GroupDeed.delivered g id value).toList
  | task t, w => t.group = g ∧ t.At .running w

/-- What stands of the group from then on: as much, but that the task goes forward, and what is told of it is told by
the job that tells. -/
def Stands (code : UserCode σ) (receiver : Option Nat) (g : Nat) (first : World σ) : Handling → World σ → Prop
  | task t, w => t.group = g ∧ ∃ stage, t.At stage w ∧ ∀ outcome, stage = .told outcome → t.Told code outcome first w
  | handling, w => handling.Begins receiver g w

variable {code : UserCode σ} {b : Nat} {receiver : Option Nat} {g : Nat} {mapper : Option Value}
  {handling : Handling}

theorem Origin.mono {first last start after : World σ} (origin : handling.Origin code b receiver g first last mapper)
    (early : Ledger start first) (late : Ledger last after) :
    handling.Origin code b receiver g start after mapper := by
  cases origin with
  | unmapped => exact .unmapped
  | plain before called settled handed after =>
    exact .plain (early.trans before) called settled handed (after.trans late)
  | task before called makes after about tells =>
    exact .task (early.trans before) called makes (after.trans late) about tells

theorem Begins.books {w after : World σ} (begins : handling.Begins receiver g w) (books : Books (· = g) w after) :
    handling.Begins receiver g after := by
  cases handling with
  | unmapped =>
    obtain ⟨idle, pending, deeds⟩ := begins
    exact ⟨idle.books books, by rw [books.group g rfl, pending], by rw [books.deeds g rfl, deeds]⟩
  | plain mapper value =>
    obtain ⟨idle, pending, deeds⟩ := begins
    exact ⟨idle.books books, by rw [books.group g rfl, pending], by rw [books.deeds g rfl, deeds]⟩
  | task t =>
    obtain ⟨rfl, running⟩ := begins
    exact ⟨rfl, running.books books⟩

/-- Whatever happens later, a group stands as it was handled. -/
theorem Begins.later {w after : World σ} (tame : code.Tame) (begins : handling.Begins receiver g w)
    (later : Later code w after) : handling.Stands code receiver g w after := by
  cases handling with
  | unmapped => exact begins.books (begins.1.later tame later)
  | plain mapper value => exact begins.books (begins.1.later tame later)
  | task t =>
    obtain ⟨rfl, running⟩ := begins
    obtain ⟨next, -, arrived, told⟩ := running.later tame later
    refine ⟨rfl, next, arrived, fun outcome last => ?_⟩
    exact (told outcome last).resolve_left fun same => by cases same

end Handling

end TaskBoard
