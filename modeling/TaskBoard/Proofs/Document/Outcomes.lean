import TaskBoard.Document.Content

/-!
What the stages of reading a document come to: a result with one property, or a failure with another. The stages
work on a place in the text, on a lexer, on the tokens that are left and on a draft; for each the property of a
sequence is put together from those of its parts, with what is known of the state in between.
-/

namespace TaskBoard.Document

/-- A result fits if it is one, and a failure does. -/
structure Comes {α : Type} (fit : α → Prop) (fails : Failure → Prop) (result : Except Failure α) : Prop where
  returned : ∀ a, result = .ok a → fit a
  failed : ∀ failure, result = .error failure → fails failure

namespace Comes

variable {α β : Type} {fit : α → Prop} {fails : Failure → Prop} {result : Except Failure α}

theorem pure {a : α} (fits : fit a) : Comes fit fails (pure a) where
  returned b same := by
    cases same
    exact fits
  failed _ same := by cases same

theorem throw {failure : Failure} (unfit : fails failure) : Comes fit fails (throw failure) where
  returned _ same := by cases same
  failed other same := by
    cases same
    exact unfit

theorem throw_bind {fit' : β → Prop} {next : α → Except Failure β} {failure : Failure} (unfit : fails failure) :
    Comes fit' fails (MonadExcept.throw failure >>= next) := throw unfit

theorem self (result : Except Failure α) :
    Comes (fun a => result = .ok a) (fun failure => result = .error failure) result :=
  ⟨fun _ same => same, fun _ same => same⟩

theorem bind {fit' : β → Prop} {next : α → Except Failure β} (first : Comes fit fails result)
    (rest : ∀ a, fit a → Comes fit' fails (next a)) : Comes fit' fails (result >>= next) := by
  cases result with
  | error failure => exact .throw (first.failed failure rfl)
  | ok a => exact rest a (first.returned a rfl)

theorem ok_bind {fit' : β → Prop} {next : α → Except Failure β} {a : α} (given : result = .ok a)
    (rest : Comes fit' fails (next a)) : Comes fit' fails (result >>= next) := by
  rw [given]
  exact rest

theorem eq_ok {a : α} (comes : Comes (· = a) (fun _ => False) result) : result = .ok a := by
  cases result with
  | ok b => exact congrArg _ (comes.returned b rfl)
  | error failure => exact (comes.failed failure rfl).elim

theorem mono {fit' : α → Prop} {fails' : Failure → Prop} (comes : Comes fit fails result) (fits : ∀ a, fit a → fit' a)
    (unfits : ∀ failure, fails failure → fails' failure) : Comes fit' fails' result where
  returned a same := fits a (comes.returned a same)
  failed failure same := unfits failure (comes.failed failure same)

theorem map {fit' : β → Prop} {change : α → β} (first : Comes fit fails result)
    (rest : ∀ a, fit a → fit' (change a)) : Comes fit' fails (change <$> result) := by
  cases result with
  | error failure => exact throw (first.failed failure rfl)
  | ok a => exact pure (rest a (first.returned a rfl))

theorem mapM (f : α → Except Failure β) (items : List α) :
    Comes (fun made => made.length = items.length ∧ ∀ a ∈ items, ∃ b, f a = .ok b)
      (fun failure => ∃ a ∈ items, f a = .error failure) (items.mapM f) := by
  induction items with
  | nil => exact pure ⟨rfl, List.forall_mem_nil _⟩
  | cons first rest ih =>
    rw [List.mapM_cons]
    cases given : f first with
    | error failure => exact throw ⟨first, List.mem_cons_self, given⟩
    | ok b =>
      have others : Comes (fun made => made.length = rest.length ∧ ∀ a ∈ rest, ∃ b, f a = .ok b)
          (fun failure => ∃ a ∈ first :: rest, f a = .error failure) (rest.mapM f) :=
        ih.mono (fun _ => id) fun _ ⟨a, member, failed⟩ => ⟨a, List.mem_cons_of_mem first member, failed⟩
      exact others.bind fun made ⟨size, each⟩ =>
        pure ⟨congrArg (· + 1) size, List.forall_mem_cons.mpr ⟨⟨b, given⟩, each⟩⟩

theorem foldlM {step : β → α → Except Failure β} {inv : β → Prop} (each : ∀ b a, inv b → Comes inv fails (step b a))
    (items : List α) {start : β} (begins : inv start) : Comes inv fails (items.foldlM step start) := by
  induction items generalizing start with
  | nil => exact pure begins
  | cons first rest ih =>
    rw [List.foldlM_cons]
    exact (each start first begins).bind fun b holds => ih holds

end Comes

section States

variable {S α β : Type}

/-- What an action that may fail comes to from a state. -/
def Steps (act : StateT S (Except Failure) α) (s : S) (fit : α → S → Prop) (fails : Failure → Prop) : Prop :=
  Comes (fun r => fit r.1 r.2) fails (act s)

namespace Steps

variable {act : StateT S (Except Failure) α} {s : S} {fit : α → S → Prop} {fails : Failure → Prop}

theorem pure {a : α} (fits : fit a s) : Steps (pure a) s fit fails := Comes.pure fits

theorem throw {failure : Failure} (unfit : fails failure) : Steps (throw failure) s fit fails := Comes.throw unfit

theorem get_bind {fit' : β → S → Prop} {next : S → StateT S (Except Failure) β} (rest : Steps (next s) s fit' fails) :
    Steps (MonadState.get >>= next) s fit' fails := rest

theorem throw_bind {fit' : β → S → Prop} {next : α → StateT S (Except Failure) β} {failure : Failure}
    (unfit : fails failure) : Steps (MonadExcept.throw failure >>= next) s fit' fails := Comes.throw unfit

theorem set_bind {fit' : β → S → Prop} {next : PUnit → StateT S (Except Failure) β} {after : S}
    (rest : Steps (next ⟨⟩) after fit' fails) : Steps (set after >>= next) s fit' fails := rest

theorem modify_bind {fit' : β → S → Prop} {next : PUnit → StateT S (Except Failure) β} {change : S → S}
    (rest : Steps (next ⟨⟩) (change s) fit' fails) : Steps (modify change >>= next) s fit' fails := rest

theorem modify {fit : PUnit → S → Prop} {change : S → S} (fits : fit ⟨⟩ (change s)) :
    Steps (modify change) s fit fails := Comes.pure fits

theorem modifyGet {change : S → α × S} (fits : fit (change s).1 (change s).2) :
    Steps (modifyGet change) s fit fails := Comes.pure fits

theorem bind {fit' : β → S → Prop} {next : α → StateT S (Except Failure) β} (first : Steps act s fit fails)
    (rest : ∀ a after, fit a after → Steps (next a) after fit' fails) : Steps (act >>= next) s fit' fails :=
  Comes.bind first fun r fits => rest r.1 r.2 fits

theorem map {fit' : β → S → Prop} {change : α → β} (first : Steps act s fit fails)
    (rest : ∀ a after, fit a after → fit' (change a) after) : Steps (change <$> act) s fit' fails :=
  Comes.bind first fun r fits => Comes.pure (rest r.1 r.2 fits)

theorem lift {result : Except Failure α} {fit : α → Prop} (comes : Comes fit fails result) :
    Steps (liftM result) s (fun a after => after = s ∧ fit a) fails :=
  Comes.bind comes fun _ fits => Comes.pure ⟨rfl, fits⟩

theorem mono {fit' : α → S → Prop} {fails' : Failure → Prop} (steps : Steps act s fit fails)
    (fits : ∀ a after, fit a after → fit' a after) (unfits : ∀ failure, fails failure → fails' failure) :
    Steps act s fit' fails' :=
  Comes.mono steps (fun r => fits r.1 r.2) unfits

end Steps

end States

namespace Lexer

/-- What an action of the lexer comes to; what it leaves behind when it fails does not count. -/
def Goes {α : Type} (act : Lex α) (l : Lexer) (fit : α → Lexer → Prop) (fails : Failure → Prop) : Prop :=
  Comes (fun a => fit a (act.run.run l).2) fails (act.run.run l).1

namespace Goes

variable {α β : Type} {act : Lex α} {l : Lexer} {fit : α → Lexer → Prop} {fails : Failure → Prop}

theorem pure {a : α} (fits : fit a l) : Goes (pure a) l fit fails := Comes.pure fits

theorem throw {failure : Failure} (unfit : fails failure) : Goes (throw failure) l fit fails := Comes.throw unfit

theorem throw_bind {fit' : β → Lexer → Prop} {next : α → Lex β} {failure : Failure} (unfit : fails failure) :
    Goes (MonadExcept.throw failure >>= next) l fit' fails := Comes.throw unfit

theorem ite {cond : Prop} [Decidable cond] {other : Lex α} (holds : cond → Goes act l fit fails)
    (otherwise : ¬cond → Goes other l fit fails) : Goes (if cond then act else other) l fit fails := by
  split
  next yes => exact holds yes
  next no => exact otherwise no

theorem get_bind {fit' : β → Lexer → Prop} {next : Lexer → Lex β} (rest : Goes (next l) l fit' fails) :
    Goes (MonadState.get >>= next) l fit' fails := rest

theorem set {fit : PUnit → Lexer → Prop} {after : Lexer} (fits : fit ⟨⟩ after) : Goes (set after) l fit fails :=
  Comes.pure fits

theorem modify {fit : PUnit → Lexer → Prop} {change : Lexer → Lexer} (fits : fit ⟨⟩ (change l)) :
    Goes (modify change) l fit fails := Comes.pure fits

theorem bind {fit' : β → Lexer → Prop} {next : α → Lex β} (first : Goes act l fit fails)
    (rest : ∀ a after, fit a after → Goes (next a) after fit' fails) : Goes (act >>= next) l fit' fails := by
  have run : (act >>= next).run.run l = (ExceptT.bindCont next (act.run.run l).1).run (act.run.run l).2 := rfl
  unfold Goes
  rw [run]
  cases given : (act.run.run l).1 with
  | error failure => exact .throw (first.failed failure given)
  | ok a => exact rest a _ (first.returned a given)

theorem mono {fit' : α → Lexer → Prop} (goes : Goes act l fit fails) (fits : ∀ a after, fit a after → fit' a after) :
    Goes act l fit' fails :=
  Comes.mono goes (fun a => fits a _) fun _ => id

end Goes

end Lexer

end TaskBoard.Document
