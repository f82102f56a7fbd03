import TaskBoard.Proofs.Driving
import TaskBoard.Proofs.Recording

/-!
What the library has user code do while it collects and while its loop runs: list files, map groups, run stretches of
routines and receive values. Nothing else happens to the state of user code, and the past tells of all calls of mappers
and of receivers: each is noted right before it is made, and nothing is noted that is not made then.
-/

namespace TaskBoard

open Act Board

variable {σ : Type}

/-- What may come of a world through the dealings of a collection, or of a loop, with user code. -/
inductive Dealings (code : UserCode σ) (b : Nat) (first : World σ) : World σ → Prop where
  | stay : Dealings code b first first
  | aside {w after : World σ} : Dealings code b first w → after.user = w.user → after.past = w.past →
    Dealings code b first after
  | reports {w : World σ} (g : Nat) (name : String) (failure : Failure) : Dealings code b first w →
    Dealings code b first { w with past := .reported g name failure :: w.past }
  | lists {w : World σ} (pattern : Value) : Dealings code b first w →
    Dealings code b first ((resolveSources code b pattern).run w).2
  | maps {w : World σ} (g : Nat) (mapper : Value) : Dealings code b first w →
    Dealings code b first ((callBound code b mapper [.group g]).run { w with past := .mapped g mapper :: w.past }).2
  | resumes {w : World σ} (id : Nat) (args : List Value) (stretch : Nat) (result : Except Failure Value) :
    Dealings code b first w → Dealings code b first ((code.resume id args stretch result).run w).2
  | delivers {w : World σ} (g id : Nat) (v : Value) : Dealings code b first w →
    Dealings code b first ((callUser code id [v]).run { w with past := .delivered g id v :: w.past }).2

variable {code : UserCode σ} {b : Nat}

namespace Dealings

theorem trans {first second third : World σ} (early : Dealings code b first second)
    (late : Dealings code b second third) : Dealings code b first third := by
  induction late with
  | stay => exact early
  | aside _ user past ih => exact ih.aside user past
  | reports g name failure _ ih => exact ih.reports g name failure
  | lists pattern _ ih => exact ih.lists pattern
  | maps g mapper _ ih => exact ih.maps g mapper
  | resumes id args stretch result _ ih => exact ih.resumes id args stretch result
  | delivers g id v _ ih => exact ih.delivers g id v

instance : Std.Refl (Dealings code b) := ⟨fun _ => .stay⟩

instance : IsTrans (World σ) (Dealings code b) := ⟨fun _ _ _ => trans⟩

theorem forward (group : Nat) (receiver current : Option Nat) (outcome : Outcome) :
    Keeps (Dealings code b) (Loop.forward code group receiver current outcome) := by
  cases outcome with
  | cancelled => exact Keeps.pure _
  | failed failure =>
    refine Keeps.bind Keeps.get fun w => ?_
    split
    · exact Keeps.pure _
    · exact Keeps.bind (fun w => Dealings.stay.reports _ _ _) fun _ => Keeps.modify fun w => Dealings.stay.aside rfl rfl
  | value v =>
    cases receiver with
    | none => exact Keeps.pure _
    | some id =>
      have calls : Keeps (Dealings code b) (do
          note (.delivered group id v)
          inContext current (callUser code id [v])) := fun w =>
        have entered : Dealings code b w { w with current := current } := Dealings.stay.aside rfl rfl
        (entered.delivers group id v).aside rfl rfl
      have forwards := Keeps.bind calls fun _ => Keeps.pure (R := Dealings code b) PUnit.unit
      rw [bind_assoc] at forwards
      exact forwards

theorem loops : Loops code (Dealings code b) where
  resume id args stretch result _ := Dealings.stay.resumes id args stretch result
  forward := forward
  beside _ _ beside past := Dealings.stay.aside (beside.reads World.user) past

theorem deliver (g : Nat) (receiver : Option Nat) (v : Value) :
    Keeps (Dealings code b) (Board.deliver code g receiver v) := by
  cases receiver with
  | none => exact Keeps.pure _
  | some id =>
    have calls : Keeps (Dealings code b) (do note (.delivered g id v); callUser code id [v]) := fun w =>
      Dealings.stay.delivers g id v
    have delivers := Keeps.bind calls fun _ => Keeps.pure (R := Dealings code b) PUnit.unit
    rw [bind_assoc] at delivers
    exact delivers

theorem collects (receiver : Option Nat) : Collects code b receiver (Dealings code b) where
  heap _ _ := Dealings.stay.aside rfl rfl
  record _ _ _ := Dealings.stay.aside rfl rfl
  group _ _ := Dealings.stay.aside rfl rfl
  board _ _ := Dealings.stay.aside rfl rfl
  log _ _ _ := Keeps.modify fun _ => Dealings.stay.aside rfl rfl
  sources pattern _ := Dealings.stay.lists pattern
  mapper g mapper _ := Dealings.stay.maps g mapper
  deliver g v := deliver g receiver v
  schedule g r := by
    refine Keeps.bind Keeps.get fun w => ?_
    split
    · apply Keeps.bind (Loop.keeps_runToCompletion loops r)
      exact fun v => Keeps.bind (deliver g receiver v) fun _ => Keeps.pure _
    · refine Keeps.bind (Loop.keeps_makeTask loops r) fun task => ?_
      exact Keeps.bind (Loop.keeps_watch loops task _) fun _ => Keeps.pure _

end Dealings

/-- Whatever becomes of a collection, it has dealt with user code as it should. -/
theorem dealings_collect (receiver : Option Nat) (w : World σ) :
    Dealings code b w ((collect code b receiver).run w).2 := keeps_collect (Dealings.collects receiver) w

/-- A job that is taken from the queue and run deals with user code as it should. -/
theorem dealings_runJob (job : Job) (w : World σ) (l : Loop) :
    Dealings code b w ((Loop.runJob code job).run { w with loop := some l }).2 := by
  have popped : Dealings code b w { w with loop := some l } := Dealings.stay.aside rfl rfl
  exact popped.trans (Loop.keeps_runJob Dealings.loops job _)

end TaskBoard
