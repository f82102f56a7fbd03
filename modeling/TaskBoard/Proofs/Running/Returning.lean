import TaskBoard.Proofs.Running.Lasting

/-!
Routines that return. User code is confined if it leaves the tasks, the loop and the routines of others alone;
then a run of a routine touches no routine but its own: those that it has been given and those that it makes.
A routine of a group returns if it comes to a value, however often it gives up its turn, and whatever else happens
meanwhile, as long as its group looks the same.
-/

namespace TaskBoard

open Act

variable {σ ι : Type}

/-- What the mapper of a group promises: a value that shows something, whatever happens in a scope meanwhile. -/
structure Promise (σ ι : Type) where
  scope : Scope σ
  shows : World σ → Value → ι → Prop
  group : Nat
  due : ι

namespace World

/-- Routines are as they were, but for some and for new ones. -/
structure Heeds (own : Nat → Prop) (w after : World σ) : Prop where
  routines : w.routines.size ≤ after.routines.size
  others : ∀ r < w.routines.size, ¬own r → after.routine r = w.routine r

/-- What is left alone by whoever looks after some routines only: the tasks, the loop, what has happened to groups,
and the other routines. -/
structure Confined (own : Nat → Prop) (w after : World σ) : Prop extends Heeds own w after where
  tasks : after.tasks = w.tasks
  loop : after.loop = w.loop
  past : after.past = w.past

/-- Some routines, and those that have been made since. -/
def Along (own : Nat → Prop) (w after : World σ) (r : Nat) : Prop :=
  own r ∨ w.routines.size ≤ r ∧ r < after.routines.size

/-- What may come after a world in which the mapper of a group waits for its turn: the group looks as it did, and the
routines that the mapper looks after are as they were. -/
structure Meanwhile (p : Promise σ ι) (own : Nat → Prop) (w later : World σ) : Prop where
  view : later.view p.group = w.view p.group
  fits : p.scope.around later
  lasts : Lasts p.shows w later
  routines : w.routines.size ≤ later.routines.size
  kept : ∀ r, own r → later.routine r = w.routine r

end World

/-- User code that keeps to the routines that it makes. -/
structure UserCode.Confined (code : UserCode σ) : Prop where
  call : ∀ id args, Keeps (World.Confined fun _ => False) (code.call id args)
  resume : ∀ id args stretch result, Keeps (World.Confined fun _ => False) (code.resume id args stretch result)

/-- A signal that begins no routine but some. -/
def Signal.Within (own : Nat → Prop) : Signal → Prop
  | .begin r => own r
  | .sent _ => True

theorem Signal.Within.mono {own more : Nat → Prop} {signal : Signal} (within : signal.Within own)
    (fewer : ∀ r, own r → more r) : signal.Within more := by
  cases signal with
  | begin r => exact fewer r within
  | sent result => trivial

/-- The same progress on top of further frames. -/
def Loop.Progress.onto (below : List Frame) : Loop.Progress → Loop.Progress
  | .going frames signal => .going (frames ++ below) signal
  | .halted (.paused frames) => .halted (.paused (frames ++ below))
  | .halted (.ended result) => .halted (.ended result)

/-- The rest of a run, which takes less than so many steps until it gives a value, whatever happens meanwhile when it
gives up its turn. It begins no routines but its own, and its context is given back to it. -/
inductive Returns (code : UserCode σ) (p : Promise σ ι) :
    Nat → (Nat → Prop) → List Frame → Signal → World σ → Prop where
  | ended {n : Nat} {own : Nat → Prop} {v : Value} {w : World σ} (given : p.shows w v p.due) :
    Returns code p (n + 1) own [] (.sent (.ok v)) w
  | going {n : Nat} {own : Nat → Prop} {frames next : List Frame} {signal sent : Signal} {w after : World σ}
    (within : signal.Within own) (ran : (Loop.advance code frames signal).run w = (.ok (.going next sent), after))
    (rest : Returns code p n (World.Along own w after) next sent after) :
    Returns code p (n + 1) own frames signal w
  | paused {n : Nat} {own : Nat → Prop} {frames next : List Frame} {signal : Signal} {w after : World σ}
    (within : signal.Within own)
    (ran : (Loop.advance code frames signal).run w = (.ok (.halted (.paused next)), after))
    (rest : ∀ later, World.Meanwhile p (World.Along own w after) after later → later.current = after.current →
      Returns code p n (World.Along own w after) next (.sent (.ok .nothing)) later) :
    Returns code p (n + 1) own frames signal w

namespace World

variable {own : Nat → Prop} {p : Promise σ ι} {w mid after : World σ}

namespace Confined

theorem refl (own : Nat → Prop) (w : World σ) : Confined own w w := ⟨⟨Nat.le_refl _, fun _ _ _ => rfl⟩, rfl, rfl, rfl⟩

/-- A run that goes on may look after what it has made meanwhile. -/
theorem trans (early : Confined own w mid) (late : Confined (Along own w mid) mid after) : Confined own w after where
  tasks := late.tasks.trans early.tasks
  loop := late.loop.trans early.loop
  past := late.past.trans early.past
  routines := Nat.le_trans early.routines late.routines
  others r known other := by
    have foreign : ¬Along own w mid r := by
      rintro (among | ⟨newer, -⟩)
      · exact other among
      · exact Nat.lt_irrefl _ (Nat.lt_of_lt_of_le known newer)
    rw [late.others r (Nat.lt_of_lt_of_le known early.routines) foreign, early.others r known other]

theorem mono {more : Nat → Prop} (confined : Confined own w after) (fewer : ∀ r, own r → more r) :
    Confined more w after :=
  { confined with others := fun r known other => confined.others r known fun among => other (fewer r among) }

instance : Std.Refl (Confined (σ := σ) own) := ⟨refl own⟩

instance : IsTrans (World σ) (Confined own) where
  trans _ _ _ early late := early.trans (late.mono fun _ among => .inl among)

theorem of_same (tasks : after.tasks = w.tasks) (loop : after.loop = w.loop) (past : after.past = w.past)
    (routines : after.routines = w.routines) : Confined own w after := by
  refine ⟨⟨Nat.le_of_eq (by rw [routines]), fun r _ _ => ?_⟩, tasks, loop, past⟩
  simp only [World.routine, routines]

theorem setRoutine (w : World σ) {r : Nat} (among : own r) (routine : Routine) :
    Confined own w (w.setRoutine r routine) := by
  refine ⟨⟨by simp [World.setRoutine], fun other _ foreign => ?_⟩, rfl, rfl, rfl⟩
  apply routine_setRoutine_other
  rintro rfl
  exact foreign among

theorem pushRoutine (w : World σ) (routine : Routine) :
    Confined own w { w with routines := w.routines.push routine } := by
  exact ⟨⟨by simp, fun r known _ => World.routine_push_older rfl known⟩, rfl, rfl, rfl⟩

theorem known (confined : Confined own w after) (known : ∀ r, own r → r < w.routines.size) :
    ∀ r, Along own w after r → r < after.routines.size := by
  rintro r (among | ⟨-, newer⟩)
  · exact Nat.lt_of_lt_of_le (known r among) confined.routines
  · exact newer

end Confined

namespace Meanwhile

theorem trans (early : Meanwhile p own w mid) (late : Meanwhile p own mid after) : Meanwhile p own w after where
  view := late.view.trans early.view
  fits := late.fits
  lasts := early.lasts.trans late.lasts
  routines := Nat.le_trans early.routines late.routines
  kept r among := (late.kept r among).trans (early.kept r among)

theorem mono {fewer : Nat → Prop} (meanwhile : Meanwhile p own w after) (less : ∀ r, fewer r → own r) :
    Meanwhile p fewer w after :=
  { meanwhile with kept := fun r among => meanwhile.kept r (less r among) }

theorem of_undisturbed {others : Nat → Prop} (undisturbed : Undisturbed p.scope p.shows w after)
    (enrolled : Enrolled p.scope w p.group) (heeds : Heeds others w after) (known : ∀ r, own r → r < w.routines.size)
    (apart : ∀ r, own r → ¬others r) : Meanwhile p own w after where
  view := (undisturbed.groups p.group enrolled).2
  fits := undisturbed.fits
  lasts := undisturbed.lasts
  routines := heeds.routines
  kept r among := heeds.others r (known r among) (apart r among)

theorem beside {code : UserCode σ} (discreet : code.Discreet p.scope) (preserves : code.Preserves p.scope p.shows)
    (fits : p.scope.around w) (beside : Beside w after) (routines : w.routines.size ≤ after.routines.size)
    (kept : ∀ r, own r → after.routine r = w.routine r) : Meanwhile p own w after where
  view := beside.reads fun w => w.view p.group
  fits := discreet.aside w after fits beside.aside
  lasts := preserves.beside beside
  routines := routines
  kept := kept

theorem aside {code : UserCode σ} (discreet : code.Discreet p.scope) (preserves : code.Preserves p.scope p.shows)
    (fits : p.scope.around w) (aside : Beside w after) (routines : after.routines = w.routines) :
    Meanwhile p own w after :=
  .beside discreet preserves fits aside (Nat.le_of_eq (by rw [routines])) fun r _ => by
    simp only [World.routine, routines]

end Meanwhile

end World

open World

variable {code : UserCode σ} {p : Promise σ ι}

theorem UserCode.Confined.carries {own : Nat → Prop} (confined : code.Confined) : Carries code (World.Confined own) where
  call id args w := (confined.call id args w).mono fun _ => False.elim
  routine body := Keeps.modifyGet fun w => .pushRoutine w _
  context current act kept w := by
    have entered : World.Confined own w { w with current := current } := .of_same rfl rfl rfl rfl
    have inside := trans_of (World.Confined own) entered (kept { w with current := current })
    have left : World.Confined own (act.run { w with current := current }).2 ((inContext current act).run w).2 :=
      .of_same rfl rfl rfl rfl
    exact trans_of (World.Confined own) inside left
  log _ _ _ := Keeps.modify fun _ => .of_same rfl rfl rfl rfl

namespace Loop

variable {own : Nat → Prop} {frames next : List Frame} {signal sent : Signal} {w after : World σ}

/-- A step of a run touches no routine but its own. -/
theorem confined_advance (confined : code.Confined) (within : signal.Within own) :
    World.Confined own w ((advance code frames signal).run w).2 := by
  match frames, signal with
  | frames, .begin r =>
    unfold advance beginRoutine
    rw [run_bind_ok (run_get w)]
    dsimp only
    split
    · exact .refl own w
    · have begun := World.Confined.setRoutine w within { w.routine r with begun := true }
      rw [run_bind_ok (run_set w _)]
      split
      · exact begun
      · exact { begun with }
  | [], .sent result => exact .refl own w
  | .scope b before :: frames, .sent result => exact .of_same rfl rfl rfl rfl
  | .user id args stretch :: frames, .sent result =>
    have resumed : Keeps (World.Confined own) (code.resume id args stretch result) := fun w =>
      (confined.resume id args stretch result w).mono fun _ => False.elim
    have kept : Keeps (World.Confined own) (runStretch code id args stretch frames result) := by
      apply Keeps.bind (Keeps.attempt resumed)
      intro reply
      split <;> exact Keeps.pure _
    exact kept w

/-- What a run does is the same on top of further frames, until it ends. -/
theorem advance_append {progress : Progress} (ran : (advance code frames signal).run w = (.ok progress, after))
    (goes : ∀ result, progress ≠ .halted (.ended result)) (below : List Frame) :
    (advance code (frames ++ below) signal).run w = (.ok (progress.onto below), after) := by
  match frames, signal with
  | frames, .begin r =>
    unfold advance beginRoutine at ran ⊢
    rw [run_bind_ok (run_get w)] at ran ⊢
    dsimp only at ran ⊢
    split at ran
    next begun =>
      rw [if_pos begun]
      cases ran
      rfl
    next fresh =>
      rw [if_neg fresh]
      rw [run_bind_ok (run_set w _)] at ran ⊢
      split at ran <;> cases ran <;> rfl
  | [], .sent result =>
    cases ran
    exact absurd rfl (goes result)
  | .scope b before :: frames, .sent result =>
    cases ran
    rfl
  | .user id args stretch :: frames, .sent result =>
    unfold advance runStretch at ran ⊢
    rw [run_bind_ok (run_attempt w _)] at ran
    rw [List.cons_append, run_bind_ok (run_attempt w _)]
    split at ran <;> cases ran <;> rfl

end Loop

namespace Returns

variable {n : Nat} {own : Nat → Prop} {frames : List Frame} {signal : Signal} {w : World σ}

/-- A run may be given more routines than it needs. -/
theorem mono {more : Nat → Prop} (returns : Returns code p n own frames signal w) (fewer : ∀ r, own r → more r) :
    Returns code p n more frames signal w := by
  induction returns generalizing more with
  | ended given => exact .ended given
  | going within ran rest ih =>
    exact .going (within.mono fewer) ran (ih fun r => Or.imp_left (fewer r))
  | paused within ran rest ih =>
    refine .paused (within.mono fewer) ran fun later meanwhile current => ?_
    exact ih later (meanwhile.mono fun r => Or.imp_left (fewer r)) current fun r => Or.imp_left (fewer r)

/-- A run on top of a board's frame gives the same, in the context that held before. -/
theorem onScope (preserves : code.Preserves p.scope p.shows) (returns : Returns code p n own frames signal w) (b : Nat)
    (before : Option Nat) :
    Returns code p (n + 1) own (frames ++ [.scope b before]) signal w := by
  induction returns with
  | @ended n own v w given =>
    have left : World.Beside w { w with current := before } := rfl
    exact .going trivial rfl (.ended (preserves.beside left v p.due given))
  | going within ran rest ih => exact .going within (Loop.advance_append ran (by simp) _) ih
  | paused within ran rest ih => exact .paused within (Loop.advance_append ran (by simp) _) ih

/-- A routine that is bound to a board returns if the one that it awaits does. -/
theorem bound (preserves : code.Preserves p.scope p.shows) {r inner b : Nat}
    (unbegun : w.routine r = ⟨.bound b inner, false⟩) (among : own r)
    (returns : Returns code p n own [] (.begin inner)
      { w.setRoutine r ⟨.bound b inner, true⟩ with current := some b }) :
    Returns code p (n + 2) own [] (.begin r) w := by
  have began : (Loop.advance code [] (.begin r)).run w =
      (.ok (.going [.scope b w.current] (.begin inner)),
        { w.setRoutine r ⟨.bound b inner, true⟩ with current := some b }) := by
    unfold Loop.advance Loop.beginRoutine
    rw [run_bind_ok (run_get w), unbegun]
    rfl
  exact .going among began ((returns.onScope preserves b w.current).mono fun _ => .inl)

end Returns

/-- Where a run that returns halts: it waits for its next turn with less to do, or it has given its value. -/
inductive Halts (code : UserCode σ) (p : Promise σ ι) (n : Nat) (own : Nat → Prop) :
    Halt → World σ → Prop where
  | paused {m : Nat} {frames : List Frame} {after : World σ} (fewer : m < n)
    (rest : ∀ later, Meanwhile p own after later → later.current = after.current →
      Returns code p m own frames (.sent (.ok .nothing)) later) : Halts code p n own (.paused frames) after
  | ended {v : Value} {after : World σ} (given : p.shows after v p.due) : Halts code p n own (.ended (.ok v)) after

theorem Halts.mono {n more : Nat} {own owned : Nat → Prop} {halt : Halt} {after : World σ}
    (halts : Halts code p n own halt after) (less : n ≤ more) (fewer : ∀ r, own r → owned r) :
    Halts code p more owned halt after := by
  cases halts with
  | ended given => exact .ended given
  | paused short rest =>
    refine .paused (Nat.lt_of_lt_of_le short less) fun later meanwhile current => ?_
    exact (rest later (meanwhile.mono fewer) current).mono fewer

/-- A run that returns halts, and touches no routine but its own. -/
theorem Returns.proceed {n : Nat} {own : Nat → Prop} {frames : List Frame} {signal : Signal} {w : World σ}
    (returns : Returns code p n own frames signal w) (confined : code.Confined) {left : Nat} (enough : n ≤ left) :
    Yields (Loop.proceed code left frames signal) w fun halt after =>
      World.Confined own w after ∧ Halts code p n (Along own w after) halt after := by
  induction returns generalizing left with
  | @ended n own v w given =>
    obtain ⟨left, rfl⟩ := Nat.exists_eq_add_of_le' (Nat.le_trans (Nat.succ_pos n) enough)
    exact .intro rfl ⟨.refl own w, .ended given⟩
  | @going n own frames next signal sent w mid within ran rest ih =>
    obtain ⟨left, rfl⟩ := Nat.exists_eq_add_of_le' (Nat.le_trans (Nat.succ_pos n) enough)
    have here : World.Confined own w ((Loop.advance code frames signal).run w).2 := Loop.confined_advance confined within
    rw [ran] at here
    apply Yields.run_bind ran
    apply (ih (Nat.le_of_succ_le_succ enough)).mono
    rintro halt after _ ⟨later, halts⟩
    refine ⟨here.trans later, halts.mono (Nat.le_succ n) ?_⟩
    rintro r ((among | ⟨newer, made⟩) | ⟨newer, made⟩)
    · exact .inl among
    · exact .inr ⟨newer, Nat.lt_of_lt_of_le made later.routines⟩
    · exact .inr ⟨Nat.le_trans here.routines newer, made⟩
  | @paused n own frames next signal w mid within ran rest ih =>
    obtain ⟨left, rfl⟩ := Nat.exists_eq_add_of_le' (Nat.le_trans (Nat.succ_pos n) enough)
    have here : World.Confined own w ((Loop.advance code frames signal).run w).2 := Loop.confined_advance confined within
    rw [ran] at here
    apply Yields.run_bind ran
    exact .pure ⟨here, .paused (Nat.lt_succ_self n) rest⟩

end TaskBoard
