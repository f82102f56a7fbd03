import TaskBoard.Proofs.Collecting.Handing
import TaskBoard.Proofs.Collecting.Accounting
import TaskBoard.Proofs.Running.Completing

/-!
Mappers that answer. What a mapper gives depends on what is seen of its group only, whether it is given at once or
returned by a routine after any number of turns. The two ways to look after such routines have an account each: without
a loop each is run to its end before the scan goes on, in a loop they wait together until the scan has ended.
-/

namespace TaskBoard

open Act World Board

variable {σ ι : Type}

/-- What the call of a mapper gives: its value, or a new routine that returns it once it is ready to be run. -/
inductive Answered (code : UserCode σ) (p : Promise σ ι) (slack : Nat) (ready : World σ → Prop) (w : World σ) :
    Value → World σ → Prop where
  | plain {v : Value} {after : World σ} (value : ∀ r, v ≠ .routine r) (given : p.shows after v p.due) :
    Answered code p slack ready w v after
  | routine {r n : Nat} {own : Nat → Prop} {after : World σ} (patient : n + slack ≤ code.patience)
    (fresh : ∀ r, own r → w.routines.size ≤ r ∧ r < after.routines.size)
    (returns : ∀ later, Meanwhile p own after later → ready later → Returns code p n own [] (.begin r) later) :
    Answered code p slack ready w (.routine r) after

/-- Mappers give answers that depend on what is seen of their groups only, whenever a group has come to what it may come
to, and the receiver does not fail. -/
structure UserCode.Maps (code : UserCode σ) (s : Scope σ) (inbox : Inbox σ ι) (answer : View → ι)
    (listing : Value → Except Failure (List Value)) (start : World σ) : Prop where
  mappers : ∀ d ∈ start.declared s.board, ∀ g early w name out mapper, Midway s start early → Midway s start w →
    w.current = some s.board → Enrolled s w g → (w.group g).data = .map d.cell →
    early.foresee s.board listing d = .ok (w.view g) → (w.group g).name = .text name →
    (w.group g).destination = .destination out mapper → s.mine mapper → mapper.isCallable = true →
    Yields (Board.call code mapper [.group g]) w
      (Answered code ⟨s, inbox.shows, g, answer (w.view g)⟩ 4 (fun later => later.current = some s.board) w)
  receives : ∀ v w, Midway s start w → Yields (callUser code inbox.receiver [v]) w fun _ _ => True

/-- No loop runs, no task is kept, and the receiver has been given the answers in their order. -/
structure AloneAccount (inbox : Inbox σ ι) (ps : List (Option Nat)) (xs : List ι) (w : World σ) : Prop where
  alone : w.loop = none
  idle : ∀ p ∈ ps, p = none
  received : inbox.Has w xs

/-- The tasks that are kept are all that were made since the first, and what has been received and what is still due
are the answers together. -/
structure LoopAccount (code : UserCode σ) (s : Scope σ) (inbox : Inbox σ ι) (first : Nat) (others : Nat → Prop)
    (ps : List (Option Nat)) (xs : List ι) (w : World σ) : Prop where
  pending : ∀ id, some id ∈ ps ↔ first ≤ id ∧ id < w.tasks.size
  below : first ≤ w.tasks.size
  queued : ∀ job ∈ w.jobs, ∀ id, job.task? = some id → id < w.tasks.size
  awaiting : ∃ cs ys, Awaiting code s inbox (between first w.tasks.size) others cs ys w ∧
    (ys ++ cs.map Charge.due).Perm xs

variable {code : UserCode σ} {s : Scope σ} {inbox : Inbox σ ι} {answer : View → ι}
  {listing : Value → Except Failure (List Value)} {start before w after : World σ}
  {d : Declaration} {g : Nat} {record : Group} {files : List Value} {content : Mapping}

theorem World.Interim.of_keeps {α : Type} {act : Act σ α} (quiet : Keeps (Quiet (s.since inbox.shows w)) act)
    (keeps : Keeps (World.Confined fun _ => False) act) (fits : s.around w) :
    Interim s inbox [] w (act.run w).2 := by
  obtain ⟨leaves, around, lasts⟩ := quiet w ⟨fits, .refl _ w⟩
  exact .of_confined (leaves.of_since.mono fun _ => False.elim) around lasts (keeps w)

/-- A deed that is noted may be a value that the receiver is given. -/
theorem World.Interim.noted (discreet : code.Discreet s) (preserves : code.Preserves s inbox.shows)
    (fits : s.around w) (deed : GroupDeed) :
    Interim s inbox (deed.received? inbox.receiver).toList w { w with past := deed :: w.past } := by
  have aside : World.Beside w { w with past := deed :: w.past } := rfl
  refine ⟨⟨Nat.le_refl _, fun _ _ _ => rfl⟩, .beside aside, discreet.aside w _ fits aside.aside,
    preserves.beside aside, rfl, rfl, ?_⟩
  cases given : deed.received? inbox.receiver <;> simp [World.received, given]

theorem World.Undisturbed.pended {shows : World σ → Value → ι → Prop} (discreet : code.Discreet s)
    (preserves : code.Preserves s shows) (fits : s.around w) (r g : Nat) (receiver task : Option Nat) :
    Undisturbed s shows w ((w.scheduling r g receiver).setGroup g { w.group g with pending := task }) := by
  let after : World σ := (w.scheduling r g receiver).setGroup g { w.group g with pending := task }
  have aside : Aside s.own { w with loop := after.loop } after := .books { w with loop := after.loop } fun running => running
  refine ⟨fun other enrolled => ?_, discreet.aside w after fits aside, preserves.aside w after aside⟩
  have born : other < after.groups.size := by simpa [after, World.scheduling] using enrolled.born
  by_cases same : other = g
  · subst same
    have group : after.group other = { w.group other with pending := task } := group_setGroup_self _ enrolled.born
    refine ⟨⟨born, by rw [group]; exact enrolled.data, by rw [group]; exact enrolled.known⟩, ?_⟩
    rw [view, view, group]
    rfl
  · have group : after.group other = w.group other := group_setGroup_other _ _ same
    refine ⟨⟨born, by rw [group]; exact enrolled.data, by rw [group]; exact enrolled.known⟩, ?_⟩
    rw [view, view, group]
    rfl

theorem AloneAccount.idle_append {ps : List (Option Nat)} {xs : List ι} (account : AloneAccount inbox ps xs w) :
    ∀ p ∈ ps ++ [none], p = none := by
  intro p member
  rcases List.mem_append.mp member with before | last
  · exact account.idle p before
  · exact List.mem_singleton.mp last

/-- What happens between two tasks of mappers leaves all tasks as they stand. -/
theorem Awaiting.interim {ours : Nat → Bool} {others : Nat → Prop} {cs : List (Charge ι)} {ys zs : List ι}
    {vs : List Value} (awaiting : Awaiting code s inbox ours others cs ys w) (interim : Interim s inbox vs w after)
    (shown : List.Forall₂ (inbox.shows after) vs zs) : Awaiting code s inbox ours others cs (ys ++ zs) after := by
  have first : Awaiting code s inbox ours others ([] ++ cs) ys w := awaiting
  refine first.told (fun _ member => absurd member List.not_mem_nil) interim.undisturbed interim.toHeeds ?_ interim.tasks ?_
    interim.received shown
  · rw [interim.loop]
    exact awaiting.running
  · rw [World.jobs, interim.loop]
    exact awaiting.jobs

theorem LoopAccount.interim {first : Nat} {others : Nat → Prop} {ps : List (Option Nat)} {xs zs : List ι}
    {vs : List Value} (account : LoopAccount code s inbox first others ps xs w) (interim : Interim s inbox vs w after)
    (shown : List.Forall₂ (inbox.shows after) vs zs) : LoopAccount code s inbox first others ps (xs ++ zs) after := by
  have size : after.tasks.size = w.tasks.size := by rw [interim.tasks]
  obtain ⟨cs, ys, awaiting, perm⟩ := account.awaiting
  refine ⟨?_, ?_, ?_, cs, ys ++ zs, ?_, ?_⟩
  · rw [size]
    exact account.pending
  · rw [size]
    exact account.below
  · rw [size, World.jobs, interim.loop]
    exact account.queued
  · rw [size]
    exact awaiting.interim interim shown
  · have swapped : (ys ++ zs ++ cs.map Charge.due).Perm (ys ++ cs.map Charge.due ++ zs) := by
      rw [List.append_assoc, List.append_assoc]
      exact .append_left ys List.perm_append_comm
    exact swapped.trans (perm.append_right zs)

theorem LoopAccount.schedule {first : Nat} {others : Nat → Prop} {ps : List (Option Nat)} {xs : List ι} {mid : World σ}
    {r n : Nat} {own : Nat → Prop} {y : ι} (discreet : code.Discreet s) (preserves : code.Preserves s inbox.shows)
    (account : LoopAccount code s inbox first others ps xs w) (interim : Interim s inbox [] w mid)
    (enrolled : Enrolled s mid g) (patient : n ≤ code.patience)
    (fresh : ∀ other, own other → w.routines.size ≤ other ∧ other < mid.routines.size)
    (returns : ∀ later, Meanwhile ⟨s, inbox.shows, g, y⟩ own mid later →
      Returns code ⟨s, inbox.shows, g, y⟩ n own [] (.begin r) later) :
    LoopAccount code s inbox first others (ps ++ [some mid.tasks.size]) (xs ++ [y])
      ((mid.scheduling r g (some inbox.receiver)).setGroup g { mid.group g with pending := some mid.tasks.size }) := by
  let after : World σ :=
    (mid.scheduling r g (some inbox.receiver)).setGroup g { mid.group g with pending := some mid.tasks.size }
  let t : Task := ⟨[], .begin r, mid.current, false, none, [.forward g (some inbox.receiver) mid.current]⟩
  let c : Charge ι := ⟨g, w.tasks.size, own, n + 1, y, .step w.tasks.size⟩
  obtain ⟨cs, ys, awaiting, perm⟩ := account.awaiting
  have pended : Undisturbed s inbox.shows mid after := .pended discreet preserves interim.fits r g _ _
  have undisturbed := interim.undisturbed.trans pended
  have tasks : after.tasks = w.tasks.push t := congrArg (·.push t) interim.tasks
  have size : after.tasks.size = w.tasks.size + 1 := by rw [tasks, Array.size_push]
  have loop : after.loop = w.loop.map (·.push c.job) := by
    change mid.loop.map (·.push (.step mid.tasks.size)) = _
    rw [interim.loop, interim.tasks]
  have self : after.task w.tasks.size = t := World.task_push_newest tasks
  have stands : c.Stands code s inbox after := by
    refine .running (Nat.lt_succ_self n) patient ?_ (by rw [self]; rfl) rfl
    rw [self]
    refine ⟨rfl, rfl, fun other among => (fresh other among).2, fun later meanwhile _ => returns later ?_⟩
    have early : Meanwhile ⟨s, inbox.shows, g, y⟩ own mid after :=
      ⟨(pended.groups g enrolled).2, pended.fits, pended.lasts, Nat.le_refl _, fun _ _ => rfl⟩
    exact early.trans meanwhile
  have further := awaiting.schedule account.below account.queued undisturbed ⟨interim.routines, interim.others⟩ rfl rfl tasks
    loop (interim.received.trans (List.append_nil _)) (pended.groups g enrolled).1 fresh stands
  refine ⟨fun id => ?_, ?_, fun job member id task => ?_, c :: cs, ys, further, ?_⟩
  · rw [List.mem_append, account.pending, List.mem_singleton, size, interim.tasks]
    have below := account.below
    constructor
    · rintro (⟨since, made⟩ | same)
      · exact ⟨since, Nat.lt_succ_of_lt made⟩
      · cases same
        exact ⟨below, Nat.lt_succ_self _⟩
    · rintro ⟨since, made⟩
      rcases Nat.lt_or_eq_of_le (Nat.lt_succ_iff.mp made) with older | rfl
      · exact .inl ⟨since, older⟩
      · exact .inr rfl
  · rw [size]
    exact Nat.le_succ_of_le account.below
  · rw [size]
    obtain ⟨l, present⟩ := Option.isSome_iff_exists.mp awaiting.running
    have jobs : after.jobs = w.jobs ++ [c.job] := by simp [World.jobs, loop, present, Loop.push]
    rw [jobs] at member
    rcases List.mem_append.mp member with before | last
    · exact Nat.lt_succ_of_lt (account.queued job before id task)
    · rw [List.mem_singleton.mp last] at task
      cases task
      exact Nat.lt_succ_self _
  · exact (List.perm_middle.trans (List.perm_append_singleton y _).symm).trans (perm.append_right [y])

/-- The routine of a mapper, bound to a board, returns whatever the mapper returns. -/
theorem Returns.binding {p : Promise σ ι} {mid : World σ} {current : Option Nat} {b r n : Nat} {own : Nat → Prop}
    (discreet : code.Discreet p.scope) (preserves : code.Preserves p.scope p.shows) (fits : p.scope.around mid)
    (known : ∀ r, own r → r < mid.routines.size)
    (returns : ∀ later, Meanwhile p own mid later → later.current = some b →
      Returns code p n own [] (.begin r) later) {later : World σ}
    (meanwhile : Meanwhile p (fun other => own other ∨ other = mid.routines.size)
      (World.binding { mid with current := current } b r) later) :
    Returns code p (n + 2) (fun other => own other ∨ other = mid.routines.size) [] (.begin mid.routines.size) later := by
  let bound : World σ := World.binding { mid with current := current } b r
  let begun : World σ := { later.setRoutine mid.routines.size ⟨.bound b r, true⟩ with current := some b }
  have made : World.Beside mid bound := rfl
  have begins : World.Beside later begun := rfl
  have early : Meanwhile p own mid bound := by
    refine .beside discreet preserves fits made ?_ fun other among => ?_
    · simp [bound, World.binding]
    · exact World.routine_push_older rfl (known other among)
  have late : Meanwhile p own later begun := by
    refine .beside discreet preserves meanwhile.fits begins ?_ fun other among => ?_
    · simp [begun, World.setRoutine]
    · exact routine_setRoutine_other later _ (Nat.ne_of_lt (known other among))
  have unbegun : later.routine mid.routines.size = ⟨.bound b r, false⟩ := by
    rw [meanwhile.kept _ (.inr rfl)]
    exact World.routine_push_newest rfl
  apply Returns.bound preserves unbegun (.inr rfl)
  exact (returns begun (early.trans ((meanwhile.mono fun _ => .inl).trans late)) rfl).mono fun _ => .inl

namespace Board

theorem yields_callBound_answered {p : Promise σ ι} {slack b : Nat} {f : Value} {args : List Value}
    (discreet : code.Discreet p.scope) (confined : code.Confined) (preserves : code.Preserves p.scope p.shows)
    (fits : p.scope.around { w with current := some b })
    (answers : Yields (call code f args) { w with current := some b }
      (Answered code p (slack + 2) (fun later => later.current = some b) { w with current := some b })) :
    Yields (callBound code b f args) w (Answered code p slack (fun _ => True) w) := by
  have keeps : Keeps (World.Confined fun _ => False) (call code f args) := keeps_call confined.carries f args
  obtain ⟨v, mid, ran, ⟨answered, quiet⟩, kept⟩ :=
    (answers.keeps (keeps_call discreet.drives.carries f args)).keeps keeps
  have around : p.scope.around mid := (quiet fits).2
  have left : World.Beside mid { mid with current := w.current } := rfl
  unfold callBound
  apply Yields.run_bind (run_inContext ran)
  cases answered with
  | plain value given =>
    rw [bind_of_plain value]
    exact .pure (.plain value (preserves.beside left v _ given))
  | @routine r n own _ patient fresh returns =>
    have size : (World.binding { mid with current := w.current } b r).routines.size = mid.routines.size + 1 := by
      simp [World.binding]
    have patient : n + 2 + slack ≤ code.patience := by omega
    refine .intro rfl (.routine patient ?_ fun later meanwhile _ =>
      Returns.binding discreet preserves around (fun other among => (fresh other among).2) returns meanwhile)
    rintro other (among | rfl)
    · obtain ⟨newer, known⟩ := fresh other among
      exact ⟨newer, size ▸ Nat.lt_succ_of_lt known⟩
    · exact ⟨kept.routines, size ▸ Nat.lt_succ_self _⟩

section Calling

variable (discreet : code.Discreet s) (confined : code.Confined) (preserves : code.Preserves s inbox.shows)
  (maps : code.Maps s inbox answer listing start)
include discreet confined preserves maps

theorem yields_callBound_mapper (member : d ∈ start.declared s.board) (mine : s.mine (.map d.cell))
    (begins : Midway s start before) (foreseen : before.foresee s.board listing d = .ok (w.view g))
    (during : During s start before d.cell g record files content w) {name out : String} {mapper : Value}
    (named : record.name = .text name) (destination : record.destination = .destination out mapper)
    (held : s.mine mapper) (callable : mapper.isCallable = true) :
    Yields (callBound code s.board mapper [.group g]) (w.calling g mapper) fun v after =>
      Interim s inbox [] w after ∧ Midway s start after ∧
        Answered code ⟨s, inbox.shows, g, answer (w.view g)⟩ 2 (fun _ => True) (w.calling g mapper) v after := by
  let noted : World σ := w.calling g mapper
  let entered : World σ := { noted with current := some s.board }
  have aside : World.Beside w entered := rfl
  have started : World.Beside w noted := rfl
  have midway : Midway s start entered := during.toMidway.quiet (discreet.drives.beside w entered aside)
  have data : (entered.group g).data = .map d.cell := (congrArg Group.data during.stands).trans during.data
  have leads : (entered.group g).destination = .destination out mapper :=
    (congrArg Group.destination during.stands).trans destination
  have label : (entered.group g).name = .text name := (congrArg Group.name during.stands).trans named
  have enrolled : Enrolled s entered g := (during.enrolled mine).leaves
    (show Leaves s (fun _ => False) w entered from .beside aside)
  have fits : s.around noted := discreet.aside w noted during.fits started.aside
  have first : Interim s inbox [] w noted := .noted discreet preserves during.fits (.mapped g mapper)
  have answers := maps.mappers d member g before entered name out mapper begins midway rfl enrolled data foreseen label
    leads held callable
  obtain ⟨v, after, ran, answered, quiet⟩ := (yields_callBound_answered discreet confined preserves midway.fits answers).keeps
    (keeps_callBound discreet.drives.carries s.board mapper [.group g])
  have called := Interim.of_keeps
    (keeps_callBound (preserves.discreet discreet noted).drives.carries s.board mapper [.group g])
    (keeps_callBound confined.carries s.board mapper [.group g]) fits
  rw [ran] at called
  have last := (during.toMidway.quiet (discreet.drives.beside w noted started)).quiet quiet
  exact .intro ran ⟨first.trans called, last, answered⟩

omit confined in
theorem yields_deliver_interim (confined : code.Confined) (midway : Midway s start w) (v : Value) :
    Yields (deliver code g (some inbox.receiver) v) w fun _ after => Interim s inbox [v] w after := by
  let noted : World σ := { w with past := .delivered g inbox.receiver v :: w.past }
  have aside : World.Beside w noted := rfl
  have here := midway.quiet (discreet.drives.beside w noted aside)
  have given : ((GroupDeed.delivered g inbox.receiver v).received? inbox.receiver).toList = [v] := by
    simp [GroupDeed.received?]
  have first : Interim s inbox [v] w noted := by
    have noting : Interim s inbox _ w noted := .noted discreet preserves midway.fits (.delivered g inbox.receiver v)
    rwa [given] at noting
  obtain ⟨done, after, ran, -⟩ := maps.receives v noted here
  have called := Interim.of_keeps (keeps_callUser (preserves.discreet discreet noted).drives.carries inbox.receiver [v])
    (keeps_callUser confined.carries inbox.receiver [v]) here.fits
  rw [ran] at called
  unfold deliver
  apply Yields.run_bind (run_modify w _)
  apply Yields.run_bind ran
  exact .pure (first.trans called)

theorem yields_schedule_alone {y : ι} {r n : Nat} {own : Nat → Prop} (midway : Midway s start w) (alone : w.loop = none)
    (known : ∀ other, own other → other < w.routines.size) (patient : n + 2 ≤ code.patience)
    (returns : ∀ later, Meanwhile ⟨s, inbox.shows, g, y⟩ own w later →
      Returns code ⟨s, inbox.shows, g, y⟩ n own [] (.begin r) later) :
    Yields (schedule code g r (some inbox.receiver)) w fun task after =>
      task = none ∧ after.loop = none ∧ Leaves s s.own w after ∧ Lasts inbox.shows w after ∧
        ∃ v, after.received inbox.receiver = w.received inbox.receiver ++ [v] ∧ inbox.shows after v y := by
  have completes := Loop.yields_runToCompletion discreet preserves confined midway.fits known
    (fun later meanwhile _ => returns later meanwhile) patient
  obtain ⟨v, ended, ran, ⟨⟨given, silent, past⟩, quiet⟩, lasts⟩ :=
    (completes.keeps (Loop.keeps_runToCompletion discreet.drives.loops r)).keeps
      (Loop.keeps_runToCompletion (preserves.discreet discreet w).drives.loops r)
  obtain ⟨⟨⟩, last, passes, told⟩ :=
    yields_deliver_interim (g := g) discreet preserves maps confined (midway.quiet quiet) v
  have received : last.received inbox.receiver = w.received inbox.receiver ++ [v] := by
    rw [told.received, World.received, past, ← World.received]
  unfold schedule
  apply Yields.run_bind (run_get w)
  rw [alone]
  apply Yields.run_bind ran
  apply Yields.run_bind passes
  have leaves : Leaves s s.own w ended := (quiet midway.fits).1.mono fun _ => False.elim
  exact .pure ⟨rfl, told.loop.trans silent, leaves.trans told.leaves,
    (Quiet.lasts midway.fits lasts).trans told.lasts, v, received, told.lasts v y given⟩

end Calling

section Running

variable {b r : Nat} {receiver : Option Nat} {out : String} {mapper v : Value} {mid : World σ}
  (destination : (w.group g).destination = .destination out mapper) (callable : mapper.isCallable = true)
include destination callable

theorem run_runMapper_plain (called : (callBound code b mapper [.group g]).run (w.calling g mapper) = (.ok v, mid))
    (value : ∀ r, v ≠ .routine r) : (runMapper code b g receiver).run w = (deliver code g receiver v).run mid := by
  unfold runMapper
  rw [run_bind_ok (run_get w), destination]
  dsimp only
  rw [if_pos callable]
  apply (run_bind_ok (run_modify w _)).trans
  apply (run_bind_ok called).trans
  cases v with
  | routine r => exact absurd rfl (value r)
  | _ => rfl

theorem run_runMapper_routine
    (called : (callBound code b mapper [.group g]).run (w.calling g mapper) = (.ok (.routine r), mid)) :
    (runMapper code b g receiver).run w = (do
      let task ← schedule code g r receiver
      editGroup g fun group => { group with pending := task } : Act σ Unit).run mid := by
  unfold runMapper
  rw [run_bind_ok (run_get w), destination]
  dsimp only
  rw [if_pos callable]
  apply (run_bind_ok (run_modify w _)).trans
  exact run_bind_ok called

end Running

section Accounting

variable (discreet : code.Discreet s) (confined : code.Confined) (preserves : code.Preserves s inbox.shows)
  (maps : code.Maps s inbox answer listing start) (formed : Formed s start)
include discreet confined preserves maps formed

/-- Without a loop every routine is run to its end and its value passed on, before the scan goes on. -/
theorem accounts_alone : Accounts code s inbox answer listing start (AloneAccount inbox) where
  interim ps xs w after account interim :=
    ⟨interim.loop.trans account.alone, account.idle,
      account.received.lasts interim.lasts (interim.received.trans (List.append_nil _))⟩
  unmapped ps xs w account := ⟨account.alone, account.idle_append, account.received⟩
  mapped := by
    intro ps xs before w d g record files content name out mapper member account begins foreseen during interim idle
      named destination held callable
    have mine := formed.mine d.cell (.inr (show start.Declares s.board d.cell from ⟨d, member, rfl⟩).member)
    have enrolled := during.enrolled mine
    have leads : (w.group g).destination = .destination out mapper := by rw [during.stands, destination]
    obtain ⟨v, mid, called, here, midway, answered⟩ :=
      yields_callBound_mapper discreet confined preserves maps member mine begins foreseen during named destination held
        callable
    cases answered with
    | plain value given =>
      obtain ⟨⟨⟩, after, ran, told⟩ := yields_deliver_interim (g := g) discreet preserves maps confined midway v
      have whole := (interim.trans here).trans told
      refine .intro ((run_runMapper_plain leads callable called value).trans ran) ⟨?_, ?_, ?_⟩
      · exact whole.loop.trans account.alone
      · have pending : (after.group g).pending = none := by
          rw [enrolled.group_eq (here.trans told).leaves, during.stands, idle]
        rw [pending]
        exact account.idle_append
      · exact account.received.given whole.lasts whole.received (.cons (told.lasts v _ given) .nil)
    | @routine r n own _ patient fresh returns =>
      have alone : mid.loop = none := here.loop.trans (interim.loop.trans account.alone)
      have known : ∀ other, own other → other < mid.routines.size := fun other among => (fresh other among).2
      obtain ⟨task, last, scheduled, rfl, silent, leaves, lasts, v, received, given⟩ :=
        yields_schedule_alone discreet confined preserves maps midway alone known patient fun later meanwhile =>
          returns later meanwhile trivial
      let after : World σ := last.setGroup g { last.group g with pending := none }
      have noted : Lasts inbox.shows last after := preserves.aside last after (.books last fun running => running)
      have born : g < last.groups.size := ((enrolled.leaves here.leaves).leaves leaves).born
      refine .intro ((run_runMapper_routine leads callable called).trans (run_bind_ok scheduled)) ⟨silent, ?_, ?_⟩
      · rw [show (after.group g).pending = none from congrArg Group.pending (group_setGroup_self _ born)]
        exact account.idle_append
      · have all := ((interim.trans here).lasts.trans lasts).trans noted
        have told : last.received inbox.receiver = before.received inbox.receiver ++ [v] := by
          rw [received, (interim.trans here).received]
          simp
        exact account.received.given all told (.cons (noted v _ given) .nil)

/-- In a loop every routine becomes a task, which waits with the others until the scan has ended. -/
theorem accounts_loop (first : Nat) (others : Nat → Prop) :
    Accounts code s inbox answer listing start (LoopAccount code s inbox first others) where
  interim ps xs w after account interim := by
    have next := account.interim interim .nil
    rwa [List.append_nil] at next
  unmapped ps xs w account :=
    { account with pending := fun id => by simpa using account.pending id }
  mapped := by
    intro ps xs before w d g record files content name out mapper member account begins foreseen during interim idle
      named destination held callable
    have mine := formed.mine d.cell (.inr (show start.Declares s.board d.cell from ⟨d, member, rfl⟩).member)
    have enrolled := during.enrolled mine
    have leads : (w.group g).destination = .destination out mapper := by rw [during.stands, destination]
    have here := account.interim interim .nil
    rw [List.append_nil] at here
    obtain ⟨v, mid, called, calls, midway, answered⟩ :=
      yields_callBound_mapper discreet confined preserves maps member mine begins foreseen during named destination held
        callable
    cases answered with
    | plain value given =>
      obtain ⟨⟨⟩, after, ran, told⟩ := yields_deliver_interim (g := g) discreet preserves maps confined midway v
      have next := here.interim (calls.trans told) (.cons (told.lasts v _ given) .nil)
      have pending : (after.group g).pending = none := by
        rw [enrolled.group_eq (calls.trans told).leaves, during.stands, idle]
      refine .intro ((run_runMapper_plain leads callable called value).trans ran) ?_
      rw [pending]
      exact { next with pending := fun id => by simpa using next.pending id }
    | @routine r n own _ patient fresh returns =>
      obtain ⟨cs, ys, awaiting, -⟩ := here.awaiting
      have running : mid.loop.isSome = true := by
        rw [calls.loop]
        exact awaiting.running
      have scheduled : (schedule code g r (some inbox.receiver)).run mid =
          (.ok (some mid.tasks.size), mid.scheduling r g (some inbox.receiver)) := run_schedule running
      have next := here.schedule discreet preserves calls (enrolled.leaves calls.leaves)
        (Nat.le_of_add_right_le patient) fresh fun later meanwhile => returns later meanwhile trivial
      refine .intro ((run_runMapper_routine leads callable called).trans (run_bind_ok scheduled)) ?_
      have born : g < (mid.scheduling r g (some inbox.receiver)).groups.size := (enrolled.leaves calls.leaves).born
      have kept : ∀ group : Group, (((mid.scheduling r g (some inbox.receiver)).setGroup g group).group g) = group :=
        fun group => group_setGroup_self group born
      rw [kept]
      exact next

end Accounting

end Board

end TaskBoard
