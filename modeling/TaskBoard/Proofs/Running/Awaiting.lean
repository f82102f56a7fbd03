import Mathlib.Data.List.Forall2
import TaskBoard.Proofs.Forwarding.Books
import TaskBoard.Proofs.Running.Lasting
import TaskBoard.Proofs.Running.Stepping

/-!
A loop with some tasks whose values are due to one receiver. Each of them has exactly one job that waits: its next
step, or the passing on of its value. Whichever of these jobs is run next, and whatever other tasks of the loop do
meanwhile, the rest stand as they stood, and what has been received and what is still due are the same together.
-/

namespace TaskBoard

open Act World

variable {σ ι : Type}

/-- A watcher that passes a value on. -/
def Watcher.forwards : Watcher → Bool
  | .forward _ _ _ => true
  | _ => false

/-- The task that a job takes further, or whose value it passes on. -/
def Job.task? : Job → Option Nat
  | .step id => some id
  | .notify id watcher => if watcher.forwards then some id else none
  | _ => none

/-- A job for one of some tasks. -/
def Job.concerns (ours : Nat → Bool) (job : Job) : Bool := job.task?.any ours

def between (first last : Nat) (id : Nat) : Bool := decide (first ≤ id ∧ id < last)

/-- The value that a deed has brought to a receiver. -/
def GroupDeed.received? (receiver : Nat) : GroupDeed → Option Value
  | .delivered _ id v => if id = receiver then some v else none
  | _ => none

def World.received (w : World σ) (receiver : Nat) : List Value :=
  w.past.reverse.filterMap (GroupDeed.received? receiver)

theorem World.received_delivered {w after : World σ} {g receiver : Nat} {v : Value}
    (past : after.past = .delivered g receiver v :: w.past) : after.received receiver = w.received receiver ++ [v] := by
  simp [World.received, past, GroupDeed.received?]

/-- A receiver, what values show to it, and what it has been given before. -/
structure Inbox (σ ι : Type) where
  receiver : Nat
  shows : World σ → Value → ι → Prop
  before : List Value

/-- What the receiver has been given since. -/
def Inbox.Has (inbox : Inbox σ ι) (w : World σ) (ys : List ι) : Prop :=
  ∃ vs, w.received inbox.receiver = inbox.before ++ vs ∧ List.Forall₂ (inbox.shows w) vs ys

/-- A task whose value is due, with the routines that it looks after and the job that waits for it. Its run has less
than `left` steps to go. -/
structure Charge (ι : Type) where
  group : Nat
  task : Nat
  own : Nat → Prop
  left : Nat
  due : ι
  job : Job

/-- What the task of a charge promises. -/
def Charge.promise (s : Scope σ) (inbox : Inbox σ ι) (c : Charge ι) : Promise σ ι := ⟨s, inbox.shows, c.group, c.due⟩

/-- How a charge stands: its task runs on, or has ended with a value that is passed on next. -/
inductive Charge.Stands (code : UserCode σ) (s : Scope σ) (inbox : Inbox σ ι) (c : Charge ι) (w : World σ) :
    Prop where
  | running {n : Nat} {current : Option Nat} (fewer : n < c.left) (enough : n ≤ code.patience)
    (owes : (w.task c.task).Owes code (c.promise s inbox) n c.own w)
    (watchers : (w.task c.task).watchers.filter Watcher.forwards = [.forward c.group (some inbox.receiver) current])
    (job : c.job = .step c.task)
  | ended {v : Value} {current : Option Nat} (outcome : (w.task c.task).outcome = some (.value v))
    (given : inbox.shows w v c.due) (job : c.job = .notify c.task (.forward c.group (some inbox.receiver) current))

/-- A loop in which some values are still due, while others have been received. None of our tasks has ended but those
whose values are due or received, and none of the routines of others is ours. -/
structure Awaiting (code : UserCode σ) (s : Scope σ) (inbox : Inbox σ ι) (ours : Nat → Bool) (others : Nat → Prop)
    (cs : List (Charge ι)) (ys : List ι) (w : World σ) : Prop where
  fits : s.around w
  running : w.loop.isSome = true
  enrolled : ∀ c ∈ cs, Enrolled s w c.group
  made : ∀ c ∈ cs, ours c.task = true ∧ c.task < w.tasks.size
  known : ∀ c ∈ cs, ∀ r, c.own r → r < w.routines.size ∧ ¬others r
  strangers : ∀ r, others r → r < w.routines.size
  stands : ∀ c ∈ cs, c.Stands code s inbox w
  jobs : (w.jobs.filter (Job.concerns ours)).Perm (cs.map Charge.job)
  apart : cs.Pairwise fun c d => c.task ≠ d.task ∧ ∀ r, c.own r → ¬d.own r
  ended : ∀ id, ours id = true → (w.task id).finished = true ∨ ∃ c ∈ cs, c.task = id
  received : inbox.Has w ys

/-- What somebody may do whose tasks wait in the same loop: all else than our jobs, but for who is told when one of our
tasks ends. -/
structure World.Unnoticed (receiver : Nat) (ours : Nat → Bool) (w after : World σ) : Prop where
  running : w.loop.isSome = true → after.loop.isSome = true
  jobs : (after.jobs.filter (Job.concerns ours)).Perm (w.jobs.filter (Job.concerns ours))
  received : after.received receiver = w.received receiver
  size : w.tasks.size ≤ after.tasks.size
  task : ∀ id, ours id = true → ∃ watchers, after.task id = { w.task id with watchers := watchers } ∧
    watchers.filter Watcher.forwards = (w.task id).watchers.filter Watcher.forwards

/-- What others do while our tasks wait: they leave the board alone and keep to their own routines and tasks. -/
structure World.Bystanding (s : Scope σ) (inbox : Inbox σ ι) (ours : Nat → Bool) (others : Nat → Prop)
    (w after : World σ) : Prop where
  leaves : Leaves s (fun _ => False) w after
  fits : s.around after
  lasts : Lasts inbox.shows w after
  heeds : Heeds others w after
  unnoticed : Unnoticed inbox.receiver ours w after

/-- What may come after a world in which our tasks wait in the loop: any of their jobs is run, or one that is nobody's,
or others have their turn. -/
inductive Runs (code : UserCode σ) (s : Scope σ) (inbox : Inbox σ ι) (ours : Nat → Bool) (others : Nat → Prop)
    (first : World σ) : (Nat → Prop) → World σ → Prop where
  | stay : Runs code s inbox ours others first others first
  | job {foreign : Nat → Prop} {w : World σ} {l : Loop} {front back : List Job} {job : Job}
    (earlier : Runs code s inbox ours others first foreign w) (loop : w.loop = some l)
    (ready : l.ready = front ++ job :: back) (mine : ∀ id, job.task? = some id → ours id = true) :
    Runs code s inbox ours others first foreign
      ((Loop.runJob code job).run { w with loop := some { l with ready := front ++ back } }).2
  | other {foreign : Nat → Prop} {w after : World σ} (earlier : Runs code s inbox ours others first foreign w)
    (bystanding : Bystanding s inbox ours foreign w after) :
    Runs code s inbox ours others first (Along foreign w after) after

variable {code : UserCode σ} {s : Scope σ} {inbox : Inbox σ ι} {ours : Nat → Bool} {others foreign : Nat → Prop}
  {c : Charge ι} {cs : List (Charge ι)} {ys : List ι} {w after : World σ}

theorem Runs.trans {first second third : World σ} {more : Nat → Prop}
    (early : Runs code s inbox ours others first foreign second)
    (late : Runs code s inbox ours foreign second more third) : Runs code s inbox ours others first more third := by
  induction late with
  | stay => exact early
  | job earlier loop ready mine ih => exact ih.job loop ready mine
  | other earlier bystanding ih => exact ih.other bystanding

namespace Inbox.Has

theorem given (has : inbox.Has w ys) (lasts : Lasts inbox.shows w after) {us : List Value} {zs : List ι}
    (received : after.received inbox.receiver = w.received inbox.receiver ++ us)
    (shown : List.Forall₂ (inbox.shows after) us zs) : inbox.Has after (ys ++ zs) := by
  obtain ⟨vs, before, shows⟩ := has
  refine ⟨vs ++ us, ?_, List.rel_append (shows.imp lasts) shown⟩
  rw [received, before, List.append_assoc]

theorem lasts (has : inbox.Has w ys) (lasts : Lasts inbox.shows w after)
    (same : after.received inbox.receiver = w.received inbox.receiver) : inbox.Has after ys := by
  have more := has.given lasts (same.trans (List.append_nil _).symm) .nil
  rwa [List.append_nil] at more

end Inbox.Has

/-- A charge stands as it stood after whatever may happen meanwhile. -/
theorem Charge.Stands.unnoticed (stands : c.Stands code s inbox w) (meanwhile : Meanwhile (c.promise s inbox) c.own w after)
    (same : ∃ watchers, after.task c.task = { w.task c.task with watchers := watchers } ∧
      watchers.filter Watcher.forwards = (w.task c.task).watchers.filter Watcher.forwards) :
    c.Stands code s inbox after := by
  obtain ⟨watchers, task, forwards⟩ := same
  cases stands with
  | running fewer enough owes watching job =>
    have still := owes.later meanwhile
    rw [← forwards] at watching
    refine .running fewer enough ?_ (by rwa [task]) job
    rw [task]
    exact ⟨still.unfinished, still.uncancelled, still.known, still.returns⟩
  | ended outcome given job =>
    refine .ended ?_ (meanwhile.lasts _ _ given) job
    rw [task, outcome]

namespace Loop

variable {l : Loop} {front back : List Job}

theorem unnoticed_runJob {job : Job} {receiver : Nat} (idle : job.task? = none) (loop : w.loop = some l)
    (ready : l.ready = front ++ job :: back) :
    let after := ((runJob code job).run { w with loop := some { l with ready := front ++ back } }).2
    Unnoticed receiver ours w after ∧ World.Beside w after ∧ after.routines = w.routines := by
  have jobs : w.jobs.filter (Job.concerns ours) = (front ++ back).filter (Job.concerns ours) := by
    simp [World.jobs, loop, ready, Job.concerns, idle]
  have same : ∀ id, ours id = true → ∃ watchers, w.task id = { w.task id with watchers := watchers } ∧
      watchers.filter Watcher.forwards = (w.task id).watchers.filter Watcher.forwards := fun id _ => ⟨_, rfl, rfl⟩
  have popped : ∀ {l' : Loop}, l'.ready.filter (Job.concerns ours) = (front ++ back).filter (Job.concerns ours) →
      Unnoticed receiver ours w { w with loop := some l' } := fun kept =>
    ⟨fun _ => rfl, .of_eq (kept.trans jobs.symm), rfl, Nat.le_refl _, same⟩
  cases job with
  | step id => cases idle
  | wake => exact ⟨popped rfl, rfl, rfl⟩
  | halt => exact ⟨popped rfl, rfl, rfl⟩
  | notify id watcher =>
    cases watcher with
    | forward group receiver current => cases idle
    | last =>
      rw [world_runJob_notify, run_notify_last]
      dsimp only
      split <;> exact ⟨popped rfl, rfl, rfl⟩
    | counted =>
      refine ⟨popped ?_, rfl, rfl⟩
      unfold countDown
      split
      · cases l.halting <;> simp [Job.concerns, Job.task?]
      · rfl

theorem lasts_runJob (discreet : code.Discreet s) (preserves : code.Preserves s inbox.shows) (fits : s.around w)
    (job : Job) : Lasts inbox.shows w ((runJob code job).run w).2 :=
  Quiet.lasts fits (keeps_runJob (preserves.discreet discreet w).drives.loops job w)

end Loop

theorem World.requeued {front more waiting : List Job} {job : Job}
    (before : (front.filter (Job.concerns ours)).Perm waiting) (jobs : after.jobs = front ++ more)
    (own : more.filter (Job.concerns ours) = [job]) : (after.jobs.filter (Job.concerns ours)).Perm (job :: waiting) := by
  rw [jobs, List.filter_append, own]
  exact (before.append_right _).trans List.perm_append_comm

theorem World.concerned_wider (first : Nat) {last : Nat} (queued : ∀ job ∈ w.jobs, ∀ id, job.task? = some id → id < last) :
    w.jobs.filter (Job.concerns (between first (last + 1))) = w.jobs.filter (Job.concerns (between first last)) := by
  apply List.filter_congr
  intro job member
  unfold Job.concerns
  cases found : job.task? with
  | none => rfl
  | some id =>
    have known := queued job member id found
    simp [between, known, Nat.lt_succ_of_lt known]

namespace Awaiting

theorem perm {ds : List (Charge ι)} (awaiting : Awaiting code s inbox ours others cs ys w) (order : cs.Perm ds) :
    Awaiting code s inbox ours others ds ys w where
  fits := awaiting.fits
  running := awaiting.running
  enrolled c member := awaiting.enrolled c (order.mem_iff.mpr member)
  made c member := awaiting.made c (order.mem_iff.mpr member)
  known c member := awaiting.known c (order.mem_iff.mpr member)
  strangers := awaiting.strangers
  stands c member := awaiting.stands c (order.mem_iff.mpr member)
  jobs := awaiting.jobs.trans (order.map _)
  apart := awaiting.apart.perm order fun other => ⟨other.1.symm, fun r own among => other.2 r among own⟩
  ended id mine := (awaiting.ended id mine).imp_right fun ⟨c, member, same⟩ => ⟨c, order.mem_iff.mp member, same⟩
  received := awaiting.received

theorem meanwhile {touched : Nat → Prop} (awaiting : Awaiting code s inbox ours others cs ys w) (member : c ∈ cs)
    (undisturbed : Undisturbed s inbox.shows w after) (heeds : Heeds touched w after) (apart : ∀ r, c.own r → ¬touched r) :
    Meanwhile (c.promise s inbox) c.own w after :=
  .of_undisturbed undisturbed (awaiting.enrolled c member) heeds (fun r own => (awaiting.known c member r own).1) apart

theorem unnoticed {touched : Nat → Prop} (awaiting : Awaiting code s inbox ours others cs ys w)
    (undisturbed : Undisturbed s inbox.shows w after) (heeds : Heeds touched w after)
    (apart : ∀ c ∈ cs, ∀ r, c.own r → ¬touched r) (strangers : ∀ r, foreign r → Along others w after r)
    (unnoticed : Unnoticed inbox.receiver ours w after) : Awaiting code s inbox ours foreign cs ys after where
  fits := undisturbed.fits
  running := unnoticed.running awaiting.running
  enrolled c member := (undisturbed.groups c.group (awaiting.enrolled c member)).1
  made c member := (awaiting.made c member).imp_right fun small => Nat.lt_of_lt_of_le small unnoticed.size
  known c member r own := by
    obtain ⟨known, apart⟩ := awaiting.known c member r own
    refine ⟨Nat.lt_of_lt_of_le known heeds.routines, fun among => ?_⟩
    rcases strangers r among with before | ⟨newer, -⟩
    · exact apart before
    · exact Nat.not_lt.mpr newer known
  strangers r among := by
    rcases strangers r among with before | ⟨-, made⟩
    · exact Nat.lt_of_lt_of_le (awaiting.strangers r before) heeds.routines
    · exact made
  stands c member := (awaiting.stands c member).unnoticed
    (awaiting.meanwhile member undisturbed heeds (apart c member)) (unnoticed.task c.task (awaiting.made c member).1)
  jobs := unnoticed.jobs.trans awaiting.jobs
  apart := awaiting.apart
  ended id mine := by
    obtain ⟨watchers, task, -⟩ := unnoticed.task id mine
    rw [task]
    exact awaiting.ended id mine
  received := awaiting.received.lasts undisturbed.lasts unnoticed.received

theorem bystand (awaiting : Awaiting code s inbox ours others cs ys w)
    (bystanding : Bystanding s inbox ours others w after) :
    Awaiting code s inbox ours (Along others w after) cs ys after :=
  awaiting.unnoticed (.of_leaves bystanding.leaves bystanding.fits bystanding.lasts) bystanding.heeds
    (fun c member r own => (awaiting.known c member r own).2) (fun _ => id) bystanding.unnoticed

variable {l : Loop} {front back : List Job}

theorem waiting (awaiting : Awaiting code s inbox ours others (c :: cs) ys w) (loop : w.loop = some l)
    (ready : l.ready = front ++ c.job :: back) :
    ((front ++ back).filter (Job.concerns ours)).Perm (cs.map Charge.job) := by
  have jobs := awaiting.jobs
  have mine : c.job.concerns ours = true := by
    have among : c.job ∈ (c :: cs).map Charge.job := List.mem_cons_self
    exact (List.mem_filter.mp (jobs.mem_iff.mpr among)).2
  simp only [World.jobs, loop, Option.map_some, Option.getD_some, ready, List.filter_append, List.filter_cons, mine,
    if_true, List.map_cons] at jobs
  rw [List.filter_append]
  exact (List.perm_middle.symm.trans jobs).cons_inv

/-- One charge may go on to stand otherwise, if only its own task is written, and it looks after no other routines than
before and those that have been made since. -/
theorem replace (awaiting : Awaiting code s inbox ours others (c :: cs) ys w) {d : Charge ι} {t : Task}
    (undisturbed : Undisturbed s inbox.shows w after) (heeds : Heeds c.own w after) (past : after.past = w.past)
    (group : d.group = c.group) (task : d.task = c.task) (own : ∀ r, d.own r → Along c.own w after r)
    (tasks : after.tasks = w.tasks.setIfInBounds c.task t) (stands : d.Stands code s inbox after)
    (running : after.loop.isSome = true)
    (jobs : (after.jobs.filter (Job.concerns ours)).Perm (d.job :: cs.map Charge.job)) :
    Awaiting code s inbox ours others (d :: cs) ys after := by
  obtain ⟨rest, pairs⟩ := List.pairwise_cons.mp awaiting.apart
  have size : after.tasks.size = w.tasks.size := by rw [tasks, Array.size_setIfInBounds]
  have other : ∀ {id}, id ≠ c.task → after.task id = w.task id := task_set_other tasks
  have known' : ∀ {r}, r < w.routines.size → r < after.routines.size := fun small =>
    Nat.lt_of_lt_of_le small heeds.routines
  refine ⟨undisturbed.fits, running, ?enrolled, ?made, ?known, ?strangers, ?stands, jobs, ?apart, ?ended, ?received⟩
  case enrolled =>
    intro e member
    rcases List.mem_cons.mp member with rfl | member
    · rw [group]
      exact (undisturbed.groups c.group (awaiting.enrolled c List.mem_cons_self)).1
    · exact (undisturbed.groups e.group (awaiting.enrolled e (List.mem_cons_of_mem c member))).1
  case made =>
    intro e member
    rw [size]
    rcases List.mem_cons.mp member with rfl | member
    · rw [task]
      exact awaiting.made c List.mem_cons_self
    · exact awaiting.made e (List.mem_cons_of_mem c member)
  case known =>
    intro e member r among
    rcases List.mem_cons.mp member with rfl | member
    · rcases own r among with before | ⟨newer, made⟩
      · exact (awaiting.known c List.mem_cons_self r before).imp_left known'
      · exact ⟨made, fun foreign => Nat.not_lt.mpr newer (awaiting.strangers r foreign)⟩
    · exact (awaiting.known e (List.mem_cons_of_mem c member) r among).imp_left known'
  case strangers =>
    exact fun r among => known' (awaiting.strangers r among)
  case stands =>
    intro e member
    rcases List.mem_cons.mp member with rfl | member
    · exact stands
    · have before := awaiting.stands e (List.mem_cons_of_mem c member)
      have meanwhile := awaiting.meanwhile (List.mem_cons_of_mem c member) undisturbed heeds fun r own among =>
        (rest e member).2 r among own
      exact before.unnoticed meanwhile ⟨_, other (rest e member).1.symm, rfl⟩
  case apart =>
    refine List.pairwise_cons.mpr ⟨fun e member => ⟨?_, fun r among own' => ?_⟩, pairs⟩
    · rw [task]
      exact (rest e member).1
    · rcases own r among with before | ⟨newer, -⟩
      · exact (rest e member).2 r before own'
      · exact Nat.not_lt.mpr newer (awaiting.known e (List.mem_cons_of_mem c member) r own').1
  case ended =>
    intro id mine
    by_cases own : id = c.task
    · exact .inr ⟨d, List.mem_cons_self, task.trans own.symm⟩
    · rw [other own]
      rcases awaiting.ended id mine with ended | ⟨e, member, same⟩
      · exact .inl ended
      · rcases List.mem_cons.mp member with rfl | member
        · exact absurd same.symm own
        · exact .inr ⟨e, List.mem_cons_of_mem d member, same⟩
  case received =>
    exact awaiting.received.lasts undisturbed.lasts (by rw [World.received, past, World.received])

section Turn

variable {front : List Job} {current : Option Nat} {l : Loop} (awaiting : Awaiting code s inbox ours others (c :: cs) ys w)
  (waiting : (front.filter (Job.concerns ours)).Perm (cs.map Charge.job)) (undisturbed : Undisturbed s inbox.shows w after)
  (heeds : Heeds c.own w after) (past : after.past = w.past)
  (watching : (w.task c.task).watchers.filter Watcher.forwards = [.forward c.group (some inbox.receiver) current])
include awaiting waiting undisturbed heeds past watching

theorem goesOn {m n : Nat} {t : Task} (fewer : m < n) (enough : n ≤ code.patience)
    (owes : t.Owes code (c.promise s inbox) m (Along c.own w after) after) (watchers : t.watchers = (w.task c.task).watchers)
    (tasks : after.tasks = w.tasks.setIfInBounds c.task t)
    (loop : after.loop = some { l with ready := front ++ [.step c.task] }) :
    Awaiting code s inbox ours others
      ({ c with own := Along c.own w after, left := n, job := .step c.task } :: cs) ys after := by
  obtain ⟨mine, small⟩ := awaiting.made c List.mem_cons_self
  have self : after.task c.task = t := task_set_self tasks small
  have told : [Job.step c.task].filter (Job.concerns ours) = [.step c.task] := by simp [Job.concerns, Job.task?, mine]
  have jobs : after.jobs = front ++ [.step c.task] := by simp [World.jobs, loop]
  rw [← watchers] at watching
  refine awaiting.replace undisturbed heeds past rfl rfl (fun _ => id) tasks ?_ ?_ ?_
  · exact .running fewer (Nat.le_of_lt (Nat.lt_of_lt_of_le fewer enough)) (by rwa [self]) (by rwa [self]) rfl
  · rw [loop]
    rfl
  · exact requeued waiting jobs told

theorem comesToEnd {v : Value} (given : inbox.shows after v c.due)
    (tasks : after.tasks =
      w.tasks.setIfInBounds c.task { w.task c.task with outcome := some (.value v), watchers := [] })
    (loop : after.loop = some { l with ready := front ++ (w.task c.task).watchers.map (.notify c.task) }) :
    Awaiting code s inbox ours others
      ({ c with left := 0, job := .notify c.task (.forward c.group (some inbox.receiver) current) } :: cs) ys after := by
  obtain ⟨mine, small⟩ := awaiting.made c List.mem_cons_self
  have told : ((w.task c.task).watchers.map (Job.notify c.task)).filter (Job.concerns ours) =
      [.notify c.task (.forward c.group (some inbox.receiver) current)] := by
    have forwards : Job.concerns ours ∘ Job.notify c.task = Watcher.forwards := by
      funext watcher
      cases watcher <;> simp [Job.concerns, Job.task?, Watcher.forwards, mine]
    rw [List.filter_map, forwards, watching]
    rfl
  have jobs : after.jobs = front ++ (w.task c.task).watchers.map (.notify c.task) := by simp [World.jobs, loop]
  refine awaiting.replace undisturbed heeds past rfl rfl (fun _ => .inl) tasks ?_ ?_ ?_
  · exact .ended (by rw [task_set_self tasks small]) given rfl
  · rw [loop]
    rfl
  · exact requeued waiting jobs told

end Turn

theorem told {lost : List (Charge ι)} (awaiting : Awaiting code s inbox ours others (lost ++ cs) ys w)
    (finished : ∀ c ∈ lost, (w.task c.task).finished = true) (undisturbed : Undisturbed s inbox.shows w after)
    (heeds : Heeds (fun _ => False) w after) (running : after.loop.isSome = true) (tasks : after.tasks = w.tasks)
    (jobs : (after.jobs.filter (Job.concerns ours)).Perm (cs.map Charge.job)) {us : List Value} {zs : List ι}
    (received : after.received inbox.receiver = w.received inbox.receiver ++ us)
    (shown : List.Forall₂ (inbox.shows after) us zs) : Awaiting code s inbox ours others cs (ys ++ zs) after := by
  have task : ∀ id, after.task id = w.task id := task_of_same tasks
  have among : ∀ {c}, c ∈ cs → c ∈ lost ++ cs := List.mem_append_right lost
  refine ⟨undisturbed.fits, running, ?enrolled, ?made, ?known, ?strangers, ?stands, jobs, ?apart, ?ended,
    awaiting.received.given undisturbed.lasts received shown⟩
  case enrolled =>
    exact fun c member => (undisturbed.groups c.group (awaiting.enrolled c (among member))).1
  case made =>
    intro c member
    rw [tasks]
    exact awaiting.made c (among member)
  case known =>
    intro c member r own
    obtain ⟨known, apart⟩ := awaiting.known c (among member) r own
    exact ⟨Nat.lt_of_lt_of_le known heeds.routines, apart⟩
  case strangers =>
    exact fun r other => Nat.lt_of_lt_of_le (awaiting.strangers r other) heeds.routines
  case stands =>
    intro c member
    have before := awaiting.stands c (among member)
    have meanwhile := awaiting.meanwhile (among member) undisturbed heeds fun _ _ => id
    exact before.unnoticed meanwhile ⟨_, task c.task, rfl⟩
  case apart =>
    exact (List.pairwise_append.mp awaiting.apart).2.1
  case ended =>
    intro id mine
    rw [task]
    rcases awaiting.ended id mine with ended | ⟨c, member, same⟩
    · exact .inl ended
    · rcases List.mem_append.mp member with gone | member
      · exact .inl (same ▸ finished c gone)
      · exact .inr ⟨c, member, same⟩

theorem schedule {first : Nat} (awaiting : Awaiting code s inbox (between first w.tasks.size) others cs ys w)
    (below : first ≤ w.tasks.size) (queued : ∀ job ∈ w.jobs, ∀ id, job.task? = some id → id < w.tasks.size)
    (undisturbed : Undisturbed s inbox.shows w after) (heeds : Heeds (fun _ => False) w after) {t : Task}
    (task : c.task = w.tasks.size) (job : c.job = .step c.task) (tasks : after.tasks = w.tasks.push t)
    (loop : after.loop = w.loop.map (·.push c.job))
    (received : after.received inbox.receiver = w.received inbox.receiver) (enrolled : Enrolled s after c.group)
    (fresh : ∀ r, c.own r → w.routines.size ≤ r ∧ r < after.routines.size) (stands : c.Stands code s inbox after) :
    Awaiting code s inbox (between first after.tasks.size) others (c :: cs) ys after := by
  have size : after.tasks.size = w.tasks.size + 1 := by rw [tasks, Array.size_push]
  have older : ∀ {id}, id < w.tasks.size → after.task id = w.task id := task_push_older tasks
  have small : ∀ d ∈ cs, first ≤ d.task ∧ d.task < w.tasks.size := fun d member => by
    simpa [between] using (awaiting.made d member).1
  obtain ⟨l, present⟩ := Option.isSome_iff_exists.mp awaiting.running
  have jobs : after.jobs = w.jobs ++ [c.job] := by simp [World.jobs, loop, present, Loop.push]
  refine ⟨undisturbed.fits, ?running, ?enrolled, ?made, ?known, ?strangers, ?stands, ?jobs, ?apart, ?ended,
    awaiting.received.lasts undisturbed.lasts received⟩
  case running =>
    rw [loop, present]
    rfl
  case enrolled =>
    intro d member
    rcases List.mem_cons.mp member with rfl | member
    · exact enrolled
    · exact (undisturbed.groups d.group (awaiting.enrolled d member)).1
  case made =>
    intro d member
    rw [size]
    rcases List.mem_cons.mp member with rfl | member
    · simp [between, task, below]
    · obtain ⟨since, made⟩ := small d member
      simp [between, since, Nat.lt_succ_of_lt made]
  case known =>
    intro d member r own
    rcases List.mem_cons.mp member with rfl | member
    · exact ⟨(fresh r own).2, fun other => Nat.not_lt.mpr (fresh r own).1 (awaiting.strangers r other)⟩
    · exact (awaiting.known d member r own).imp_left fun known => Nat.lt_of_lt_of_le known heeds.routines
  case strangers =>
    exact fun r other => Nat.lt_of_lt_of_le (awaiting.strangers r other) heeds.routines
  case stands =>
    intro d member
    rcases List.mem_cons.mp member with rfl | member
    · exact stands
    · exact (awaiting.stands d member).unnoticed (awaiting.meanwhile member undisturbed heeds fun _ _ => id)
        ⟨_, older (small d member).2, rfl⟩
  case jobs =>
    have before := concerned_wider first queued
    rw [← size] at before
    have own : [c.job].filter (Job.concerns (between first after.tasks.size)) = [c.job] := by
      simp [Job.concerns, Job.task?, job, between, task, size, below]
    exact requeued (before ▸ awaiting.jobs) jobs own
  case apart =>
    refine List.pairwise_cons.mpr ⟨fun d member => ⟨?_, fun r own among => ?_⟩, awaiting.apart⟩
    · rw [task]
      exact (Nat.ne_of_lt (small d member).2).symm
    · exact Nat.not_lt.mpr (fresh r own).1 (awaiting.known d member r among).1
  case ended =>
    intro id mine
    have range : first ≤ id ∧ id < w.tasks.size + 1 := by simpa [between, size] using mine
    rcases Nat.lt_or_eq_of_le (Nat.lt_succ_iff.mp range.2) with known | rfl
    · rw [older known]
      have before : between first w.tasks.size id = true := by simp [between, range.1, known]
      rcases awaiting.ended id before with ended | ⟨d, member, same⟩
      · exact .inl ended
      · exact .inr ⟨d, List.mem_cons_of_mem c member, same⟩
    · exact .inr ⟨c, List.mem_cons_self, task⟩

section Jobs

variable (discreet : code.Discreet s) (confined : code.Confined) (preserves : code.Preserves s inbox.shows)
include discreet confined preserves

theorem step (awaiting : Awaiting code s inbox ours others (c :: cs) ys w) (loop : w.loop = some l)
    (ready : l.ready = front ++ c.job :: back) (job : c.job = .step c.task) :
    ∃ d : Charge ι, d.due = c.due ∧ d.left < c.left ∧ Awaiting code s inbox ours others (d :: cs) ys
      ((Loop.runJob code (.step c.task)).run { w with loop := some { l with ready := front ++ back } }).2 := by
  have waiting := awaiting.waiting loop ready
  generalize popping : ({ w with loop := some { l with ready := front ++ back } } : World σ) = popped
  have aside : World.Beside w popped := by
    rw [← popping]
    rfl
  have routines : popped.routines = w.routines := by rw [← popping]
  have fits := discreet.aside w popped awaiting.fits aside.aside
  have tasks : popped.tasks = w.tasks := by rw [← popping]
  have looped : popped.loop = some { l with ready := front ++ back } := by rw [← popping]
  have task : popped.task c.task = w.task c.task := task_of_same tasks c.task
  have early : Meanwhile (c.promise s inbox) c.own w popped := .aside discreet preserves awaiting.fits aside routines
  have lasts : Lasts inbox.shows popped ((Loop.runJob code (.step c.task)).run popped).2 :=
    Loop.lasts_runJob discreet preserves fits _
  cases awaiting.stands c List.mem_cons_self with
  | ended outcome given notify =>
    rw [job] at notify
    cases notify
  | @running n current fewer enough owes watching _ =>
    obtain ⟨⟨⟩, after, ran, quiet, heeds, past, stepped⟩ :=
      Loop.yields_step discreet preserves confined (task ▸ owes.later early) enough fits
    have ended : ((Loop.runJob code (.step c.task)).run popped).2 = after := congrArg Prod.snd ran
    rw [ended] at lasts ⊢
    obtain ⟨leaves, around⟩ := quiet fits
    have undisturbed := (Undisturbed.of_beside discreet preserves awaiting.fits aside).trans (.of_leaves leaves around lasts)
    have heeds : Heeds c.own w after := by
      refine ⟨routines ▸ heeds.routines, fun r known other => ?_⟩
      rw [heeds.others r (routines ▸ known) other, World.routine, World.routine, routines]
    have past : after.past = w.past := by rw [past, ← popping]
    cases stepped with
    | @waits m t less owed watchers written queued =>
      rw [tasks] at written
      rw [task] at watchers
      have along : Along c.own popped after = Along c.own w after := by
        funext r
        simp only [Along, routines]
      rw [along] at owed
      rw [looped] at queued
      refine ⟨_, ?_, ?_,
        awaiting.goesOn waiting undisturbed heeds past watching less enough owed watchers written queued⟩
      · rfl
      · exact fewer
    | @ended v given written queued =>
      rw [tasks, task] at written
      rw [looped, task] at queued
      refine ⟨_, ?_, ?_, awaiting.comesToEnd waiting undisturbed heeds past watching given written queued⟩
      · rfl
      · exact Nat.lt_of_le_of_lt (Nat.zero_le n) fewer

theorem passOn (awaiting : Awaiting code s inbox ours others (c :: cs) ys w) (loop : w.loop = some l)
    (ready : l.ready = front ++ c.job :: back) {v : Value} {current : Option Nat}
    (outcome : (w.task c.task).outcome = some (.value v)) (given : inbox.shows w v c.due)
    (job : c.job = .notify c.task (.forward c.group (some inbox.receiver) current)) :
    Awaiting code s inbox ours others cs (ys ++ [c.due])
      ((Loop.runJob code c.job).run { w with loop := some { l with ready := front ++ back } }).2 := by
  have waiting := awaiting.waiting loop ready
  let popped : World σ := { w with loop := some { l with ready := front ++ back } }
  let noted : World σ := { popped with past := .delivered c.group inbox.receiver v :: w.past }
  let calls : Act σ Unit := do
    let _ ← inContext current (Board.callUser code inbox.receiver [v])
  have told : ((Loop.runJob code c.job).run popped).2 = (calls.run noted).2 := by
    have ended : (popped.task c.task).outcome = some (.value v) := outcome
    rw [job, Loop.world_runJob_notify]
    unfold Loop.notify
    rw [run_bind_ok (run_get popped), ended]
    rfl
  have early : World.Beside w popped := rfl
  have lasts := (preserves.beside early).trans
    (Loop.lasts_runJob discreet preserves (discreet.aside w popped awaiting.fits early.aside) c.job)
  rw [told] at lasts ⊢
  have quiet : Keeps (Quiet s) calls :=
    Keeps.bind (discreet.drives.inContext current (Board.keeps_callUser discreet.drives.carries _ [v])) fun _ =>
      Keeps.pure _
  have keeps : Keeps (World.Confined fun _ => False) calls :=
    Keeps.bind (confined.carries.context current (Board.keeps_callUser confined.carries _ [v])) fun _ => Keeps.pure _
  have confines := keeps noted
  have aside : World.Beside w noted := rfl
  obtain ⟨leaves, around⟩ := quiet noted (discreet.aside w noted awaiting.fits aside.aside)
  have before : Leaves s (fun _ => False) w noted := .beside aside
  have undisturbed : Undisturbed s inbox.shows w (calls.run noted).2 := .of_leaves (before.trans leaves) around lasts
  have running : (calls.run noted).2.loop.isSome = true := by
    rw [confines.loop]
    rfl
  have jobs : (calls.run noted).2.jobs = front ++ back := by
    rw [World.jobs, confines.loop]
    rfl
  have first : Awaiting code s inbox ours others ([c] ++ cs) ys w := awaiting
  refine first.told ?_ undisturbed ⟨confines.routines, confines.others⟩ running confines.tasks (by rwa [jobs]) (received_delivered confines.past)
    (.cons (lasts v c.due given) .nil)
  intro e member
  rw [List.mem_singleton.mp member, Task.finished, outcome]
  rfl

/-- Whichever job is run next: what has been received and what is still due are the same together. -/
theorem job (awaiting : Awaiting code s inbox ours others cs ys w) (loop : w.loop = some l) {job : Job}
    (ready : l.ready = front ++ job :: back) (mine : ∀ id, job.task? = some id → ours id = true) :
    ∃ ds zs, (zs ++ ds.map Charge.due).Perm (ys ++ cs.map Charge.due) ∧ Awaiting code s inbox ours others ds zs
      ((Loop.runJob code job).run { w with loop := some { l with ready := front ++ back } }).2 := by
  cases task : job.task? with
  | none =>
    obtain ⟨unnoticed, aside, routines⟩ := @Loop.unnoticed_runJob σ code ours w l front back job inbox.receiver task loop ready
    have heeds : Heeds (fun _ => False) w _ :=
      ⟨Nat.le_of_eq (by rw [routines]), fun r _ _ => by rw [World.routine, World.routine, routines]⟩
    refine ⟨cs, ys, .refl _, awaiting.unnoticed (.of_beside discreet preserves awaiting.fits aside) heeds
      (fun _ _ _ _ => id) (fun _ => .inl) unnoticed⟩
  | some id =>
    have waits : job ∈ w.jobs.filter (Job.concerns ours) := by
      rw [List.mem_filter]
      exact ⟨by simp [World.jobs, loop, ready], by simp [Job.concerns, task, mine id task]⟩
    obtain ⟨c, member, rfl⟩ := List.mem_map.mp (awaiting.jobs.mem_iff.mp waits)
    obtain ⟨before, behind, rfl⟩ := List.append_of_mem member
    have first := awaiting.perm List.perm_middle
    cases first.stands c List.mem_cons_self with
    | running fewer enough owes watching runs =>
      obtain ⟨d, due, -, next⟩ := first.step discreet confined preserves loop ready runs
      rw [← runs] at next
      refine ⟨d :: (before ++ behind), ys, .append_left ys ?_, next⟩
      rw [List.map_cons, due, ← List.map_cons]
      exact (List.perm_middle.map Charge.due).symm
    | ended outcome given tells =>
      refine ⟨before ++ behind, ys ++ [c.due], ?_,
        first.passOn discreet confined preserves loop ready outcome given tells⟩
      rw [List.append_assoc]
      exact .append_left ys (List.perm_middle.map Charge.due).symm

/-- In whatever order jobs are run, what has been received and what is still due are the same together. -/
theorem runs (awaiting : Awaiting code s inbox ours others cs ys w)
    (runs : Runs code s inbox ours others w foreign after) :
    ∃ ds zs, (zs ++ ds.map Charge.due).Perm (ys ++ cs.map Charge.due) ∧
      Awaiting code s inbox ours foreign ds zs after := by
  induction runs with
  | stay => exact ⟨cs, ys, .refl _, awaiting⟩
  | job earlier loop ready mine ih =>
    obtain ⟨ds, zs, same, there⟩ := ih
    obtain ⟨es, us, again, next⟩ := there.job discreet confined preserves loop ready mine
    exact ⟨es, us, again.trans same, next⟩
  | other earlier bystanding ih =>
    obtain ⟨ds, zs, same, there⟩ := ih
    exact ⟨ds, zs, same, there.bystand bystanding⟩

theorem finish_one (awaiting : Awaiting code s inbox ours others (c :: cs) ys w) :
    ∃ later, Runs code s inbox ours others w others later ∧
      Awaiting code s inbox ours others cs (ys ++ [c.due]) later := by
  -- a step leaves the task less to do, and after the last one there is the passing on
  induction left : c.left using Nat.strongRecOn generalizing c w with
  | ind n ih =>
    have among := awaiting.jobs.mem_iff.mpr (List.mem_map.mpr ⟨c, List.mem_cons_self, rfl⟩)
    obtain ⟨waits, concerns⟩ := List.mem_filter.mp among
    have mine : ∀ id, c.job.task? = some id → ours id = true := fun id task => by
      simpa [Job.concerns, task] using concerns
    obtain ⟨l, loop⟩ := Option.isSome_iff_exists.mp awaiting.running
    have queued : c.job ∈ l.ready := by simpa [World.jobs, loop] using waits
    obtain ⟨front, back, ready⟩ := List.append_of_mem queued
    have here : Runs code s inbox ours others w others w := .stay
    have next := here.job loop ready mine
    cases awaiting.stands c List.mem_cons_self with
    | running fewer enough owes watching runs =>
      obtain ⟨d, due, less, there⟩ := awaiting.step discreet confined preserves loop ready runs
      obtain ⟨later, further, done⟩ := ih d.left (left ▸ less) there rfl
      rw [due] at done
      rw [runs] at next
      exact ⟨later, next.trans further, done⟩
    | ended outcome given tells =>
      exact ⟨_, next, awaiting.passOn discreet confined preserves loop ready outcome given tells⟩

/-- All tasks can be run until nothing is due any more. -/
theorem finish (awaiting : Awaiting code s inbox ours others cs ys w) :
    ∃ later, Runs code s inbox ours others w others later ∧
      Awaiting code s inbox ours others [] (ys ++ cs.map Charge.due) later := by
  induction cs generalizing ys w with
  | nil => exact ⟨w, .stay, by simpa using awaiting⟩
  | cons c cs ih =>
    obtain ⟨mid, early, next⟩ := awaiting.finish_one discreet confined preserves
    obtain ⟨later, late, done⟩ := ih next
    refine ⟨later, early.trans late, ?_⟩
    rwa [List.append_assoc] at done

end Jobs

end Awaiting

/-- A task has ended, and what it has given is passed on. -/
structure World.Done (w : World σ) (id : Nat) : Prop where
  finished : (w.task id).finished = true
  told : ∀ group receiver current, .notify id (.forward group receiver current) ∉ w.jobs

/-- Nothing is due any more just when all of our tasks have ended. -/
theorem Awaiting.done_iff (awaiting : Awaiting code s inbox ours others cs ys w) :
    (∀ id, ours id = true → w.Done id) ↔ cs = [] := by
  constructor
  · intro all
    apply List.eq_nil_iff_forall_not_mem.mpr
    intro c member
    obtain ⟨finished, told⟩ := all c.task (awaiting.made c member).1
    cases awaiting.stands c member with
    | running fewer enough owes watching job => simp [Task.finished, owes.unfinished] at finished
    | ended outcome given job =>
      have waits : c.job ∈ w.jobs.filter (Job.concerns ours) :=
        awaiting.jobs.mem_iff.mpr (List.mem_map.mpr ⟨c, member, rfl⟩)
      rw [job] at waits
      exact told _ _ _ (List.mem_filter.mp waits).1
  · rintro rfl id mine
    constructor
    · rcases awaiting.ended id mine with ended | ⟨c, member, -⟩
      · exact ended
      · exact absurd member List.not_mem_nil
    intro group receiver current member
    have none := List.perm_nil.mp awaiting.jobs
    have among : Job.notify id (.forward group receiver current) ∈ w.jobs.filter (Job.concerns ours) :=
      List.mem_filter.mpr ⟨member, by simp [Job.concerns, Job.task?, Watcher.forwards, mine]⟩
    rw [none] at among
    exact List.not_mem_nil among

end TaskBoard
