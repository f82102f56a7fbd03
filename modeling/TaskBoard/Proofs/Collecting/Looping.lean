import TaskBoard.Proofs.Collecting.Answering
import TaskBoard.Proofs.Collecting.Comparing
import TaskBoard.Proofs.Dealing

/-!
A collection in a running loop comes to the same as one without. It resolves the same groups to the same files and
destinations, and leaves one task for every mapper that gives a routine. In whatever order these go on, and whatever
else happens in the loop meanwhile, the receiver is given the same values once they have ended.
-/

namespace TaskBoard

open Act World Board

variable {σ ι : Type}

/-- The same world with a loop that runs. -/
def World.looped (w : World σ) (l : Loop) : World σ := { w with loop := some l }

/-- All tasks that some groups keep have ended, and what they have given is passed on. -/
def World.Idle (w : World σ) (gs : List Nat) : Prop := ∀ g ∈ gs, ∀ id, (w.group g).pending = some id → w.Done id

/-- User code that keeps to itself, with patterns that always list the same and mappers that answer for their groups
only. -/
structure UserCode.Delivers (code : UserCode σ) (s : Scope σ) (inbox : Inbox σ ι) (answer : View → ι)
    (listing : Value → Except Failure (List Value)) (start : World σ) : Prop where
  discreet : code.Discreet s
  confined : code.Confined
  preserves : code.Preserves s inbox.shows
  repeats : code.Repeats s listing start
  maps : code.Maps s inbox answer listing start
  regroups : ∀ w gs, s.around w → s.around (w.regrouped s.board gs)
  shown : ∀ w gs, Lasts inbox.shows w (w.regrouped s.board gs)

section Loops

variable {code : UserCode σ} {s : Scope σ} {inbox : Inbox σ ι} {answer : View → ι}
  {listing : Value → Except Failure (List Value)} {others foreign : Nat → Prop} {ps : List (Option Nat)} {xs : List ι}
  {first : Nat} {start w after : World σ}

theorem Inbox.Has.begins (before : inbox.before = w.received inbox.receiver) : inbox.Has w [] :=
  ⟨[], by rw [before, List.append_nil], .nil⟩

theorem World.Undisturbed.regrouped {b : Nat} {gs : List Nat} {shows : World σ → Value → ι → Prop}
    (fits : s.around (w.regrouped b gs)) (lasts : Lasts shows w (w.regrouped b gs)) :
    Undisturbed s shows w (w.regrouped b gs) :=
  ⟨fun _ enrolled => ⟨⟨enrolled.born, enrolled.data, enrolled.known⟩, rfl⟩, fits, lasts⟩

theorem Runs.leaves {ours : Nat → Bool} (discreet : code.Discreet s) (fits : s.around w)
    (runs : Runs code s inbox ours others w foreign after) : Leaves s (fun _ => False) w after ∧ s.around after := by
  induction runs with
  | stay => exact ⟨.refl _, fits⟩
  | @job foreign mid l front back job earlier loop ready mine ih =>
    have popped : World.Beside mid { mid with loop := some { l with ready := front ++ back } } := rfl
    have quiet := trans_of (Quiet s) (discreet.drives.beside mid _ popped) (Loop.keeps_runJob discreet.drives.loops job _)
    obtain ⟨leaves, around⟩ := quiet ih.2
    exact ⟨ih.1.trans leaves, around⟩
  | other earlier bystanding ih => exact ⟨ih.1.trans bystanding.leaves, bystanding.fits⟩

namespace AloneAccount

theorem begins (alone : w.loop = none) (before : inbox.before = w.received inbox.receiver) :
    AloneAccount inbox [] [] w := ⟨alone, by simp, .begins before⟩

theorem regrouped {b : Nat} (account : AloneAccount inbox ps xs w) (gs : List Nat)
    (shown : Lasts inbox.shows w (w.regrouped b gs)) : AloneAccount inbox ps xs (w.regrouped b gs) :=
  ⟨account.alone, account.idle, account.received.lasts shown rfl⟩

end AloneAccount

namespace LoopAccount

theorem begins (fits : s.around w) (running : w.loop.isSome = true)
    (queued : ∀ job ∈ w.jobs, ∀ id, job.task? = some id → id < w.tasks.size)
    (before : inbox.before = w.received inbox.receiver) :
    LoopAccount code s inbox w.tasks.size (· < w.routines.size) [] [] w := by
  have none : ∀ id, between w.tasks.size w.tasks.size id = false := fun id => by
    simp only [between, decide_eq_false_iff_not]
    omega
  have idle : w.jobs.filter (Job.concerns (between w.tasks.size w.tasks.size)) = [] := by
    apply List.filter_eq_nil_iff.mpr
    intro job member
    cases task : job.task? <;> simp [Job.concerns, task, none]
  have awaiting : Awaiting code s inbox (between w.tasks.size w.tasks.size) (· < w.routines.size) [] [] w :=
    ⟨fits, running, by simp, by simp, by simp, fun _ => id, by simp, by simp [idle], .nil, by simp [none],
      .begins before⟩
  refine ⟨fun id => ⟨fun member => absurd member List.not_mem_nil, ?_⟩, Nat.le_refl _, queued, [], [], awaiting, .nil⟩
  rintro ⟨since, made⟩
  exact absurd made (Nat.not_lt.mpr since)

theorem regrouped {b : Nat} (account : LoopAccount code s inbox first others ps xs w) (gs : List Nat)
    (fits : s.around (w.regrouped b gs)) (shown : Lasts inbox.shows w (w.regrouped b gs)) :
    LoopAccount code s inbox first others ps xs (w.regrouped b gs) := by
  obtain ⟨cs, ys, awaiting, perm⟩ := account.awaiting
  have heeds : Heeds (fun _ => False) w (w.regrouped b gs) := ⟨Nat.le_refl _, fun _ _ _ => rfl⟩
  have unnoticed : Unnoticed inbox.receiver (between first w.tasks.size) w (w.regrouped b gs) :=
    ⟨id, .refl _, rfl, Nat.le_refl _, fun id _ => ⟨_, rfl, rfl⟩⟩
  exact ⟨account.pending, account.below, account.queued, cs, ys,
    awaiting.unnoticed (.regrouped fits shown) heeds (fun _ _ _ _ => id) (fun _ => .inl) unnoticed, perm⟩

section Running

variable (account : LoopAccount code s inbox first others ps xs w) (discreet : code.Discreet s)
  (confined : code.Confined) (preserves : code.Preserves s inbox.shows)
  (runs : Runs code s inbox (between first w.tasks.size) others w foreign after)
include account discreet confined preserves runs

/-- Whatever has run so far, the tasks can be run to their ends. -/
theorem finishes : ∃ later, Runs code s inbox (between first w.tasks.size) foreign after foreign later ∧
    ∀ id, some id ∈ ps → later.Done id := by
  obtain ⟨cs, ys, awaiting, -⟩ := account.awaiting
  obtain ⟨ds, zs, -, there⟩ := awaiting.runs discreet confined preserves runs
  obtain ⟨later, further, done⟩ := there.finish discreet confined preserves
  refine ⟨later, further, fun id pending => done.done_iff.mpr rfl id ?_⟩
  exact decide_eq_true ((account.pending id).mp pending)

/-- Once all tasks have ended, the receiver has been given all answers. -/
theorem receives (done : ∀ id, some id ∈ ps → after.Done id) : ∃ ys, inbox.Has after ys ∧ ys.Perm xs := by
  obtain ⟨cs, ys, awaiting, perm⟩ := account.awaiting
  obtain ⟨ds, zs, same, there⟩ := awaiting.runs discreet confined preserves runs
  have nothing : ds = [] := there.done_iff.mp fun id ours => done id ((account.pending id).mpr (of_decide_eq_true ours))
  subst nothing
  refine ⟨zs, there.received, ?_⟩
  simpa using same.trans perm

end Running

end LoopAccount

section Starting

variable {b : Nat} {around : World σ → Prop}

/-- A board with all that belongs to it is formed if its groups can be named and its lists exist. -/
theorem World.formed (keys : ∀ d ∈ start.declared b, d.config.hashable = true ∧ d.group.hashable = true)
    (listed : ∀ cell, start.Owns b (.list cell) ∨ start.Owns b (.set cell) → cell < start.heap.lists.size) :
    Formed (start.scope b around) start where
  own _ := Iff.rfl
  mine cell place := by
    rcases place with configures | member
    · exact configures.owns
    · exact member.owns
  parts _ _ whole part := whole.part part
  listed := listed
  keys := keys
  tasks _ _ entry := .root (.entry .task entry)

/-- A collection that is about to begin, in a loop or not. -/
theorem World.Underway.begins {s : Scope σ} (l : Option Loop) : Underway s start [] { start with loop := l } where
  intact := (Intact.refl start).leaves (.of_same rfl rfl rfl)
  traced _ _ := .refl _
  enrolled _ member := absurd member List.not_mem_nil

end Starting

/-- Two collections that begin with and without a loop are even. -/
theorem World.Level.begins {l : Loop} (delivers : code.Delivers s inbox answer listing start) (fits : s.around start)
    (alone : start.loop = none) (before : inbox.before = start.received inbox.receiver)
    (queued : ∀ job ∈ l.ready, ∀ id, job.task? = some id → id < start.tasks.size) :
    Level s answer (AloneAccount inbox)
      (LoopAccount code s inbox start.tasks.size (· < start.routines.size)) start [] start [] (start.looped l) := by
  have beside : World.Beside start (start.looped l) := rfl
  have around := delivers.discreet.aside start _ fits beside.aside
  have still : Midway s start (start.looped l) := ⟨(Underway.begins (some l)).intact, rfl, around⟩
  exact ⟨.begins rfl (Underway.begins start.loop) (Underway.begins (some l)), ⟨.refl fits, .begins alone before⟩,
    ⟨still, LoopAccount.begins (w := start.looped l) around rfl queued before⟩⟩

end Loops

namespace Naming

def named : List Value → Act (List Value) Value
  | [.group g] => do return ((← get).group g).name
  | _ => pure .nothing

/-- User code with a receiver that keeps what it is called with, a plain mapper, and routines that give up their turn
twice before they answer. -/
def naming : UserCode (List Value) where
  call id args := do
    match id with
    | 0 => do
      modify fun w => { w with user := w.user ++ args }
      return .value .nothing
    | 1 => return .value (← named args)
    | _ => return .routine
  resume _ args stretch _ := do if stretch < 2 then return .pause else return .value (← named args)
  run _ _ := pure []
  label? _ _ := none

def sources : FileTree := { entries := [([['a', '.', 'j', 's']], .file (.text ""))] }

def mapped (mapper : String) : Mapping :=
  ⟨[(.text "des", .text ("out$VERSION$@" ++ mapper)), (.text "src", .text "*.js")]⟩

/-- A plain mapper between two asynchronous ones. -/
def mixed : World (List Value) where
  heap := { maps := #[⟨[(.text "p", .map 1), (.text "q", .map 2), (.text "r", .map 3)]⟩, mapped "late", mapped "plain",
    mapped "late"] }
  boards := #[{
    cwd := "", runner := 0, registry := {
      tasks := ⟨[(.text "plain", .callable (.user 1)), (.text "late", .callable (.user 2))]⟩
      configs := ⟨[(.text "c", .map 0)]⟩ } }]
  files := sources
  user := []

def inbox : Inbox (List Value) Value := ⟨0, fun _ v x => v = x, []⟩

/-- What patterns list and the clock writes is settled. -/
def around (w : World (List Value)) : Prop := w.files = sources ∧ w.clock = .whole 0

abbrev scope : Scope (List Value) := mixed.scope 0 around

def listing (_ : Value) : Except Failure (List Value) := .ok [.text "a.js"]

section Reading

variable {R : World (List Value) → World (List Value) → Prop} [Std.Refl R] [IsTrans (World (List Value)) R]

theorem keeps_named (args : List Value) : Keeps R (named args) := by
  unfold named
  split
  · exact Keeps.bind Keeps.get fun _ => Keeps.pure _
  · exact Keeps.pure _

theorem keeps_call (receives : ∀ w args, R w { w with user := w.user ++ args }) (id : Nat) (args : List Value) :
    Keeps R (naming.call id args) := by
  simp only [naming]
  split
  · exact Keeps.bind (Keeps.modify fun w => receives w args) fun _ => Keeps.pure _
  · exact Keeps.bind (keeps_named args) fun _ => Keeps.pure _
  · exact Keeps.pure _

theorem keeps_resume (id : Nat) (args : List Value) (stretch : Nat) (result : Except Failure Value) :
    Keeps R (naming.resume id args stretch result) := by
  simp only [naming]
  split
  · exact Keeps.pure _
  · exact Keeps.bind (keeps_named args) fun _ => Keeps.pure _

end Reading

theorem discreet_naming : naming.Discreet scope where
  aside _ _ fits aside := ⟨aside.files.trans fits.1, aside.clock.trans fits.2⟩
  call := keeps_call fun _ _ fits => ⟨.of_same rfl rfl rfl, fits⟩
  resume := keeps_resume

theorem preserves_naming : naming.Preserves scope inbox.shows where
  aside _ _ _ _ _ shown := shown
  call _ _ _ _ _ _ shown := shown
  resume _ _ _ _ _ _ _ _ shown := shown

variable {w : World (List Value)} {g : Nat}

theorem returns_named {own : Nat → Prop} {stretch turns : Nat} (total : stretch + turns = 2)
    (result : Except Failure Value) :
    Returns naming ⟨scope, inbox.shows, g, (w.group g).name⟩ (turns + 2) own [.user 2 [.group g] stretch]
      (.sent result) w := by
  induction turns generalizing own stretch result w with
  | zero =>
    have last : (Loop.advance naming [.user 2 [.group g] stretch] (.sent result)).run w =
        (.ok (.going [] (.sent (.ok (w.group g).name))), w) := by
      have ready : ¬stretch < 2 := by omega
      simp only [Loop.advance, Loop.runStretch, naming, if_neg ready]
      rfl
    exact .going trivial last (.ended rfl)
  | succ turns ih =>
    have gives : (Loop.advance naming [.user 2 [.group g] stretch] (.sent result)).run w =
        (.ok (.halted (.paused [.user 2 [.group g] (stretch + 1)])), w) := by
      have early : stretch < 2 := by omega
      simp only [Loop.advance, Loop.runStretch, naming, if_pos early]
      rfl
    refine .paused trivial gives fun later meanwhile _ => ?_
    have same : (later.group g).name = (w.group g).name := congrArg View.name meanwhile.view
    rw [← same]
    exact ih (by omega) _

theorem returns_late {r : Nat} (unbegun : w.routine r = ⟨.user 2 [.group g], false⟩) :
    Returns naming ⟨scope, inbox.shows, g, (w.group g).name⟩ 5 (· = r) [] (.begin r) w := by
  have began : (Loop.advance naming [] (.begin r)).run w =
      (.ok (.going [.user 2 [.group g] 0] (.sent (.ok .nothing))), w.setRoutine r ⟨.user 2 [.group g], true⟩) := by
    unfold Loop.advance Loop.beginRoutine
    rw [run_bind_ok (run_get w), unbegun]
    rfl
  exact .going rfl began (returns_named (w := w.setRoutine r _) rfl _)

theorem declared_mixed : mixed.declared 0 =
    [⟨.text "c", .text "p", 1⟩, ⟨.text "c", .text "q", 2⟩, ⟨.text "c", .text "r", 3⟩] := rfl

theorem source_mixed {cell : Nat} {source : Value} (found : mixed.heap.sourceAt cell = some source) :
    source = .text "*.js" := by
  match cell, found with
  | 0, found | _ + 4, found => cases found
  | 1, found | 2, found | 3, found =>
    cases found
    rfl

theorem tree_mixed : mixed.Tree 0 where
  keys := by
    rw [declared_mixed]
    decide
  single := by
    rw [declared_mixed]
    decide
  apart := by
    apply apart_of_single rfl
    rw [declared_mixed]
    decide
  clear cell member source found := by
    rw [source_mixed found]
    trivial

theorem list_sources : sources.list [] "*.js".toList = .ok ["a.js".toList] := by decide +kernel

theorem run_resolveSources (board : w.board 0 = mixed.board 0) (files : w.files = sources) :
    ((resolveSources naming 0 (.text "*.js")).run w).1 = .ok [.text "a.js"] := by
  have found : (glob naming 0 "*.js").run w = (.ok [.text "a.js"], w) := by
    unfold Board.glob
    rw [run_bind_ok (run_board w 0), board]
    dsimp only [mixed, World.board]
    change (ofExcept (w.files.list [] "*.js".toList) >>= fun paths => (pure (paths.map toText) : Act (List Value) _)).run w = _
    rw [files, list_sources]
    rfl
  have root : rootPath w.heap (((w.board 0).paths w.heap).at? "src") = .ok [] := by
    rw [board]
    rfl
  have listed : (listFiles naming 0 (SourcePattern.parse "*.js")).run w = (.ok [.text "a.js"], w) := by
    have source : SourcePattern.parse "*.js" = .rooted "*.js" := by decide
    have under : String.ofList (Board.rooted [] "*.js".toList) = "*.js" := by decide
    rw [source]
    unfold listFiles
    rw [run_bind_ok (run_heap w), run_bind_ok (run_board w 0), root]
    change (glob naming 0 (String.ofList (Board.rooted [] "*.js".toList))).run w = _
    rw [under, found]
  unfold resolveSources
  rw [run_bind_ok listed]
  rfl

theorem repeats_naming : naming.Repeats scope listing mixed where
  lists cell source _ patterns _ found _ read pattern among w midway := by
    rw [source_mixed found] at read
    cases read
    rw [List.mem_singleton.mp among]
    exact run_resolveSources midway.board midway.fits.1
  stamps cell pattern mapper _ _ _ w fits := by rw [fits.2]; rfl

def belongs : Value → Bool
  | .text _ | .map _ | .callable (.user 1) | .callable (.user 2) => true
  | _ => false

theorem owned_mixed {v : Value} (owned : mixed.Owns 0 v) : belongs v = true := by
  apply owned.all
  · intro v known
    cases v with
    | text _ | map _ | callable _ => rfl
    | _ => cases known
  · intro kind
    cases kind <;> rfl
  · intro cell
    match cell with
    | 0 | 1 | 2 | 3 => rfl
    | _ + 4 => rfl
  · rfl

theorem mapper_mixed {mapper : Value} (owned : mixed.Owns 0 mapper) (callable : mapper.isCallable = true) :
    mapper = .callable (.user 1) ∨ mapper = .callable (.user 2) := by
  have known := owned_mixed owned
  cases mapper with
  | callable c =>
    unfold belongs at known
    split at known <;> simp_all
  | _ => cases callable

theorem maps_naming : naming.Maps scope inbox View.name listing mixed where
  mappers d member g early w name out mapper _ midway current enrolled data _ label destination owned callable := by
    obtain rfl | rfl := mapper_mixed owned callable
    · have plain : ∀ r, (w.group g).name ≠ .routine r := fun r same => by cases label.symm.trans same
      exact .intro rfl (.plain plain rfl)
    · have made : (Board.call naming (.callable (.user 2)) [.group g]).run w =
          (.ok (.routine w.routines.size), { w with routines := w.routines.push ⟨.user 2 [.group g], false⟩ }) := rfl
      have fresh : ∀ r, r = w.routines.size → w.routines.size ≤ r ∧
          r < ({ w with routines := w.routines.push ⟨.user 2 [.group g], false⟩ } : World (List Value)).routines.size := by
        rintro r rfl
        exact ⟨Nat.le_refl _, by simp⟩
      refine .intro made (.routine (n := 5) (by decide) fresh fun later meanwhile _ => ?_)
      have unbegun : later.routine w.routines.size = ⟨.user 2 [.group g], false⟩ := by
        rw [meanwhile.kept _ rfl]
        exact World.routine_push_newest rfl
      have same : (later.group g).name = (w.group g).name := congrArg View.name meanwhile.view
      have returns := returns_late unbegun
      rwa [same] at returns
  receives _ _ _ := .intro rfl trivial

theorem delivers_naming : naming.Delivers scope inbox View.name listing mixed where
  discreet := discreet_naming
  confined := ⟨keeps_call fun _ _ => .of_same rfl rfl rfl rfl, keeps_resume⟩
  preserves := preserves_naming
  repeats := repeats_naming
  maps := maps_naming
  regroups _ _ fits := fits
  shown _ _ _ _ shown := shown

theorem listed_mixed (cell : Nat) (owns : mixed.Owns 0 (.list cell) ∨ mixed.Owns 0 (.set cell)) :
    cell < mixed.heap.lists.size := by
  rcases owns with owned | owned <;> cases owned_mixed owned

/-- The same, with routines that change something whenever they are run. -/
def naming.changing (change : World (List Value) → World (List Value)) : UserCode (List Value) := { naming with
  resume id args stretch result := do
    modify change
    naming.resume id args stretch result }

def moved : FileTree := { entries := [([['b', '.', 'j', 's']], .file (.text ""))] }

def moving : UserCode (List Value) := naming.changing fun w => { w with files := moved }

def lasting : UserCode (List Value) := naming.changing fun w => { w with clock := .whole 1 }

/-- The same, with a receiver that refuses one name. -/
def refusing : UserCode (List Value) := { naming with
  call id args := do
    match id, args with
    | 0, [.text "c:p"] => throw (.raised "ValueError" "p")
    | _, _ => naming.call id args }

def filesOf (w : World (List Value)) (g : Nat) : List (Option String) := (w.heap.listAt (w.group g).files).map Value.text?

def outOf (w : World (List Value)) (g : Nat) : Option String :=
  match (w.group g).destination with
  | .destination out _ => some out
  | _ => none

theorem discreet_changing {change : World (List Value) → World (List Value)}
    (aside : ∀ w, (change w).heap = w.heap ∧ (change w).boards = w.boards ∧ (change w).groups = w.groups) :
    (naming.changing change).Discreet (mixed.scope 0 fun _ => True) where
  aside _ _ _ _ := trivial
  call := keeps_call fun _ _ fits => ⟨.of_same rfl rfl rfl, fits⟩
  resume id args stretch result := by
    have written : ∀ w, Quiet (mixed.scope 0 fun _ => True) w (change w) := fun w fits =>
      ⟨.of_same (aside w).1 (aside w).2.1 (aside w).2.2, fits⟩
    exact Keeps.bind (Keeps.modify written) fun _ => keeps_resume id args stretch result

theorem discreet_refusing : refusing.Discreet (mixed.scope 0 fun _ => True) where
  aside _ _ _ _ := trivial
  call id args := by
    simp only [refusing]
    split
    · exact Keeps.throw _
    · exact keeps_call (fun _ _ fits => ⟨.of_same rfl rfl rfl, fits⟩) _ _
  resume := keeps_resume

theorem resume_changing {change : World (List Value) → World (List Value)} (aside : ∀ w, (change w).groups = w.groups) (id : Nat)
    (args : List Value) (stretch : Nat) (result : Except Failure Value) (w : World (List Value)) :
    (((naming.changing change).resume id args stretch result).run w).1 =
      ((naming.resume id args stretch result).run w).1 := by
  have changed : ((naming.changing change).resume id args stretch result).run w =
      (naming.resume id args stretch result).run (change w) := run_bind_ok (run_modify w _)
  rw [changed]
  simp only [naming]
  split
  · rfl
  unfold named
  split
  next g =>
    have same : (change w).group g = w.group g := by rw [World.group, aside w, World.group]
    exact congrArg (fun record : Group => Except.ok (Stretch.value record.name)) same
  · rfl

end Naming

end TaskBoard
