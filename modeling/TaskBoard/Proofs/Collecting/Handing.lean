import TaskBoard.Proofs.Collecting.Outcome

/-!
What becomes of the routines that calls of user code give. Running a task hands the routine on to whoever asked for
the task. The mapper of a group has it kept as the pending task of the group or, without a loop, run to its end. An
initializer alone has it thrown away: it is bound to the board, and nothing that the call leaves refers to it.
-/

namespace TaskBoard

open Act World

variable {σ : Type} {code : UserCode σ} {b g r : Nat} {f : Value} {args : List Value} {receiver : Option Nat}
  {w mid after : World σ}

/-- Asynchronous user code: a call of it gives a routine and does nothing else. -/
def UserCode.Async (code : UserCode σ) (id : Nat) : Prop := ∀ args w, (code.call id args).run w = (.ok .routine, w)

namespace World

/-- The world with a routine more, which is bound to a board and has not begun. -/
def binding (w : World σ) (b r : Nat) : World σ := { w with routines := w.routines.push ⟨.bound b r, false⟩ }

/-- The world in which a loop has a routine of a group's mapper as its next task. -/
def scheduling (w : World σ) (r g : Nat) (receiver : Option Nat) : World σ :=
  { w with
    tasks := w.tasks.push ⟨[], .begin r, w.current, false, none, [.forward g receiver w.current]⟩
    loop := w.loop.map (·.push (.step w.tasks.size)) }

/-- The world in which the mapper of a group is called. -/
def calling (w : World σ) (g : Nat) (mapper : Value) : World σ := { w with past := .mapped g mapper :: w.past }

/-- A routine that a call with a board as context has given, bound to the board, and that nobody has begun. -/
structure Unbegun (w : World σ) (b id : Nat) (args : List Value) (r : Nat) : Prop where
  inner : ∃ inner < r, w.routine inner = ⟨.user id args, false⟩ ∧ w.routine r = ⟨.bound b inner, false⟩
  known : r < w.routines.size

end World

namespace Board

/-- A call with a board as context, whose result is a routine. -/
def Awaits (code : UserCode σ) (b : Nat) (f : Value) (args : List Value) (w : World σ) (r : Nat) (mid : World σ) :
    Prop := (Act.inContext (some b) (call code f args)).run w = (.ok (.routine r), mid)

/-- The callable that a request for a task leads to. -/
inductive Refers (b : Nat) (w : World σ) : Value → Value → Prop where
  | direct {task f : Value} (refers : TaskRef.ofValue task = .direct f) : Refers b w task f
  | named {task name f : Value} (refers : TaskRef.ofValue task = .named name)
    (found : (w.board b).registry.get .task name = .ok (some f)) (callable : f.isCallable = true) : Refers b w task f

/-- The names that a request for initializers stands for: a single one, those of a collection, or all. -/
inductive Requests (b : Nat) (w : World σ) : Value → List String → Prop where
  | one (name : String) : Requests b w (.text name) [name]
  | all {names : List String} (keys : (w.board b).registry.inits.keys = names.map .text) : Requests b w .nothing names
  | listed {v : Value} {names : List String} (several : ∀ name, v ≠ .text name)
    (elements : v.elements? w.heap = some (names.map .text)) : Requests b w v names

theorem awaits_async {id : Nat} (async : code.Async id) (args : List Value) (w : World σ) :
    Awaits code b (.callable (.user id)) args w w.routines.size
      { w with routines := w.routines.push ⟨.user id args, false⟩ } := by
  have called : (callUser code id args).run { w with current := some b } =
      (.ok (.routine w.routines.size),
        { w with current := some b, routines := w.routines.push ⟨.user id args, false⟩ }) := by
    unfold callUser
    rw [run_bind_ok (async args _)]
    rfl
  exact run_inContext called

theorem run_callBound (awaits : Awaits code b f args w r mid) :
    (callBound code b f args).run w = (.ok (.routine mid.routines.size), mid.binding b r) := by
  unfold callBound
  rw [run_bind_ok awaits]
  rfl

theorem run_runDirect {given : Value} (taken : (arguments given).run w = (.ok args, w))
    (awaits : Awaits code b f args w r mid) :
    (runDirect code b f given).run w = (.ok (.routine mid.routines.size), mid.binding b r) := by
  unfold runDirect
  rw [run_bind_ok taken]
  exact run_callBound awaits

theorem run_runTask {task given callback : Value} (refers : Refers b w task f)
    (taken : (arguments given).run w = (.ok args, w)) (awaits : Awaits code b f args w r mid) :
    (runTask code b task given callback).run w = (.ok (.routine mid.routines.size), mid.binding b r) := by
  unfold runTask
  cases refers with
  | direct refers =>
    rw [refers]
    exact run_runDirect taken awaits
  | named refers found callable =>
    rw [refers]
    dsimp only
    rw [run_bind_ok (run_board w b), found, run_bind_ok (run_ofExcept w _)]
    dsimp only
    rw [if_pos callable]
    exact run_runDirect taken awaits

section Mapping

variable {mapper : Value}

theorem run_schedule (running : w.loop.isSome = true) :
    (schedule code g r receiver).run w = (.ok (some w.tasks.size), w.scheduling r g receiver) := by
  obtain ⟨l, present⟩ := Option.isSome_iff_exists.mp running
  let made : Task := ⟨[], .begin r, w.current, false, none, []⟩
  let queued : World σ := World.queue { w with tasks := w.tasks.push made } (.step w.tasks.size)
  have watched : (Loop.watch w.tasks.size (.forward g receiver w.current)).run queued =
      (.ok ⟨⟩, w.scheduling r g receiver) := by
    rw [Loop.run_watch_newest rfl rfl]
    rfl
  unfold schedule
  rw [run_bind_ok (run_get w), present]
  dsimp only
  have makes : (Loop.makeTask r).run w = (.ok w.tasks.size, queued) := rfl
  rw [run_bind_ok makes, run_bind_ok watched]
  rfl

/-- The step of a group's mapper that gives a routine: the loop gets the routine as a task, which the group keeps as
pending; without a loop the routine is run to its end and its value passed on. -/
inductive HandsOn (code : UserCode σ) (b g : Nat) (receiver : Option Nat) (mapper : Value) (w after : World σ) :
    Prop where
  | kept {r : Nat} {mid : World σ} (awaits : Awaits code b mapper [.group g] w r mid) (running : mid.loop.isSome = true)
    (same : after = ((mid.binding b r).scheduling mid.routines.size g receiver).setGroup g
      { mid.group g with pending := some mid.tasks.size })
  | run {r : Nat} {v : Value} {mid ended last : World σ} (awaits : Awaits code b mapper [.group g] w r mid)
    (alone : mid.loop = none) (ran : (Loop.runToCompletion code mid.routines.size).run (mid.binding b r) = (.ok v, ended))
    (passed : (deliver code g receiver v).run ended = (.ok ⟨⟩, last))
    (same : after = last.setGroup g { last.group g with pending := none })

/-- How the step of a mapper that gives a routine fails: the routine has run and failed, or its value is refused. -/
inductive RunFails (code : UserCode σ) (b g : Nat) (receiver : Option Nat) (mapper : Value) (w : World σ)
    (failure : Failure) (after : World σ) : Prop where
  | raised {r : Nat} {mid : World σ} (awaits : Awaits code b mapper [.group g] w r mid) (alone : mid.loop = none)
    (ran : (Loop.runToCompletion code mid.routines.size).run (mid.binding b r) = (.error failure, after))
  | refused {r : Nat} {v : Value} {mid ended : World σ} (awaits : Awaits code b mapper [.group g] w r mid)
    (alone : mid.loop = none) (ran : (Loop.runToCompletion code mid.routines.size).run (mid.binding b r) = (.ok v, ended))
    (passed : (deliver code g receiver v).run ended = (.error failure, after))

theorem ends_schedule_alone (alone : w.loop = none) :
    Ends (schedule code g r receiver) w
      (fun task after => task = none ∧ ∃ v ended, (Loop.runToCompletion code r).run w = (.ok v, ended) ∧
        (deliver code g receiver v).run ended = (.ok ⟨⟩, after))
      (fun failure after => (Loop.runToCompletion code r).run w = (.error failure, after) ∨
        ∃ v ended, (Loop.runToCompletion code r).run w = (.ok v, ended) ∧
          (deliver code g receiver v).run ended = (.error failure, after)) := by
  unfold schedule
  apply Ends.run_bind (run_get w)
  rw [alone]
  dsimp only
  rcases ran : (Loop.runToCompletion code r).run w with ⟨failure | v, ended⟩
  · exact .of_error (run_bind_error ran) (.inl rfl)
  · apply Ends.run_bind ran
    rcases passed : (deliver code g receiver v).run ended with ⟨failure | done, last⟩
    · exact .of_error (run_bind_error passed) (.inr ⟨v, ended, rfl, passed⟩)
    · apply Ends.run_bind passed
      exact .pure ⟨rfl, v, ended, rfl, passed⟩

theorem ends_runMapper_awaits {out : String} (destination : (w.group g).destination = .destination out mapper)
    (callable : mapper.isCallable = true) (awaits : Awaits code b mapper [.group g] (w.calling g mapper) r mid) :
    Ends (runMapper code b g receiver) w (fun _ after => HandsOn code b g receiver mapper (w.calling g mapper) after)
      (fun failure after => RunFails code b g receiver mapper (w.calling g mapper) failure after) := by
  unfold runMapper
  apply Ends.run_bind (run_get w)
  rw [destination]
  dsimp only
  rw [if_pos callable]
  apply Ends.run_bind (run_modify w _)
  apply Ends.run_bind (run_callBound awaits)
  dsimp only
  by_cases running : mid.loop.isSome = true
  · have scheduled : (schedule code g mid.routines.size receiver).run (mid.binding b r) =
        (.ok (some mid.tasks.size), (mid.binding b r).scheduling mid.routines.size g receiver) := run_schedule running
    apply Ends.run_bind scheduled
    exact .of_ok (run_modify _ _) (.kept awaits running rfl)
  · have alone : mid.loop = none := Option.not_isSome_iff_eq_none.mp running
    have silent : (mid.binding b r).loop = none := alone
    apply Ends.bind
    · apply (ends_schedule_alone silent).mono
      · exact fun _ _ ended => ended
      · rintro failure after (raised | ⟨v, ended, ran, refused⟩)
        · exact .raised awaits alone raised
        · exact .refused awaits alone ran refused
    · rintro _ last ⟨rfl, v, ended, ran, passed⟩
      exact .of_ok (run_modify _ _) (.run awaits alone ran passed rfl)

theorem ends_resolveGroup_awaits (code : UserCode σ) (b g : Nat) (receiver : Option Nat) (w : World σ) :
    Ends (resolveGroup code b g receiver) w
      (fun _ after => ∃ settled,
        (do setFiles g (← groupFiles code b g); settleDestination b g : Act σ Unit).run w = (.ok ⟨⟩, settled) ∧
        ∀ out id, (settled.group g).destination = .destination out (.callable (.user id)) → code.Async id →
          HandsOn code b g receiver (.callable (.user id)) (settled.calling g (.callable (.user id))) after)
      (fun _ _ => True) := by
  have split : resolveGroup code b g receiver =
      (do setFiles g (← groupFiles code b g); settleDestination b g : Act σ Unit) >>= fun _ =>
        runMapper code b g receiver := by
    simp only [resolveGroup, bind_assoc]
  rw [split]
  rcases ran : (do setFiles g (← groupFiles code b g); settleDestination b g : Act σ Unit).run w
    with ⟨failure | _, settled⟩
  · exact .of_error (run_bind_error ran) trivial
  apply Ends.run_bind ran
  by_cases async : ∃ out id, (settled.group g).destination = .destination out (.callable (.user id)) ∧ code.Async id
  · obtain ⟨out, id, destination, async⟩ := async
    apply (ends_runMapper_awaits destination rfl (awaits_async async [.group g] _)).mono
    · intro _ after hands
      refine ⟨settled, rfl, fun other own same _ => ?_⟩
      rw [destination] at same
      cases same
      exact hands
    · exact fun _ _ _ => trivial
  · apply (Ends.ran (runMapper code b g receiver) settled).mono
    · exact fun _ after _ => ⟨settled, rfl, fun out id destination own => absurd ⟨out, id, destination, own⟩ async⟩
    · exact fun _ _ _ => trivial

end Mapping

end Board

namespace World

open Board

variable {s : Scope σ} {start : World σ}

/-- A group that a collection has come past: where its mapper is asynchronous, the routine has been handed on, and
the record of the group is still the one that this has left. -/
structure Handed (code : UserCode σ) (s : Scope σ) (receiver : Option Nat) (start : World σ) (g : Nat) (w : World σ) :
    Prop where
  born : g < w.groups.size
  data : ∃ cell, (w.group g).data = .map cell ∧ s.mine (.map cell)
  handed : ∀ out id, (w.group g).destination = .destination out (.callable (.user id)) → code.Async id →
    ∃ early late, Midway s start early ∧ HandsOn code s.board g receiver (.callable (.user id)) early late ∧
      w.group g = late.group g

theorem Handed.leaves {but : Nat → Prop} (handed : Handed code s receiver start g w) (leaves : Leaves s but w after) :
    Handed code s receiver start g after := by
  obtain ⟨cell, data, mine⟩ := handed.data
  have record := leaves.made g handed.born cell data mine
  refine ⟨Nat.lt_of_lt_of_le handed.born leaves.grouped, ⟨cell, by rw [record, data], mine⟩, ?_⟩
  rw [record]
  exact handed.handed

end World

namespace Board

section Collecting

variable {s : Scope σ} {start before : World σ} {cell : Nat} {record : Group} {files : List Value} {content : Mapping}
  (discreet : code.Discreet s) (covers : Covers s start)
include discreet covers

theorem ends_runMapper_handed (declares : start.Declares s.board cell)
    (during : During s start before cell g record files content w) :
    Ends (runMapper code s.board g receiver) w (fun _ after => Handed code s receiver start g after)
      (fun _ _ => True) := by
  have mine := covers.mine cell (.inr declares.member)
  have settles := @ends_runMapper _ code s receiver start before cell g record files content w discreet
    (covers.writable declares) during
  by_cases async : ∃ out id, record.destination = .destination out (.callable (.user id)) ∧ code.Async id
  · obtain ⟨out, id, destination, async⟩ := async
    have leads : (w.group g).destination = .destination out (.callable (.user id)) := by
      rw [during.stands, destination]
    have called := during.quiet mine (discreet.drives.note (.mapped g (.callable (.user id))) w)
    apply (settles.both (ends_runMapper_awaits leads rfl (awaits_async async [.group g] _))).mono
    · rintro _ after ⟨⟨pending, ended⟩, hands⟩
      refine ⟨ended.born, ⟨cell, by rw [ended.stands, ended.data], mine⟩, fun other own same _ => ?_⟩
      rw [ended.stands] at same
      cases destination.symm.trans same
      exact ⟨_, after, called.toMidway, hands, rfl⟩
    · exact fun _ _ _ => trivial
  · apply settles.mono
    · rintro _ after ⟨pending, ended⟩
      refine ⟨ended.born, ⟨cell, by rw [ended.stands, ended.data], mine⟩, fun out id same own => ?_⟩
      rw [ended.stands] at same
      exact absurd ⟨out, id, same, own⟩ async
    · exact fun _ _ _ => trivial

theorem ends_resolveDeclared_handed (declares : start.Declares s.board cell)
    (during : During s start before cell g record files content w) :
    Ends (resolveDeclared code s.board receiver g) w
      (fun found after => found = g ∧ Handed code s receiver start g after) (fun _ _ => True) := by
  have mine := covers.mine cell (.inr declares.member)
  unfold resolveDeclared resolveGroup
  apply Ends.run_bind (run_get w)
  apply Ends.logWords_bind
  intro log
  have begun := during.quiet mine (discreet.drives.beside w { w with log } rfl)
  apply Ends.bind
  · apply Ends.bind ((ends_groupFiles discreet (covers.writable declares) begun).mono (fun _ _ found => found)
      fun _ _ _ => trivial)
    rintro found listed ⟨-, still⟩
    apply Ends.bind (ends_setFiles discreet (covers.writable declares) still found)
    intro _ filed written
    apply Ends.bind ((ends_settleDestination discreet (covers.writable declares) written).mono
      (fun _ _ placed => placed)
      fun _ _ _ => trivial)
    rintro _ settled ⟨destination, -, last⟩
    exact ends_runMapper_handed discreet covers declares last
  · intro _ after handed
    have logged : ∀ log, Leaves s (fun _ => False) after { after with log } := fun _ => .of_same rfl rfl rfl
    apply Ends.logWords_bind
    exact fun log => .pure ⟨rfl, handed.leaves (logged log)⟩

theorem ends_visitEntry_handed {d : Declaration} (member : d ∈ start.declared s.board) (midway : Midway s start w)
    (declares : (Value.map d.cell).declaresGroup w.heap = true) :
    Ends (visitEntry (resolveDeclared code s.board receiver) d.config d.group (.map d.cell)) w
      (fun gs after => ∀ g ∈ gs, Handed code s receiver start g after) (fun _ _ => True) := by
  have declared : start.Declares s.board d.cell := ⟨d, member, rfl⟩
  unfold visitEntry
  apply Ends.run_bind (run_heap w)
  rw [if_pos declares]
  cases label : Config.label w.heap d.config d.group with
  | error failure => exact .of_error (run_bind_error (run_ofExcept w _)) trivial
  | ok text =>
    apply Ends.run_bind (run_ofExcept w _)
    apply Ends.bind ((ends_newGroup discreet covers.toIncludes declared midway text).mono (fun _ _ made => made)
      fun _ _ _ => trivial)
    rintro g made ⟨v, patterns, rfl, -, -, during⟩
    apply Ends.bind (ends_resolveDeclared_handed discreet covers declared during)
    rintro found after ⟨rfl, handed⟩
    refine .pure ?_
    simpa using handed

theorem ends_collect_handed (fits : s.around start) :
    Ends (collect code s.board receiver) start (fun gs last => ∀ g ∈ gs, ∃ mid, Handed code s receiver start g mid ∧
      last.group g = mid.group g) (fun _ _ => True) := by
  have scan : Ends (eachGroup (do return (← Act.board s.board).registry.configs)
      (resolveDeclared code s.board receiver)) start
      (fun gs mid => Midway s start mid ∧ ∀ g ∈ gs, Handed code s receiver start g mid) (fun _ _ => True) := by
    apply ends_eachGroup (fun _ gs w => Midway s start w ∧ ∀ g ∈ gs, Handed code s receiver start g w) covers
    · exact fun _ _ _ course => course.1
    · rintro done d rest gs w split ⟨midway, handed⟩ declares
      have member : d ∈ start.declared s.board := split ▸ by simp
      apply ((ends_visitEntry discreet covers.toIncludes member midway declares).both
        (ends_visitEntry_handed discreet covers member midway declares)).mono
      · rintro more after ⟨⟨-, -, further, leaves⟩, new⟩
        refine ⟨further, fun g either => ?_⟩
        rcases List.mem_append.mp either with older | newer
        · exact (handed g older).leaves leaves
        · exact new g newer
      · exact fun _ _ _ => trivial
    · exact ⟨.refl fits, fun g none => absurd none List.not_mem_nil⟩
  apply scan.bind
  rintro gs mid ⟨-, handed⟩
  exact .of_ok rfl fun g member => ⟨mid, handed g member, rfl⟩

end Collecting

section Initializing

variable {id : Nat} {name : String}

/-- An initializer that gives a routine is told to be done, and the routine is left. -/
theorem run_initOne (found : (w.board b).registry.inits.at? name = some f) (callable : f.isCallable = true)
    (awaits : Awaits code b f [.board b] w r mid) :
    (initOne code b name).run w = (.ok ⟨⟩, { mid.binding b r with
      log := mid.log.push ⟨.debug, " -  Task initializer " ++ name ++ " initialized.", none⟩ }) := by
  unfold initOne
  rw [run_bind_ok (run_board w b), found]
  dsimp only
  rw [if_pos callable, run_bind_ok (run_callBound awaits)]
  rfl

end Initializing

end Board

namespace World

/-- The initializers of a board and the routines that there are stay as they are. -/
structure Retains (b : Nat) (w after : World σ) : Prop where
  inits : (after.board b).registry.inits = (w.board b).registry.inits
  grown : w.routines.size ≤ after.routines.size
  routines : ∀ r < w.routines.size, after.routine r = w.routine r

theorem Retains.of_same (boards : after.boards = w.boards) (routines : after.routines = w.routines) :
    Retains b w after := by
  constructor <;> simp [World.board, World.routine, boards, routines]

instance : Std.Refl (Retains b : World σ → World σ → Prop) where
  refl _ := .of_same rfl rfl

instance : IsTrans (World σ) (Retains b) where
  trans _ _ _ early late := by
    refine ⟨late.inits.trans early.inits, Nat.le_trans early.grown late.grown, fun r known => ?_⟩
    rw [late.routines r (Nat.lt_of_lt_of_le known early.grown), early.routines r known]

theorem Retains.push (w : World σ) (routine : Routine) :
    Retains b w { w with routines := w.routines.push routine } := by
  exact ⟨rfl, by simp, fun r known => World.routine_push_older rfl known⟩

theorem Unbegun.retains {id : Nat} (unbegun : w.Unbegun b id args r) (retains : Retains b w after) :
    after.Unbegun b id args r := by
  obtain ⟨inner, before, own, bound⟩ := unbegun.inner
  refine ⟨⟨inner, before, ?_, ?_⟩, Nat.lt_of_lt_of_le unbegun.known retains.grown⟩
  · rw [retains.routines inner (Nat.lt_trans before unbegun.known), own]
  · rw [retains.routines r unbegun.known, bound]

theorem unbegun_binding (w : World σ) (b id : Nat) (args : List Value) :
    (World.binding { w with routines := w.routines.push ⟨.user id args, false⟩ } b w.routines.size).Unbegun b id args
      (w.routines.push ⟨.user id args, false⟩).size where
  inner := by
    let called : World σ := { w with routines := w.routines.push ⟨.user id args, false⟩ }
    have known : w.routines.size < called.routines.size := by simp [called]
    have kept := (@Retains.push σ b called ⟨.bound b w.routines.size, false⟩).routines w.routines.size known
    exact ⟨w.routines.size, known, kept.trans (routine_push_newest rfl), routine_push_newest (w := called) rfl⟩
  known := by simp [World.binding]

end World

namespace Board

section Initializing

variable (calls : ∀ id args, Keeps (World.Retains b) (code.call id args))
include calls

theorem retains_carries : Carries code (World.Retains b) where
  call := calls
  routine _ := Keeps.modifyGet fun w => .push w _
  context := by
    intro α current act kept w
    have entered : World.Retains b w { w with current := current } := .of_same rfl rfl
    have inside := trans_of (World.Retains b) entered (kept { w with current := current })
    have left : World.Retains b (act.run { w with current := current }).2 ((inContext current act).run w).2 :=
      .of_same rfl rfl
    exact trans_of (World.Retains b) inside left
  log _ _ _ := Keeps.modify fun _ => .of_same rfl rfl

/-- What an initializer has dropped stays dropped: each asynchronous one among some names is left unbegun. -/
theorem ends_initNames (names : List String) (depth : Nat) (w : World σ) :
    Ends ((names.map Value.text).forM (initWithin code (depth + 1) b)) w
      (fun _ after => World.Retains b w after ∧ ∀ name ∈ names, ∀ id,
        (w.board b).registry.inits.at? name = some (.callable (.user id)) → code.Async id →
        ∃ r ≥ w.routines.size, after.Unbegun b id [.board b] r)
      (fun _ _ => True) := by
  induction names generalizing w with
  | nil => exact .pure ⟨refl_of _ w, fun name none => absurd none List.not_mem_nil⟩
  | cons name names ih =>
    change Ends (initOne code b name >>= fun _ => (names.map Value.text).forM (initWithin code (depth + 1) b)) w _ _
    apply Ends.bind
    · apply ((Ends.ran (initOne code b name) w).keeps (keeps_initOne (retains_carries calls) b name)).mono
      · exact fun _ _ kept => kept
      · exact fun _ _ _ => trivial
    rintro _ mid ⟨ran, early⟩
    apply (ih mid).mono
    · rintro _ after ⟨late, others⟩
      refine ⟨trans_of _ early late, fun other member id found async => ?_⟩
      rcases List.mem_cons.mp member with rfl | later
      · have dropped := run_initOne found rfl (awaits_async async [.board b] w)
        rw [dropped] at ran
        cases ran
        exact ⟨_, by simp, (World.unbegun_binding w b id [.board b]).retains (trans_of _ (.of_same rfl rfl) late)⟩
      · rw [← early.inits] at found
        obtain ⟨r, newer, unbegun⟩ := others other later id found async
        exact ⟨r, Nat.le_trans early.grown newer, unbegun⟩
    · exact fun _ _ _ => trivial

omit calls in
theorem run_initNames {v : Value} {names : List String} (requests : Requests b w v names)
    (several : ∀ name, v ≠ .text name) {lines : Array LogLine} :
    (initNames b v).run { w with log := lines } = (.ok (names.map .text), { w with log := lines }) := by
  unfold initNames
  cases requests with
  | one name => exact absurd rfl (several name)
  | all keys =>
    dsimp only
    rw [run_bind_ok (run_board _ b)]
    exact congrArg (fun keys => (Except.ok keys, { w with log := lines })) keys
  | listed other elements =>
    split
    · cases elements
    · unfold Act.elements
      rw [run_bind_ok (run_heap _), elements]
      rfl

omit calls in
theorem init_several {v : Value} (several : ∀ name, v ≠ .text name) : init code b v = (do
    Act.log .info "Initializing tasks..."
    (← initNames b v).forM (initWithin code 899 b)
    Act.log .info "Tasks initialized.") := by
  unfold init initDepth initWithin
  split
  next name => exact absurd rfl (several name)
  next => rfl

/-- Initializers may be asked for by one name, by several or all at once; the asynchronous ones are left unbegun. -/
theorem ends_init_unbegun {v : Value} {names : List String} (requests : Requests b w v names) :
    Ends (init code b v) w
      (fun _ after => ∀ name ∈ names, ∀ id,
        (w.board b).registry.inits.at? name = some (.callable (.user id)) → code.Async id →
        ∃ r ≥ w.routines.size, after.Unbegun b id [.board b] r)
      (fun _ _ => True) := by
  by_cases single : ∃ name, v = .text name
  · obtain ⟨name, rfl⟩ := single
    cases requests with
    | listed other elements => exact absurd rfl (other name)
    | one name =>
      have one : init code b (.text name) = initOne code b name := rfl
      rw [one]
      refine (Ends.ran (initOne code b name) w).mono ?_ fun _ _ _ => trivial
      intro _ after ran other member id found async
      obtain rfl := List.mem_singleton.mp member
      rw [run_initOne found rfl (awaits_async async [.board b] w)] at ran
      cases ran
      exact ⟨_, by simp, (World.unbegun_binding w b id [.board b]).retains (.of_same rfl rfl)⟩
  · have several : ∀ name, v ≠ .text name := fun name same => single ⟨name, same⟩
    rw [init_several several]
    apply Ends.run_bind (run_modify w _)
    apply Ends.run_bind (run_initNames requests several)
    apply Ends.bind (ends_initNames calls names 898 _)
    rintro _ mid ⟨-, dropped⟩
    refine .of_ok (run_modify mid _) ?_
    intro name member id found async
    obtain ⟨r, newer, unbegun⟩ := dropped name member id found async
    exact ⟨r, newer, unbegun.retains (.of_same rfl rfl)⟩

end Initializing

end Board

/-- What becomes of the routine that asynchronous user code gives, wherever a board calls it. Running a task, by name
or directly, gives the routine to the caller, bound to the board and not begun. A group that is resolved, alone or in
a collection, keeps it as a task of the loop or, without a loop, has run it to its end before anything else happens.
But initializers, whether one is asked for, several or all of them, only make it: when they are done, it stands there
unbegun and the caller has got nothing to begin it with. -/
theorem routines_handed_on_unless_initial (code : UserCode σ) (b : Nat) :
    (∀ task given callback args w id, Board.Refers b w task (.callable (.user id)) → code.Async id →
      (Board.arguments given).run w = (.ok args, w) →
      ∃ r after, (Board.runTask code b task given callback).run w = (.ok (.routine r), after) ∧
        after.Unbegun b id args r) ∧
    (∀ g receiver w, Ends (Board.resolveGroup code b g receiver) w
      (fun _ after => ∃ settled,
        (do Board.setFiles g (← Board.groupFiles code b g); Board.settleDestination b g : Act σ Unit).run w =
          (.ok ⟨⟩, settled) ∧
        ∀ out id, (settled.group g).destination = .destination out (.callable (.user id)) → code.Async id →
          Board.HandsOn code b g receiver (.callable (.user id)) (settled.calling g (.callable (.user id))) after)
      fun _ _ => True) ∧
    (∀ receiver s start, s.board = b → code.Discreet s → Covers s start → s.around start →
      Ends (Board.collect code b receiver) start
        (fun gs last => ∀ g ∈ gs, ∃ mid, Handed code s receiver start g mid ∧ last.group g = mid.group g)
        fun _ _ => True) ∧
    ∀ v names w, (∀ id args, Keeps (World.Retains b) (code.call id args)) → Board.Requests b w v names →
      Ends (Board.init code b v) w
        (fun _ after => ∀ name ∈ names, ∀ id,
          (w.board b).registry.inits.at? name = some (.callable (.user id)) → code.Async id →
          ∃ r ≥ w.routines.size, after.Unbegun b id [.board b] r)
        fun _ _ => True := by
  refine ⟨?_, fun g receiver w => Board.ends_resolveGroup_awaits code b g receiver w, ?_, ?_⟩
  · intro task given callback args w id refers async taken
    exact ⟨_, _, Board.run_runTask refers taken (Board.awaits_async async args w), World.unbegun_binding w b id args⟩
  · rintro receiver s start rfl discreet covers fits
    exact Board.ends_collect_handed discreet covers fits
  · exact fun v names w calls requests => Board.ends_init_unbegun calls requests

namespace Dropped

/-- User code that is asynchronous throughout. -/
def asynchronous : UserCode Unit where
  call _ _ := pure .routine
  resume _ _ _ _ := pure (.value .nothing)
  run _ _ := pure []
  label? _ _ := none

/-- A board with one function as a task, as the mapper of its only group and as an initializer, in a running loop. -/
def start : World Unit where
  heap := { maps := #[⟨[(.text "g", .map 1)]⟩, ⟨[(.text "src", .text "@none"), (.text "des", .text "out@m")]⟩] }
  boards := #[{
    cwd := "", runner := 9, registry := {
      tasks := ⟨[(.text "m", .callable (.user 0))]⟩
      inits := ⟨[(.text "x", .callable (.user 0))]⟩
      configs := ⟨[(.text "c", .map 0)]⟩ } }]
  loop := some {}
  user := ()

theorem async_zero : asynchronous.Async 0 := fun _ _ => rfl

theorem discreet_asynchronous (s : Scope Unit) (free : ∀ w, s.around w) : asynchronous.Discreet s where
  aside _ after _ _ := free after
  call _ _ := Keeps.pure _
  resume _ _ _ _ := Keeps.pure _

theorem declared_start : start.declared 0 = [⟨.text "c", .text "g", 1⟩] := rfl

theorem tree_start : start.Tree 0 where
  keys := by
    rw [declared_start]
    decide
  single := by
    rw [declared_start]
    decide
  apart := by
    apply apart_of_single rfl
    rw [declared_start]
    decide
  clear cell member source found := by
    have text : source = .text "@none" := by
      match cell, found with
      | 0, found | _ + 2, found => cases found
      | 1, found =>
        cases found
        rfl
    rw [text]
    trivial

/-- The task gives its routine to the caller, the group keeps that of its mapper, and that of the initializer stands
unbegun after a call that gives nothing; no task has it. -/
theorem routines_handed_on_unless_initial_dropped :
    (∃ r after, (Board.runTask asynchronous 0 (.text "m") .nothing .nothing).run start = (.ok (.routine r), after) ∧
      after.Unbegun 0 0 [] r) ∧
    (∃ last, (Board.collect asynchronous 0 none).run start = (.ok [0], last) ∧ (last.group 0).pending = some 0 ∧
      ∃ mid, Handed asynchronous (start.scope 0 fun _ => True) none start 0 mid ∧ last.group 0 = mid.group 0) ∧
    ∃ after r, (Board.init asynchronous 0 .nothing).run start = (.ok ⟨⟩, after) ∧ after.Unbegun 0 0 [.board 0] r ∧
      after.tasks = #[] ∧ after.loop = some {} := by
  obtain ⟨runs, -, collects, inits⟩ := routines_handed_on_unless_initial asynchronous 0
  have refers : Board.Refers 0 start (.text "m") (.callable (.user 0)) := .named rfl rfl rfl
  refine ⟨runs (.text "m") .nothing .nothing [] start 0 refers async_zero rfl, ?_, ?_⟩
  · have discreet := discreet_asynchronous (start.scope 0 fun _ => True) fun _ => trivial
    have handed := (collects none _ start rfl discreet tree_start.covers trivial).returned
    have given : ((Board.collect asynchronous 0 none).run start).1.toOption = some [0] := by decide +kernel
    have kept : (((Board.collect asynchronous 0 none).run start).2.group 0).pending = some 0 := by decide +kernel
    rcases ran : (Board.collect asynchronous 0 none).run start with ⟨failure | gs, last⟩
    · rw [ran] at given
      cases given
    · rw [ran] at given kept
      obtain rfl : gs = [0] := Option.some.inj given
      exact ⟨last, rfl, kept, handed [0] last ran 0 List.mem_cons_self⟩
  · have unbegun := (inits .nothing ["x"] start (fun _ _ => Keeps.pure _) (.all rfl)).returned ⟨⟩ _ rfl
    obtain ⟨r, -, stands⟩ := unbegun "x" List.mem_cons_self 0 rfl async_zero
    exact ⟨_, r, rfl, stands, rfl, rfl⟩

end Dropped

end TaskBoard
