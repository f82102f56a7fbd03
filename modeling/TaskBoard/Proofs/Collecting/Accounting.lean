import TaskBoard.Proofs.Collecting.Foreseeing
import TaskBoard.Proofs.Recording
import TaskBoard.Proofs.Running.Awaiting

/-!
The visit of a group with an account of the mappers: the tasks that groups keep, and the answers that are due. Between
two mappers nothing happens that an account would notice, so it stays right if every mapper keeps it right; and the group
is then as it was foreseen.
-/

namespace TaskBoard

open Act World Board

variable {σ ι : Type}

/-- What a collection does beside having routines run: tasks, the loop and all known routines are left alone, and the
receiver is given some values at most. -/
structure World.Interim (s : Scope σ) (inbox : Inbox σ ι) (vs : List Value) (w after : World σ) : Prop
    extends Heeds (fun _ => False) w after where
  leaves : Leaves s s.own w after
  fits : s.around after
  lasts : Lasts inbox.shows w after
  tasks : after.tasks = w.tasks
  loop : after.loop = w.loop
  received : after.received inbox.receiver = w.received inbox.receiver ++ vs

def answers (answer : View → ι) (views : List View) : List ι :=
  (views.filter fun view => view.mapper?.isSome).map answer

/-- An account of the groups that a scan has come past: the tasks that they keep and the answers of their mappers. It
stays right between two mappers, and every mapper adds to it. -/
structure Accounts (code : UserCode σ) (s : Scope σ) (inbox : Inbox σ ι) (answer : View → ι)
    (listing : Value → Except Failure (List Value)) (start : World σ)
    (account : List (Option Nat) → List ι → World σ → Prop) : Prop where
  interim : ∀ ps xs w after, account ps xs w → Interim s inbox [] w after → account ps xs after
  unmapped : ∀ ps xs w, account ps xs w → account (ps ++ [none]) xs w
  mapped : ∀ {ps xs before w d g record files content name out mapper}, d ∈ start.declared s.board →
    account ps xs before → Midway s start before → before.foresee s.board listing d = .ok (w.view g) →
    During s start before d.cell g record files content w → Interim s inbox [] before w → record.pending = none →
    record.name = .text name → record.destination = .destination out mapper → s.mine mapper → mapper.isCallable = true →
    Yields (runMapper code s.board g (some inbox.receiver)) w fun _ after =>
      account (ps ++ [(after.group g).pending]) (xs ++ [answer (w.view g)]) after

variable {code : UserCode σ} {s : Scope σ} {inbox : Inbox σ ι} {answer : View → ι}
  {listing : Value → Except Failure (List Value)} {account : List (Option Nat) → List ι → World σ → Prop}
  {start before w after : World σ} {d : Declaration} {cell g : Nat} {record : Group} {files : List Value}
  {content : Mapping}

theorem answers_append (views more : List View) :
    answers answer (views ++ more) = answers answer views ++ answers answer more := by simp [answers]

namespace World

namespace Interim

theorem trans {mid : World σ} {vs us : List Value} (early : Interim s inbox vs w mid)
    (late : Interim s inbox us mid after) : Interim s inbox (vs ++ us) w after where
  routines := Nat.le_trans early.routines late.routines
  others r known other := by
    rw [late.others r (Nat.lt_of_lt_of_le known early.routines) other, early.others r known other]
  leaves := early.leaves.trans late.leaves
  fits := late.fits
  lasts := early.lasts.trans late.lasts
  tasks := late.tasks.trans early.tasks
  loop := late.loop.trans early.loop
  received := by rw [late.received, early.received, List.append_assoc]

theorem of_confined (leaves : Leaves s s.own w after) (fits : s.around after) (lasts : Lasts inbox.shows w after)
    (confined : World.Confined (fun _ => False) w after) : Interim s inbox [] w after :=
  { confined with
    leaves := leaves
    fits := fits
    lasts := lasts
    received := by rw [World.received, confined.past, List.append_nil, World.received] }

theorem logged (discreet : code.Discreet s) (preserves : code.Preserves s inbox.shows) (fits : s.around w)
    (line : LogLine) : Interim s inbox [] w { w with log := w.log.push line } := by
  have aside : World.Beside w { w with log := w.log.push line } := rfl
  exact .of_confined (.beside aside) (discreet.aside w _ fits aside.aside) (preserves.beside aside)
    (.of_same rfl rfl rfl rfl)

theorem undisturbed {vs : List Value} (interim : Interim s inbox vs w after) : Undisturbed s inbox.shows w after :=
  .of_leaves interim.leaves interim.fits interim.lasts

end Interim

namespace During

variable {first : World σ} {shows : World σ → Value → ι → Prop}

theorem of_since (during : During (s.since shows first) start before cell g record files content w) :
    During s start before cell g record files content w :=
  ⟨during.toMidway.of_since, during.leaves.of_since, during.older, during.newer, during.born, during.data,
    during.stands, during.known, during.reads, during.mapping⟩

theorem interim (during : During (s.since inbox.shows before) start before cell g record files content w)
    (own : s.own cell) (confined : World.Confined (fun _ => False) before w) : Interim s inbox [] before w := by
  refine .of_confined (during.leaves.of_since.mono ?_) during.fits.1 during.fits.2 confined
  rintro _ rfl
  exact own

end During

end World

namespace Board

theorem overlooks_confined : Overlooks (World.Confined (fun _ => False) : World σ → World σ → Prop) where
  heap _ _ := .of_same rfl rfl rfl rfl
  record _ _ _ := .of_same rfl rfl rfl rfl
  group _ _ := .of_same rfl rfl rfl rfl

section Settling

variable {text : String} {v : Value} {patterns : List Value} {list : Nat} (discreet : code.Discreet s)
  (confined : code.Confined) (preserves : code.Preserves s inbox.shows) (formed : Formed s start)
  (repeats : code.Repeats s listing start) (declares : start.Declares s.board d.cell) (begins : Midway s start before)
  (traced : Traced s start before) (label : Config.label before.heap d.config d.group = .ok text)
  (source : start.heap.sourceAt d.cell = some v) (read : Group.patterns before.heap v = .ok patterns)
include discreet confined preserves formed repeats declares begins traced label source read

omit traced in
theorem ends_groupFiles_surveyed
    (during : During (s.since inbox.shows before) start before d.cell g record [] (before.heap.mapAt d.cell) w)
    (patterned : record.source = patterns) (kept : World.Confined (fun _ => False) before w) :
    Ends (groupFiles code s.board g) w
      (fun files after => before.survey listing d = .ok ⟨text, patterns, files⟩ ∧
        During (s.since inbox.shows before) start before d.cell g record [] (before.heap.mapAt d.cell) after ∧
        World.Confined (fun _ => False) before after)
      (fun failure after => before.foresee s.board listing d = .error failure ∧
        Visited s listing start before d after ∧ Interim s inbox [] before after) := by
  subst patterned
  have writable := formed.writable declares
  have guarded : Writable (s.since inbox.shows before) start d.cell := ⟨writable.own, writable.mine, writable.source⟩
  have here : before.heap.sourceAt d.cell = some v := by rw [begins.sourceAt_eq writable.mine, source]
  have surveyed : before.survey listing d = (do
      let lists ← record.source.mapM listing
      pure ⟨text, record.source, lists.flatten⟩) := survey_read label here read
  have each := repeats.lists d.cell v before record.source declares source begins read
  have listed := ends_groupFiles_listed discreet during.of_since each
  have carries : Carries code (World.Confined fun _ => False) := confined.carries
  apply (((ends_groupFiles (preserves.discreet discreet before) guarded during).both listed).keeps
    (keeps_groupFiles (keeps_resolveSources carries s.board) g)).mono
  · rintro _ after ⟨⟨⟨-, still⟩, lists, all, rfl⟩, untouched⟩
    refine ⟨?_, still, trans_of (World.Confined fun _ => False) kept untouched⟩
    rw [surveyed, all]
    rfl
  · rintro failure after ⟨⟨⟨-, still⟩, failed⟩, untouched⟩
    have unsurveyed : before.survey listing d = .error failure := by
      rw [surveyed, failed]
      rfl
    refine ⟨foresee_unsurveyed unsurveyed, ⟨still.of_since.toMidway, still.of_since.leaves, ?_⟩, ?_⟩
    · rw [unsurveyed]
      exact still.mapping
    · exact still.interim writable.own (trans_of (World.Confined fun _ => False) kept untouched)

omit confined label source read in
theorem ends_settleDestination_foreseen {found : Survey} (surveyed : before.survey listing d = .ok found)
    (written : During (s.since inbox.shows before) start before d.cell g
      ⟨.text found.name, found.source, Value.ofOption ((before.heap.mapAt d.cell).at? "des"), .map d.cell, list, none⟩
      found.files ((before.heap.mapAt d.cell).insert (.text "files") (.list list)) w)
    (sofar : World.Confined (fun _ => False) before w) :
    Ends (settleDestination s.board g) w
      (fun _ after => ∃ destination, World.Confined (fun _ => False) before after ∧
        before.destined s.board d = .ok destination ∧
        During (s.since inbox.shows before) start before d.cell g
          ⟨.text found.name, found.source, destination, .map d.cell, list, none⟩ found.files
          (((before.heap.mapAt d.cell).insert (.text "files") (.list list)).place
            (Value.ofOption ((before.heap.mapAt d.cell).at? "des")) destination) after)
      (fun failure after => before.foresee s.board listing d = .error failure ∧
        Visited s listing start before d after ∧ Interim s inbox [] before after) := by
  have writable := formed.writable declares
  have guarded : Writable (s.since inbox.shows before) start d.cell := ⟨writable.own, writable.mine, writable.source⟩
  have same := settlement_congr formed.toWhole repeats declares traced begins written.of_since.toMidway (by
    intro cell paths
    by_cases own : cell = d.cell
    · rw [own, written.mapping]
      exact Mapping.get?_insert_other _ _ (by decide)
    · have mine : s.mine (.map cell) := formed.mine cell (.inl (Mapping.entry_of_get? paths))
      rw [written.of_since.leaves.maps cell mine own])
  apply ((ends_settleDestination (preserves.discreet discreet before) guarded written).keeps
    (keeps_settleDestination overlooks_confined s.board g)).mono
  · rintro _ after ⟨⟨destination, placed, last⟩, silently⟩
    exact ⟨destination, trans_of (World.Confined fun _ => False) sofar silently, same.symm.trans placed.settlement, last⟩
  · rintro failure after ⟨⟨rfl, pattern, text, raised⟩, -⟩
    have unsettled : before.destined s.board d = .error failure := by
      have texts : Group.destinationOf before.heap (.map d.cell) = .text pattern := text
      have ran := run_resolveDestination s.board pattern after
      rw [World.destined, ← same, texts]
      exact (Prod.mk.inj (ran.symm.trans raised)).1
    refine ⟨?_, ⟨written.of_since.toMidway, written.of_since.leaves, ?_⟩, written.interim writable.own sofar⟩
    · rw [foresee_surveyed surveyed, unsettled]
      rfl
    rw [surveyed, unsettled]
    refine ⟨g, written.of_since.enrolled writable.mine, ?_, ?_⟩
    · rw [written.mapping, written.stands]
      rfl
    · rw [written.stands]
      exact written.reads

theorem ends_settle_foreseen
    (during : During (s.since inbox.shows before) start before d.cell g
      ⟨.text text, patterns, Value.ofOption ((before.heap.mapAt d.cell).at? "des"), .map d.cell, list, none⟩ []
      (before.heap.mapAt d.cell) w)
    (kept : World.Confined (fun _ => False) before w) :
    Ends (do setFiles g (← groupFiles code s.board g); settleDestination s.board g : Act σ Unit) w
      (fun _ after => ∃ found list destination, World.Confined (fun _ => False) before after ∧
        before.survey listing d = .ok found ∧ before.destined s.board d = .ok destination ∧
        During (s.since inbox.shows before) start before d.cell g
          ⟨.text found.name, found.source, destination, .map d.cell, list, none⟩ found.files
          (((before.heap.mapAt d.cell).insert (.text "files") (.list list)).place
            (Value.ofOption ((before.heap.mapAt d.cell).at? "des")) destination) after)
      (fun failure after => before.foresee s.board listing d = .error failure ∧
        Visited s listing start before d after ∧ Interim s inbox [] before after) := by
  have writable := formed.writable declares
  have watchful := preserves.discreet discreet before
  have guarded : Writable (s.since inbox.shows before) start d.cell := ⟨writable.own, writable.mine, writable.source⟩
  apply (ends_groupFiles_surveyed discreet confined preserves formed repeats declares begins label source read during rfl
    kept).bind
  rintro files listed ⟨surveyed, still, early⟩
  -- from here on a failure finds the files written
  have writes := @ends_setFiles σ code (s.since inbox.shows before) start before d.cell g _ [] _ listed watchful guarded
    still files fun _ _ => False
  apply Ends.bind ((writes.keeps (keeps_setFiles overlooks_confined g files)).mono (fun _ _ written => written)
    fun _ _ failed => absurd failed.1 id)
  rintro _ filed ⟨written, quietly⟩
  have sofar := trans_of (World.Confined fun _ => False) early quietly
  apply (ends_settleDestination_foreseen discreet preserves formed repeats declares begins traced surveyed written sofar).mono
  · rintro _ after ⟨destination, confines, destined, last⟩
    exact ⟨_, _, destination, confines, surveyed, destined, last⟩
  · exact fun _ _ failed => failed

end Settling

section Visiting

variable (accounts : Accounts code s inbox answer listing start account) (member : d ∈ start.declared s.board)
include accounts member

theorem yields_runMapper_account {ps : List (Option Nat)} {xs : List ι} (right : account ps xs before)
    (begins : Midway s start before) (foreseen : before.foresee s.board listing d = .ok (w.view g))
    (during : During s start before d.cell g record files content w) (interim : Interim s inbox [] before w)
    (idle : record.pending = none) {name : String} (named : record.name = .text name)
    (held : ∀ out mapper, record.destination = .destination out mapper → mapper.isCallable = true → s.mine mapper) :
    Yields (runMapper code s.board g (some inbox.receiver)) w fun _ after =>
      account (ps ++ [(after.group g).pending]) (xs ++ answers answer [w.view g]) after := by
  have same := during.view_eq
  have pending : (w.group g).pending = none := by rw [during.stands, idle]
  have plain : (w.view g).mapper? = none → (runMapper code s.board g (some inbox.receiver)).run w = (.ok ⟨⟩, w) →
      Yields (runMapper code s.board g (some inbox.receiver)) w fun _ after =>
        account (ps ++ [(after.group g).pending]) (xs ++ answers answer [w.view g]) after := by
    intro none ran
    have nothing : answers answer [w.view g] = [] := by simp [answers, none]
    refine .intro ran ?_
    rw [pending, nothing, List.append_nil]
    exact accounts.unmapped ps xs w (accounts.interim ps xs before w right interim)
  cases destination : record.destination with
  | destination out mapper =>
    by_cases callable : mapper.isCallable = true
    · have mapped : (w.view g).mapper? = some mapper := by simp [same, View.mapper?, destination, callable]
      have one : answers answer [w.view g] = [answer (w.view g)] := by simp [answers, mapped]
      rw [one]
      exact accounts.mapped member right begins foreseen during interim idle named destination
        (held out mapper destination callable) callable
    · apply plain
      · simp [same, View.mapper?, destination, callable]
      · unfold runMapper
        rw [run_bind_ok (run_get w), during.stands, destination]
        simp [callable]
  | _ =>
    apply plain
    · simp [same, View.mapper?, destination]
    · unfold runMapper
      rw [run_bind_ok (run_get w), during.stands, destination]
      rfl

variable (discreet : code.Discreet s) (confined : code.Confined) (preserves : code.Preserves s inbox.shows)
  (formed : Formed s start) (repeats : code.Repeats s listing start) (begins : Midway s start before)
  (traced : Traced s start before) {ps : List (Option Nat)} {xs : List ι} (right : account ps xs before)
include discreet confined preserves formed repeats begins traced right

section Resolving

variable {text : String} {v : Value} {patterns : List Value} {list : Nat}
  (during : During (s.since inbox.shows before) start before d.cell g
    ⟨.text text, patterns, Value.ofOption ((before.heap.mapAt d.cell).at? "des"), .map d.cell, list, none⟩ []
    (before.heap.mapAt d.cell) w)
  (kept : World.Confined (fun _ => False) before w) (label : Config.label before.heap d.config d.group = .ok text)
  (source : start.heap.sourceAt d.cell = some v) (read : Group.patterns before.heap v = .ok patterns)
include during kept label source read

theorem ends_resolveGroup_account :
    Ends (resolveGroup code s.board g (some inbox.receiver)) w
      (fun _ after => Visited s listing start before d after ∧ Enrolled s after g ∧
        before.foresee s.board listing d = .ok (after.view g) ∧
        account (ps ++ [(after.group g).pending]) (xs ++ answers answer [after.view g]) after)
      (fun failure after => Visited s listing start before d after ∧ before.foresee s.board listing d = .error failure ∧
        account ps xs after) := by
  have declares : start.Declares s.board d.cell := ⟨d, member, rfl⟩
  have writable := formed.writable declares
  have split : resolveGroup code s.board g (some inbox.receiver) =
      (do setFiles g (← groupFiles code s.board g); settleDestination s.board g : Act σ Unit) >>= fun _ =>
        runMapper code s.board g (some inbox.receiver) := by
    simp only [resolveGroup, bind_assoc]
  rw [split]
  apply Ends.bind
  · apply (ends_settle_foreseen discreet confined preserves formed repeats declares begins traced label source read
      during kept).mono
    · exact fun _ _ settled => settled
    · exact fun failure after ⟨failed, visited, interim⟩ =>
        ⟨visited, failed, accounts.interim ps xs before after right interim⟩
  rintro _ mid ⟨found, list, destination, untouched, surveyed, settled, last⟩
  have here := last.of_since
  have foreseen : before.foresee s.board listing d = .ok (mid.view g) := by
    rw [foresee_surveyed surveyed, settled, here.view_eq]
    rfl
  obtain ⟨⟨⟩, after, ran, account⟩ := yields_runMapper_account accounts member right begins foreseen here
    (last.interim writable.own untouched) rfl rfl fun out mapper same callable =>
      mine_of_destined formed traced begins writable.mine (settled.trans (congrArg Except.ok same)) callable
  obtain ⟨pending, ended⟩ :=
    (@ends_runMapper _ code s (some inbox.receiver) _ _ _ _ _ _ _ _ discreet writable here).returned _ after ran
  have seen : after.view g = mid.view g := by rw [ended.view_eq, here.view_eq]
  rw [← seen] at account foreseen
  have enrolled : Enrolled s after g := ended.enrolled writable.mine
  refine .of_ok ran ⟨⟨ended.toMidway, ended.leaves, ?_⟩, enrolled, foreseen, account⟩
  rw [surveyed, settled]
  refine ⟨g, enrolled, ?_, ?_⟩
  · rw [ended.mapping, ended.stands]
  · rw [ended.stands]
    exact ended.reads

theorem ends_resolveDeclared_account :
    Ends (resolveDeclared code s.board (some inbox.receiver) g) w
      (fun found after => found = g ∧ Visited s listing start before d after ∧ Enrolled s after g ∧
        before.foresee s.board listing d = .ok (after.view g) ∧
        account (ps ++ [(after.group g).pending]) (xs ++ answers answer [after.view g]) after)
      (fun failure after => Visited s listing start before d after ∧ before.foresee s.board listing d = .error failure ∧
        account ps xs after) := by
  have mine := (formed.writable (show start.Declares s.board d.cell from ⟨d, member, rfl⟩)).mine
  have watchful := preserves.discreet discreet before
  have carries : Carries code (World.Confined fun _ => False) := confined.carries
  have named : (w.group g).name = .text text := by rw [during.stands]
  have begun := during.quiet mine (watchful.drives.log .info ("Getting the source files of: " ++ text) w)
  have early := trans_of (World.Confined fun _ => False) kept
    (carries.log .info ("Getting the source files of: " ++ text) (by decide) w)
  apply Ends.of_run (run_resolveDeclared named)
  apply Ends.run_bind (run_modify w _)
  apply (ends_resolveGroup_account accounts member discreet confined preserves formed repeats begins traced right begun
    early label source read).bind
  rintro _ after ⟨visited, enrolled, foreseen, account⟩
  have line : Interim s inbox [] after _ :=
    .logged discreet preserves visited.midway.fits ⟨.info, "Source files of " ++ text ++ " successfully collected.", none⟩
  have quiet := discreet.drives.log .info ("Source files of " ++ text ++ " successfully collected.") after
  apply Ends.run_bind (run_modify after _)
  refine .pure ⟨rfl, visited.quiet mine quiet, enrolled.leaves line.leaves, ?_, ?_⟩
  · rw [enrolled.view_eq line.leaves]
    exact foreseen
  · rw [enrolled.view_eq line.leaves, enrolled.group_eq line.leaves]
    exact accounts.interim _ _ after _ account line

end Resolving

theorem ends_visitEntry_account (declares : (Value.map d.cell).declaresGroup before.heap = true) :
    Ends (visitEntry (resolveDeclared code s.board (some inbox.receiver)) d.config d.group (.map d.cell)) before
      (fun gs after => Visited s listing start before d after ∧ ∃ g, gs = [g] ∧ Enrolled s after g ∧
        before.foresee s.board listing d = .ok (after.view g) ∧
        account (ps ++ [(after.group g).pending]) (xs ++ answers answer [after.view g]) after)
      (fun failure after => Visited s listing start before d after ∧ before.foresee s.board listing d = .error failure ∧
        account ps xs after) := by
  have declared : start.Declares s.board d.cell := ⟨d, member, rfl⟩
  have writable := formed.writable declared
  have watchful := preserves.discreet discreet before
  have guarded : Writable (s.since inbox.shows before) start d.cell := ⟨writable.own, writable.mine, writable.source⟩
  have still : ∀ {failure}, before.survey listing d = .error failure →
      Visited s listing start before d before ∧ before.foresee s.board listing d = .error failure ∧
        account ps xs before := fun failed =>
    ⟨⟨begins, .refl before, by rw [failed]; rfl⟩, foresee_unsurveyed failed, right⟩
  unfold visitEntry
  apply Ends.run_bind (run_heap before)
  rw [if_pos declares]
  cases label : Config.label before.heap d.config d.group with
  | error failure => exact .of_error (run_bind_error (run_ofExcept before _)) (still (survey_unnamed label))
  | ok text =>
    apply Ends.run_bind (run_ofExcept before _)
    have here : before.heap.sourceAt d.cell = start.heap.sourceAt d.cell := begins.sourceAt_eq writable.mine
    apply Ends.bind
    · have made := ends_newGroup_read watchful guarded (begins.since (.refl _ before)) text
      apply (made.keeps (keeps_newGroup overlooks_confined _ _)).mono
      · exact fun _ _ made => made
      · rintro failure after ⟨⟨rfl, v, source, unread⟩, -⟩
        exact still (survey_unread label (here.trans source) unread)
    rintro g made ⟨⟨v, patterns, rfl, source, read, during⟩, untouched⟩
    apply (ends_resolveDeclared_account accounts member discreet confined preserves formed repeats begins traced right
      during untouched label source read).bind
    rintro found after ⟨rfl, visited, account⟩
    exact .pure ⟨visited, _, rfl, account⟩

end Visiting

end Board

end TaskBoard
