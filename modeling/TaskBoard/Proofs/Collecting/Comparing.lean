import TaskBoard.Proofs.Collecting.Accounting
import TaskBoard.Proofs.Collecting.Alike
import TaskBoard.Proofs.Pairing

/-!
Two collections from one start, group by group. They may look after routines in ways of their own, each with its account.
As long as they are even the next group comes to the same in both, so they end alike and are even at their ends.
-/

namespace TaskBoard

open Act World Board

variable {σ ι : Type}

namespace World

/-- A collection in the course of its scan, with an account of its groups. -/
structure Told (s : Scope σ) (answer : View → ι) (account : List (Option Nat) → List ι → World σ → Prop)
    (start : World σ) (gs : List Nat) (w : World σ) : Prop where
  midway : Midway s start w
  right : account (gs.map fun g => (w.group g).pending) (answers answer (gs.map w.view)) w

/-- Two collections that are even in the course of their scans, with an account of the groups on either side. -/
structure Level (s : Scope σ) (answer : View → ι) (account reaccount : List (Option Nat) → List ι → World σ → Prop)
    (start : World σ) (gs : List Nat) (w : World σ) (hs : List Nat) (v : World σ) : Prop where
  even : Even s start gs hs w v
  told : Told s answer account start gs w
  retold : Told s answer reaccount start hs v

/-- Two collections return all groups each, which the board has from then on, or fail alike and leave it its groups. -/
inductive EndAlike (b : Nat) (w v : World σ) (gs hs : List Nat) :
    Except Failure (List Nat) → Except Failure (List Nat) → Prop where
  | returned (groups : (w.board b).groups = gs) (regrouped : (v.board b).groups = hs) :
    EndAlike b w v gs hs (.ok gs) (.ok hs)
  | failed (failure : Failure) (groups : (v.board b).groups = (w.board b).groups) :
    EndAlike b w v gs hs (.error failure) (.error failure)

/-- Two collections come to the same: they end alike, their groups look the same, and the board reads the same. -/
structure Agree (s : Scope σ) (result ended : Except Failure (List Nat)) (gs hs : List Nat) (w v : World σ) : Prop
    extends Alike s w v where
  results : EndAlike s.board w v gs hs result ended
  views : hs.map v.view = gs.map w.view

/-- Two collections have ended alike, and are even. -/
structure Concluded (s : Scope σ) (start : World σ) (result ended : Except Failure (List Nat)) (gs hs : List Nat)
    (w v : World σ) : Prop extends Even s start gs hs w v where
  registry : (v.board s.board).registry = (w.board s.board).registry
  results : EndAlike s.board w v gs hs result ended

variable {code : UserCode σ} {s : Scope σ} {inbox : Inbox σ ι} {answer : View → ι}
  {listing : Value → Except Failure (List Value)} {account reaccount : List (Option Nat) → List ι → World σ → Prop}
  {start w v late : World σ} {gs hs : List Nat} {result ended : Except Failure (List Nat)}
  {config group : Value} {cell own b : Nat} {d : Declaration}

namespace Concluded

theorem leaves (concluded : Concluded s start result ended gs hs w v) (whole : Whole s start)
    (leaves : Leaves s (fun _ => False) v late) : Concluded s start result ended gs hs w late where
  toEven := concluded.toEven.leaves whole leaves
  registry := (congrArg Board.registry leaves.board).trans concluded.registry
  results := by
    have same := congrArg Board.groups leaves.board
    cases concluded.results with
    | returned groups regrouped => exact .returned groups (same.trans regrouped)
    | failed failure groups => exact .failed failure (same.trans groups)

theorem agree (concluded : Concluded s start result ended gs hs w v) (whole : Whole s start) :
    Agree s result ended gs hs w v where
  registry := concluded.registry
  lists cell mine := by
    have known := whole.listed cell mine
    rw [concluded.first.intact.lists cell known mine, concluded.second.intact.lists cell known mine]
  maps := concluded.maps
  results := concluded.results
  views := concluded.views

end Concluded

theorem Midway.declaresGroup_eq (midway : Midway s start w) (whole : Whole s start)
    (member : start.Member s.board own) :
    (Value.map own).declaresGroup w.heap = (Value.map own).declaresGroup start.heap := by
  have mine := whole.mine own (.inr member)
  exact declaresGroup_congr (midway.sourceAt_eq mine) fun source found =>
    whole.truthy_eq midway (whole.parts (.map own) source mine (Mapping.mem_of_get? found))

section Regrouping

theorem Written.regrouped {value : Value} (written : Written s w value) (gs : List Nat) :
    Written s (w.regrouped b gs) value := by
  cases written with
  | @files g enrolled =>
    exact @Written.files σ s (w.regrouped b gs) g (enrolled.regrouped b gs)
  | text pattern => exact .text pattern
  | destination targets => exact .destination targets

theorem Underway.regrouped (underway : Underway s start gs w) : Underway s start gs (w.regrouped b gs) where
  intact := underway.intact.regrouped b gs
  traced cell mine :=
    ⟨fun entry member => ((underway.traced cell mine).entries entry member).imp_right (·.regrouped gs),
      (underway.traced cell mine).destination⟩
  enrolled g member := (underway.enrolled g member).regrouped b gs

theorem Even.regrouped (even : Even s start gs hs w v) : Even s start gs hs (w.regrouped b gs) (v.regrouped b hs) :=
  ⟨even.first.regrouped, even.second.regrouped, even.maps, even.views⟩

end Regrouping

end World

namespace Board

variable {code : UserCode σ} {s : Scope σ} {inbox : Inbox σ ι} {answer : View → ι}
  {listing : Value → Except Failure (List Value)} {account reaccount : List (Option Nat) → List ι → World σ → Prop}
  {start w v : World σ} {gs hs : List Nat} {d : Declaration} (discreet : code.Discreet s) (confined : code.Confined)
  (preserves : code.Preserves s inbox.shows) (formed : Formed s start) (repeats : code.Repeats s listing start)
include discreet confined preserves formed repeats

theorem ends_visitEntry_told (accounts : Accounts code s inbox answer listing start account)
    (member : d ∈ start.declared s.board) (underway : Underway s start gs w) (told : Told s answer account start gs w)
    (declares : (Value.map d.cell).declaresGroup start.heap = true) :
    Ends (visitEntry (resolveDeclared code s.board (some inbox.receiver)) d.config d.group (.map d.cell)) w
      (fun more after => Visited s listing start w d after ∧ ∃ g, more = [g] ∧ Enrolled s after g ∧
        w.foresee s.board listing d = .ok (after.view g) ∧ Told s answer account start (gs ++ [g]) after)
      (fun failure after => Visited s listing start w d after ∧ w.foresee s.board listing d = .error failure ∧
        Told s answer account start gs after) := by
  have here := told.midway.declaresGroup_eq formed.toWhole (mem_declared member).1
  apply (ends_visitEntry_account accounts member discreet confined preserves formed repeats told.midway underway.traced
    told.right (here.trans declares)).mono
  · rintro _ after ⟨visited, g, rfl, enrolled, foreseen, right⟩
    refine ⟨visited, g, rfl, enrolled, foreseen, visited.midway, ?_⟩
    rw [List.map_append, List.map_append, underway.views_eq visited.leaves, underway.pendings_eq visited.leaves,
      answers_append]
    exact right
  · rintro failure after ⟨visited, failed, right⟩
    refine ⟨visited, failed, visited.midway, ?_⟩
    rwa [underway.views_eq visited.leaves, underway.pendings_eq visited.leaves]

omit discreet confined preserves formed repeats in
theorem run_visitEntry_silent {α : Type} {visit : Nat → Act σ α} {config group data : Value}
    (silent : data.declaresGroup w.heap = false) : (visitEntry visit config group data).run w = (.ok [], w) := by
  unfold visitEntry
  rw [run_bind_ok (run_heap w), silent]
  rfl

section Abreast

variable (accounts : Accounts code s inbox answer listing start account)
  (reaccounts : Accounts code s inbox answer listing start reaccount)
include accounts reaccounts

section Entries

variable (level : Level s answer account reaccount start gs w hs v)
include level

theorem abreast_visitEntry (member : d ∈ start.declared s.board)
    (declares : (Value.map d.cell).declaresGroup start.heap = true) :
    let visit := visitEntry (resolveDeclared code s.board (some inbox.receiver)) d.config d.group (.map d.cell)
    Abreast visit visit w v
      (fun more after rest late => Level s answer account reaccount start (gs ++ more) after (hs ++ rest) late)
      fun after late => ∃ gs hs, Level s answer account reaccount start gs after hs late := by
  intro visit
  obtain ⟨even, told, retold⟩ := level
  have first := ends_visitEntry_told discreet confined preserves formed repeats accounts member even.first told declares
  have second :=
    ends_visitEntry_told discreet confined preserves formed repeats reaccounts member even.second retold declares
  rw [even.foresee_eq formed member repeats told.midway retold.midway] at second
  apply Abreast.of_ends first second
  · rintro _ after _ late ⟨here, g, rfl, enrolled, seen, told'⟩ ⟨there, h, rfl, reenrolled, reseen, retold'⟩
    have still := even.visited formed member repeats told.midway retold.midway here there
    exact ⟨still.push enrolled reenrolled (Except.ok.inj (reseen.symm.trans seen)), told', retold'⟩
  · rintro failure after trouble late ⟨here, failed, told'⟩ ⟨there, refailed, retold'⟩
    have still := even.visited formed member repeats told.midway retold.midway here there
    exact ⟨Except.error.inj (refailed.symm.trans failed), gs, hs, still, told', retold'⟩
  · rintro _ after trouble late ⟨-, g, -, -, seen, -⟩ ⟨-, refailed, -⟩
    cases refailed.symm.trans seen
  · rintro failure after _ late ⟨-, failed, -⟩ ⟨-, h, -, -, reseen, -⟩
    cases reseen.symm.trans failed

theorem abreast_entry {config : Value} {cell i : Nat} {entry again : Value × Value}
    (configured : (config, .map cell) ∈ (start.board s.board).registry.configs.entries)
    (here : (w.heap.mapAt cell).entries[i]? = some entry) (there : (v.heap.mapAt cell).entries[i]? = some again) :
    Abreast (visitEntry (resolveDeclared code s.board (some inbox.receiver)) config entry.1 entry.2)
      (visitEntry (resolveDeclared code s.board (some inbox.receiver)) config again.1 again.2) w v
      (fun more after rest late => Level s answer account reaccount start (gs ++ more) after (hs ++ rest) late)
      fun after late => ∃ gs hs, Level s answer account reaccount start gs after hs late := by
  obtain ⟨_, data⟩ := entry
  obtain ⟨group, redata⟩ := again
  have configures : start.Configures s.board cell := ⟨config, configured⟩
  have mine := formed.mine cell (.inl configures)
  obtain ⟨rfl, reads⟩ := (level.even.maps cell mine).entry here there
  have old : ∀ {own}, data = .map own → (group, .map own) ∈ (start.heap.mapAt cell).entries := by
    rintro own rfl
    exact level.even.first.traced.member mine (List.mem_of_getElem? here)
  by_cases declares : ∃ own, data = .map own ∧ (Value.map own).declaresGroup start.heap = true
  · obtain ⟨own, rfl, declares⟩ := declares
    have member : (⟨config, group, own⟩ : Declaration) ∈ start.declared s.board :=
      List.mem_flatMap.mpr ⟨_, configured, List.mem_filterMap.mpr ⟨_, old rfl, if_pos declares⟩⟩
    rw [show redata = .map own from eq_of_reading reads]
    have next := abreast_visitEntry discreet confined preserves formed repeats accounts reaccounts level member declares
    exact next
  -- neither side has a group here
  have silent : ∀ {later : World σ}, Midway s start later → ∀ {value : Value},
      (∀ own, value = .map own → data = value) → value.declaresGroup later.heap = false := by
    intro later midway value same
    cases value with
    | map own =>
      have stands := same own rfl
      rw [midway.declaresGroup_eq formed.toWhole ⟨cell, configures, group, old stands⟩]
      exact Bool.eq_false_iff.mpr fun holds => declares ⟨own, stands, holds⟩
    | _ => rfl
  have first : data.declaresGroup w.heap = false := silent level.told.midway fun _ _ => rfl
  have second : redata.declaresGroup v.heap = false := silent level.retold.midway fun own same => by
    subst same
    exact eq_of_reading reads.symm
  refine .returned (run_visitEntry_silent first) (run_visitEntry_silent second) ?_
  rwa [List.append_nil, List.append_nil]

end Entries

theorem abreast_eachGroup (level : Level s answer account reaccount start [] w [] v) :
    let scan := eachGroup (do return (← Act.board s.board).registry.configs)
      (resolveDeclared code s.board (some inbox.receiver))
    Abreast scan scan w v (Level s answer account reaccount start)
      fun after late => ∃ gs hs, Level s answer account reaccount start gs after hs late := by
  intro scan
  apply abreast_walkAll ⟨?_, fun gs w hs v level => ⟨gs, hs, level⟩⟩ level
  intro gs w hs v level
  have reads : ∀ {later}, Midway s start later →
      (do return (← Act.board s.board).registry.configs : Act σ Mapping).run later =
        (.ok (start.board s.board).registry.configs, later) := by
    intro later midway
    rw [run_bind_ok (run_board later s.board), midway.board]
    rfl
  refine ⟨_, _, reads level.told.midway, reads level.retold.midway, rfl, ?_⟩
  rintro i ⟨config, data⟩ _ here there
  cases here.symm.trans there
  have configured := List.mem_of_getElem? here
  have stays : Level s answer account reaccount start (gs ++ []) w (hs ++ []) v := by
    rwa [List.append_nil, List.append_nil]
  cases data with
  | map cell =>
    have mine := formed.mine cell (.inl ⟨config, configured⟩)
    have held : ∀ later : World σ, (do return (← Act.heap).mapAt cell : Act σ Mapping).run later =
        (.ok (later.heap.mapAt cell), later) := fun _ => rfl
    apply abreast_walkAll ⟨?_, fun found w others v level => ⟨_, _, level⟩⟩ stays
    intro found w others v level
    refine ⟨_, _, held w, held v, (level.even.maps cell mine).size, fun i entry again here there => ?_⟩
    have next := abreast_entry discreet confined preserves formed repeats accounts reaccounts level configured here there
    simpa only [List.append_assoc] using next
  | _ => exact .pure stays

/-- Two collections that begin alike come to the same. -/
theorem collect_abreast (level : Level s answer account reaccount start [] w [] v) (known : s.board < start.boards.size)
    (regroups : ∀ w gs, s.around w → s.around (w.regrouped s.board gs))
    (regrouped : ∀ ps xs w gs, account ps xs w → account ps xs (w.regrouped s.board gs))
    (reregrouped : ∀ ps xs w gs, s.around w → reaccount ps xs w → reaccount ps xs (w.regrouped s.board gs)) :
    let outer := (collect code s.board (some inbox.receiver)).run w
    let inner := (collect code s.board (some inbox.receiver)).run v
    ∃ gs hs, Concluded s start outer.1 inner.1 gs hs outer.2 inner.2 ∧ s.around inner.2 ∧
      account (gs.map fun g => (outer.2.group g).pending) (answers answer (gs.map outer.2.view)) outer.2 ∧
      reaccount (hs.map fun h => (inner.2.group h).pending) (answers answer (hs.map inner.2.view)) inner.2 := by
  intro outer inner
  cases abreast_eachGroup discreet confined preserves formed repeats accounts reaccounts level with
  | @failed failure after late first second unfits =>
    obtain ⟨gs, hs, even, told, retold⟩ := unfits
    have ended : outer = (.error failure, after) := run_bind_error first
    have reended : inner = (.error failure, late) := run_bind_error second
    have same : late.board s.board = after.board s.board := retold.midway.board.trans told.midway.board.symm
    rw [ended, reended]
    exact ⟨gs, hs, ⟨even, congrArg Board.registry same, .failed failure (congrArg Board.groups same)⟩,
      retold.midway.fits, told.right, retold.right⟩
  | @returned gs hs after late first second level =>
    obtain ⟨even, told, retold⟩ := level
    have ended : outer = (.ok gs, after.regrouped s.board gs) := run_bind_ok first
    have reended : inner = (.ok hs, late.regrouped s.board hs) := run_bind_ok second
    have stands : ∀ {w : World σ} gs, Midway s start w →
        (w.regrouped s.board gs).board s.board = { start.board s.board with groups := gs } := by
      intro w gs midway
      rw [← midway.board]
      exact board_setBoard_self _ (Nat.lt_of_lt_of_le known midway.boards)
    rw [ended, reended]
    refine ⟨gs, hs, ⟨even.regrouped, ?_, .returned ?_ ?_⟩, regroups late hs retold.midway.fits,
      regrouped _ _ after gs told.right, reregrouped _ _ late hs retold.midway.fits retold.right⟩
    · rw [stands gs told.midway, stands hs retold.midway]
    · rw [stands gs told.midway]
    · rw [stands hs retold.midway]

end Abreast

end Board

end TaskBoard
