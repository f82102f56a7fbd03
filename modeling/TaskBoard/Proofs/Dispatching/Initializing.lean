import TaskBoard.Proofs.Collecting.Handing
import TaskBoard.Proofs.Dispatching.Routing
import TaskBoard.Proofs.Loading.Merging

/-!
A run of initializers, whatever they do. The names are taken once, before the first one runs, but what is registered
under a name is looked up when its turn comes. So an initializer that registers others anew decides what is called for
them, and cannot add a turn; and the first failure ends the run.
-/

namespace TaskBoard

open Act

variable {σ : Type}

def World.logged (w : World σ) (severity : Severity) (text : String) : World σ :=
  { w with log := w.log.push ⟨severity, text, none⟩ }

/-- What a board has done in its own context leaves the former context behind. -/
theorem PassesOn.current {b : Nat} {act : Act σ Value} {w : World σ} {ended : Except Failure Value × World σ}
    (passed : PassesOn b act w ended) : ended.2.current = w.current := by
  cases passed <;> rfl

theorem Act.run_log (w : World σ) (severity : Severity) (text : String) :
    (Act.log severity text : Act σ Unit).run w = (.ok ⟨⟩, w.logged severity text) := rfl

namespace Board

/-- What the turn of a name comes to: the callable that is registered under it by then is called with the board, in the
context of the board. Without a callable nothing happens. -/
inductive Turn (code : UserCode σ) (b : Nat) (name : String) (w : World σ) :
    Except Failure Unit × World σ → Prop where
  | skipped (idle : ∀ f, (w.board b).registry.inits.at? name = some f → f.isCallable = false) :
    Turn code b name w (.ok ⟨⟩, w)
  | finished {f v : Value} {after : World σ} (found : (w.board b).registry.inits.at? name = some f)
    (callable : f.isCallable = true) (passed : PassesOn b (call code f [.board b]) w (.ok v, after)) :
    Turn code b name w (.ok ⟨⟩, after.logged .debug (" -  Task initializer " ++ name ++ " initialized."))
  | raised {f : Value} {failure : Failure} {after : World σ} (found : (w.board b).registry.inits.at? name = some f)
    (callable : f.isCallable = true) (passed : PassesOn b (call code f [.board b]) w (.error failure, after)) :
    Turn code b name w (.error failure, after)

/-- The turns of some names one after the other, each from where the last one ends, up to the first that fails. The
names that have their turn are told as well. -/
inductive Turns (code : UserCode σ) (b : Nat) :
    List String → World σ → List String → Except Failure Unit × World σ → Prop where
  | done (w : World σ) : Turns code b [] w [] (.ok ⟨⟩, w)
  | next {name : String} {names visits : List String} {w mid : World σ} {ended : Except Failure Unit × World σ}
    (turn : Turn code b name w (.ok ⟨⟩, mid)) (rest : Turns code b names mid visits ended) :
    Turns code b (name :: names) w (name :: visits) ended
  | stopped {name : String} {names : List String} {w after : World σ} {failure : Failure}
    (turn : Turn code b name w (.error failure, after)) :
    Turns code b (name :: names) w [name] (.error failure, after)

/-- How a run of several initializers ends: with a line in the log, unless it has failed. -/
def concluded : Except Failure Unit × World σ → Except Failure Unit × World σ
  | (.ok _, after) => (.ok ⟨⟩, after.logged .info "Tasks initialized.")
  | failed => failed

variable {code : UserCode σ} {b : Nat} {w : World σ} {name : String} {names visits : List String} {v : Value}
  {ended : Except Failure Unit × World σ}

theorem turn_initOne (code : UserCode σ) (b : Nat) (name : String) (w : World σ) :
    Turn code b name w ((initOne code b name).run w) := by
  unfold initOne
  rw [run_bind_ok (run_board w b)]
  cases found : (w.board b).registry.inits.at? name with
  | none => exact .skipped fun f same => (by rw [found] at same; cases same)
  | some f =>
    dsimp only
    cases callable : f.isCallable with
    | false =>
      refine .skipped fun other same => ?_
      rw [found] at same
      cases same
      exact callable
    | true =>
      rw [if_pos rfl]
      have passed := passesOn_callBound code w b f [.board b]
      rcases ran : (callBound code b f [.board b]).run w with ⟨failure | v, after⟩
      · rw [ran] at passed
        rw [run_bind_error ran]
        exact .raised found callable passed
      · rw [ran] at passed
        rw [run_bind_ok ran]
        exact .finished found callable passed

theorem Turn.current (turn : Turn code b name w ended) : ended.2.current = w.current := by
  cases turn with
  | skipped => rfl
  | finished _ _ passed => exact passed.current
  | raised _ _ passed => exact passed.current

theorem Turn.of_idle (turn : Turn code b name w ended)
    (idle : ∀ f, (w.board b).registry.inits.at? name = some f → f.isCallable = false) : ended = (.ok ⟨⟩, w) := by
  cases turn with
  | skipped => rfl
  | finished found callable =>
    rw [idle _ found] at callable
    cases callable
  | raised found callable =>
    rw [idle _ found] at callable
    cases callable

namespace Turns

theorem current (turns : Turns code b names w visits ended) : ended.2.current = w.current := by
  induction turns with
  | done w => rfl
  | next turn _ ih => exact ih.trans turn.current
  | stopped turn => exact turn.current

/-- The names that have their turn are the first ones of those asked for, and all of them if none fails. -/
theorem visited (turns : Turns code b names w visits ended) :
    visits <+: names ∧ ∀ after, ended = (.ok ⟨⟩, after) → visits = names := by
  induction turns with
  | done w => exact ⟨List.prefix_refl [], fun _ _ => rfl⟩
  | next turn rest ih => exact ⟨(List.prefix_cons_inj _).mpr ih.1, fun after same => congrArg _ (ih.2 after same)⟩
  | @stopped name names => exact ⟨⟨names, rfl⟩, fun after same => (by cases same)⟩

end Turns

/-- Initializers that are run one after the other have their turns one after the other. -/
theorem exists_turns (code : UserCode σ) (b : Nat) (names : List String) (w : World σ) :
    ∃ visits, Turns code b names w visits ((names.forM (initOne code b)).run w) := by
  induction names generalizing w with
  | nil => exact ⟨[], .done w⟩
  | cons name names ih =>
    change ∃ visits, Turns code b (name :: names) w visits
      ((initOne code b name >>= fun _ => names.forM (initOne code b)).run w)
    have turn := turn_initOne code b name w
    rcases ran : (initOne code b name).run w with ⟨failure | _, mid⟩
    · rw [ran] at turn
      rw [run_bind_error ran]
      exact ⟨[name], .stopped turn⟩
    · rw [ran] at turn
      rw [run_bind_ok ran]
      obtain ⟨visits, turns⟩ := ih mid
      exact ⟨name :: visits, .next turn turns⟩

theorem forM_texts (code : UserCode σ) (b depth : Nat) (names : List String) :
    (names.map Value.text).forM (initWithin code (depth + 1) b) = names.forM (initOne code b) := by
  induction names with
  | nil => rfl
  | cons name names ih =>
    change (initOne code b name >>= fun _ => (names.map Value.text).forM (initWithin code (depth + 1) b)) = _
    rw [ih]
    rfl

theorem run_init_several (code : UserCode σ) (requests : Requests b w v names) (several : ∀ name, v ≠ .text name) :
    (init code b v).run w = (do
      Act.log .info "Initializing tasks..."
      names.forM (initOne code b)
      Act.log .info "Tasks initialized.").run w := by
  have asked : (initNames b v).run (w.logged .info "Initializing tasks...") =
      (.ok (names.map .text), w.logged .info "Initializing tasks...") := run_initNames requests several
  rw [init_several several, run_bind_ok (run_log w ..), run_bind_ok (run_log w ..), run_bind_ok asked, forM_texts]

theorem run_init_concluded (code : UserCode σ) (requests : Requests b w v names) (several : ∀ name, v ≠ .text name) :
    (init code b v).run w =
      concluded ((names.forM (initOne code b)).run (w.logged .info "Initializing tasks...")) := by
  rw [run_init_several code requests several, run_bind_ok (run_log w ..)]
  rcases ran : (names.forM (initOne code b)).run (w.logged .info "Initializing tasks...") with ⟨failure | _, after⟩
  · exact run_bind_error ran
  · exact run_bind_ok ran

theorem nodup_of_distinct {m : Mapping} (registered : m.keys = names.map .text) (distinct : Mapping.Distinct m.entries) :
    names.Nodup := by
  have keys : (names.map Value.text).Pairwise fun first second => first.sameKey second = false := by
    rw [← registered]
    exact List.pairwise_map.mpr distinct
  refine (List.pairwise_map.mp keys).imp fun differ same => ?_
  rw [same, Value.sameKey_refl] at differ
  cases differ

end Board

open Board

/-- A run of all initializers visits the names that are present when it is begun, each once and in their order, up to
the first that fails, whatever the initializers do. At its turn a name is looked up anew: the callable that is there
then is called with the board in its own context, and nothing happens without one. A failure ends the run and is passed
on, and the context is the former one again. A list of names is run name by name, and all initializers are run like a
list of the names that are present. -/
theorem init_visits_present (code : UserCode σ) {b : Nat} {w : World σ} {names : List String}
    (registered : (w.board b).registry.inits.keys = names.map .text)
    (distinct : Mapping.Distinct (w.board b).registry.inits.entries) :
    (∃ visits ended, Turns code b names (w.logged .info "Initializing tasks...") visits ended ∧
      (init code b .nothing).run w = concluded ended ∧ visits <+: names ∧ visits.Nodup ∧
      ∀ after, ended = (.ok ⟨⟩, after) → visits = names) ∧
    ((init code b .nothing).run w).2.current = w.current ∧
    (∀ name, Turn code b name w ((init code b (.text name)).run w)) ∧
    (∀ name, (∀ f, (w.board b).registry.inits.at? name = some f → f.isCallable = false) →
      (init code b (.text name)).run w = (.ok ⟨⟩, w)) ∧
    (∀ cell (wanted : List String), w.heap.listAt cell = wanted.map .text →
      (init code b (.list cell)).run w = (do
        Act.log .info "Initializing tasks..."
        wanted.forM fun name => init code b (.text name)
        Act.log .info "Tasks initialized.").run w) ∧
    ∀ cell, w.heap.listAt cell = names.map .text → (init code b (.list cell)).run w = (init code b .nothing).run w := by
  have noText : ∀ name, Value.nothing ≠ .text name := fun name same => (by cases same)
  have requests : Requests b w .nothing names := .all registered
  have listed : ∀ cell (wanted : List String), w.heap.listAt cell = wanted.map .text →
      (init code b (.list cell)).run w = (do
        Act.log .info "Initializing tasks..."
        wanted.forM (initOne code b)
        Act.log .info "Tasks initialized.").run w := fun cell wanted items =>
    run_init_several code (.listed (fun name same => (by cases same)) (congrArg some items))
      fun name same => (by cases same)
  have whole := run_init_concluded code requests noText
  obtain ⟨visits, turns⟩ := exists_turns code b names (w.logged .info "Initializing tasks...")
  obtain ⟨first, all⟩ := turns.visited
  refine ⟨⟨visits, _, turns, whole, first, ?_, all⟩, ?_, fun name => turn_initOne code b name w, ?_, listed, ?_⟩
  · exact first.sublist.nodup (nodup_of_distinct registered distinct)
  · rw [whole]
    have kept := turns.current
    generalize (names.forM (initOne code b)).run (w.logged .info "Initializing tasks...") = ended at kept
    obtain ⟨failure | _, after⟩ := ended <;> exact kept
  · exact fun name idle => (turn_initOne code b name w).of_idle idle
  · intro cell items
    rw [listed cell names items, run_init_several code requests noText]

namespace Replacing

/-- User code that keeps what it is called with and in which context. The first function registers another one in the
place of an initializer, and once more under a new name; the second one fails. -/
def code : UserCode (List (Nat × List Value × Option Nat)) where
  call id given := do
    modify fun w => { w with user := w.user ++ [(id, given, w.current)] }
    if id = 0 then
      modify fun w => w.setBoard 0 { w.board 0 with
        registry := ((w.board 0).registry.put .init (.text "b") (.callable (.user 2))).put .init (.text "d")
          (.callable (.user 2)) }
    if id = 1 then throw (.raised "ValueError" "no styles")
    pure (.value .nothing)
  resume _ _ _ _ := pure (.value .nothing)
  run _ _ := pure []
  label? _ _ := none

/-- A board with four initializers, the second of them nothing that can be called, in the context of another board. -/
def start : World (List (Nat × List Value × Option Nat)) where
  boards := #[{
    cwd := "", runner := 9, registry := {
      inits := ⟨[(.text "a", .callable (.user 0)), (.text "b", .whole 5), (.text "c", .callable (.user 1)),
        (.text "e", .callable (.user 2))]⟩ } }]
  current := some 7
  user := []

end Replacing

/-- The replaced initializer has its turn, the new one and the one after the failure have none. -/
theorem init_visits_present_replacing :
    (Replacing.start.board 0).registry.inits.keys = ["a", "b", "c", "e"].map .text ∧
    Mapping.Distinct (Replacing.start.board 0).registry.inits.entries ∧
    (∃ visits ended, Turns Replacing.code 0 ["a", "b", "c", "e"] (Replacing.start.logged .info "Initializing tasks...")
      visits ended ∧ (init Replacing.code 0 .nothing).run Replacing.start = concluded ended) ∧
    ((init Replacing.code 0 .nothing).run Replacing.start).1 = .error (.raised "ValueError" "no styles") ∧
    ((init Replacing.code 0 .nothing).run Replacing.start).2.user =
      [(0, [.board 0], some 0), (2, [.board 0], some 0), (1, [.board 0], some 0)] ∧
    ((init Replacing.code 0 .nothing).run Replacing.start).2.current = some 7 := by
  have registered : (Replacing.start.board 0).registry.inits.keys = ["a", "b", "c", "e"].map .text := rfl
  have distinct : Mapping.Distinct (Replacing.start.board 0).registry.inits.entries := by
    unfold Mapping.Distinct
    decide
  obtain ⟨⟨visits, ended, turns, whole, -⟩, context, -⟩ := init_visits_present Replacing.code registered distinct
  exact ⟨registered, distinct, ⟨visits, ended, turns, whole⟩, rfl, rfl, context⟩

end TaskBoard
