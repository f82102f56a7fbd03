import TaskBoard.Proofs.Pattern.Triggering

/-!
The routes that a request for a task takes. A name, a reference to it, the callable that is registered under it and
a reference to that callable all come to one call of the callable; a name without one comes to one call of the board's
runner; and anything else to no call at all. The task that an event gets for a name takes the route of the name.
-/

namespace TaskBoard

open Act WatchPattern

variable {σ : Type}

/-- The outcome of an action that a board has done in its own context: what it gives or fails with is passed on, a
routine bound to the board, and the context is the former one again. -/
inductive PassesOn (b : Nat) (act : Act σ Value) (w : World σ) : Except Failure Value × World σ → Prop where
  | returned {v : Value} {after : World σ} (ran : act.run { w with current := some b } = (.ok v, after))
    (plain : ∀ r, v ≠ .routine r) : PassesOn b act w (.ok v, { after with current := w.current })
  | wrapped {r : Nat} {after : World σ} (ran : act.run { w with current := some b } = (.ok (.routine r), after)) :
    PassesOn b act w (.ok (.routine after.routines.size),
      { after with current := w.current, routines := after.routines.push ⟨.bound b r, false⟩ })
  | raised {failure : Failure} {after : World σ}
    (ran : act.run { w with current := some b } = (.error failure, after)) :
    PassesOn b act w (.error failure, { after with current := w.current })

/-- The items that arguments stand for: none where there are no arguments, or the elements of a collection. -/
def Supplies (w : World σ) (args : Value) (items : List Value) : Prop :=
  args = .nothing ∧ items = [] ∨ args.elements? w.heap = some items

/-- A value that neither names a task nor is one nor refers to one. -/
structure Unrelated (v : Value) : Prop where
  text : ∀ s, v ≠ .text s
  callable : v.isCallable = false
  named : ∀ name, v ≠ .named name
  direct : ∀ target, v ≠ .direct target

/-- A runner that gives a plain status, whatever board is the context. -/
structure UserCode.PlainRunner (code : UserCode σ) (id : Nat) : Prop where
  status : ∀ args w reply after, (code.call id args).run w = (.ok reply, after) → ∃ n, reply = .value (.whole n)
  blind : ∀ args w current, (code.call id args).run { w with current := current } =
    (((code.call id args).run w).1, { ((code.call id args).run w).2 with current := current })

/-- What is empty has no elements. -/
theorem elements?_of_falsy {h : Heap} {v : Value} {items : List Value} (falsy : v.truthy h = false)
    (elements : v.elements? h = some items) : items = [] := by
  cases v <;> simp_all [Value.truthy, Value.elements?, Mapping.keys, Mapping.size]

theorem PassesOn.of_run {b : Nat} {act other : Act σ Value} {w : World σ} {ended : Except Failure Value × World σ}
    (passed : PassesOn b act w ended)
    (same : act.run { w with current := some b } = other.run { w with current := some b }) :
    PassesOn b other w ended := by
  cases passed with
  | returned ran plain => exact .returned (same.symm.trans ran) plain
  | wrapped ran => exact .wrapped (same.symm.trans ran)
  | raised ran => exact .raised (same.symm.trans ran)

namespace Board

variable {code : UserCode σ} {w : World σ} {b : Nat} {f args callback : Value} {items : List Value} {s : String}

theorem run_arguments (supplies : Supplies w args items) : (arguments args).run w = (.ok items, w) := by
  unfold arguments
  rw [run_bind_ok (run_heap w)]
  rcases supplies with ⟨rfl, rfl⟩ | elements
  · rfl
  · cases truthy : args.truthy w.heap with
    | true =>
      simp only [if_true, Act.elements]
      rw [run_bind_ok (run_heap w), elements]
      rfl
    | false =>
      rw [elements?_of_falsy truthy elements]
      rfl

theorem passesOn_callBound (code : UserCode σ) (w : World σ) (b : Nat) (f : Value) (items : List Value) :
    PassesOn b (call code f items) w ((callBound code b f items).run w) := by
  unfold callBound
  rcases ran : (call code f items).run { w with current := some b } with ⟨_ | v, after⟩
  · rw [run_bind_error (run_inContext ran)]
    exact .raised ran
  · rw [run_bind_ok (run_inContext ran)]
    by_cases routine : ∃ r, v = .routine r
    · obtain ⟨r, rfl⟩ := routine
      have wrapped := PassesOn.wrapped ran
      exact wrapped
    · have plain : ∀ r, v ≠ .routine r := fun r same => routine ⟨r, same⟩
      rw [bind_of_plain plain]
      exact .returned ran plain

section Routes

theorem runTask_callable (callable : f.isCallable = true) (args callback : Value) :
    runTask code b f args callback = runDirect code b f args := by
  cases f <;> first | rfl | cases callable

theorem run_runTask_registered (found : (w.board b).registry.tasks.at? s = some f) (callable : f.isCallable = true) :
    (runTask code b (.text s) args callback).run w = (runDirect code b f args).run w := by
  have read : (w.board b).registry.get .task (.text s) = .ok (some f) := congrArg Except.ok found
  unfold runTask
  dsimp only [TaskRef.ofValue]
  rw [run_bind_ok (run_board w b), read, run_bind_ok (run_ofExcept w _)]
  dsimp only
  rw [if_pos callable]

theorem run_runTask_missing (missing : ∀ f, (w.board b).registry.tasks.at? s = some f → f.isCallable = false) :
    (runTask code b (.text s) args callback).run w =
      (callUser code (w.board b).runner [.text s, args, callback]).run w := by
  have read : (w.board b).registry.get .task (.text s) = .ok ((w.board b).registry.tasks.at? s) := rfl
  have handed : (runHost code b (.text s) args callback).run w =
      (callUser code (w.board b).runner [.text s, args, callback]).run w := run_bind_ok (run_board w b)
  unfold runTask
  dsimp only [TaskRef.ofValue]
  rw [run_bind_ok (run_board w b), read, run_bind_ok (run_ofExcept w _)]
  cases found : (w.board b).registry.tasks.at? s with
  | none => exact handed
  | some f =>
    dsimp only
    rw [missing f found, if_neg Bool.false_ne_true]
    exact handed

theorem run_runTask_unrelated {v : Value} (unrelated : Unrelated v) :
    (runTask code b v args callback).run w = (.ok (.board b), w) := by
  cases v with
  | text s => exact absurd rfl (unrelated.text s)
  | callable c => cases unrelated.callable
  | named name => exact absurd rfl (unrelated.named name)
  | direct target => exact absurd rfl (unrelated.direct target)
  | _ => rfl

theorem passesOn_runDirect (supplies : Supplies w args items) :
    PassesOn b (call code f items) w ((runDirect code b f args).run w) := by
  unfold runDirect
  rw [run_bind_ok (run_arguments supplies)]
  exact passesOn_callBound code w b f items

theorem passesOn_fallback (code : UserCode σ) (w : World σ) (b : Nat) (s : String) (callback : Value) :
    PassesOn b (callUser code (w.board b).runner [.text s, .nothing, .nothing]) w
      ((runTask code b (.callable (.hostTask b s)) .nothing callback).run w) := by
  have called : (call code (.callable (.hostTask b s)) []).run { w with current := some b } =
      (callUser code (w.board b).runner [.text s, .nothing, .nothing]).run { w with current := some b } :=
    run_bind_ok (run_board _ b)
  have passed : PassesOn b (call code (.callable (.hostTask b s)) []) w
      ((runDirect code b (.callable (.hostTask b s)) .nothing).run w) := passesOn_runDirect (.inl ⟨rfl, rfl⟩)
  rw [runTask_callable rfl]
  exact passed.of_run called

end Routes

/-- A call of a plain runner gives the same in every context, and no routine. -/
theorem run_callUser_plain {id : Nat} (plain : code.PlainRunner id) (given : List Value) (w : World σ) :
    (∀ current, (callUser code id given).run { w with current := current } =
      (((callUser code id given).run w).1, { ((callUser code id given).run w).2 with current := current })) ∧
    ∀ r, ((callUser code id given).run w).1 ≠ .ok (.routine r) := by
  have blind := plain.blind given w
  unfold callUser
  rcases asked : (code.call id given).run w with ⟨failure | reply, after⟩
  · rw [asked] at blind
    rw [run_bind_error asked]
    refine ⟨fun current => run_bind_error (blind current), fun r same => ?_⟩
    cases same
  · obtain ⟨n, rfl⟩ := plain.status given w reply after asked
    rw [asked] at blind
    rw [run_bind_ok asked]
    refine ⟨fun current => run_bind_ok (blind current), fun r same => ?_⟩
    cases same

end Board

open Board

/-- What a plain runner gives is passed on as if it had been asked directly. -/
theorem PassesOn.eq_of_plain {code : UserCode σ} {w : World σ} {b id : Nat} (plain : code.PlainRunner id)
    {given : List Value} {ended : Except Failure Value × World σ} (passed : PassesOn b (callUser code id given) w ended) :
    ended = (callUser code id given).run w := by
  obtain ⟨blind, unbound⟩ := run_callUser_plain plain given w
  have own := blind w.current
  have asked := blind (some b)
  cases passed with
  | returned ran =>
    rw [ran] at asked
    obtain ⟨result, world⟩ := Prod.mk.inj asked
    rw [own, ← result, world]
  | raised ran =>
    rw [ran] at asked
    obtain ⟨result, world⟩ := Prod.mk.inj asked
    rw [own, ← result, world]
  | wrapped ran =>
    rw [ran] at asked
    exact absurd (Prod.mk.inj asked).1.symm (unbound _)

namespace Board.TaskOf

variable {code : UserCode σ} {w : World σ} {b : Nat} {name : String} {task : Value}

theorem run_of_registered (stands : TaskOf b (w.board b).registry name task) :
    ∀ f, (w.board b).registry.tasks.at? name = some f → f.isCallable = true →
      (runTask code b task .nothing .nothing).run w = (runTask code b (.text name) .nothing .nothing).run w := by
  intro f found callable
  cases stands with
  | registered again =>
    rw [found] at again
    cases again
    rw [run_runTask_registered found callable, runTask_callable callable]
  | fallback missing =>
    rw [missing f found] at callable
    cases callable

theorem passesOn_of_missing (stands : TaskOf b (w.board b).registry name task) :
    (∀ f, (w.board b).registry.tasks.at? name = some f → f.isCallable = false) →
      PassesOn b (callUser code (w.board b).runner [.text name, .nothing, .nothing]) w
        ((runTask code b task .nothing .nothing).run w) := by
  intro missing
  cases stands with
  | registered found callable =>
    rw [missing _ found] at callable
    cases callable
  | fallback => exact passesOn_fallback code w b name .nothing

theorem run_of_plain (stands : TaskOf b (w.board b).registry name task) :
    code.PlainRunner (w.board b).runner →
      (runTask code b task .nothing .nothing).run w = (runTask code b (.text name) .nothing .nothing).run w := by
  intro plain
  cases stands with
  | registered found callable => exact (TaskOf.registered found callable).run_of_registered _ found callable
  | fallback missing =>
    rw [run_runTask_missing missing]
    exact (passesOn_fallback code w b name .nothing).eq_of_plain plain

end Board.TaskOf

/-- A request for a task comes to one call, and its routes agree. A name and a reference to the name are run alike.
With a callable registered under the name they are run like the callable and like a reference to it, and the callback
has no say: the callable is called with the arguments in their order, and what it gives or fails with is passed on.
Otherwise the runner is called with the name, the arguments and the callback. For a value that refers to no task
nothing is called and the board is the result. The task that an event gets for a name is run as the name is: a
registered one alike in everything, and the fallback as the same call of the runner, but in the context of the board,
which comes to the same for a plain runner. -/
theorem runTask_one_call (code : UserCode σ) (w : World σ) (b : Nat) (args callback : Value) :
    (∀ s, (runTask code b (.named (.text s)) args callback).run w = (runTask code b (.text s) args callback).run w) ∧
    (∀ s f, (w.board b).registry.tasks.at? s = some f → f.isCallable = true →
      (∀ other,
        (runTask code b (.text s) args callback).run w = (runTask code b f args other).run w ∧
        (runTask code b (.text s) args callback).run w = (runTask code b (.direct f) args other).run w) ∧
      ∀ items, Supplies w args items →
        PassesOn b (call code f items) w ((runTask code b (.text s) args callback).run w)) ∧
    (∀ s, (∀ f, (w.board b).registry.tasks.at? s = some f → f.isCallable = false) →
      (runTask code b (.text s) args callback).run w =
        (callUser code (w.board b).runner [.text s, args, callback]).run w) ∧
    (∀ v, Unrelated v → (runTask code b v args callback).run w = (.ok (.board b), w)) ∧
    ∀ pattern path type written, Text.Replaces "%FILE%".toList path.toList pattern.toList written →
      OpenTo (written.takeWhile (· ≠ ':')) type →
      ∃ occasion name task part,
        (eventTask b (.text pattern) ⟨.text type, .text path⟩).run w = (.ok (.eventTask occasion name task part), w) ∧
        (∀ f, (w.board b).registry.tasks.at? name = some f → f.isCallable = true →
          (runTask code b task .nothing .nothing).run w = (runTask code b (.text name) .nothing .nothing).run w) ∧
        ((∀ f, (w.board b).registry.tasks.at? name = some f → f.isCallable = false) →
          PassesOn b (callUser code (w.board b).runner [.text name, .nothing, .nothing]) w
            ((runTask code b task .nothing .nothing).run w)) ∧
        (code.PlainRunner (w.board b).runner →
          (runTask code b task .nothing .nothing).run w = (runTask code b (.text name) .nothing .nothing).run w) := by
  refine ⟨fun s => rfl, ?_, fun s missing => run_runTask_missing missing, fun v => run_runTask_unrelated, ?_⟩
  · intro s f found callable
    have run : (runTask code b (.text s) args callback).run w = (runDirect code b f args).run w :=
      run_runTask_registered found callable
    rw [run]
    refine ⟨fun other => ⟨?_, rfl⟩, fun items supplies => passesOn_runDirect supplies⟩
    rw [runTask_callable callable]
  · intro pattern path type written replaced open_to
    obtain rfl := (replaces_substituteFile pattern path).mp replaced
    rw [← nameOf_eq, ← accepts_iff] at open_to
    refine ⟨_, _, _, _, run_eventTask_accepted w b open_to, ?_⟩
    have stands := taskOf_watchedTask b (w.board b).registry (parse (substituteFile pattern path)).task
    exact ⟨stands.run_of_registered, stands.passesOn_of_missing, stands.run_of_plain⟩

theorem plain_noting (id : Nat) : noting.PlainRunner id where
  status given w reply after ran := by
    cases ran
    exact ⟨0, rfl⟩
  blind _ _ _ := rfl

/-- A board with something that is no task under the name, so that the event is left to the runner. -/
def unbuilt : World (List (List Value)) where
  boards := #[⟨"/", { tasks := ⟨[(.text "build", .whole 7)]⟩ }, [], none, 0⟩]
  user := []

theorem runTask_one_call_unbuilt :
    Text.Replaces "%FILE%".toList "a.js".toList "build\x7badd\x7d:%FILE%".toList "build\x7badd\x7d:a.js".toList ∧
    OpenTo ("build\x7badd\x7d:a.js".toList.takeWhile (· ≠ ':')) "add" ∧
    noting.PlainRunner (unbuilt.board 0).runner ∧
    ∃ occasion name task part,
      (eventTask 0 (.text "build\x7badd\x7d:%FILE%") ⟨.text "add", .text "a.js"⟩).run unbuilt =
        (.ok (.eventTask occasion name task part), unbuilt) ∧
      (runTask noting 0 task .nothing .nothing).run unbuilt =
        (runTask noting 0 (.text name) .nothing .nothing).run unbuilt ∧
      ((runTask noting 0 (.text name) .nothing .nothing).run unbuilt).2.user =
        [[.text "build", .nothing, .nothing]] := by
  have replaced : Text.Replaces "%FILE%".toList "a.js".toList "build\x7badd\x7d:%FILE%".toList
      "build\x7badd\x7d:a.js".toList := (replaces_substituteFile _ _).mpr (by decide +kernel)
  have accepted : (parse (substituteFile "build\x7badd\x7d:%FILE%" "a.js")).accepts "add" = true := by decide +kernel
  have open_to : OpenTo ("build\x7badd\x7d:a.js".toList.takeWhile (· ≠ ':')) "add" := by
    rw [(replaces_substituteFile _ _).mp replaced, ← nameOf_eq]
    exact accepts_iff.mp accepted
  obtain ⟨-, -, -, -, events⟩ := runTask_one_call noting unbuilt 0 .nothing .nothing
  obtain ⟨occasion, name, task, part, ran, -, -, alike⟩ := events _ _ _ _ replaced open_to
  refine ⟨replaced, open_to, plain_noting _, occasion, name, task, part, ran, alike (plain_noting _), ?_⟩
  have told := (run_eventTask_accepted unbuilt 0 accepted).symm.trans ran
  have named : (parse (substituteFile "build\x7badd\x7d:%FILE%" "a.js")).task = "build" := by decide +kernel
  obtain ⟨-, rfl, -, -⟩ := Value.eventTask.inj (Except.ok.inj (Prod.mk.inj told).1)
  rw [named]
  rfl

/-- User code that keeps the arguments of its calls and tells by the status whether a board is the context. -/
def heeding : UserCode (List (List Value)) := { noting with
  call _ given := do
    modify fun w => { w with user := w.user ++ [given] }
    pure (.value (.whole ((← get).current.elim 0 fun _ => 1))) }

/-- The same, but its callable 1 asks for a task that nobody has registered. -/
def asking : UserCode (List (List Value)) := { heeding with
  call id given :=
    if id = 1 then do
      let _ ← runTask heeding 0 (.text "b") .nothing .nothing
      pure (.value .nothing)
    else heeding.call id given }

/-- The runner, which always gives a plain status, gives another one for the task of an event than for its name. And
a callable can have the runner called by what it does itself. -/
theorem runTask_heeds_context :
    (∀ args w reply after, (asking.call 0 args).run w = (.ok reply, after) → ∃ n, reply = .value (.whole n)) ∧
    (let w : World (List (List Value)) := { boards := #[⟨"/", {}, [], none, 0⟩], user := [] }
    ∃ occasion name task part,
      (eventTask 0 (.text "build") ⟨.text "add", .text "a.js"⟩).run w =
        (.ok (.eventTask occasion name task part), w) ∧
      ((runTask asking 0 task .nothing .nothing).run w).1 = .ok (.whole 1) ∧
      ((runTask asking 0 (.text name) .nothing .nothing).run w).1 = .ok (.whole 0)) ∧
    let w : World (List (List Value)) :=
      { boards := #[⟨"/", { tasks := ⟨[(.text "a", .callable (.user 1))]⟩ }, [], none, 0⟩], user := [] }
    (w.board 0).registry.tasks.at? "a" = some (.callable (.user 1)) ∧
      ((runTask asking 0 (.text "a") .nothing .nothing).run w).2.user = [[.text "b", .nothing, .nothing]] := by
  refine ⟨?_, ?_, rfl, rfl⟩
  · intro args w reply after ran
    cases ran
    exact ⟨_, rfl⟩
  · intro w
    have accepted : (parse (substituteFile "build" "a.js")).accepts "add" = true := by decide +kernel
    exact ⟨_, _, _, _, run_eventTask_accepted w 0 accepted, rfl, rfl⟩

end TaskBoard
