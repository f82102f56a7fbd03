import TaskBoard.Proofs.Context.Dispatching

/-!
Where a dispatch calls user code. Two sets of user code that agree on every call made with a board as context lead to the
same dispatches of that board: what is dispatched is called nowhere else. So a body begins with its board as context.
-/

namespace TaskBoard

open Act Board

variable {σ α : Type}

/-- What an operation comes to depends on what a call of user code does in a world: other code, which differs from the
given one for this call only, would lead to something else. -/
def Enters (operation : UserCode σ → Act σ α) (code : UserCode σ) (w : World σ) (id : Nat) (args : List Value)
    (inside : World σ) : Prop :=
  ∃ call : Nat → List Value → Act σ Reply,
    (∀ id' args' w', (id', args', w') ≠ (id, args, inside) → (call id' args').run w' = (code.call id' args').run w') ∧
    (operation { code with call := call }).run w ≠ (operation code).run w

/-- A value refers to a callable: it is one itself, or the name of one that is registered as a task. -/
inductive Refers (w : World σ) (b : Nat) (task f : Value) : Prop where
  | direct : TaskRef.ofValue task = .direct f → Refers w b task f
  | named {name : Value} : TaskRef.ofValue task = .named name → (w.board b).registry.get .task name = .ok (some f) →
    f.isCallable = true → Refers w b task f

/-- The operations of a board that dispatch, in a world: running a task that refers to a callable, also as a source of
files, running initializers, and calling a mapper. -/
inductive Dispatch (w : World σ) (b : Nat) : {α : Type} → (UserCode σ → Act σ α) → Prop where
  | callable (f : Value) (args : List Value) : Dispatch w b fun code => callBound code b f args
  | task {task f : Value} (refers : Refers w b task f) (args callback : Value) :
    Dispatch w b fun code => runTask code b task args callback
  | source {pattern name : String} {extension : Option String} {task f : Value}
    (parsed : SourcePattern.parse pattern = .task name extension)
    (found : (w.board b).registry.tasks.at? name = some task) (refers : Refers w b task f) :
    Dispatch w b fun code => resolveSources code b (.text pattern)
  | initializers (names : Value) : Dispatch w b fun code => init code b names
  | mapper (g : Nat) (mapper : Value) : Dispatch w b fun code => do
    note (.mapped g mapper)
    callBound code b mapper [.group g]

section Agreeing

variable {code other : UserCode σ} {w : World σ} {b : Nat}

theorem run_call_congr (agree : ∀ id args, (other.call id args).run w = (code.call id args).run w) (f : Value)
    (args : List Value) : (Board.call other f args).run w = (Board.call code f args).run w := by
  have hosts : ∀ b name callback, (runHost other b name .nothing callback).run w =
      (runHost code b name .nothing callback).run w := by
    intro b name callback
    unfold runHost
    rw [run_bind_ok (run_board w b), run_bind_ok (run_board w b)]
    exact run_bind_congr (agree _ _)
  unfold Board.call
  split
  · exact run_bind_congr (agree _ _)
  · exact hosts _ _ _
  · exact hosts _ _ _
  · rfl

variable (agree : ∀ id args w, w.current = some b → (other.call id args).run w = (code.call id args).run w)
include agree

theorem callBound_congr (f : Value) (args : List Value) : callBound other b f args = callBound code b f args := by
  funext w
  apply run_bind_congr (run_inContext_congr _)
  exact run_call_congr (fun id args => agree id args _ rfl) f args

theorem run_runTask_congr {task f : Value} (refers : Refers w b task f) (args callback : Value) :
    (runTask other b task args callback).run w = (runTask code b task args callback).run w := by
  have direct : ∀ f, runDirect other b f args = runDirect code b f args := fun f => by
    simp only [runDirect, callBound_congr agree]
  cases refers with
  | direct refers => simp only [runTask, refers, direct]
  | named refers found callable =>
    simp only [runTask, refers]
    rw [run_bind_ok (run_board w b), run_bind_ok (run_board w b), found]
    rw [run_bind_ok (run_ofExcept w _), run_bind_ok (run_ofExcept w _)]
    simp only [callable, if_true, direct]

theorem initWithin_congr (depth : Nat) (names : Value) : initWithin other depth b names = initWithin code depth b names := by
  induction depth generalizing names with
  | zero => rfl
  | succ depth ih =>
    have one : ∀ name, initOne other b name = initOne code b name := fun name => by
      simp only [initOne, callBound_congr agree]
    have nested : initWithin other depth b = initWithin code depth b := funext ih
    simp only [initWithin, one, nested]

/-- A dispatch calls user code with its board as context only. -/
theorem Dispatch.congr {operation : UserCode σ → Act σ α} (dispatch : Dispatch w b operation) :
    (operation other).run w = (operation code).run w := by
  cases dispatch with
  | callable f args => exact congrArg (fun act : Act σ Value => act.run w) (callBound_congr agree f args)
  | task refers args callback => exact run_runTask_congr agree refers args callback
  | source parsed found refers =>
    unfold resolveSources
    dsimp only
    rw [parsed]
    apply run_bind_congr
    unfold listFiles
    rw [run_bind_ok (run_board w b), run_bind_ok (run_board w b), found]
    simp only [Value.ofOption]
    split
    · rfl
    · exact run_bind_congr (run_runTask_congr agree refers _ _)
  | initializers names => exact congrArg (fun act : Act σ Unit => act.run w) (initWithin_congr agree _ names)
  | mapper g mapper =>
    dsimp only
    rw [callBound_congr agree]

end Agreeing

variable {code : UserCode σ} {w inside : World σ} {b id : Nat} {args : List Value}

/-- Where a dispatch calls user code, its board is the context. -/
theorem Dispatch.current {operation : UserCode σ → Act σ α} (dispatch : Dispatch w b operation)
    (enters : Enters operation code w id args inside) : inside.current = some b := by
  obtain ⟨call, agree, differs⟩ := enters
  refine Decidable.byContradiction fun elsewhere => ?_
  refine differs (dispatch.congr fun id' args' w' within => agree id' args' w' fun same => ?_)
  obtain rfl : w' = inside := (Prod.mk.inj (Prod.mk.inj same).2).2
  exact elsewhere within

open Classical in
/-- The same code but for one call, which fails. -/
noncomputable def UserCode.failing (code : UserCode σ) (id : Nat) (args : List Value) (inside : World σ)
    (failure : Failure) : UserCode σ := { code with
  call id' args' := ExceptT.mk fun w =>
    if (id', args', w) = (id, args, inside) then (.error failure, w) else (code.call id' args').run w }

/-- A user's callable is called where it is dispatched, with its arguments and the board as context, and nothing else
is. -/
theorem enters_callBound_iff {id' : Nat} {args' : List Value} :
    Enters (fun code => callBound code b (.callable (.user id)) args) code w id' args' inside ↔
      id' = id ∧ args' = args ∧ inside = { w with current := some b } := by
  constructor
  · rintro ⟨call, agree, differs⟩
    refine Classical.byContradiction fun other => differs ?_
    have same : (call id args).run { w with current := some b } = (code.call id args).run { w with current := some b } :=
      agree _ _ _ fun same => other (by cases same; exact ⟨rfl, rfl, rfl⟩)
    exact run_bind_congr (run_inContext_congr (run_bind_congr same))
  · rintro ⟨rfl, rfl, rfl⟩
    -- of two failures one is not what the code comes to
    obtain ⟨failure, another⟩ : ∃ failure, (Except.error failure, w) ≠
        (callBound code b (.callable (.user id')) args').run w := by
      by_cases wrong : (Except.error Failure.wrongType, w) = (callBound code b (.callable (.user id')) args').run w
      · exact ⟨.badValue, by rw [← wrong]; simp⟩
      · exact ⟨_, wrong⟩
    let failing := code.failing id' args' { w with current := some b } failure
    have refused : (callUser failing id' args').run { w with current := some b } =
        (.error failure, { w with current := some b }) := run_bind_error (if_pos rfl)
    have restored := @run_inContext _ _ w _ _ _ _ refused
    have called : (callBound failing b (.callable (.user id')) args').run w = (.error failure, w) :=
      run_bind_error restored
    exact ⟨failing.call, fun id args v other => if_neg other, fun same => another (called.symm.trans same)⟩

end TaskBoard
