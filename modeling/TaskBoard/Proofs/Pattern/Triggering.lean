import TaskBoard.Proofs.Pattern.Writing

/-!
Which task a watch pattern has for an event. The first filter group of the name decides, and none of the rest has
a say: without a group every event gets a task, and with one those whose type it lists. What the descriptor says
besides the task comes from the pattern and the path alone.
-/

namespace TaskBoard

open WatchPattern

/-- The first filter group of a text. -/
def FirstGroup (text content : List Char) : Prop :=
  GroupContent content ∧ ∃ before after, text = before ++ (writtenGroup content ++ after) ∧ Groupless before

/-- The type is one of those between the bars of a group, whose white space does not count. -/
def GroupLists (content : List Char) (type : String) : Prop :=
  type ≠ "" ∧ type.toList ∈ Text.pieces '|' (content.filter (!Text.isBlank ·))

/-- A name without a group is open to every type, any other one to the types of its first group. -/
def OpenTo (name : List Char) (type : String) : Prop :=
  Groupless name ∨ ∃ content, FirstGroup name content ∧ GroupLists content type

/-- What the parts leave in the name of the task. -/
def leftOver (parts : List WatchPart) : List Char := (parts.map WatchPart.token).flatMap WatchToken.literal

/-- What a written pattern tells of its task: the types of its first group in their order, or that it has no group; the
name without its groups; and the piece behind the first colon, if that is anything. -/
structure Describes (written : String) (p : WatchPattern) : Prop where
  ungrouped : Groupless (written.toList.takeWhile (· ≠ ':')) → p.occasion = "all"
  grouped : ∀ content, FirstGroup (written.toList.takeWhile (· ≠ ':')) content → p.occasion =
    String.intercalate ", " ((typesBetween (content.filter (!Text.isBlank ·))).map String.ofList)
  name : ∀ parts, Decomposes (written.toList.takeWhile (· ≠ ':')) parts → p.task.toList = leftOver parts
  part : ∀ name others, Text.pieces ':' written.toList = name :: others → p.part = partOf others

section Filters

variable {text content : List Char} {type : String}

theorem findSome?_of_groupless (groupless : Groupless text) :
    (WatchToken.tokenize text).findSome? WatchToken.eventTypes? = none := by
  rw [groupless.decomposes.tokenize, eventTypes?_textParts]

theorem findSome?_of_firstGroup (first : FirstGroup text content) :
    (WatchToken.tokenize text).findSome? WatchToken.eventTypes? = (WatchPart.group content).token.eventTypes? := by
  obtain ⟨group, before, after, rfl, groupless⟩ := first
  obtain ⟨parts, cut, -⟩ := exists_decomposes after
  have whole := groupless.decomposes_append (cut.group group)
  rw [whole.tokenize, List.map_append, List.findSome?_append, eventTypes?_textParts]
  rfl

/-- A text has a first group if it has one at all. -/
theorem exists_firstGroup (holds : ¬Groupless text) : ∃ content, FirstGroup text content := by
  obtain ⟨parts, cut, -⟩ := exists_decomposes text
  cases parts with
  | nil =>
    rw [← cut.whole] at holds
    exact (holds groupless_nil).elim
  | cons part parts =>
    have proper := cut.proper part List.mem_cons_self
    cases part with
    | group content =>
      exact ⟨content, proper, [], parts.flatMap WatchPart.written, cut.whole.symm, groupless_nil⟩
    | text s =>
      cases parts with
      | nil =>
        rw [← cut.whole, List.flatMap_singleton] at holds
        exact (holds proper.2).elim
      | cons next parts =>
        cases next with
        | text t => exact ((List.isChain_cons_cons.mp cut.apart).1 ⟨trivial, trivial⟩).elim
        | group content =>
          have group : GroupContent content := cut.proper (.group content) (by simp)
          exact ⟨content, group, s, parts.flatMap WatchPart.written, cut.whole.symm, proper.2⟩

theorem mem_eventTypes? {types : List String} (read : (WatchPart.group content).token.eventTypes? = some types) :
    type ∈ types ↔ GroupLists content type := by
  obtain rfl := Option.some.inj read
  have back : ∀ piece, String.ofList piece = type ↔ piece = type.toList := fun piece =>
    ⟨fun same => by rw [← same, String.toList_ofList], fun same => by rw [same, String.ofList_toList]⟩
  simp [GroupLists, back, and_comm]

end Filters

namespace WatchPattern

theorem nameOf_eq (pattern : String) : nameOf pattern = pattern.toList.takeWhile (· ≠ ':') :=
  Text.headD_pieces ':' pattern.toList

theorem types_eq (pattern : String) :
    (parse pattern).types = (WatchToken.tokenize (nameOf pattern)).findSome? WatchToken.eventTypes? := by
  obtain ⟨name, others, cut⟩ := List.exists_cons_of_ne_nil (Text.pieces_ne_nil ':' pattern.toList)
  obtain ⟨named, read⟩ := parse_of_pieces cut
  rw [read, named]

theorem accepts_iff {pattern type : String} : (parse pattern).accepts type = true ↔ OpenTo (nameOf pattern) type := by
  by_cases groupless : Groupless (nameOf pattern)
  · have types := (types_eq pattern).trans (findSome?_of_groupless groupless)
    simp [accepts, types, OpenTo, groupless]
  · obtain ⟨content, first⟩ := exists_firstGroup groupless
    have types := (types_eq pattern).trans (findSome?_of_firstGroup first)
    have listed : (parse pattern).accepts type = true ↔ GroupLists content type := by
      rw [accepts, types]
      exact List.contains_iff_mem.trans (mem_eventTypes? rfl)
    rw [listed]
    constructor
    · intro lists
      exact .inr ⟨content, first, lists⟩
    · rintro (open_to | ⟨other, again, lists⟩)
      · exact (groupless open_to).elim
      -- both groups are read as the filter, so they list the same types
      · have same := (findSome?_of_firstGroup first).symm.trans (findSome?_of_firstGroup again)
        exact (mem_eventTypes? same).mp ((mem_eventTypes? rfl).mpr lists)

theorem toList_task {pattern : String} {parts : List WatchPart} (cut : Decomposes (nameOf pattern) parts) :
    (parse pattern).task.toList = leftOver parts := by
  obtain ⟨name, others, split⟩ := List.exists_cons_of_ne_nil (Text.pieces_ne_nil ':' pattern.toList)
  obtain ⟨named, read⟩ := parse_of_pieces split
  rw [named] at cut
  rw [read, String.toList_ofList, cut.tokenize]
  rfl

theorem describes_parse (pattern : String) : Describes pattern (parse pattern) := by
  constructor
  · intro groupless
    rw [← nameOf_eq] at groupless
    rw [occasion, types_eq, findSome?_of_groupless groupless]
  · intro content first
    rw [← nameOf_eq] at first
    rw [occasion, types_eq, findSome?_of_firstGroup first]
    rfl
  · intro parts cut
    rw [← nameOf_eq] at cut
    exact toList_task cut
  · intro name others cut
    rw [(parse_of_pieces cut).2]

end WatchPattern

namespace Board

variable {σ : Type}

/-- The task of a name: the callable that is registered under it or, where there is none, the fallback. -/
inductive TaskOf (b : Nat) (registry : Registry) (name : String) : Value → Prop where
  | registered {f : Value} (found : registry.tasks.at? name = some f) (callable : f.isCallable = true) :
    TaskOf b registry name f
  | fallback (missing : ∀ f, registry.tasks.at? name = some f → f.isCallable = false) :
    TaskOf b registry name (.callable (.hostTask b name))

theorem taskOf_watchedTask (b : Nat) (registry : Registry) (name : String) :
    TaskOf b registry name (watchedTask b registry name) := by
  unfold watchedTask
  cases found : registry.tasks.at? name with
  | none => exact .fallback (by simp [found])
  | some f =>
    by_cases callable : f.isCallable = true
    · simp only [callable, if_true]
      exact .registered found callable
    · simp only [callable]
      apply TaskOf.fallback
      intro g again
      rw [found] at again
      cases again
      exact Bool.eq_false_iff.mpr callable

/-- What an event does to the world: nothing, or a line in the log. -/
def Reported (w after : World σ) : Prop := after = w ∨ ∃ line, after = { w with log := w.log.push line }

theorem TaskOf.ne_nothing {b : Nat} {registry : Registry} {name : String} {task : Value}
    (stands : TaskOf b registry name task) : task ≠ .nothing := by
  rintro rfl
  cases stands with
  | registered found callable => cases callable

end Board

open Board

theorem replaces_substituteFile (pattern path : String) {out : List Char} :
    Text.Replaces "%FILE%".toList path.toList pattern.toList out ↔ out = (substituteFile pattern path).toList := by
  have filled : filePlaceholder.toList ≠ [] := by decide
  have whole : (substituteFile pattern path).toList =
      Text.replaceWord filePlaceholder.toList path.toList pattern.toList := String.toList_ofList
  rw [whole]
  exact Text.replaces_iff filled

/-- An event gets a task exactly if the name of the pattern, with the event's path in it, is open to its type. The
path is written for the placeholder wherever that stands. The occasion, the name and the part of the descriptor are
what the written pattern tells; the task is the callable registered under the name or else the fallback, each call of
which is one call of the board's runner with the name, no arguments and the callback. No user code runs for it, and
the world is left as it is but for a line in the log. -/
theorem eventTask_open_to {σ : Type} (code : UserCode σ) (w : World σ) (b : Nat) (pattern path type : String) :
    (∃ written : String,
      (∀ out, Text.Replaces "%FILE%".toList path.toList pattern.toList out ↔ out = written.toList) ∧
      Describes written (parse written) ∧ ∃ task after, (eventTask b (.text pattern) ⟨.text type, .text path⟩).run w =
          (.ok (.eventTask (parse written).occasion (parse written).task task (parse written).part), after) ∧
        (task ≠ .nothing ↔ OpenTo (written.toList.takeWhile (· ≠ ':')) type) ∧
        (task ≠ .nothing → TaskOf b (w.board b).registry (parse written).task task) ∧
        Reported w after) ∧
    ∀ (name : String) (later : World σ),
      (call code (.callable (.hostTask b name)) []).run later =
        (callUser code (later.board b).runner [.text name, .nothing, .nothing]).run later ∧
      ∀ callback, (call code (.callable (.hostTask b name)) [callback]).run later =
        (callUser code (later.board b).runner [.text name, .nothing, callback]).run later := by
  constructor
  · refine ⟨substituteFile pattern path, fun out => replaces_substituteFile pattern path, describes_parse _, ?_⟩
    rw [← nameOf_eq, ← accepts_iff]
    cases accepted : (parse (substituteFile pattern path)).accepts type with
    | true =>
      have named := taskOf_watchedTask b (w.board b).registry (parse (substituteFile pattern path)).task
      exact ⟨_, w, run_eventTask_accepted w b accepted, by simpa using named.ne_nothing, fun _ => named, .inl rfl⟩
    | false =>
      obtain ⟨line, ran⟩ := run_eventTask_refused w b accepted
      exact ⟨_, _, ran, by simp, fun given => (given rfl).elim, .inr ⟨line, rfl⟩⟩
  · intro name later
    refine ⟨?_, fun callback => ?_⟩
    · exact Act.run_bind_ok (Act.run_board later b)
    · exact Act.run_bind_ok (Act.run_board later b)

/-- User code that keeps the arguments of its calls and answers each with the status of a success. -/
def noting : UserCode (List (List Value)) where
  call _ given := do
    modify fun w => { w with user := w.user ++ [given] }
    pure (.value (.whole 0))
  resume _ _ _ _ := pure (.value .nothing)
  run _ _ := pure []
  label? _ _ := none

/-- A board with a task `lint`. -/
def linting : World (List (List Value)) where
  boards := #[⟨"/", { tasks := ⟨[(.text "lint", .callable (.user 3))]⟩ }, [], none, 0⟩]
  user := []

/-- The path is written into the name and behind it, and the runner gets the callback of the fallback. -/
theorem eventTask_open_to_lint :
    (∀ out, Text.Replaces "%FILE%".toList "lint".toList "\x7badd|change\x7d%FILE%:%FILE%".toList out ↔
      out = "\x7badd|change\x7dlint:lint".toList) ∧
    ((eventTask 0 (.text "\x7badd|change\x7d%FILE%:%FILE%") ⟨.text "add", .text "lint"⟩).run linting).1 =
      .ok (.eventTask "add, change" "lint" (.callable (.user 3)) (some "lint")) ∧
    ((call noting (.callable (.hostTask 0 "test")) [.callable (.user 1)]).run linting).2.user =
      [[.text "test", .nothing, .callable (.user 1)]] := by
  obtain ⟨⟨written, replaced, -, task, after, ran, gets, owner, -⟩, fallback⟩ :=
    eventTask_open_to noting linting 0 "\x7badd|change\x7d%FILE%:%FILE%" "lint" "add"
  have put : "\x7badd|change\x7dlint:lint".toList = written.toList :=
    (replaced _).mp ((replaces_substituteFile _ _).mpr (by decide +kernel))
  obtain rfl := String.toList_injective put
  have accepted : (parse "\x7badd|change\x7dlint:lint").accepts "add" = true := by decide +kernel
  have given : task ≠ .nothing := gets.mpr (nameOf_eq _ ▸ accepts_iff.mp accepted)
  have occasion : (parse "\x7badd|change\x7dlint:lint").occasion = "add, change" := by decide +kernel
  have name : (parse "\x7badd|change\x7dlint:lint").task = "lint" := by decide +kernel
  have part : (parse "\x7badd|change\x7dlint:lint").part = some "lint" := by decide +kernel
  have owned := owner given
  rw [name] at owned
  rw [ran, occasion, name, part, (fallback "test" linting).2]
  refine ⟨replaced, ?_, rfl⟩
  cases owned with
  | registered found =>
    cases found
    rfl
  | fallback missing => cases missing _ rfl

end TaskBoard
