import TaskBoard.Proofs.Files.Sorting
import TaskBoard.Proofs.Loading.Entering
import TaskBoard.Proofs.Loading.Merging
import TaskBoard.Proofs.Loading.Reading

/-!
Loading from files and from installed plugins. Whatever is loaded in a loop is sifted: an item that fails to load
is reported by one error in the log and changes no registry, an item that loads goes into the registries as it does
when what it has given is registered directly, and the loop goes on to the next one. So the registries end as if
only the items that load had been there, in their order.
-/

namespace TaskBoard

open Act

variable {σ α β : Type}

/-- A board is as it was. -/
def SameBoard (b : Nat) (before after : World σ) : Prop := after.boards[b]? = before.boards[b]?

/-- How the items of a loop are loaded, how a failure of one is reported, and what becomes of one that loads. -/
structure Sieve (σ α β : Type) where
  /-- Announces an item, where that is done, and loads it. -/
  load : α → Act σ β
  report : α → String
  /-- What an item has given goes to these slots, from one world to the next. -/
  takes : α → β → List Slot → World σ → World σ → Prop
  /-- What an item has given cannot be registered. -/
  refuses : α → β → World σ → Prop

theorem ends_logError (text : String) (failure : Failure) (w : World σ) :
    Ends (logError text failure) w
      (fun _ after => failure.isError = true ∧ after = w.noting [⟨.error, text, some failure⟩])
      fun last _ => last = failure ∧ failure.isError = false := by
  unfold logError
  split
  next error => exact .of_ok (run_modify w _) ⟨error, rfl⟩
  next exits => exact .of_error (run_throw w failure) ⟨rfl, Bool.eq_false_iff.mpr exits⟩

namespace Sieve

variable {s : Sieve σ α β} {R : World σ → World σ → Prop} {b : Nat}

/-- One item of a loop: it fails to load and one error is logged, or it loads and is taken. Loading itself does no
more to the world than what the relation allows for. -/
inductive Step (s : Sieve σ α β) (R : World σ → World σ → Prop) (item : α) :
    List (α × List Slot) → World σ → World σ → Prop where
  | skipped {failure : Failure} {w mid : World σ} : (s.load item).run w = (.error failure, mid) →
    failure.isError = true → R w mid → Step s R item [] w (mid.noting [⟨.error, s.report item, some failure⟩])
  | taken {got : β} {slots : List Slot} {w mid next : World σ} : (s.load item).run w = (.ok got, mid) →
    R w mid → s.takes item got slots mid next → Step s R item [(item, slots)] w next

/-- The items of a loop one after the other, with the slots of those that load. -/
inductive Sifted (s : Sieve σ α β) (R : World σ → World σ → Prop) :
    List α → List (α × List Slot) → World σ → World σ → Prop where
  | done (w : World σ) : Sifted s R [] [] w w
  | next {item : α} {items : List α} {given kept : List (α × List Slot)} {w mid after : World σ} :
    s.Step R item given w mid → Sifted s R items kept mid after → Sifted s R (item :: items) (given ++ kept) w after

/-- Why a loop ends at an item: loading it ends the program, or what it has given cannot be registered. -/
inductive Halts (s : Sieve σ α β) (item : α) (w : World σ) : Failure → Prop where
  | exits {failure : Failure} {mid : World σ} : (s.load item).run w = (.error failure, mid) →
    failure.isError = false → Halts s item w failure
  | refused {failure : Failure} {got : β} {mid : World σ} : (s.load item).run w = (.ok got, mid) →
    s.refuses item got mid → Halts s item w failure

/-- The loop ends at an item after the ones in front of it were sifted. -/
def HaltsWithin (s : Sieve σ α β) (R : World σ → World σ → Prop) (items : List α) (w : World σ) (failure : Failure) :
    Prop :=
  ∃ front item rest kept mid, items = front ++ item :: rest ∧ s.Sifted R front kept w mid ∧ s.Halts item mid failure

def slotsOf (kept : List (α × List Slot)) : List Slot := kept.flatMap (·.2)

theorem slotsOf_append (first second : List (α × List Slot)) :
    slotsOf (first ++ second) = slotsOf first ++ slotsOf second := List.flatMap_append

theorem HaltsWithin.cons {item : α} {items : List α} {given : List (α × List Slot)} {w mid : World σ}
    {failure : Failure} (step : s.Step R item given w mid) (halts : s.HaltsWithin R items mid failure) :
    s.HaltsWithin R (item :: items) w failure := by
  obtain ⟨front, last, rest, kept, further, rfl, sifted, stops⟩ := halts
  exact ⟨item :: front, last, rest, given ++ kept, further, rfl, .next step sifted, stops⟩

theorem Halts.within {item : α} {items : List α} {w : World σ} {failure : Failure} (halts : s.Halts item w failure) :
    s.HaltsWithin R (item :: items) w failure := ⟨[], item, items, [], w, rfl, .done w, halts⟩

/-- A turn of the loop: what comes after an attempt to load reports a failure, or takes what was loaded. What the
turn returns fits what it has taken. -/
theorem ends_attempt {γ : Type} {item : α} {act : Act σ β} {rest : Except Failure β → Act σ γ}
    {fit : List (α × List Slot) → γ → Prop} {w told : World σ} (load : (s.load item).run w = act.run told)
    [IsTrans (World σ) R] (before : R w told) (minds : Keeps R act)
    (reports : ∀ failure mid, Ends (rest (.error failure)) mid
      (fun c after => (failure.isError = true ∧ after = mid.noting [⟨.error, s.report item, some failure⟩]) ∧ fit [] c)
      fun last _ => last = failure ∧ failure.isError = false)
    (registers : ∀ got mid, act.run told = (.ok got, mid) → Ends (rest (.ok got)) mid
      (fun c after => ∃ slots, s.takes item got slots mid after ∧ fit [(item, slots)] c)
      fun _ _ => s.refuses item got mid) :
    Ends (attempt act >>= rest) told (fun c after => ∃ given, s.Step R item given w after ∧ fit given c)
      fun failure _ => s.Halts item w failure := by
  have kept := trans_of R before (minds told)
  apply Ends.run_bind (run_attempt told act)
  rcases ran : act.run told with ⟨failure | got, mid⟩
  · rw [ran] at kept load
    apply (reports failure mid).mono
    · rintro c _ ⟨⟨error, rfl⟩, fits⟩
      exact ⟨[], .skipped load error kept, fits⟩
    · rintro _ after ⟨rfl, exits⟩
      exact .exits load exits
  · rw [ran] at kept load
    apply (registers got mid ran).mono
    · exact fun c after ⟨slots, takes, fits⟩ => ⟨_, .taken load kept takes, fits⟩
    · exact fun _ _ refused => .refused load refused

/-- A loop sifts its items if every turn of it is a step. -/
theorem ends_forM {act : α → Act σ PUnit} {items : List α} {w : World σ}
    (each : ∀ item ∈ items, ∀ w, Ends (act item) w (fun _ after => ∃ given, s.Step R item given w after ∧ True)
      fun failure _ => s.Halts item w failure) :
    Ends (items.forM act) w (fun _ after => ∃ kept, s.Sifted R items kept w after)
      fun failure _ => s.HaltsWithin R items w failure := by
  induction items generalizing w with
  | nil => exact Ends.pure ⟨[], .done w⟩
  | cons item items ih =>
    have first := (each item List.mem_cons_self w).mono (fun _ _ step => step)
      fun failure _ halts => (halts.within : s.HaltsWithin R (item :: items) w failure)
    refine first.bind ?_
    rintro _ mid ⟨given, step, -⟩
    apply (ih fun other member => each other (List.mem_cons_of_mem item member)).mono
    · rintro _ after ⟨kept, sifted⟩
      exact ⟨given ++ kept, .next step sifted⟩
    · exact fun _ _ halts => halts.cons step

/-- Where taking an item fills its slots, the board ends with those of all the items that load. -/
theorem Sifted.board {items : List α} {kept : List (α × List Slot)} {w after : World σ}
    (fills : ∀ {item got slots mid next}, s.takes item got slots mid next →
      next.boards[b]? = mid.boards[b]?.map (·.filled slots))
    (apart : ∀ {before after}, R before after → SameBoard b before after) (sifted : s.Sifted R items kept w after) :
    after.boards[b]? = w.boards[b]?.map (·.filled (slotsOf kept)) := by
  induction sifted with
  | done w =>
    have same : ∀ board : Board, board.filled (slotsOf ([] : List (α × List Slot))) = board := fun _ => rfl
    simp only [same, Option.map_id']
  | next step _ ih =>
    rw [ih, slotsOf_append]
    cases step with
    | skipped _ _ same =>
      rw [World.boards_noting, apart same]
      rfl
    | taken _ same takes =>
      rw [fills takes, apart same, Option.map_map]
      simp only [Function.comp_def, slotsOf, List.flatMap_singleton, Board.filled_append]

/-- Where taking an item only remembers it, the board stays as it is. -/
theorem Sifted.sameBoard {items : List α} {kept : List (α × List Slot)} {w after : World σ}
    (stays : ∀ {item got slots mid next}, s.takes item got slots mid next → SameBoard b mid next)
    (apart : ∀ {before after}, R before after → SameBoard b before after) (sifted : s.Sifted R items kept w after) :
    SameBoard b w after := by
  induction sifted with
  | done w => rfl
  | next step _ ih =>
    cases step with
    | skipped _ _ same =>
      have loaded := apart same
      exact Eq.trans ih loaded
    | taken _ same takes => exact Eq.trans ih (Eq.trans (stays takes) (apart same))

end Sieve

/-- What an action registers goes to the slots, and from the same world another one comes to the same but for the
lines that it logs. -/
def FilesAlike (b : Nat) (direct : Act σ PUnit) (slots : List Slot) (mid next : World σ) : Prop :=
  ∃ lines more, Harmless lines ∧ Harmless more ∧ direct.run mid = (.ok ⟨⟩, (mid.filled b slots).noting lines) ∧
    next = (mid.filled b slots).noting more

theorem FilesAlike.board {b : Nat} {direct : Act σ PUnit} {slots : List Slot} {mid next : World σ}
    (alike : FilesAlike b direct slots mid next) : next.boards[b]? = mid.boards[b]?.map (·.filled slots) := by
  obtain ⟨-, more, -, -, -, rfl⟩ := alike
  exact World.getElem?_filled mid b slots

theorem Files.alike {b : Nat} {act direct : Act σ PUnit} {fits : Slot → Bool} {slots : World σ → List Slot}
    (files : Files act b fits slots) (other : Files direct b fits slots) (w : World σ) :
    Ends act w (fun _ after => FilesAlike b direct (slots w) w after)
      fun _ _ => (slots w).all fits = false ∧ ∃ after, direct.run w = (.error .wrongType, after) := by
  cases fit : (slots w).all fits with
  | true =>
    obtain ⟨more, quiet, ran⟩ := files.run_ok fit
    obtain ⟨lines, still, registered⟩ := other.run_ok fit
    exact .of_ok ran ⟨lines, more, still, quiet, registered, rfl⟩
  | false =>
    obtain ⟨after, failed⟩ := files.run_error fit
    exact .of_error failed ⟨rfl, other.run_error fit⟩

namespace Board

variable {code : UserCode σ} {b : Nat}

/-- The files of a pattern as configurations. What one gives is registered as it is from a mapping. -/
def configSieve (code : UserCode σ) (b : Nat) : Sieve σ String Value where
  load path := do
    Act.log .info ("Importing configuration: " ++ path ++ "...")
    loadConfig code b path
  report path := "Failed to import configuration " ++ path
  takes _ configs slots mid next := ∃ cell, configs = .map cell ∧ slots = configSlots (mid.heap.mapAt cell).entries ∧
    FilesAlike b (configure code b configs) slots mid next
  refuses _ _ _ := False

def sourceOf (w : World σ) (b : Nat) (path : String) : Value :=
  toText (Path.relative w.files.cwd path.toList (w.board b).cwd.toList)

/-- The files of a pattern as tasks. What one exports is registered as a bundle that comes from its path. That is
refused, in the loop and directly, where an initializer carries a name that cannot be a key. -/
def taskSieve (code : UserCode σ) (b : Nat) : Sieve σ String Mapping where
  load path := do
    Act.log .info ("Importing task: " ++ path ++ "...")
    loadProgram code path
  report path := "Failed to import task " ++ path
  takes path exports slots mid next := slots = bundleSlots code mid (sourceOf mid b path) exports.entries ∧
    FilesAlike b (enterBundle code b exports.entries (sourceOf mid b path)) slots mid next
  refuses path exports mid :=
    (∃ slot ∈ bundleSlots code mid (sourceOf mid b path) exports.entries,
      slot.kind = .init ∧ slot.name.hashable = false) ∧
    ∃ after, (enterBundle code b exports.entries (sourceOf mid b path)).run mid = (.error .wrongType, after)

/-- Installed plugins. They are only remembered while they are loaded. -/
def pluginSieve (σ : Type) : Sieve σ (String × Act σ Value) Value where
  load item := item.2
  report item := "Failed to load plugin " ++ item.1
  takes item plugin slots mid next := slots = [⟨.plugin, .text item.1, plugin⟩] ∧ next = mid
  refuses _ _ _ := False

section Steps

variable {R : World σ → World σ → Prop} [Std.Refl R] [IsTrans (World σ) R]

/-- What is accepted as a configuration is a mapping. -/
theorem isMap_of_accept {h : Heap} {v taken : Value} (accepted : Config.accept h v = .ok taken) :
    ∃ cell, taken = .map cell := by
  unfold Config.accept at accepted
  cases checked : Config.check h v with
  | error failure =>
    rw [checked] at accepted
    cases accepted
  | ok =>
    rw [checked] at accepted
    obtain rfl : v = taken := Except.ok.inj accepted
    cases v with
    | map cell => exact ⟨cell, rfl⟩
    | _ => cases checked

theorem isMap_of_ofText {h after : Heap} {text : List Char} {v : Value}
    (made : Config.ofText h text = .ok (v, after)) : ∃ cell, v = .map cell := by
  unfold Config.ofText at made
  cases read : Document.read text h with
  | error failure =>
    rw [read] at made
    cases made
  | ok got =>
    obtain ⟨raw, mid⟩ := got
    rw [read] at made
    have accepted : ∀ {raw : Value} {mid : Heap},
        (do pure (← Config.accept mid raw, mid) : Except Failure (Value × Heap)) = .ok (v, after) →
        ∃ cell, v = .map cell := by
      intro raw mid given
      cases accepts : Config.accept mid raw with
      | error failure =>
        rw [accepts] at given
        cases given
      | ok taken =>
        rw [accepts] at given
        cases given
        exact isMap_of_accept accepts
    exact accepted made

theorem isMap_of_loadConfig {path : String} {w after : World σ} {v : Value}
    (loaded : (loadConfig code b path).run w = (.ok v, after)) : ∃ cell, v = .map cell := by
  have any : ∀ {α : Type} (act : Act σ α) (w : World σ), Ends act w (fun _ _ => True) fun _ _ => True :=
    fun act w => ⟨fun _ _ _ => trivial, fun _ _ _ => trivial⟩
  have document : ∀ w : World σ, Ends (readDocument path) w (fun v _ => ∃ cell, v = .map cell) fun _ _ => True := by
    intro w
    unfold readDocument
    refine (any _ w).bind fun w' mid _ => (any _ mid).bind fun found mid _ => ?_
    dsimp only
    split
    · exact .of_error rfl trivial
    · refine (any _ mid).bind fun text mid _ => ?_
      cases made : Config.ofText mid.heap text with
      | error failure => exact .of_error (run_onHeap_error made) trivial
      | ok got => exact .of_ok (run_onHeap_ok made) (isMap_of_ofText made)
  have provided : ∀ (v : Value) (w : World σ),
      Ends (acceptProvided path v) w (fun v _ => ∃ cell, v = .map cell) fun _ _ => True := by
    intro v w
    unfold acceptProvided
    split
    · exact .of_ok (run_onHeap_ok rfl) ⟨_, rfl⟩
    · apply Ends.run_bind (run_heap w)
      exact ⟨fun v after ran => isMap_of_accept (Prod.mk.inj ran).1, fun _ _ _ => trivial⟩
    · exact .of_error rfl trivial
  have ends : Ends (loadConfig code b path) w (fun v _ => ∃ cell, v = .map cell) fun _ _ => True := by
    unfold loadConfig
    dsimp only
    split
    · exact document w
    · split
      · exact .of_error rfl trivial
      · exact (any _ w).bind fun p mid _ => (any _ mid).bind fun v last _ => provided v last
  exact ends.returned v after loaded

theorem ends_configureFile (reads : Reads code R) (path : String) (w : World σ) :
    Ends (configureFile code b path) w
      (fun _ after => ∃ given, (configSieve code b).Step R path given w after ∧ True)
      fun failure _ => (configSieve code b).Halts path w failure := by
  unfold configureFile
  apply Ends.run_bind (World.run_log w _ _)
  refine Sieve.ends_attempt (run_bind_ok (World.run_log w _ _)) (reads.carries.log .info _ (by decide) w)
    (keeps_loadConfig reads b path) ?_ fun configs mid loaded => ?_
  · exact fun failure mid => (ends_logError _ failure mid).mono (fun _ _ told => ⟨told, trivial⟩) fun _ _ exits => exits
  · obtain ⟨cell, rfl⟩ := isMap_of_loadConfig loaded
    have read : (entriesOf (.map cell)).run mid = (.ok (mid.heap.mapAt cell).entries, mid) := rfl
    have ending := tells_log (σ := σ) (show Severity.info ≠ .error by decide)
      ("Configuration " ++ path ++ " successfully imported.")
    obtain ⟨more, quiet, ran⟩ := ((files_registerLoaded (b := b) (mid.heap.mapAt cell).entries).bind_tell ending).run_ok
      (w := mid) (all_fits_configSlots _)
    obtain ⟨lines, still, direct⟩ := (files_configure code b cell).run_ok (all_fits_configSlots _)
    apply Ends.run_bind read
    exact .of_ok ran ⟨_, ⟨cell, rfl, rfl, lines, more, still, quiet, direct, rfl⟩, trivial⟩

theorem ends_loadFile (reads : Reads code R) (path : String) (w : World σ) :
    Ends (loadFile code b path) w (fun _ after => ∃ given, (taskSieve code b).Step R path given w after ∧ True)
      fun failure _ => (taskSieve code b).Halts path w failure := by
  unfold loadFile
  apply Ends.run_bind (World.run_log w _ _)
  refine Sieve.ends_attempt (run_bind_ok (World.run_log w _ _)) (reads.carries.log .info _ (by decide) w)
    (keeps_loadProgram reads path) ?_ fun exports mid _ => ?_
  · exact fun failure mid => (ends_logError _ failure mid).mono (fun _ _ told => ⟨told, trivial⟩) fun _ _ exits => exits
  · have ending := tells_log (σ := σ) (show Severity.info ≠ .error by decide)
      ("Task " ++ path ++ " successfully imported.")
    have direct := files_enterBundle code b exports.entries (sourceOf mid b path)
    have files := direct.bind_tell ending
    apply Ends.run_bind (run_board mid b)
    apply Ends.run_bind (run_get mid)
    apply (files.alike direct mid).mono
    · exact fun _ after alike => ⟨_, ⟨rfl, alike⟩, trivial⟩
    · rintro _ _ ⟨unfit, refused⟩
      obtain ⟨slot, member, strange⟩ := List.all_eq_false.mp unfit
      exact ⟨⟨slot, member, by simpa [Slot.fits] using strange⟩, refused⟩

/-- What is remembered of the plugins of some slots. -/
def pluginEntries (slots : List Slot) : List (Value × Value) := slots.map fun slot => (slot.name, slot.value)

theorem ends_loadInstalled {item : String × Act σ Value} (minds : Keeps R item.2) (found : Mapping)
    (w : World σ) :
    Ends (loadInstalled found item.1 item.2) w
      (fun more after => ∃ given, (pluginSieve σ).Step R item given w after ∧
        more = found.insertAll (pluginEntries (Sieve.slotsOf given)))
      fun failure _ => (pluginSieve σ).Halts item w failure := by
  unfold loadInstalled
  refine Sieve.ends_attempt rfl (refl_of R w) minds (fun failure mid => ?_) fun plugin mid _ => ?_
  · apply (ends_logError _ failure mid).bind
    exact fun _ _ told => Ends.pure ⟨told, rfl⟩
  · exact Ends.pure ⟨_, ⟨rfl, rfl⟩, rfl⟩

theorem ends_foldlM_loadInstalled {installed : List (String × Act σ Value)}
    (minds : ∀ item ∈ installed, Keeps R item.2) (found : Mapping) (w : World σ) :
    Ends (installed.foldlM (fun found item => loadInstalled found item.1 item.2) found) w
      (fun more after => ∃ kept, (pluginSieve σ).Sifted R installed kept w after ∧
        more = found.insertAll (pluginEntries (Sieve.slotsOf kept)))
      fun failure _ => (pluginSieve σ).HaltsWithin R installed w failure := by
  induction installed generalizing found w with
  | nil => exact Ends.pure ⟨[], .done w, rfl⟩
  | cons item items ih =>
    rw [List.foldlM_cons]
    have first := (ends_loadInstalled (minds item List.mem_cons_self) found w).mono (fun _ _ step => step)
      fun failure _ halts => (halts.within : (pluginSieve σ).HaltsWithin R (item :: items) w failure)
    apply first.bind
    rintro more mid ⟨given, step, rfl⟩
    apply (ih (fun other member => minds other (List.mem_cons_of_mem item member)) _ mid).mono
    · rintro _ after ⟨kept, sifted, rfl⟩
      refine ⟨given ++ kept, .next step sifted, ?_⟩
      rw [Sieve.slotsOf_append, pluginEntries, pluginEntries, pluginEntries, List.map_append, Mapping.insertAll_append]
    · exact fun _ _ halts => halts.cons step

omit [Std.Refl R] [IsTrans (World σ) R] in
theorem slots_of_plugins {installed : List (String × Act σ Value)} {kept : List ((String × Act σ Value) × List Slot)}
    {w after : World σ} (sifted : (pluginSieve σ).Sifted R installed kept w after) :
    ∀ slot ∈ Sieve.slotsOf kept, slot.kind = .plugin := by
  induction sifted with
  | done w => simp [Sieve.slotsOf]
  | next step _ ih =>
    rw [Sieve.slotsOf_append]
    cases step with
    | skipped => simpa [Sieve.slotsOf] using ih
    | taken _ _ takes =>
      obtain ⟨rfl, -⟩ := takes
      intro slot member
      rcases List.mem_append.mp member with own | later
      · obtain rfl : slot = ⟨.plugin, .text _, _⟩ := by simpa [Sieve.slotsOf] using own
        rfl
      · exact ih slot later

theorem putAll_plugins (r : Registry) {slots : List Slot} (plugins : ∀ slot ∈ slots, slot.kind = .plugin) :
    r.putAll slots = { r with plugins := r.plugins.insertAll (pluginEntries slots) } := by
  induction slots generalizing r with
  | nil => rfl
  | cons slot slots ih =>
    obtain ⟨kind, name, value⟩ := slot
    obtain rfl : kind = .plugin := plugins _ List.mem_cons_self
    exact ih (r.put .plugin name value) fun other member => plugins other (List.mem_cons_of_mem _ member)

theorem filled_remembered (board : Board) {slots : List Slot} (plugins : ∀ slot ∈ slots, slot.kind = .plugin) :
    board.filled (pluginSlots (Mapping.insertAll {} (pluginEntries slots)).entries) = board.filled slots := by
  have named : ∀ entries, pluginEntries (pluginSlots entries) = entries := fun entries => by
    simp [pluginEntries, pluginSlots, Function.comp_def]
  have slotsOfPlugins : ∀ entries, ∀ slot ∈ pluginSlots entries, slot.kind = .plugin := fun entries slot member => by
    obtain ⟨entry, -, rfl⟩ := List.mem_map.mp member
    rfl
  rw [Board.filled, Board.filled, putAll_plugins _ (slotsOfPlugins _), putAll_plugins _ plugins, named,
    Mapping.insertAll_gathered]

theorem ends_loadInstalledPlugins {installed : List (String × Act σ Value)}
    (minds : ∀ item ∈ installed, Keeps R item.2) (w : World σ) :
    Ends (loadInstalledPlugins b installed) w
      (fun _ after => ∃ kept mid heap lines, (pluginSieve σ).Sifted R installed kept w mid ∧ Harmless lines ∧
        after = (({ mid with heap } : World σ).filled b (Sieve.slotsOf kept)).noting lines)
      fun failure _ => (pluginSieve σ).HaltsWithin R installed w failure := by
  unfold loadInstalledPlugins
  apply (ends_foldlM_loadInstalled minds {} w).bind
  rintro _ mid ⟨kept, sifted, rfl⟩
  have plugins := slots_of_plugins sifted
  let found := Mapping.insertAll {} (pluginEntries (Sieve.slotsOf kept))
  let grown : World σ := { mid with heap := (mid.heap.newMap found).2 }
  have made : (Act.newMap found : Act σ Value).run mid = (.ok (.map mid.heap.maps.size), grown) := run_onHeap_ok rfl
  have content : grown.heap.mapAt mid.heap.maps.size = found := Heap.mapAt_newMap_newest mid.heap found
  obtain ⟨lines, quiet, ran⟩ := (files_loadPlugins (b := b) mid.heap.maps.size).run_ok (w := grown)
    (all_fits_pluginSlots _)
  apply Ends.run_bind made
  refine .of_ok ran ⟨kept, mid, grown.heap, lines, sifted, quiet, ?_⟩
  rw [content]
  have same := filled_remembered (grown.board b) plugins
  rw [World.filled, same]
  rfl

theorem run_filesOf {pattern : String} {matched : List (List Char)} {w : World σ}
    (globbed : w.files.glob (Path.join (w.board b).cwd.toList pattern.toList) = .ok matched) :
    (filesOf b (.text pattern)).run w = (.ok ((FileTree.sorted matched).map String.ofList), w) := by
  unfold filesOf
  dsimp only
  rw [run_bind_ok (run_board w b), run_bind_ok (run_get w), globbed]
  rfl

theorem pairwise_of_filesOf {pattern : String} {paths : List String} {w after : World σ}
    (found : (filesOf b (.text pattern)).run w = (.ok paths, after)) :
    paths.Pairwise fun first second => Text.atMost first.toList second.toList = true := by
  cases globbed : w.files.glob (Path.join (w.board b).cwd.toList pattern.toList) with
  | error failure =>
    unfold filesOf at found
    dsimp only at found
    rw [run_bind_ok (run_board w b), run_bind_ok (run_get w), globbed] at found
    cases found
  | ok matched =>
    rw [run_filesOf globbed] at found
    obtain rfl := Except.ok.inj (Prod.mk.inj found).1
    rw [List.pairwise_map]
    exact (FileTree.pairwise_sorted matched).imp fun ordered => by simpa using ordered

end Steps

/-- A board is as it was, and no error is told of. -/
structure Unharmed (b : Nat) (before after : World σ) : Prop where
  board : SameBoard b before after
  told : ∃ lines, Harmless lines ∧ after.log = before.log ++ lines.toArray

instance (b : Nat) : Std.Refl (Unharmed (σ := σ) b) := ⟨fun _ => ⟨rfl, [], harmless_nil, by simp⟩⟩

instance (b : Nat) : IsTrans (World σ) (Unharmed b) where
  trans first second third early late := by
    obtain ⟨board, lines, harmless, told⟩ := early
    obtain ⟨same, more, still, further⟩ := late
    exact ⟨Eq.trans same board, lines ++ more, harmless.append still, by rw [further, told]; simp⟩

theorem reads_unharmed {code : UserCode σ} {b : Nat} (call : ∀ id args, Keeps (Unharmed b) (code.call id args))
    (run : ∀ id name, Keeps (Unharmed b) (code.run id name)) : Reads code (Unharmed b) where
  carries := {
    call := call
    routine := fun _ => Keeps.modifyGet fun _ => ⟨rfl, [], harmless_nil, by simp⟩
    context := fun current _ kept w =>
      have within := kept { w with current := current }
      ⟨within.board, within.told⟩
    log := fun severity text harmless w => ⟨rfl, [⟨severity, text, none⟩], harmless_singleton harmless, rfl⟩ }
  run := run
  onHeap _ := Keeps.bind Keeps.get fun _ => Keeps.bind (Keeps.ofExcept _) fun _ =>
    Keeps.bind (Keeps.modify fun _ => ⟨rfl, [], harmless_nil, by simp⟩) fun _ => Keeps.pure _

/-- User code whose first file raises and whose others define a task each. -/
def stock : UserCode Unit where
  call _ _ := pure (.value .nothing)
  resume _ _ _ _ := pure (.value .nothing)
  run id name := if id = 0 then throw .badValue else pure [⟨"build", .callable (.user id), some name⟩]
  label? _ _ := none

/-- Files of both kinds, the first of each broken. -/
def shelf : World Unit where
  boards := #[{ cwd := "/", runner := 0 }]
  files := { entries := [
    (["c".toList], .directory), (["t".toList], .directory),
    (["c".toList, "a.yaml".toList], .file (.text "x: [")), (["c".toList, "b.yaml".toList], .file (.text "x: 1")),
    (["t".toList, "a.py".toList], .file (.program 0)), (["t".toList, "b.py".toList], .file (.program 1))] }
  user := ()

theorem reads_stock : Reads stock (Unharmed 0) := by
  refine reads_unharmed (fun _ _ => Keeps.pure _) fun id name => ?_
  unfold stock
  dsimp only
  split
  · exact Keeps.throw _
  · exact Keeps.pure _

/-- The names that are registered on the first board, kind by kind, and the errors that are told of. -/
def Shelved (w : World Unit) (tasks inits plugins configs : List String) (errors : List LogLine) : Prop :=
  ([RegistryKind.task, .init, .plugin, .config].map fun kind =>
    ((w.board 0).registry.mapping kind).entries.map (·.1.text?)) =
      [tasks, inits, plugins, configs].map (·.map some) ∧
  w.log.toList.filter (·.severity = .error) = errors

instance (w : World Unit) (tasks inits plugins configs : List String) (errors : List LogLine) :
    Decidable (Shelved w tasks inits plugins configs errors) := inferInstanceAs (Decidable (_ ∧ _))

end Board

end TaskBoard
