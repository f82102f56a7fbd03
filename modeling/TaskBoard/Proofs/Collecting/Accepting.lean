import TaskBoard.Config
import TaskBoard.Proofs.Forwarding.Declared

/-!
What the acceptance of a configuration says about the source groups in it. Every mapping of a configuration that
has a `src` can be named, its patterns are texts, and its destination is a text or nothing.
-/

namespace TaskBoard

variable {σ : Type}

def Value.Texts (items : List Value) : Prop := ∀ item ∈ items, ∃ text, item = .text text

namespace Config

theorem isText_iff {v : Value} : isText v = true ↔ ∃ text, v = .text text := by
  cases v <;> simp [isText, Value.text?]

theorem texts_of_all {items : List Value} (all : items.all isText = true) : Value.Texts items := fun item member =>
  isText_iff.mp (List.all_eq_true.mp all item member)

/-- A mapping with a `src` that passes the check of groups. -/
structure Passes (h : Heap) (config group : Value) (cell : Nat) (source : Value) : Prop where
  label : ∃ name, label h config group = .ok name
  source : (∃ text, source = .text text) ∨ ∃ list, source = .list list ∧ Value.Texts (h.listAt list)
  destination : Group.destinationOf h (.map cell) = .nothing ∨ ∃ text, Group.destinationOf h (.map cell) = .text text

theorem forM_eq_ok_iff {α ε : Type} {check : α → Except ε PUnit} {items : List α} :
    items.forM check = .ok ⟨⟩ ↔ ∀ item ∈ items, check item = .ok ⟨⟩ := by
  induction items with
  | nil => exact ⟨fun _ item member => absurd member List.not_mem_nil, fun _ => rfl⟩
  | cons first rest ih =>
    change (check first >>= fun _ => rest.forM check) = _ ↔ _
    rw [List.forall_mem_cons, ← ih]
    cases checked : check first with
    | error failure => exact ⟨fun passed => (by cases passed), fun passed => (by cases passed.1)⟩
    | ok => exact ⟨fun passed => ⟨rfl, passed⟩, fun passed => passed.2⟩

variable {h : Heap} {config group source : Value} {cell : Nat}

theorem ok_of_orFail {α : Type} {a : α} {result : Except ConfigFault α} (passed : orFail result = .ok a) :
    result = .ok a := by
  cases result with
  | error fault => cases passed
  | ok value =>
    cases passed
    rfl

theorem checkSource_ok {name : String} (passed : checkSource h name source = .ok ⟨⟩) :
    (∃ text, source = .text text) ∨ ∃ list, source = .list list ∧ Value.Texts (h.listAt list) := by
  unfold checkSource at passed
  split at passed
  next text => exact .inl ⟨text, rfl⟩
  next list =>
    split at passed
    next all => exact .inr ⟨list, rfl, texts_of_all all⟩
    next => cases passed
  next => cases passed

theorem checkDestination_ok {name : String} {destination : Option Value}
    (passed : checkDestination name destination = .ok ⟨⟩) :
    Value.ofOption destination = .nothing ∨ ∃ text, Value.ofOption destination = .text text := by
  cases destination with
  | none => exact .inl rfl
  | some v =>
    unfold checkDestination at passed
    dsimp only at passed
    split at passed
    next fits =>
      rcases Bool.or_eq_true_iff.mp fits with nothing | text
      · cases v <;> simp [Value.isNothing] at nothing
        exact .inl rfl
      · exact .inr (isText_iff.mp text)
    next => cases passed

theorem passes_of_checkContent (found : h.sourceAt cell = some source)
    (passed : checkContent h config group (h.mapAt cell) = .ok ⟨⟩) : Passes h config group cell source := by
  have stands : (h.mapAt cell).at? "src" = some source := found
  unfold checkContent at passed
  rw [stands] at passed
  dsimp only at passed
  cases named : Config.label h config group with
  | error failure =>
    rw [named] at passed
    cases passed
  | ok name =>
    rw [named] at passed
    change (orFail (checkSource h name source) >>= fun _ => _) = _ at passed
    cases listed : orFail (checkSource h name source) with
    | error failure =>
      rw [listed] at passed
      cases passed
    | ok =>
      rw [listed] at passed
      exact ⟨⟨name, named⟩, checkSource_ok (ok_of_orFail listed), checkDestination_ok (ok_of_orFail passed)⟩

theorem Passes.patterns (passes : Passes h config group cell source) :
    ∃ patterns, Group.patterns h source = .ok patterns ∧ Value.Texts patterns := by
  rcases passes.source with ⟨text, rfl⟩ | ⟨list, rfl, texts⟩
  · refine ⟨[.text text], rfl, fun item member => ⟨text, ?_⟩⟩
    exact List.mem_singleton.mp member
  · exact ⟨h.listAt list, rfl, texts⟩

/-- An accepted configuration has been checked down to the mappings that may declare groups. -/
theorem checkGroup_of_check {root : Nat} (accepted : check h (.map root) = .ok ⟨⟩) {entries : Nat} {data : Value}
    (configured : (config, .map entries) ∈ (h.mapAt root).entries) (entry : (group, data) ∈ (h.mapAt entries).entries) :
    checkGroup h config group data = .ok ⟨⟩ := by
  unfold check at accepted
  dsimp only at accepted
  cases rooted : orFail (checkPaths ((h.mapAt root).at? "paths")) with
  | error failure =>
    rw [rooted] at accepted
    cases accepted
  | ok =>
    rw [rooted] at accepted
    have checked := forM_eq_ok_iff.mp accepted _ configured
    exact forM_eq_ok_iff.mp checked _ entry

end Config

namespace World

section Held

variable {start : World σ} {b root : Nat} (accepted : Config.check start.heap (.map root) = .ok ⟨⟩)
  (held : (start.board b).registry.configs = start.heap.mapAt root)
include accepted held

theorem passes_of_entry {config group source : Value} {entries cell : Nat}
    (configured : (config, .map entries) ∈ (start.board b).registry.configs.entries)
    (entry : (group, .map cell) ∈ (start.heap.mapAt entries).entries) (found : start.heap.sourceAt cell = some source) :
    Config.Passes start.heap config group cell source := by
  rw [held] at configured
  exact Config.passes_of_checkContent found (Config.checkGroup_of_check accepted configured entry)

theorem passes_of_declared {d : Declaration} (member : d ∈ start.declared b) :
    ∃ source, start.heap.sourceAt d.cell = some source ∧
      Config.Passes start.heap d.config d.group d.cell source := by
  obtain ⟨-, source, found⟩ := mem_declared member
  obtain ⟨⟨config, value⟩, configured, inside⟩ := List.mem_flatMap.mp member
  obtain ⟨cell, rfl, rfl, entry, -⟩ := mem_declaredIn inside
  exact ⟨source, found, passes_of_entry accepted held configured entry found⟩

end Held

end World

end TaskBoard
