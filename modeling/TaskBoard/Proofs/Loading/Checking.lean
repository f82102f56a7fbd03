import Mathlib.Data.List.Forall2
import TaskBoard.Proofs.Collecting.Accepting

/-!
What the check of a configuration decides. The conditions of a configuration are stated without its walk, as is the
fault that is told: the first one in the order of the root, the paths, and the groups as they stand, their sources
before their destinations. The check meets both, as long as the groups can be named. But it names every group before it
looks at it, and a name that cannot be written, as that of an integer with too many digits, stops it also where nothing
is wrong, and with a failure of its own.
-/

namespace TaskBoard

namespace Heap

/-- What fails only as a value does that has no text. -/
def Spells {α : Type} (result : Except Failure α) : Prop :=
  ∀ failure, result = .error failure → failure = .badValue ∨ failure = .tooDeep

namespace Spells

variable {α β : Type}

theorem pure (a : α) : Spells (pure a : Except Failure α) := by
  rintro failure ⟨⟩

theorem bind {result : Except Failure α} {next : α → Except Failure β} (first : Spells result)
    (rest : ∀ a, Spells (next a)) : Spells (result >>= next) := by
  cases result with
  | error own => exact fun failure failed => first failure (by cases failed; rfl)
  | ok a => exact rest a

theorem mapM {f : α → Except Failure β} (each : ∀ a, Spells (f a)) (items : List α) : Spells (items.mapM f) := by
  induction items with
  | nil => exact pure []
  | cons first rest ih =>
    rw [List.mapM_cons]
    exact (each first).bind fun _ => ih.bind fun _ => pure _

end Spells

theorem spells_writeWhole (i : Int) : Spells (Number.writeWhole i) := by
  unfold Number.writeWhole
  split
  · exact .pure _
  · rintro failure ⟨⟩
    exact .inl rfl

theorem spells_written (h : Heap) (depth : Nat) (v : Value) : Spells (h.written depth v) := by
  induction depth generalizing v with
  | zero =>
    rintro failure ⟨⟩
    exact .inr rfl
  | succ depth ih =>
    unfold written
    cases v with
    | whole i => exact spells_writeWhole i
    | list cell => exact (Spells.mapM ih _).bind fun _ => .pure _
    | set cell => exact (Spells.mapM ih _).bind fun _ => .pure _
    | map cell =>
      have entry : ∀ pair : Value × Value,
          Spells (do pure ((← h.written depth pair.1) ++ ": " ++ (← h.written depth pair.2))) := fun pair =>
        (ih pair.1).bind fun _ => (ih pair.2).bind fun _ => .pure _
      exact (Spells.mapM entry _).bind fun _ => .pure _
    | tuple items =>
      -- a single item is written in another way
      rcases items with - | ⟨item, - | ⟨second, rest⟩⟩
      · exact (Spells.mapM ih _).bind fun _ => .pure _
      · exact (ih item).bind fun _ => .pure _
      · exact (Spells.mapM ih _).bind fun _ => .pure _
    | named name => exact (ih name).bind fun _ => .pure _
    | direct target => exact (ih target).bind fun _ => .pure _
    | destination out mapper => exact (ih mapper).bind fun _ => .pure _
    | flag b => cases b <;> exact .pure _
    | _ => exact .pure _

theorem spells_shown (h : Heap) (v : Value) : Spells (h.shown v) := by
  unfold shown
  split
  · exact .pure _
  · exact spells_written h _ _

end Heap

namespace Config

/-- A mapping with a `src` at the second level of a value, and the keys that lead to it. -/
structure Candidate where
  config : Value
  group : Value
  source : Value
  destination : Option Value

def candidate? (h : Heap) (config : Value) : Value × Value → Option Candidate
  | (group, .map cell) => ((h.mapAt cell).at? "src").map (⟨config, group, ·, (h.mapAt cell).at? "des"⟩)
  | _ => none

def candidatesIn (h : Heap) : Value × Value → List Candidate
  | (config, .map cell) => (h.mapAt cell).entries.filterMap (candidate? h config)
  | _ => []

/-- The mappings with a `src` at the second level of a value, in the order in which they stand. -/
def candidates (h : Heap) : Value → List Candidate
  | .map root => (h.mapAt root).entries.flatMap (candidatesIn h)
  | _ => []

def pathsOf (h : Heap) : Value → Option Value
  | .map root => (h.mapAt root).at? "paths"
  | _ => none

def FitsPaths (paths : Option Value) : Prop :=
  paths = none ∨ paths = some .nothing ∨ ∃ cell, paths = some (.map cell)

def FitsSource (h : Heap) (source : Value) : Prop :=
  (∃ text, source = .text text) ∨ ∃ cell, source = .list cell ∧ Value.Texts (h.listAt cell)

def FitsDestination (destination : Option Value) : Prop :=
  destination = none ∨ destination = some .nothing ∨ ∃ text, destination = some (.text text)

/-- A configuration as it has to be. Nothing is asked of what stands elsewhere, nor of the names. -/
def Valid (h : Heap) (v : Value) : Prop :=
  ∃ root, v = .map root ∧ FitsPaths ((h.mapAt root).at? "paths") ∧
    ∀ config entries, (config, .map entries) ∈ (h.mapAt root).entries →
      ∀ group cell, (group, .map cell) ∈ (h.mapAt entries).entries → ∀ source, (h.mapAt cell).at? "src" = some source →
        FitsSource h source ∧ FitsDestination ((h.mapAt cell).at? "des")

namespace Candidate

def Named (h : Heap) (c : Candidate) : Prop := ∃ name, label h c.config c.group = .ok name

structure Fits (h : Heap) (c : Candidate) : Prop where
  source : FitsSource h c.source
  destination : FitsDestination c.destination

/-- What is wrong with a group, the source before the destination. -/
inductive Fault (h : Heap) (c : Candidate) (name : String) : ConfigFault → Prop where
  | sourceEntries {cell : Nat} (list : c.source = .list cell) (mixed : ¬Value.Texts (h.listAt cell)) :
    Fault h c name (.sourceEntries name)
  | sourceShape (noText : ∀ text, c.source ≠ .text text) (noList : ∀ cell, c.source ≠ .list cell) :
    Fault h c name (.sourceShape name)
  | destination (source : FitsSource h c.source) (unfit : ¬FitsDestination c.destination) :
    Fault h c name (.destinationShape name)

/-- Groups that differ only in what nobody asks about. -/
structure Alike (h : Heap) (c : Candidate) (h' : Heap) (c' : Candidate) : Prop where
  label : label h c.config c.group = Config.label h' c'.config c'.group
  list : (∃ cell, c.source = .list cell) ↔ ∃ cell, c'.source = .list cell
  source : FitsSource h c.source ↔ FitsSource h' c'.source
  destination : FitsDestination c.destination ↔ FitsDestination c'.destination

end Candidate

/-- Every group of a value has a name. -/
def Named (h : Heap) (v : Value) : Prop := ∀ c ∈ candidates h v, c.Named h

/-- The walk comes to a group: what it looks at before has names and nothing wrong. -/
def Reaches (h : Heap) (v : Value) (c : Candidate) : Prop :=
  FitsPaths (pathsOf h v) ∧
    ∃ before after, candidates h v = before ++ c :: after ∧ ∀ earlier ∈ before, earlier.Named h ∧ earlier.Fits h

/-- The first fault of a value, in the order of the root, the paths and the groups. -/
inductive FirstFault (h : Heap) (v : Value) : ConfigFault → Prop where
  | root (other : ∀ root, v ≠ .map root) : FirstFault h v .rootNotMapping
  | paths (unfit : ¬FitsPaths (pathsOf h v)) : FirstFault h v .pathsNotMapping
  | group {c : Candidate} {name : String} {fault : ConfigFault} (reached : Reaches h v c)
    (named : label h c.config c.group = .ok name) (wrong : c.Fault h name fault) : FirstFault h v fault

/-- The first group that is not as it should be has no name. -/
def FirstUnnamed (h : Heap) (v : Value) (failure : Failure) : Prop :=
  ∃ c, Reaches h v c ∧ label h c.config c.group = .error failure

/-- Values that differ only in what nobody asks about: at other places, in other entries, or in the texts themselves. -/
structure Alike (h : Heap) (v : Value) (h' : Heap) (v' : Value) : Prop where
  root : (∃ root, v = .map root) ↔ ∃ root, v' = .map root
  paths : FitsPaths (pathsOf h v) ↔ FitsPaths (pathsOf h' v')
  groups : List.Forall₂ (fun c c' => Candidate.Alike h c h' c') (candidates h v) (candidates h' v')

section Walk

variable {α β ε : Type} {check : α → Except ε PUnit} {items : List α} {failure : ε}

theorem forM_eq_error_iff : items.forM check = .error failure ↔
    ∃ before item after, items = before ++ item :: after ∧ (∀ earlier ∈ before, check earlier = .ok ⟨⟩) ∧
      check item = .error failure := by
  induction items with
  | nil =>
    constructor
    · intro failed
      cases failed
    · rintro ⟨before, item, after, cut, -⟩
      exact absurd cut.symm (List.append_ne_nil_of_right_ne_nil before (List.cons_ne_nil item after))
  | cons first rest ih =>
    change (check first >>= fun _ => rest.forM check) = _ ↔ _
    cases checked : check first with
    | error own =>
      constructor
      · rintro ⟨⟩
        exact ⟨[], first, rest, rfl, List.forall_mem_nil _, checked⟩
      · rintro ⟨before, item, after, cut, passed, failed⟩
        cases before with
        | nil =>
          cases cut
          exact checked.symm.trans failed
        | cons other before =>
          cases cut
          rw [passed first List.mem_cons_self] at checked
          cases checked
    | ok =>
      refine ih.trans ⟨?_, ?_⟩
      · rintro ⟨before, item, after, rfl, passed, failed⟩
        exact ⟨first :: before, item, after, rfl, List.forall_mem_cons.mpr ⟨checked, passed⟩, failed⟩
      · rintro ⟨before, item, after, cut, passed, failed⟩
        cases before with
        | nil =>
          cases cut
          rw [checked] at failed
          cases failed
        | cons other before =>
          cases cut
          exact ⟨before, item, after, rfl, (List.forall_mem_cons.mp passed).2, failed⟩

theorem forM_append (others : List α) :
    (items ++ others).forM check = (do items.forM check; others.forM check) := by
  induction items with
  | nil => rfl
  | cons first rest ih =>
    change (check first >>= fun _ => (rest ++ others).forM check) = (check first >>= fun _ => rest.forM check) >>= _
    rw [ih, bind_assoc]

theorem forM_flatMap (inner : β → List α) (outer : List β) :
    (outer.flatMap inner).forM check = outer.forM fun b => (inner b).forM check := by
  induction outer with
  | nil => rfl
  | cons first rest ih =>
    rw [List.flatMap_cons, forM_append, ih]
    rfl

theorem forM_eq_of_forall₂ {other : β → Except ε PUnit} {others : List β}
    (same : List.Forall₂ (fun a b => check a = other b) items others) : items.forM check = others.forM other := by
  induction same with
  | nil => rfl
  | @cons a b items others first _ ih =>
    change (check a >>= fun _ => items.forM check) = (other b >>= fun _ => others.forM other)
    rw [first, ih]

end Walk

section Verdicts

variable {h : Heap} {paths destination : Option Value} {source : Value} {name : String}

theorem checkPaths_of_fits (fits : FitsPaths paths) : checkPaths paths = .ok ⟨⟩ := by
  rcases fits with rfl | rfl | ⟨cell, rfl⟩ <;> rfl

theorem checkPaths_of_unfit (unfit : ¬FitsPaths paths) : checkPaths paths = .error .pathsNotMapping := by
  rcases paths with - | v
  · exact absurd (.inl rfl) unfit
  · cases v
    case nothing => exact absurd (.inr (.inl rfl)) unfit
    case map cell => exact absurd (.inr (.inr ⟨cell, rfl⟩)) unfit
    all_goals rfl

theorem checkSource_of_fits (fits : FitsSource h source) : checkSource h name source = .ok ⟨⟩ := by
  rcases fits with ⟨text, rfl⟩ | ⟨cell, rfl, texts⟩
  · rfl
  · exact if_pos (List.all_eq_true.mpr fun item member => isText_iff.mpr (texts item member))

theorem checkSource_of_mixed {cell : Nat} (mixed : ¬Value.Texts (h.listAt cell)) :
    checkSource h name (.list cell) = .error (.sourceEntries name) :=
  if_neg fun all => mixed (texts_of_all all)

theorem checkSource_of_shape (noText : ∀ text, source ≠ .text text) (noList : ∀ cell, source ≠ .list cell) :
    checkSource h name source = .error (.sourceShape name) := by
  unfold checkSource
  split
  next text => exact absurd rfl (noText text)
  next cell => exact absurd rfl (noList cell)
  next => rfl

theorem checkDestination_of_fits (fits : FitsDestination destination) :
    checkDestination name destination = .ok ⟨⟩ := by
  rcases fits with rfl | rfl | ⟨text, rfl⟩ <;> rfl

theorem checkDestination_of_unfit (unfit : ¬FitsDestination destination) :
    checkDestination name destination = .error (.destinationShape name) := by
  rcases destination with - | v
  · exact absurd (.inl rfl) unfit
  · cases v
    case nothing => exact absurd (.inr (.inl rfl)) unfit
    case text text => exact absurd (.inr (.inr ⟨text, rfl⟩)) unfit
    all_goals rfl

end Verdicts

section Groups

variable {h h' : Heap} {v v' : Value} {c c' : Candidate} {name : String} {failure : Failure}

/-- The check of one group. -/
def checkCandidate (h : Heap) (c : Candidate) : Except Failure PUnit := do
  let name ← label h c.config c.group
  orFail (checkSource h name c.source)
  orFail (checkDestination name c.destination)

theorem checkCandidate_of_unnamed (unnamed : label h c.config c.group = .error failure) :
    checkCandidate h c = .error failure := by
  unfold checkCandidate
  rw [unnamed]
  rfl

theorem checkCandidate_of_named (named : label h c.config c.group = .ok name) :
    checkCandidate h c = (do orFail (checkSource h name c.source); orFail (checkDestination name c.destination)) := by
  unfold checkCandidate
  rw [named]
  rfl

theorem checkCandidate_of_fits (named : label h c.config c.group = .ok name) (fits : c.Fits h) :
    checkCandidate h c = .ok ⟨⟩ := by
  rw [checkCandidate_of_named named, checkSource_of_fits fits.source, checkDestination_of_fits fits.destination]
  rfl

theorem Candidate.Fault.check {fault : ConfigFault} (named : label h c.config c.group = .ok name)
    (wrong : c.Fault h name fault) : checkCandidate h c = .error (.config fault) := by
  rw [checkCandidate_of_named named]
  cases wrong with
  | sourceEntries list mixed =>
    rw [list, checkSource_of_mixed mixed]
    rfl
  | sourceShape noText noList =>
    rw [checkSource_of_shape noText noList]
    rfl
  | destination source unfit =>
    rw [checkSource_of_fits source, checkDestination_of_unfit unfit]
    rfl

/-- What does not fit has a fault. -/
theorem Candidate.exists_fault (unfit : ¬c.Fits h) (name : String) : ∃ fault, c.Fault h name fault := by
  by_cases source : FitsSource h c.source
  · exact ⟨_, .destination source fun destination => unfit ⟨source, destination⟩⟩
  · by_cases list : ∃ cell, c.source = .list cell
    · obtain ⟨cell, list⟩ := list
      exact ⟨_, .sourceEntries list fun texts => source (.inr ⟨cell, list, texts⟩)⟩
    · exact ⟨_, .sourceShape (fun text same => source (.inl ⟨text, same⟩)) fun cell same => list ⟨cell, same⟩⟩

theorem checkCandidate_eq_ok_iff : checkCandidate h c = .ok ⟨⟩ ↔ c.Named h ∧ c.Fits h := by
  constructor
  · intro passed
    cases named : label h c.config c.group with
    | error failure =>
      rw [checkCandidate_of_unnamed named] at passed
      cases passed
    | ok name =>
      refine ⟨⟨name, named⟩, Classical.byContradiction fun unfit => ?_⟩
      obtain ⟨fault, wrong⟩ := Candidate.exists_fault unfit name
      rw [wrong.check named] at passed
      cases passed
  · rintro ⟨⟨name, named⟩, fits⟩
    exact checkCandidate_of_fits named fits

theorem checkCandidate_eq_error_iff : checkCandidate h c = .error failure ↔
    (∃ name fault, label h c.config c.group = .ok name ∧ c.Fault h name fault ∧ failure = .config fault) ∨
      label h c.config c.group = .error failure := by
  constructor
  · intro failed
    cases named : label h c.config c.group with
    | error own =>
      rw [checkCandidate_of_unnamed named] at failed
      cases failed
      exact .inr rfl
    | ok name =>
      have unfit : ¬c.Fits h := fun fits => by
        rw [checkCandidate_of_fits named fits] at failed
        cases failed
      obtain ⟨fault, wrong⟩ := Candidate.exists_fault unfit name
      rw [wrong.check named] at failed
      cases failed
      exact .inl ⟨name, fault, rfl, wrong, rfl⟩
  · rintro (⟨name, fault, named, wrong, rfl⟩ | unnamed)
    · exact wrong.check named
    · exact checkCandidate_of_unnamed unnamed

theorem checkGroup_eq (h : Heap) (config : Value) (entry : Value × Value) :
    checkGroup h config entry.1 entry.2 = (candidate? h config entry).toList.forM (checkCandidate h) := by
  obtain ⟨group, v⟩ := entry
  cases v with
  | map cell =>
    change checkContent h config group (h.mapAt cell) = (Option.map _ ((h.mapAt cell).at? "src")).toList.forM _
    unfold checkContent
    cases (h.mapAt cell).at? "src" with
    | none => rfl
    | some source => exact bind_pure_unit.symm
  | _ => rfl

theorem checkEntry_eq (h : Heap) (entry : Value × Value) :
    checkEntry h entry.1 entry.2 = (candidatesIn h entry).forM (checkCandidate h) := by
  obtain ⟨config, v⟩ := entry
  cases v with
  | map cell =>
    change (h.mapAt cell).entries.forM _ = ((h.mapAt cell).entries.filterMap (candidate? h config)).forM _
    rw [List.filterMap_eq_flatMap_toList, forM_flatMap]
    exact congrArg _ (funext (checkGroup_eq h config))
  | _ => rfl

/-- The check of a value is one walk over its groups. -/
theorem check_eq (h : Heap) (root : Nat) : check h (.map root) = (do
    orFail (checkPaths (pathsOf h (.map root)))
    (candidates h (.map root)).forM (checkCandidate h)) := by
  unfold candidates
  rw [forM_flatMap, ← funext (checkEntry_eq h)]
  rfl

end Groups

section Decisions

variable {h h' : Heap} {v v' : Value} {c c' : Candidate} {failure : Failure}

theorem mem_candidates {root : Nat} : c ∈ candidates h (.map root) ↔
    ∃ config entries, (config, .map entries) ∈ (h.mapAt root).entries ∧
      ∃ group cell, (group, .map cell) ∈ (h.mapAt entries).entries ∧ ∃ source, (h.mapAt cell).at? "src" = some source ∧
        c = ⟨config, group, source, (h.mapAt cell).at? "des"⟩ := by
  constructor
  · intro member
    obtain ⟨⟨config, v⟩, configured, inside⟩ := List.mem_flatMap.mp member
    cases v with
    | map entries =>
      obtain ⟨⟨group, w⟩, entry, found⟩ := List.mem_filterMap.mp inside
      cases w with
      | map cell =>
        obtain ⟨source, stands, rfl⟩ := Option.map_eq_some_iff.mp found
        exact ⟨config, entries, configured, group, cell, entry, source, stands, rfl⟩
      | _ => cases found
    | _ => cases inside
  · rintro ⟨config, entries, configured, group, cell, entry, source, stands, rfl⟩
    refine List.mem_flatMap.mpr ⟨_, configured, List.mem_filterMap.mpr ⟨_, entry, ?_⟩⟩
    exact Option.map_eq_some_iff.mpr ⟨source, stands, rfl⟩

theorem valid_iff :
    Valid h v ↔ (∃ root, v = .map root) ∧ FitsPaths (pathsOf h v) ∧ ∀ c ∈ candidates h v, c.Fits h := by
  constructor
  · rintro ⟨root, rfl, paths, groups⟩
    refine ⟨⟨root, rfl⟩, paths, fun c member => ?_⟩
    obtain ⟨config, entries, configured, group, cell, entry, source, stands, rfl⟩ := mem_candidates.mp member
    obtain ⟨patterns, destination⟩ := groups config entries configured group cell entry source stands
    exact ⟨patterns, destination⟩
  · rintro ⟨⟨root, rfl⟩, paths, groups⟩
    refine ⟨root, rfl, paths, fun config entries configured group cell entry source stands => ?_⟩
    have fits := groups _ (mem_candidates.mpr ⟨config, entries, configured, group, cell, entry, source, stands, rfl⟩)
    exact ⟨fits.source, fits.destination⟩

theorem check_of_other (other : ∀ root, v ≠ .map root) : check h v = .error (.config .rootNotMapping) := by
  unfold check
  split
  next root => exact absurd rfl (other root)
  next => rfl

theorem check_of_unfit (unfit : ¬FitsPaths (pathsOf h v)) : check h v = .error (.config .pathsNotMapping) := by
  cases v with
  | map root =>
    rw [check_eq, checkPaths_of_unfit unfit]
    rfl
  | _ => exact absurd (.inl rfl) unfit

theorem check_of_fits (map : ∃ root, v = .map root) (fits : FitsPaths (pathsOf h v)) :
    check h v = (candidates h v).forM (checkCandidate h) := by
  obtain ⟨root, rfl⟩ := map
  rw [check_eq, checkPaths_of_fits fits]
  rfl

theorem check_eq_ok_iff : check h v = .ok ⟨⟩ ↔ Valid h v ∧ Named h v := by
  rw [valid_iff]
  by_cases map : ∃ root, v = .map root
  · by_cases fits : FitsPaths (pathsOf h v)
    · rw [check_of_fits map fits, forM_eq_ok_iff]
      constructor
      · intro passed
        have both := fun c member => checkCandidate_eq_ok_iff.mp (passed c member)
        exact ⟨⟨map, fits, fun c member => (both c member).2⟩, fun c member => (both c member).1⟩
      · rintro ⟨⟨-, -, sound⟩, named⟩ c member
        exact checkCandidate_eq_ok_iff.mpr ⟨named c member, sound c member⟩
    · rw [check_of_unfit fits]
      exact ⟨fun passed => (by cases passed), fun holds => absurd holds.1.2.1 fits⟩
  · rw [check_of_other (not_exists.mp map)]
    exact ⟨fun passed => (by cases passed), fun holds => absurd holds.1.1 map⟩

theorem Reaches.map (reached : Reaches h v c) : ∃ root, v = .map root := by
  obtain ⟨-, before, after, cut, -⟩ := reached
  cases v with
  | map root => exact ⟨root, rfl⟩
  | _ => exact absurd cut.symm (List.append_ne_nil_of_right_ne_nil before (List.cons_ne_nil c after))

theorem Reaches.check (reached : Reaches h v c) (failed : checkCandidate h c = .error failure) :
    check h v = .error failure := by
  rw [check_of_fits reached.map reached.1]
  obtain ⟨-, before, after, cut, passed⟩ := reached
  exact forM_eq_error_iff.mpr
    ⟨before, c, after, cut, fun earlier member => checkCandidate_eq_ok_iff.mpr (passed earlier member), failed⟩

theorem FirstFault.check {fault : ConfigFault} (first : FirstFault h v fault) : check h v = .error (.config fault) := by
  cases first with
  | root other => exact check_of_other other
  | paths unfit => exact check_of_unfit unfit
  | group reached named wrong => exact reached.check (wrong.check named)

theorem check_eq_error_iff : check h v = .error failure ↔
    (∃ fault, failure = .config fault ∧ FirstFault h v fault) ∨ FirstUnnamed h v failure := by
  constructor
  · intro failed
    by_cases map : ∃ root, v = .map root
    · by_cases fits : FitsPaths (pathsOf h v)
      · -- the walk fails with the first group that fails, and that is what the fault asks for
        rw [check_of_fits map fits] at failed
        obtain ⟨before, c, after, cut, passed, stops⟩ := forM_eq_error_iff.mp failed
        have reached : Reaches h v c :=
          ⟨fits, before, after, cut, fun earlier member => checkCandidate_eq_ok_iff.mp (passed earlier member)⟩
        rcases checkCandidate_eq_error_iff.mp stops with ⟨name, fault, named, wrong, rfl⟩ | unnamed
        · exact .inl ⟨fault, rfl, .group reached named wrong⟩
        · exact .inr ⟨c, reached, unnamed⟩
      · rw [check_of_unfit fits] at failed
        cases failed
        exact .inl ⟨_, rfl, .paths fits⟩
    · rw [check_of_other (not_exists.mp map)] at failed
      cases failed
      exact .inl ⟨_, rfl, .root (not_exists.mp map)⟩
  · rintro (⟨fault, rfl, first⟩ | ⟨c, reached, unnamed⟩)
    · exact first.check
    · exact reached.check (checkCandidate_of_unnamed unnamed)

namespace Candidate.Alike

variable (alike : c.Alike h h' c')
include alike

theorem checkSource (name : String) : checkSource h name c.source = Config.checkSource h' name c'.source := by
  by_cases fits : FitsSource h c.source
  · rw [checkSource_of_fits fits, checkSource_of_fits (alike.source.mp fits)]
  · have unfit : ¬FitsSource h' c'.source := fun fits' => fits (alike.source.mpr fits')
    by_cases list : ∃ cell, c.source = .list cell
    · obtain ⟨cell', same'⟩ := alike.list.mp list
      obtain ⟨cell, same⟩ := list
      rw [same, same', checkSource_of_mixed fun texts => fits (.inr ⟨cell, same, texts⟩),
        checkSource_of_mixed fun texts => unfit (.inr ⟨cell', same', texts⟩)]
    · have noList : ¬∃ cell, c'.source = .list cell := fun list' => list (alike.list.mpr list')
      rw [checkSource_of_shape (fun text same => fits (.inl ⟨text, same⟩)) (not_exists.mp list),
        checkSource_of_shape (fun text same => unfit (.inl ⟨text, same⟩)) (not_exists.mp noList)]

theorem checkDestination (name : String) :
    checkDestination name c.destination = Config.checkDestination name c'.destination := by
  by_cases fits : FitsDestination c.destination
  · rw [checkDestination_of_fits fits, checkDestination_of_fits (alike.destination.mp fits)]
  · have unfit : ¬FitsDestination c'.destination := fun fits' => fits (alike.destination.mpr fits')
    rw [checkDestination_of_unfit fits, checkDestination_of_unfit unfit]

theorem check : checkCandidate h c = checkCandidate h' c' := by
  unfold checkCandidate
  rw [alike.label]
  simp only [alike.checkSource, alike.checkDestination]

end Candidate.Alike

/-- What nobody asks about has no say. -/
theorem Alike.check (alike : Alike h v h' v') : check h v = Config.check h' v' := by
  by_cases map : ∃ root, v = .map root
  · by_cases fits : FitsPaths (pathsOf h v)
    · rw [check_of_fits map fits, check_of_fits (alike.root.mp map) (alike.paths.mp fits)]
      exact forM_eq_of_forall₂ (alike.groups.imp fun _ _ same => same.check)
    · rw [check_of_unfit fits, check_of_unfit fun fits' => fits (alike.paths.mpr fits')]
  · have other : ¬∃ root, v' = .map root := fun map' => map (alike.root.mpr map')
    rw [check_of_other (not_exists.mp map), check_of_other (not_exists.mp other)]

theorem accept_eq_ok_iff {given : Value} : accept h v = .ok given ↔ given = v ∧ check h v = .ok ⟨⟩ := by
  unfold accept
  cases check h v with
  | error failure => exact ⟨fun passed => (by cases passed), fun passed => (by cases passed.2)⟩
  | ok => exact ⟨fun passed => (by cases passed; exact ⟨rfl, rfl⟩), fun passed => (by rw [passed.1]; rfl)⟩

theorem accept_eq_error_iff : accept h v = .error failure ↔ check h v = .error failure := by
  unfold accept
  cases check h v with
  | error own => exact ⟨fun failed => (by cases failed; rfl), fun failed => (by cases failed; rfl)⟩
  | ok => exact ⟨fun failed => (by cases failed), fun failed => (by cases failed)⟩

theorem FirstUnnamed.not_named (first : FirstUnnamed h v failure) : ¬Named h v := by
  obtain ⟨c, ⟨-, before, after, cut, -⟩, unnamed⟩ := first
  intro named
  obtain ⟨name, written⟩ := named c (cut ▸ List.mem_append_right before List.mem_cons_self)
  rw [unnamed] at written
  cases written

theorem FirstUnnamed.textless (first : FirstUnnamed h v failure) : failure = .badValue ∨ failure = .tooDeep := by
  obtain ⟨c, -, unnamed⟩ := first
  have spells : Heap.Spells (label h c.config c.group) :=
    (h.spells_shown c.config).bind fun _ => (h.spells_shown c.group).bind fun _ => .pure _
  exact spells failure unnamed

end Decisions

/-- A value is accepted, and handed back as it is, exactly if it is a valid configuration all of whose groups have a
name. It is refused with its first fault, or else since the first group that is not as it should be has no name, which
is no fault of the configuration. Where all groups have a name, it is accepted exactly if it is valid and is refused
with its first fault otherwise. What stands elsewhere has no say in any of this. -/
theorem first_fault_unless_unnamed (h : Heap) (v : Value) :
    (∀ given, accept h v = .ok given ↔ given = v ∧ Valid h v ∧ Named h v) ∧
    (∀ failure, accept h v = .error failure ↔
      (∃ fault, failure = .config fault ∧ FirstFault h v fault) ∨ FirstUnnamed h v failure) ∧
    (∀ failure, FirstUnnamed h v failure → failure = .badValue ∨ failure = .tooDeep) ∧
    (Named h v → ¬Valid h v → ∃ fault, FirstFault h v fault ∧ accept h v = .error (.config fault)) ∧
    (∀ h' v', Alike h v h' v' → (accept h v = .ok v ↔ accept h' v' = .ok v') ∧
      ∀ failure, accept h v = .error failure ↔ accept h' v' = .error failure) := by
  refine ⟨fun given => ?_, fun failure => ?_, fun failure first => first.textless, fun named invalid => ?_, ?_⟩
  · rw [accept_eq_ok_iff, check_eq_ok_iff]
  · rw [accept_eq_error_iff, check_eq_error_iff]
  · cases refused : check h v with
    | ok => exact absurd (check_eq_ok_iff.mp refused).1 invalid
    | error failure =>
      rcases check_eq_error_iff.mp refused with ⟨fault, rfl, first⟩ | unnamed
      · exact ⟨fault, first, accept_eq_error_iff.mpr refused⟩
      · exact absurd named unnamed.not_named
  · intro h' v' alike
    constructor
    · rw [accept_eq_ok_iff, accept_eq_ok_iff, alike.check]
      exact and_congr_left' ⟨fun _ => rfl, fun _ => rfl⟩
    · intro failure
      rw [accept_eq_error_iff, accept_eq_error_iff, alike.check]

theorem label_of_long {i : Int} (long : Nat.pow 10 Number.digitLimit ≤ i.natAbs) (h : Heap) (config : String) :
    label h (.text config) (.whole i) = .error .badValue := by
  have unwritten : Number.writeWhole i = .error .badValue := if_neg (Nat.not_lt.mpr long)
  have shown : h.shown (.whole i) = .error .badValue := unwritten
  unfold label
  rw [shown]
  rfl

namespace Unwritable

/-- An integer with more digits than are written. -/
def key : Value := .whole (Nat.pow 10 Number.digitLimit : Nat)

/-- A configuration with nothing wrong in it, whose group has the integer as its key, and one with a fault. -/
def heap : Heap where
  maps := #[⟨[(.text "c", .map 1)]⟩, ⟨[(key, .map 2)]⟩, ⟨[(.text "src", .text "a.js")]⟩, ⟨[(.text "c", .map 4)]⟩,
    ⟨[(.text "g", .map 5)]⟩, ⟨[(.text "src", .whole 5)]⟩]

end Unwritable

/-- A configuration with nothing wrong in it is refused for the key of its group, and one with a fault for that. -/
theorem first_fault_unless_unnamed_key :
    Valid Unwritable.heap (.map 0) ∧ accept Unwritable.heap (.map 0) = .error .badValue ∧
    accept Unwritable.heap (.map 3) = .error (.config (.sourceShape "c:g")) := by
  have paths : FitsPaths (pathsOf Unwritable.heap (.map 0)) := .inl rfl
  have alone : candidates Unwritable.heap (.map 0) = [⟨.text "c", Unwritable.key, .text "a.js", none⟩] := rfl
  have reached : Reaches Unwritable.heap (.map 0) ⟨.text "c", Unwritable.key, .text "a.js", none⟩ :=
    ⟨paths, [], [], alone, List.forall_mem_nil _⟩
  have other : Reaches Unwritable.heap (.map 3) ⟨.text "c", .text "g", .whole 5, none⟩ :=
    ⟨.inl rfl, [], [], rfl, List.forall_mem_nil _⟩
  have unnamed : label Unwritable.heap (.text "c") Unwritable.key = .error .badValue :=
    label_of_long (Nat.le_of_eq (Int.natAbs_natCast _).symm) _ "c"
  have shapeless : FirstFault Unwritable.heap (.map 3) (.sourceShape "c:g") :=
    .group other rfl (.sourceShape (by simp) (by simp))
  refine ⟨valid_iff.mpr ⟨⟨0, rfl⟩, paths, ?_⟩, ?_, ?_⟩
  · rw [alone]
    exact List.forall_mem_singleton.mpr ⟨.inl ⟨"a.js", rfl⟩, .inl rfl⟩
  · exact ((first_fault_unless_unnamed Unwritable.heap (.map 0)).2.1 .badValue).mpr (.inr ⟨_, reached, unnamed⟩)
  · exact ((first_fault_unless_unnamed Unwritable.heap (.map 3)).2.1 _).mpr (.inl ⟨_, rfl, shapeless⟩)

end Config

end TaskBoard
