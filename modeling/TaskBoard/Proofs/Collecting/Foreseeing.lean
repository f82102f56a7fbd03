import TaskBoard.Proofs.Collecting.Tracing

/-!
What a group comes to, told before it is resolved. Where patterns list the same files and the clock writes the same
stamps whenever a group is resolved, this depends on what the board holds by then: what it has held at the start, and the
files and destinations that were written into the mappings of earlier groups, which may be configurations or stand
under `src` as well.
-/

namespace TaskBoard

open Act World Board

variable {σ : Type}

/-- A declared group before its destination is settled. -/
structure Survey where
  name : String
  source : List Value
  files : List Value

namespace Board

/-- The output path of a pattern under no root, with the time of a clock. -/
def stamped (clock : Clock) (pattern : String) : Except Failure String := do
  let stamp ← stampOf clock
  pure (DestinationPattern.stampVersion stamp (DestinationPattern.parse pattern).out)

def settlement (b : Nat) (w : World σ) : Value → Except Failure Value
  | .text pattern => resolution b w pattern
  | v => .ok v

end Board

/-- The name, the patterns and the files of a declared group, where patterns list files as told. -/
def World.survey (w : World σ) (listing : Value → Except Failure (List Value)) (d : Declaration) :
    Except Failure Survey := do
  let name ← Config.label w.heap d.config d.group
  let source ← Group.patterns w.heap (Value.ofOption (w.heap.sourceAt d.cell))
  let lists ← source.mapM listing
  pure ⟨name, source, lists.flatten⟩

/-- What the destination of a declared group will be settled to. -/
def World.destined (w : World σ) (b : Nat) (d : Declaration) : Except Failure Value :=
  settlement b w (Group.destinationOf w.heap (.map d.cell))

/-- What will be seen of a declared group once it is resolved. -/
def World.foresee (w : World σ) (b : Nat) (listing : Value → Except Failure (List Value)) (d : Declaration) :
    Except Failure View := do
  let found ← w.survey listing d
  let destination ← w.destined b d
  pure ⟨.text found.name, found.source, found.files, destination⟩

/-- What the visit of a group has left in its mapping: nothing if its files could not be listed, else these, and the
destination where a text was declared, if it could be settled. -/
def World.LeftBy (s : Scope σ) (surveyed : Except Failure Survey) (settled : Except Failure Value) (m : Mapping)
    (cell : Nat) (w : World σ) : Prop :=
  match surveyed, settled with
  | .error _, _ => w.heap.mapAt cell = m
  | .ok found, .error _ => w.Inscribed s m .nothing .nothing found.files cell
  | .ok found, .ok destination => w.Inscribed s m (Value.ofOption (m.at? "des")) destination found.files cell

/-- What the visit of a group has come to, well or not. -/
structure World.Visited (s : Scope σ) (listing : Value → Except Failure (List Value)) (start before : World σ)
    (d : Declaration) (after : World σ) : Prop where
  midway : Midway s start after
  leaves : Leaves s (· = d.cell) before after
  left : after.LeftBy s (before.survey listing d) (before.destined s.board d) (before.heap.mapAt d.cell) d.cell

/-- Patterns list the same files, and the clock writes the same stamps, whenever a group is resolved in the course of a
collection. -/
structure UserCode.Repeats (code : UserCode σ) (s : Scope σ) (listing : Value → Except Failure (List Value))
    (start : World σ) : Prop where
  lists : ∀ cell source early patterns, start.Declares s.board cell → start.heap.sourceAt cell = some source →
    Midway s start early → Group.patterns early.heap source = .ok patterns → ∀ pattern ∈ patterns,
    ∀ w, Midway s start w → ((resolveSources code s.board pattern).run w).1 = listing pattern
  stamps : ∀ cell pattern mapper, start.Declares s.board cell →
    Group.destinationOf start.heap (.map cell) = .text pattern →
    (DestinationPattern.parse pattern).mapper = some mapper → ∀ w, s.around w →
    stamped w.clock pattern = stamped start.clock pattern

variable {code : UserCode σ} {s : Scope σ} {listing : Value → Except Failure (List Value)}
  {start before w v after : World σ} {d : Declaration} {cell g : Nat} {record : Group} {files : List Value} {content : Mapping}

namespace Board

theorem resolution_eq_stamped (b : Nat) (w : World σ) {pattern mapper : String}
    (mapped : (DestinationPattern.parse pattern).mapper = some mapper) :
    resolution b w pattern = (do
      let out ← stamped w.clock pattern
      let root ← rootPath w.heap (((w.board b).paths w.heap).at? "des")
      pure (.destination (String.ofList (Path.join root out.toList))
        (Value.ofOption ((w.board b).registry.tasks.at? mapper)))) := by
  unfold resolution stamped
  rw [mapped]
  cases stampOf w.clock <;> rfl

theorem settlement_congr (whole : Whole s start) (repeats : code.Repeats s listing start)
    (declares : start.Declares s.board cell) (traced : Traced s start w) (midway : Midway s start w)
    (other : Midway s start v)
    (stands : ∀ cell, (start.board s.board).registry.configs.at? "paths" = some (.map cell) →
      (v.heap.mapAt cell).at? "des" = (w.heap.mapAt cell).at? "des") :
    settlement s.board v (Group.destinationOf w.heap (.map cell)) =
      settlement s.board w (Group.destinationOf w.heap (.map cell)) := by
  cases declared : Group.destinationOf w.heap (.map cell) with
  | text pattern =>
    change resolution s.board v pattern = resolution s.board w pattern
    cases mapped : (DestinationPattern.parse pattern).mapper with
    | none =>
      unfold resolution
      rw [mapped]
    | some mapper =>
      have found : (w.heap.mapAt cell).at? "des" = some (.text pattern) := Value.ofOption_eq_text.mp declared
      have first : Group.destinationOf start.heap (.map cell) = .text pattern := by
        rcases (traced cell (whole.mine cell (.inr declares.member))).destination with old | ⟨_, new, _, _, rfl, -⟩
        · exact Value.ofOption_eq_text.mpr (old.symm.trans found)
        · cases found.symm.trans new
      have stamps := repeats.stamps cell pattern mapper declares first mapped
      have root := root_congr whole traced midway other stands
      rw [resolution_eq_stamped _ _ mapped, resolution_eq_stamped _ _ mapped, root, midway.board, other.board,
        stamps w midway.fits, stamps v other.fits]
  | _ => rfl

theorem targets_of_settlement (formed : Formed s start) (midway : Midway s start w) {pattern : String} {value : Value}
    (settled : settlement s.board w (.text pattern) = .ok value) : value = .text pattern ∨ s.Targets value := by
  obtain ⟨-, same⟩ | ⟨name, _, _, -, -, -, same⟩ := resolution_ok settled
  · exact .inl same
  · refine .inr ⟨_, _, same, ?_⟩
    rw [midway.board]
    cases found : (start.board s.board).registry.tasks.at? name with
    | none => exact .inl rfl
    | some task =>
      obtain ⟨key, member⟩ := Mapping.entry_of_get? found
      exact .inr (formed.tasks key task member)

theorem Placed.settlement {b : Nat} {declared v : Value} (placed : Placed b w declared v) :
    settlement b w declared = .ok v := by
  cases placed with
  | @resolved pattern v ran =>
    rw [run_resolveDestination] at ran
    exact (Prod.mk.inj ran).1
  | kept other =>
    cases declared with
    | text pattern => exact absurd rfl (other pattern)
    | _ => rfl

theorem ends_mapM_listed (discreet : code.Discreet s) {patterns : List Value}
    (each : ∀ pattern ∈ patterns, ∀ w, Midway s start w →
      ((resolveSources code s.board pattern).run w).1 = listing pattern) (midway : Midway s start w) :
    Ends (patterns.mapM (resolveSources code s.board)) w (fun lists _ => patterns.mapM listing = .ok lists)
      (fun failure _ => patterns.mapM listing = .error failure) := by
  induction patterns generalizing w with
  | nil => exact .pure rfl
  | cons pattern patterns ih =>
    have first := each pattern List.mem_cons_self w midway
    have quiet := keeps_resolveSources discreet.drives.carries s.board pattern w
    rw [List.mapM_cons, List.mapM_cons]
    rcases ran : (resolveSources code s.board pattern).run w with ⟨failure | files, mid⟩
    · rw [ran] at first
      rw [← first]
      exact .of_error (run_bind_error ran) rfl
    · rw [ran] at first quiet
      rw [← first]
      apply Ends.run_bind ran
      have rest := ih (fun other member => each other (List.mem_cons_of_mem _ member)) (midway.quiet quiet)
      apply Ends.bind
      · apply rest.mono
        · exact fun _ _ listed => listed
        · intro failure after failed
          rw [failed]
          rfl
      · intro lists after listed
        rw [listed]
        exact .pure rfl

theorem ends_groupFiles_listed (discreet : code.Discreet s)
    (during : During s start before cell g record files content w)
    (each : ∀ pattern ∈ record.source, ∀ w, Midway s start w →
      ((resolveSources code s.board pattern).run w).1 = listing pattern) :
    Ends (groupFiles code s.board g) w
      (fun found _ => ∃ lists, record.source.mapM listing = .ok lists ∧ found = lists.flatten)
      (fun failure _ => record.source.mapM listing = .error failure) := by
  unfold groupFiles
  apply Ends.run_bind (run_get w)
  rw [during.stands]
  apply (ends_mapM_listed discreet each during.toMidway).bind
  exact fun lists after listed => .pure ⟨lists, listed, rfl⟩

end Board

namespace World

section Surveying

variable {failure : Failure} {text : String} {v : Value} {patterns : List Value}

theorem survey_unnamed (label : Config.label w.heap d.config d.group = .error failure) :
    w.survey listing d = .error failure := by
  unfold survey
  rw [label]
  rfl

theorem survey_unread (label : Config.label w.heap d.config d.group = .ok text)
    (source : w.heap.sourceAt d.cell = some v) (unread : Group.patterns w.heap v = .error failure) :
    w.survey listing d = .error failure := by
  unfold survey
  rw [label, source, Value.ofOption, unread]
  rfl

theorem survey_read (label : Config.label w.heap d.config d.group = .ok text)
    (source : w.heap.sourceAt d.cell = some v) (read : Group.patterns w.heap v = .ok patterns) :
    w.survey listing d = (do
      let lists ← patterns.mapM listing
      pure ⟨text, patterns, lists.flatten⟩) := by
  unfold survey
  rw [label, source, Value.ofOption, read]
  rfl

theorem foresee_unsurveyed {b : Nat} (failed : w.survey listing d = .error failure) :
    w.foresee b listing d = .error failure := by
  unfold foresee
  rw [failed]
  rfl

theorem foresee_surveyed {b : Nat} {found : Survey} (surveyed : w.survey listing d = .ok found) :
    w.foresee b listing d = (do
      let destination ← w.destined b d
      pure ⟨.text found.name, found.source, found.files, destination⟩) := by
  unfold foresee
  rw [surveyed]
  rfl

end Surveying

theorem LeftBy.leaves {surveyed : Except Failure Survey} {settled : Except Failure Value} {m : Mapping}
    (left : w.LeftBy s surveyed settled m cell) (mine : s.mine (.map cell))
    (leaves : Leaves s (fun _ => False) w after) : after.LeftBy s surveyed settled m cell := by
  cases surveyed with
  | error failure => exact (leaves.maps cell mine id).trans left
  | ok found => cases settled <;> exact Inscribed.leaves left mine leaves

theorem Visited.quiet (visited : Visited s listing start before d w) (mine : s.mine (.map d.cell))
    (quiet : Quiet s w after) : Visited s listing start before d after := by
  have leaves := (quiet visited.midway.fits).1
  exact ⟨visited.midway.quiet quiet, visited.leaves.trans (leaves.mono fun _ => False.elim),
    visited.left.leaves mine leaves⟩

theorem mine_of_destined (formed : Formed s start) (traced : Traced s start before) (midway : Midway s start before)
    (mine : s.mine (.map d.cell)) {out : String} {mapper : Value}
    (settled : before.destined s.board d = .ok (.destination out mapper)) (callable : mapper.isCallable = true) :
    s.mine mapper := by
  have targets : ∀ {v}, v = .destination out mapper → s.Targets v → s.mine mapper := by
    rintro _ rfl ⟨_, _, same, missing | own⟩
    · cases same
      rw [missing] at callable
      cases callable
    · cases same
      exact own
  change settlement s.board before (Value.ofOption ((before.heap.mapAt d.cell).at? "des")) = _ at settled
  cases stands : (before.heap.mapAt d.cell).at? "des" with
  | none =>
    rw [stands] at settled
    cases settled
  | some declared =>
    rw [stands] at settled
    cases declared with
    | text pattern => exact (targets_of_settlement formed midway settled).elim (fun same => nomatch same) (targets rfl)
    | destination _ _ =>
      cases settled
      rcases (traced d.cell mine).destination with old | ⟨v, new, among⟩
      · have held := formed.parts (.map d.cell) _ mine (Mapping.mem_of_get? (old.symm.trans stands))
        exact formed.parts _ mapper held (List.mem_singleton_self _)
      · exact targets (Option.some.inj (new.symm.trans stands)) among
    | _ => cases settled

theorem Visited.traced (visited : Visited s listing start before d after) (formed : Formed s start)
    (traced : Traced s start before) (midway : Midway s start before) (mine : s.mine (.map d.cell)) :
    Traced s start after := by
  apply traced.visited visited.leaves
  have old := (traced d.cell mine).leaves visited.leaves
  have left := visited.left
  cases surveyed : before.survey listing d with
  | error failure =>
    rw [surveyed] at left
    exact (show after.heap.mapAt d.cell = _ from left) ▸ old
  | ok found =>
    rw [surveyed] at left
    cases settled : before.destined s.board d with
    | error failure =>
      rw [settled] at left
      obtain ⟨g, enrolled, content, -⟩ := left
      rw [content]
      exact old.file enrolled
    | ok destination =>
      rw [settled] at left
      obtain ⟨g, enrolled, content, -⟩ := left
      rw [content]
      refine (old.file enrolled).place (congrArg Value.ofOption (Mapping.get?_insert_other _ _ (by decide))) ?_
      intro pattern declared
      have text : settlement s.board before (Value.ofOption ((before.heap.mapAt d.cell).at? "des")) = _ := settled
      rw [declared] at text
      exact targets_of_settlement formed midway text

end World

end TaskBoard
