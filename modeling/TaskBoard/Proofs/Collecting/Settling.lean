import TaskBoard.Proofs.Collecting.Holding
import TaskBoard.Proofs.Ending
import TaskBoard.Proofs.Recording

/-!
One source group, from its mapping to the end of its mapper or to the failure that stops it. The record of the
group and its mapping are written in two steps, first the files, then the destination; user code runs before,
between and after them and leaves the board alone. So a failure finds the mapping as it was before, with its
files, or with both.
-/

namespace TaskBoard

open Act World

variable {σ : Type}

theorem Value.ofOption_eq_text {found : Option Value} {text : String} :
    Value.ofOption found = .text text ↔ found = some (.text text) := by
  cases found <;> simp [Value.ofOption]

namespace Mapping

/-- A destination is written where a text has stood for it. -/
def place (m : Mapping) (declared settled : Value) : Mapping :=
  match declared with
  | .text _ => m.insert (.text "des") settled
  | _ => m

/-- The mapping of a source group once its files and its destination are known. -/
def settle (m : Mapping) (files : Nat) (destination : Value) : Mapping :=
  (m.insert (.text "files") (.list files)).place (Value.ofOption (m.at? "des")) destination

end Mapping

namespace Board

/-- The files that patterns give one after another, each resolved by itself in the world that the one before it
has left. -/
inductive Gathered (code : UserCode σ) (b : Nat) : World σ → List Value → List Value → World σ → Prop where
  | nil (w : World σ) : Gathered code b w [] [] w
  | cons {w mid after : World σ} {pattern : Value} {patterns files more : List Value}
    (resolved : (resolveSources code b pattern).run w = (.ok files, mid))
    (rest : Gathered code b mid patterns more after) : Gathered code b w (pattern :: patterns) (files ++ more) after

/-- What a declared destination is settled to: a text as it resolves, anything else as it is. -/
inductive Placed (b : Nat) (w : World σ) : Value → Value → Prop where
  | resolved {pattern : String} {v : Value} (ran : (resolveDestination b (.text pattern)).run w = (.ok v, w)) :
    Placed b w (.text pattern) v
  | kept {v : Value} (other : ∀ pattern, v ≠ .text pattern) : Placed b w v v

def resolution (b : Nat) (w : World σ) (pattern : String) : Except Failure Value :=
  match (DestinationPattern.parse pattern).mapper with
  | none => pure (.text pattern)
  | some mapper => do
    let stamp ← stampOf w.clock
    let root ← rootPath w.heap (((w.board b).paths w.heap).at? "des")
    pure (.destination
      (String.ofList (Path.join root (DestinationPattern.stampVersion stamp (DestinationPattern.parse pattern).out).toList))
      (Value.ofOption ((w.board b).registry.tasks.at? mapper)))

/-- The value of a group's mapper, whether the mapper gives it at once or its routine is run to its end. -/
inductive Gives (code : UserCode σ) (b g : Nat) (mapper : Value) (w : World σ) (v : Value) (after : World σ) : Prop where
  | plain (called : (callBound code b mapper [.group g]).run w = (.ok v, after)) (value : ∀ r, v ≠ .routine r)
  | run {r : Nat} {mid : World σ} (called : (callBound code b mapper [.group g]).run w = (.ok (.routine r), mid))
    (alone : mid.loop = none) (ran : (Loop.runToCompletion code r).run mid = (.ok v, after))

/-- How the mapper of a settled group fails: when it is called, when its routine is run for want of a loop, or when
its value is received. -/
inductive MapperFails (code : UserCode σ) (b : Nat) (receiver : Option Nat) (g : Nat) (mapper : Value) (w : World σ)
    (failure : Failure) (after : World σ) : Prop where
  | called (raised : (callBound code b mapper [.group g]).run w = (.error failure, after))
  | run {r : Nat} {mid : World σ} (called : (callBound code b mapper [.group g]).run w = (.ok (.routine r), mid))
    (alone : mid.loop = none) (raised : (Loop.runToCompletion code r).run mid = (.error failure, after))
  | received {id : Nat} {v : Value} {mid : World σ} (gives : Gives code b g mapper w v mid) (receives : receiver = some id)
    (raised : (callUser code id [v]).run { mid with past := .delivered g id v :: mid.past } = (.error failure, after))

end Board

namespace World

open Board

/-- The record of a source group that is resolved: the files of all patterns in their order, and the settled
destination. `m` is the mapping of the group as it was before. -/
structure Recorded (code : UserCode σ) (s : Scope σ) (start : World σ) (m : Mapping) (d : Declaration) (g : Nat)
    (w : World σ) : Prop where
  born : g < w.groups.size
  data : (w.group g).data = .map d.cell
  name : ∃ text, Config.label start.heap d.config d.group = .ok text ∧ (w.group g).name = .text text
  source : ∃ v, start.heap.sourceAt d.cell = some v ∧ Group.patterns start.heap v = .ok (w.group g).source
  known : (w.group g).files < w.heap.lists.size
  files : ∃ early late, Midway s start early ∧
    Gathered code s.board early (w.group g).source (w.heap.listAt (w.group g).files) late
  destination : ∃ early, Midway s start early ∧
    Placed s.board early (Value.ofOption (m.at? "des")) (w.group g).destination

/-- A source group whose mapping is resolved as well: it shares the list of the files with the record, and has the
same destination. -/
structure Settled (code : UserCode σ) (s : Scope σ) (start : World σ) (m : Mapping) (d : Declaration) (g : Nat)
    (w : World σ) : Prop extends Recorded code s start m d g w where
  mapping : w.heap.mapAt d.cell = m.settle (w.group g).files (w.group g).destination

/-- Why a source group is not resolved, or not mapped, and what its mapping has come to. -/
inductive Stopped (code : UserCode σ) (s : Scope σ) (receiver : Option Nat) (start : World σ) (m : Mapping)
    (d : Declaration) (failure : Failure) (w : World σ) : Prop where
  /-- The name of the group cannot be written. -/
  | unnamed (label : Config.label start.heap d.config d.group = .error failure) (same : w.heap.mapAt d.cell = m)
  /-- What stands under `src` is no collection. -/
  | unread {v : Value} (source : start.heap.sourceAt d.cell = some v)
    (raised : Group.patterns start.heap v = .error failure) (same : w.heap.mapAt d.cell = m)
  /-- A pattern does not resolve. -/
  | listing {v pattern : Value} {done rest files : List Value} {early mid : World σ}
    (source : start.heap.sourceAt d.cell = some v)
    (patterns : Group.patterns start.heap v = .ok (done ++ pattern :: rest)) (midway : Midway s start early)
    (gathered : Gathered code s.board early done files mid)
    (raised : (resolveSources code s.board pattern).run mid = (.error failure, w)) (same : w.heap.mapAt d.cell = m)
  /-- The destination does not resolve; the files are written. -/
  | placing {v : Value} {patterns : List Value} {pattern : String} {files : Nat} {early late : World σ}
    (source : start.heap.sourceAt d.cell = some v) (read : Group.patterns start.heap v = .ok patterns)
    (midway : Midway s start early) (gathered : Gathered code s.board early patterns (w.heap.listAt files) late)
    (declared : m.at? "des" = some (.text pattern))
    (raised : (resolveDestination s.board (.text pattern)).run w = (.error failure, w))
    (filed : w.heap.mapAt d.cell = m.insert (.text "files") (.list files))
  /-- The group is resolved, but its mapper or the receiver fails. -/
  | mapping {g : Nat} {out : String} {mapper : Value} {early : World σ} (before : Settled code s start m d g early)
    (midway : Midway s start early) (destination : (early.group g).destination = .destination out mapper)
    (fails : MapperFails code s.board receiver g mapper early failure w) (settled : Settled code s start m d g w)

/-- A group in the course of being resolved since `before`: its record and its mapping as they stand, while all
else is left alone. -/
structure During (s : Scope σ) (start before : World σ) (cell g : Nat) (record : Group) (files : List Value)
    (content : Mapping) (w : World σ) : Prop extends Midway s start w where
  leaves : Leaves s (· = cell) before w
  older : start.groups.size ≤ before.groups.size
  newer : before.groups.size ≤ g
  born : g < w.groups.size
  data : record.data = .map cell
  stands : w.group g = record
  known : record.files < w.heap.lists.size
  reads : w.heap.listAt record.files = files
  mapping : w.heap.mapAt cell = content

variable {code : UserCode σ} {s : Scope σ} {start : World σ}

section Staying

variable {m : Mapping} {d : Declaration} {g : Nat} {w after : World σ} {but : Nat → Prop}

theorem Recorded.leaves (recorded : Recorded code s start m d g w) (mine : s.mine (.map d.cell))
    (leaves : Leaves s but w after) : Recorded code s start m d g after := by
  have record := leaves.made g recorded.born d.cell recorded.data mine
  have list := leaves.files g recorded.born d.cell recorded.data mine recorded.known
  refine ⟨Nat.lt_of_lt_of_le recorded.born leaves.grouped, ?data, ?name, ?source, ?known, ?files, ?destination⟩
  case data =>
    rw [record, recorded.data]
  case name =>
    rw [record]
    exact recorded.name
  case source =>
    rw [record]
    exact recorded.source
  case known =>
    rw [record]
    exact Nat.lt_of_lt_of_le recorded.known leaves.listed
  case files =>
    rw [record, list]
    exact recorded.files
  case destination =>
    rw [record]
    exact recorded.destination

/-- What is settled stays so while others are resolved. -/
theorem Settled.leaves (settled : Settled code s start m d g w) (mine : s.mine (.map d.cell)) (other : ¬but d.cell)
    (leaves : Leaves s but w after) : Settled code s start m d g after where
  toRecorded := settled.toRecorded.leaves mine leaves
  mapping := by
    rw [leaves.made g settled.born d.cell settled.data mine, leaves.maps d.cell mine other, settled.mapping]

theorem Recorded.setBoard (recorded : Recorded code s start m d g w) (b : Nat) (board : Board) :
    Recorded code s start m d g (w.setBoard b board) :=
  ⟨recorded.born, recorded.data, recorded.name, recorded.source, recorded.known, recorded.files,
    recorded.destination⟩

theorem Settled.setBoard (settled : Settled code s start m d g w) (b : Nat) (board : Board) :
    Settled code s start m d g (w.setBoard b board) := ⟨settled.toRecorded.setBoard b board, settled.mapping⟩

end Staying

namespace During

variable {before : World σ} {cell g : Nat} {record : Group} {files : List Value} {content : Mapping} {w after : World σ}

theorem quiet (during : During s start before cell g record files content w) (mine : s.mine (.map cell))
    (quiet : Quiet s w after) : During s start before cell g record files content after := by
  have data : (w.group g).data = .map cell := by rw [during.stands, during.data]
  have known : (w.group g).files < w.heap.lists.size := by
    rw [during.stands]
    exact during.known
  have leaves := (quiet during.fits).1
  refine ⟨during.toMidway.quiet quiet, during.leaves.trans (leaves.mono fun _ => False.elim), during.older,
    during.newer, Nat.lt_of_lt_of_le during.born leaves.grouped, during.data, ?_,
    Nat.lt_of_lt_of_le during.known leaves.listed, ?_, ?_⟩
  · rw [leaves.made g during.born cell data mine, during.stands]
  · have same := leaves.files g during.born cell data mine known
    rw [during.stands] at same
    rw [same, during.reads]
  · rw [leaves.maps cell mine id, during.mapping]

theorem edit (during : During s start before cell g record files content w) (discreet : code.Discreet s)
    (more : List Value) (change : Group → Group) (data : (change record).data = .map cell)
    (known : (change record).files < w.heap.lists.size) (reads : w.heap.listAt (change record).files = more) :
    During s start before cell g (change record) more content (w.setGroup g (change (w.group g))) := by
  have newest : start.groups.size ≤ g := Nat.le_trans during.older during.newer
  rw [during.stands]
  have fits : s.around (w.setGroup g (change record)) :=
    discreet.aside w _ during.fits (.books w fun running => running)
  refine ⟨⟨during.toMidway.toIntact.setGroup newest _, during.board, fits⟩, during.leaves.setGroup during.newer _,
    during.older, during.newer, ?_, data, group_setGroup_self _ during.born, known, reads, during.mapping⟩
  rw [size_groups_setGroup]
  exact during.born

theorem putEntry (during : During s start before cell g record files content w) (discreet : code.Discreet s)
    (writable : Writable s start cell) {name : String}
    (may : name = "files" ∨ name = "des") (v : Value) :
    During s start before cell g record files (content.insert (.text name) v)
      { w with heap := w.heap.putEntry cell (.text name) v } := by
  have own := writable.own
  have fits : s.around { w with heap := w.heap.putEntry cell (.text name) v } :=
    discreet.aside w _ during.fits (.putEntry w own _ v)
  have exists_ : cell < w.heap.maps.size := by
    obtain ⟨source, found⟩ := writable.source
    rw [← during.sourceAt_eq writable.mine] at found
    exact lt_of_sourceAt found
  refine ⟨⟨during.toMidway.toIntact.putEntry own may v, during.board, fits⟩, during.leaves.putEntry rfl _ v,
    during.older, during.newer, during.born, during.data, during.stands, during.known, during.reads, ?_⟩
  rw [← during.mapping]
  exact Heap.mapAt_setMap_self _ exists_

theorem settled {m : Mapping} {d : Declaration} {text : String} {v destination : Value} {patterns : List Value}
    {list : Nat} {pending : Option Nat} {early late mid : World σ}
    (during : During s start before d.cell g ⟨.text text, patterns, destination, .map d.cell, list, pending⟩ files
      (m.settle list destination) w)
    (label : Config.label start.heap d.config d.group = .ok text) (source : start.heap.sourceAt d.cell = some v)
    (read : Group.patterns start.heap v = .ok patterns) (midway : Midway s start early)
    (gathered : Gathered code s.board early patterns files late) (further : Midway s start mid)
    (placed : Placed s.board mid (Value.ofOption (m.at? "des")) destination) :
    Settled code s start m d g w := by
  have stands := during.stands
  refine ⟨⟨during.born, ?_, ⟨text, label, ?_⟩, ⟨v, source, ?_⟩, ?_, ⟨early, late, midway, ?_⟩, ⟨mid, further, ?_⟩⟩, ?_⟩
  · rw [stands]
  · rw [stands]
  · rw [stands]
    exact read
  · rw [stands]
    exact during.known
  · rw [stands, during.reads]
    exact gathered
  · rw [stands]
    exact placed
  · rw [stands]
    exact during.mapping

end During

end World

namespace Group

theorem ofConfig_of_unread {h : Heap} {cell : Nat} {source : Value} {failure : Failure} (name : Value)
    (found : h.sourceAt cell = some source) (unread : patterns h source = .error failure) :
    ofConfig h name (.map cell) = .error failure := by
  have entry : entry h (.map cell) (.text "src") = .ok source := by
    have got : (h.mapAt cell).get? (.text "src") = some source := found
    simp only [Group.entry, got]
    rfl
  unfold ofConfig
  rw [entry]
  change (patterns h source >>= _) = _
  rw [unread]
  rfl

end Group

namespace Board

variable {code : UserCode σ} {s : Scope σ} {receiver : Option Nat} {start before : World σ} {cell g : Nat}
  {record : Group} {files : List Value} {content : Mapping} {w : World σ}

theorem ends_gather (code : UserCode σ) (b : Nat) (patterns : List Value) (w : World σ) :
    Ends (patterns.mapM (resolveSources code b)) w
      (fun lists after => Gathered code b w patterns lists.flatten after)
      (fun failure after => ∃ done pattern rest files mid, patterns = done ++ pattern :: rest ∧
        Gathered code b w done files mid ∧ (resolveSources code b pattern).run mid = (.error failure, after)) := by
  induction patterns generalizing w with
  | nil => exact .pure (.nil w)
  | cons pattern patterns ih =>
    rw [List.mapM_cons]
    rcases ran : (resolveSources code b pattern).run w with ⟨failure | files, mid⟩
    · exact .of_error (run_bind_error ran) ⟨[], pattern, patterns, [], w, rfl, .nil w, ran⟩
    · apply Ends.run_bind ran
      apply Ends.bind
      · apply (ih mid).mono
        · exact fun _ _ gathered => gathered
        · rintro failure after ⟨done, other, rest, more, last, rfl, gathered, raised⟩
          exact ⟨pattern :: done, other, rest, files ++ more, last, rfl, .cons ran gathered, raised⟩
      · exact fun lists after gathered => .pure (.cons ran gathered)

theorem run_resolveDestination (b : Nat) (pattern : String) (w : World σ) :
    (resolveDestination b (.text pattern)).run w = (resolution b w pattern, w) := by
  unfold resolveDestination resolution
  dsimp only
  cases (DestinationPattern.parse pattern).mapper with
  | none => rfl
  | some mapper =>
    have stamped : (versionStamp : Act σ String).run w = (stampOf w.clock, w) := rfl
    cases stamp : stampOf w.clock with
    | error failure =>
      rw [stamp] at stamped
      exact run_bind_error stamped
    | ok stamp =>
      rw [stamp] at stamped
      dsimp only
      rw [run_bind_ok stamped, run_bind_ok (run_heap w), run_bind_ok (run_board w b)]
      cases rootPath w.heap (((w.board b).paths w.heap).at? "des") <;> rfl

section Parts

variable (discreet : code.Discreet s) (writable : Writable s start cell)
include discreet writable

theorem ends_newGroup_read (midway : Midway s start w) (name : String) :
    Ends (newGroup (.text name) (.map cell)) w
      (fun g after => ∃ v patterns, g = w.groups.size ∧ start.heap.sourceAt cell = some v ∧
        Group.patterns w.heap v = .ok patterns ∧ During s start w cell g
          ⟨.text name, patterns, Value.ofOption ((w.heap.mapAt cell).at? "des"), .map cell, w.heap.lists.size, none⟩
          [] (w.heap.mapAt cell) after)
      (fun failure after => after = w ∧ ∃ v, start.heap.sourceAt cell = some v ∧
        Group.patterns w.heap v = .error failure) := by
  obtain ⟨v, found⟩ := writable.source
  have here : w.heap.sourceAt cell = some v := by rw [midway.sourceAt_eq writable.mine, found]
  cases read : Group.patterns w.heap v with
  | error failure =>
    have ran : (newGroup (.text name) (.map cell)).run w = (.error failure, w) :=
      run_bind_error (run_onHeap_error (Group.ofConfig_of_unread (.text name) here read))
    exact .of_error ran ⟨rfl, v, found, read⟩
  | ok patterns =>
    let record : Group := ⟨.text name, patterns, Value.ofOption ((w.heap.mapAt cell).at? "des"), .map cell,
      w.heap.lists.size, none⟩
    let listed : World σ := { w with heap := (w.heap.newList []).2 }
    have filed : Quiet s w listed := fun fits => ⟨.newList w [], discreet.aside w _ fits (.newList w [])⟩
    have pushed : Quiet s listed { listed with groups := listed.groups.push record } := fun fits =>
      ⟨.pushGroup listed record, discreet.aside listed _ fits (.books listed fun running => running)⟩
    have quiet := trans_of (Quiet s) filed pushed
    apply Ends.run_bind (run_onHeap_ok (Group.ofConfig_of_source (.text name) here read))
    refine .of_ok (run_modifyGet _ _) ⟨v, patterns, rfl, found, read, midway.quiet quiet,
      (quiet midway.fits).1.mono fun _ => False.elim, midway.grouped, Nat.le_refl _, ?_, rfl, ?_, ?_, ?_, rfl⟩
    · simp
    · exact World.group_push_newest rfl
    · simp [Heap.newList]
    · exact Heap.listAt_newList_newest w.heap []

theorem ends_groupFiles (during : During s start before cell g record files content w) :
    Ends (groupFiles code s.board g) w
      (fun found after => Gathered code s.board w record.source found after ∧
        During s start before cell g record files content after)
      (fun failure after => (∃ done pattern rest more mid, record.source = done ++ pattern :: rest ∧
        Gathered code s.board w done more mid ∧ (resolveSources code s.board pattern).run mid = (.error failure, after)) ∧
        During s start before cell g record files content after) := by
  have mine := writable.mine
  have keeps : Keeps (Quiet s) (record.source.mapM (resolveSources code s.board)) :=
    Keeps.mapM (fun pattern => keeps_resolveSources discreet.drives.carries s.board pattern) _
  unfold groupFiles
  apply Ends.run_bind (run_get w)
  rw [during.stands]
  apply Ends.bind
  · apply ((ends_gather code s.board record.source w).keeps keeps).mono
    · exact fun lists after kept => And.intro kept.1 (during.quiet mine kept.2)
    · exact fun failure after kept => ⟨kept.1, during.quiet mine kept.2⟩
  · exact fun lists after gathered => .pure gathered

theorem ends_writeEntry (during : During s start before cell g record files content w) {name : String}
    (may : name = "files" ∨ name = "des") (v : Value) {fails : Failure → World σ → Prop} :
    Ends (writeEntry g name v) w
      (fun _ after => During s start before cell g record files (content.insert (.text name) v) after) fails := by
  have data : (w.group g).data = .map cell := by rw [during.stands, during.data]
  unfold writeEntry
  apply Ends.run_bind (run_get w)
  rw [data]
  exact .of_ok (run_modify _ _) (during.putEntry discreet writable may v)

theorem ends_setFiles (during : During s start before cell g record files content w) (found : List Value)
    {fails : Failure → World σ → Prop} :
    Ends (setFiles g found) w
      (fun _ after => During s start before cell g { record with files := w.heap.lists.size } found
        (content.insert (.text "files") (.list w.heap.lists.size)) after) fails := by
  have made : (Act.newList found).run w =
      (.ok (.list w.heap.lists.size), { w with heap := (w.heap.newList found).2 }) := rfl
  have grown : Quiet s w { w with heap := (w.heap.newList found).2 } := fun fits =>
    ⟨.newList w found, discreet.aside w _ fits (.newList w found)⟩
  have anew := during.quiet writable.mine grown
  have edited := anew.edit discreet found (fun group => { group with files := w.heap.lists.size })
    during.data (by simp [Heap.newList]) (Heap.listAt_newList_newest w.heap found)
  unfold setFiles
  apply Ends.run_bind made
  apply Ends.run_bind (run_modify _ _)
  exact ends_writeEntry discreet writable edited (.inl rfl) _

theorem ends_settleDestination (during : During s start before cell g record files content w) :
    Ends (settleDestination s.board g) w
      (fun _ after => ∃ v, Placed s.board w record.destination v ∧
        During s start before cell g { record with destination := v } files
          (content.place record.destination v) after)
      (fun failure after => after = w ∧ ∃ pattern, record.destination = .text pattern ∧
        (resolveDestination s.board (.text pattern)).run w = (.error failure, w)) := by
  unfold settleDestination
  apply Ends.run_bind (run_get w)
  rw [during.stands]
  split
  next pattern declared =>
    have reads := run_resolveDestination s.board pattern w
    cases resolves : resolution s.board w pattern with
    | error failure =>
      rw [resolves] at reads
      exact .of_error (run_bind_error reads) ⟨rfl, pattern, declared, reads⟩
    | ok v =>
      rw [resolves] at reads
      have edited := during.edit discreet files (fun group => { group with destination := v }) during.data
        during.known during.reads
      apply Ends.run_bind reads
      apply Ends.run_bind (run_modify _ _)
      apply (ends_writeEntry discreet writable edited (.inr rfl) v).mono
      · rintro _ last written
        rw [declared]
        exact ⟨v, .resolved reads, written⟩
      · exact fun _ _ never => never
  next other =>
    refine .pure ⟨record.destination, .kept other, ?_⟩
    have same : content.place record.destination record.destination = content := by
      unfold Mapping.place
      split
      next pattern declared => exact absurd declared (other pattern)
      next => rfl
    rwa [same]

theorem ends_deliver (during : During s start before cell g record files content w) (v : Value) :
    Ends (deliver code g receiver v) w (fun _ after => During s start before cell g record files content after)
      (fun failure after => During s start before cell g record files content after ∧ ∃ id, receiver = some id ∧
        (callUser code id [v]).run { w with past := .delivered g id v :: w.past } = (.error failure, after)) := by
  have mine := writable.mine
  cases receiver with
  | none => exact .pure during
  | some id =>
    have noted : During s start before cell g record files content { w with past := .delivered g id v :: w.past } :=
      during.quiet mine (discreet.drives.note (.delivered g id v) w)
    unfold deliver
    apply Ends.run_bind (run_modify w _)
    apply Ends.bind
    · apply ((Ends.ran (callUser code id [v]) _).keeps (keeps_callUser discreet.drives.carries id [v])).mono
      · exact fun given after kept => noted.quiet mine kept.2
      · exact fun failure after kept => ⟨noted.quiet mine kept.2, id, rfl, kept.1⟩
    · exact fun given after still => .pure still

theorem ends_schedule (during : During s start before cell g record files content w) (r : Nat) :
    Ends (schedule code g r receiver) w (fun _ after => During s start before cell g record files content after)
      (fun failure after => During s start before cell g record files content after ∧ w.loop = none ∧
        ((Loop.runToCompletion code r).run w = (.error failure, after) ∨ ∃ v mid id,
          (Loop.runToCompletion code r).run w = (.ok v, mid) ∧ receiver = some id ∧
          (callUser code id [v]).run { mid with past := .delivered g id v :: mid.past } = (.error failure, after))) := by
  have mine := writable.mine
  unfold schedule
  apply Ends.run_bind (run_get w)
  cases w.loop with
  | none =>
    have quiet := Loop.keeps_runToCompletion discreet.drives.loops r w
    rcases ran : (Loop.runToCompletion code r).run w with ⟨failure | v, mid⟩
    · rw [ran] at quiet
      exact .of_error (run_bind_error ran) ⟨during.quiet mine quiet, rfl, .inl rfl⟩
    · rw [ran] at quiet
      apply Ends.run_bind ran
      apply Ends.bind
      · apply (ends_deliver discreet writable (during.quiet mine quiet) v).mono
        · exact fun _ _ still => still
        · rintro failure after ⟨still, id, receives, raised⟩
          exact ⟨still, rfl, .inr ⟨v, mid, id, rfl, receives, raised⟩⟩
      · exact fun _ after still => .pure still
  | some l =>
    have makes : (Loop.makeTask r).run w = (.ok w.tasks.size, ((Loop.makeTask r).run w).2) := rfl
    have made := during.quiet mine (Loop.keeps_makeTask discreet.drives.loops r w)
    apply Ends.run_bind makes
    have watched := made.quiet mine (Loop.keeps_watch discreet.drives.loops w.tasks.size (.forward g receiver w.current) _)
    apply Ends.run_bind (run_modify _ _)
    exact .pure watched

theorem ends_runMapper (during : During s start before cell g record files content w) :
    Ends (runMapper code s.board g receiver) w
      (fun _ after => ∃ pending, During s start before cell g { record with pending := pending } files content after)
      (fun failure after => During s start before cell g record files content after ∧
        ∃ out mapper early, record.destination = .destination out mapper ∧
          During s start before cell g record files content early ∧
          MapperFails code s.board receiver g mapper early failure after) := by
  have mine := writable.mine
  have unmapped : ∃ pending, During s start before cell g { record with pending := pending } files content w :=
    ⟨record.pending, during⟩
  unfold runMapper
  apply Ends.run_bind (run_get w)
  rw [during.stands]
  split
  next out mapper destination =>
    split
    next callable =>
      let early : World σ := { w with past := .mapped g mapper :: w.past }
      have noted : During s start before cell g record files content early :=
        during.quiet mine (discreet.drives.note (.mapped g mapper) w)
      have quiet := keeps_callBound discreet.drives.carries s.board mapper [.group g] early
      apply Ends.run_bind (run_modify w _)
      rcases called : (callBound code s.board mapper [.group g]).run early with ⟨failure | v, mid⟩
      · rw [called] at quiet
        exact .of_error (run_bind_error called)
          ⟨noted.quiet mine quiet, out, mapper, early, destination, noted, .called called⟩
      · rw [called] at quiet
        have given := noted.quiet mine quiet
        apply Ends.run_bind called
        split
        next r =>
          apply Ends.bind
          · apply (ends_schedule discreet writable given r).mono
            · exact fun _ _ still => still
            · rintro failure after ⟨still, alone, raised | ⟨v, last, id, ran, receives, raised⟩⟩
              · exact ⟨still, out, mapper, early, destination, noted, .run called alone raised⟩
              · exact ⟨still, out, mapper, early, destination, noted,
                  .received (.run called alone ran) receives raised⟩
          · intro task after still
            have edited := still.edit discreet files (fun group => { group with pending := task })
              still.data still.known still.reads
            exact .of_ok (run_modify _ _) ⟨task, edited⟩
        next plain =>
          apply (ends_deliver discreet writable given v).mono
          · exact fun _ after still => ⟨record.pending, still⟩
          · rintro failure after ⟨still, id, receives, raised⟩
            exact ⟨still, out, mapper, early, destination, noted, .received (.plain called plain) receives raised⟩
    next => exact .pure unmapped
  next => exact .pure unmapped

end Parts

theorem ends_newGroup (discreet : code.Discreet s) (includes : Includes s start)
    (declares : start.Declares s.board cell) (midway : Midway s start w) (name : String) :
    Ends (newGroup (.text name) (.map cell)) w
      (fun g after => ∃ v patterns, g = w.groups.size ∧ start.heap.sourceAt cell = some v ∧
        Group.patterns start.heap v = .ok patterns ∧ During s start w cell g
          ⟨.text name, patterns, Value.ofOption ((w.heap.mapAt cell).at? "des"), .map cell, w.heap.lists.size, none⟩
          [] (w.heap.mapAt cell) after)
      (fun failure after => after = w ∧ ∃ v, start.heap.sourceAt cell = some v ∧
        Group.patterns start.heap v = .error failure) := by
  have same : ∀ {v}, start.heap.sourceAt cell = some v → Group.patterns w.heap v = Group.patterns start.heap v :=
    fun found => (midway.contents includes declares.member found).2
  apply (ends_newGroup_read discreet (includes.writable declares) midway name).mono
  · rintro g after ⟨v, patterns, made, found, read, during⟩
    exact ⟨v, patterns, made, found, same found ▸ read, during⟩
  · rintro failure after ⟨stays, v, found, unread⟩
    exact ⟨stays, v, found, same found ▸ unread⟩

section Whole

variable {m : Mapping} {d : Declaration} {text : String} {v : Value} {patterns : List Value} {list : Nat}

theorem ends_resolveGroup (discreet : code.Discreet s) (includes : Includes s start)
    (declares : start.Declares s.board d.cell)
    (during : During s start before d.cell g
      ⟨.text text, patterns, Value.ofOption (m.at? "des"), .map d.cell, list, none⟩ [] m w)
    (label : Config.label start.heap d.config d.group = .ok text) (source : start.heap.sourceAt d.cell = some v)
    (read : Group.patterns start.heap v = .ok patterns) :
    Ends (resolveGroup code s.board g receiver) w
      (fun _ after => Settled code s start m d g after ∧ Midway s start after ∧ Leaves s (· = d.cell) before after)
      (fun failure after => Stopped code s receiver start m d failure after ∧ Midway s start after ∧
        Leaves s (· = d.cell) before after) := by
  unfold resolveGroup
  apply Ends.bind
  · apply (ends_groupFiles discreet (includes.writable declares) during).mono
    · exact fun _ _ found => found
    · rintro failure after ⟨⟨done, pattern, rest, more, mid, split, gathered, raised⟩, still⟩
      have cut : Group.patterns start.heap v = .ok (done ++ pattern :: rest) := by
        rw [read]
        exact congrArg Except.ok split
      exact ⟨.listing source cut during.toMidway gathered raised still.mapping, still.toMidway, still.leaves⟩
  -- from here on a failure finds the files written
  rintro found listed ⟨gathered, still⟩
  apply Ends.bind (ends_setFiles discreet (includes.writable declares) still found)
  intro _ filed written
  apply Ends.bind
  · apply (ends_settleDestination discreet (includes.writable declares) written).mono
    · exact fun _ _ placed => placed
    · rintro failure _ ⟨rfl, pattern, text, raised⟩
      have declared : m.at? "des" = some (.text pattern) := Value.ofOption_eq_text.mp text
      have lists := gathered
      rw [← written.reads] at lists
      exact ⟨.placing source read during.toMidway lists declared raised written.mapping, written.toMidway,
        written.leaves⟩
  -- the group is settled before its mapper runs, and stays so whatever the mapper does
  rintro _ settled ⟨destination, placed, last⟩
  apply (ends_runMapper discreet (includes.writable declares) last).mono
  · rintro _ after ⟨pending, ended⟩
    exact ⟨ended.settled label source read during.toMidway gathered written.toMidway placed, ended.toMidway,
      ended.leaves⟩
  · rintro failure after ⟨ended, out, mapper, early, mapped, called, fails⟩
    have before := called.settled label source read during.toMidway gathered written.toMidway placed
    have now := ended.settled label source read during.toMidway gathered written.toMidway placed
    have leads : (early.group g).destination = .destination out mapper := by
      rw [called.stands]
      exact mapped
    exact ⟨.mapping before called.toMidway leads fails now, ended.toMidway, ended.leaves⟩

theorem ends_resolveDeclared (discreet : code.Discreet s) (includes : Includes s start)
    (declares : start.Declares s.board d.cell)
    (during : During s start before d.cell g
      ⟨.text text, patterns, Value.ofOption (m.at? "des"), .map d.cell, list, none⟩ [] m w)
    (label : Config.label start.heap d.config d.group = .ok text) (source : start.heap.sourceAt d.cell = some v)
    (read : Group.patterns start.heap v = .ok patterns) :
    Ends (resolveDeclared code s.board receiver g) w
      (fun found after => found = g ∧ Settled code s start m d g after ∧ Midway s start after ∧
        Leaves s (· = d.cell) before after)
      (fun failure after => Stopped code s receiver start m d failure after ∧ Midway s start after ∧
        Leaves s (· = d.cell) before after) := by
  have mine := includes.mine d.cell (.inr declares.member)
  have named : (w.group g).name = .text text := by rw [during.stands]
  apply Ends.of_run (run_resolveDeclared named)
  apply Ends.run_bind (run_modify w _)
  have begun := during.quiet mine (discreet.drives.log .info ("Getting the source files of: " ++ text) w)
  apply Ends.bind (ends_resolveGroup discreet includes declares begun label source read)
  rintro _ after ⟨settled, midway, leaves⟩
  apply Ends.run_bind (run_modify after _)
  have last := discreet.drives.log .info ("Source files of " ++ text ++ " successfully collected.") after
  have quiet := (last midway.fits).1
  refine .pure ⟨rfl, settled.leaves mine id quiet, midway.quiet last, leaves.trans ?_⟩
  exact quiet.mono fun _ => False.elim

theorem ends_visitEntry (discreet : code.Discreet s) (includes : Includes s start) (member : d ∈ start.declared s.board)
    (midway : Midway s start w) (declares : (Value.map d.cell).declaresGroup w.heap = true) :
    Ends (visitEntry (resolveDeclared code s.board receiver) d.config d.group (.map d.cell)) w
      (fun gs after => gs = [w.groups.size] ∧ Settled code s start (w.heap.mapAt d.cell) d w.groups.size after ∧
        Midway s start after ∧ Leaves s (· = d.cell) w after)
      (fun failure after => Stopped code s receiver start (w.heap.mapAt d.cell) d failure after ∧
        Midway s start after ∧ Leaves s (· = d.cell) w after) := by
  have declared : start.Declares s.board d.cell := ⟨d, member, rfl⟩
  unfold visitEntry
  apply Ends.run_bind (run_heap w)
  rw [if_pos declares, includes.label member w.heap]
  cases label : Config.label start.heap d.config d.group with
  | error failure =>
    exact .of_error (run_bind_error (run_ofExcept w _)) ⟨.unnamed label rfl, midway, .refl w⟩
  | ok text =>
    apply Ends.run_bind (run_ofExcept w _)
    apply Ends.bind
    · apply (ends_newGroup discreet includes declared midway text).mono
      · exact fun _ _ made => made
      · rintro failure _ ⟨rfl, v, source, unread⟩
        exact ⟨.unread source unread rfl, midway, .refl _⟩
    rintro g made ⟨v, patterns, rfl, source, read, during⟩
    apply Ends.bind (ends_resolveDeclared discreet includes declared during label source read)
    rintro found after ⟨rfl, resolved⟩
    exact .pure ⟨rfl, resolved⟩

end Whole

end Board

end TaskBoard
