import TaskBoard.Proofs.Collecting.Alike
import TaskBoard.Proofs.Collecting.Noting
import TaskBoard.Proofs.Collecting.Outcome
import TaskBoard.Proofs.Collecting.Rewriting
import TaskBoard.Proofs.Dealing
import TaskBoard.Proofs.Forwarding.Resolving
import TaskBoard.Proofs.Loading.Joining

/-!
Collecting a second time. The first collection has settled every destination, and what is settled stays; patterns list
what they have listed. So the second one writes what is there already, whatever the clock says by then, and all that
happens is that every mapper is called again and its value delivered again.
-/

namespace TaskBoard

open Act World Board

variable {σ : Type}

/-- User code that can be relied on whenever a board is collected that is as it was: the patterns that it declares always
list the same files, its mappers give plain values, and a receiver takes what it is given. -/
structure UserCode.Regular (code : UserCode σ) (s : Scope σ) (receiver : Option Nat) (start : World σ) : Prop where
  lists : ∀ pattern, Lists s start pattern → ∃ files, ∀ stage, Follows s start stage →
    ((resolveSources code s.board pattern).run stage).1 = .ok files
  maps : ∀ cell mapper, start.Declares s.board cell → start.mapperAt s.board cell = some mapper → ∀ g stage,
    Follows s start stage → Enrolled s stage g → (stage.group g).data = .map cell →
    Yields (callBound code s.board mapper [.group g]) stage fun v _ => ∀ r, v ≠ .routine r
  receives : ∀ id, receiver = some id → ∀ v stage, Follows s start stage →
    Yields (callUser code id [v]) stage fun _ _ => True

/-- A later world in which all that was declared at the start is settled. -/
structure World.Rests (code : UserCode σ) (s : Scope σ) (start : World σ) (gs : List Nat) (later : World σ) : Prop
    extends Follows s start later where
  settled : List.Forall₂ (fun d g => Settled code s start (start.heap.mapAt d.cell) d g later) (start.declared s.board) gs

theorem exists_of_forall₂ {α β : Type} {R : α → β → Prop} {items : List α} {others : List β}
    (all : List.Forall₂ R items others) {a : α} (member : a ∈ items) : ∃ b ∈ others, R a b := by
  induction all with
  | nil => cases member
  | cons here _ ih =>
    rcases List.mem_cons.mp member with rfl | further
    · exact ⟨_, List.mem_cons_self, here⟩
    · obtain ⟨b, among, related⟩ := ih further
      exact ⟨b, List.mem_cons_of_mem _ among, related⟩

variable {code : UserCode σ} {s : Scope σ} {receiver : Option Nat} {start later mid w after : World σ}
  {gs hs : List Nat} {d : Declaration} {cell g h : Nat} {record : Group} {files : List Value} {content : Mapping}

theorem UserCode.Regular.steady (regular : code.Regular s receiver start) : Steady code s start := by
  intro pattern listed first second early late files more _ _ ran again
  obtain ⟨found, same⟩ := regular.lists pattern listed
  have one := same first early
  have two := same second late
  rw [ran] at one
  rw [again] at two
  exact Except.ok.inj (one.trans two.symm)

theorem View.mapperOf_eq {view : View} {mapper : Value} (board : Board) (mapped : view.mapper? = some mapper) :
    board.mapperOf view.destination = some mapper := by
  obtain ⟨name, source, files, destination⟩ := view
  cases destination with
  | destination out own => exact mapped
  | _ => cases mapped

namespace Board

/-- A settled destination leads to the mapper that the declared one has led to. -/
theorem Placed.mapperOf_eq {b : Nat} {declared v : Value} (placed : Placed b w declared v) :
    (w.board b).mapperOf v = (w.board b).mapperOf declared := by
  cases placed with
  | kept other => rfl
  | resolved ran => exact (destined_of_resolveDestination ran).2.1

/-- A settled destination, as it is read when the settled mapping is read again, leads to the same mapper as well. -/
theorem Placed.mapperOf_settle {b : Nat} {m : Mapping} {v : Value}
    (placed : Placed b w (Value.ofOption (m.at? "des")) v) (list : Nat) :
    (w.board b).mapperOf (Value.ofOption ((m.settle list v).at? "des")) =
      (w.board b).mapperOf (Value.ofOption (m.at? "des")) := by
  rw [Mapping.destination_settle]
  split
  next pattern declared =>
    rw [declared] at placed
    rw [declared]
    exact placed.mapperOf_eq
  next => rfl

theorem Gathered.quiet {patterns : List Value} (discreet : code.Discreet s)
    (gathered : Gathered code s.board w patterns files after) : Quiet s w after := by
  induction gathered with
  | nil w => exact refl_of (Quiet s) w
  | @cons w mid _ pattern _ _ _ resolved _ ih =>
    have first := keeps_resolveSources discreet.drives.carries s.board pattern w
    rw [resolved] at first
    exact trans_of (Quiet s) first ih

end Board

namespace World

theorem Follows.refl (fits : s.around start) : Follows s start start := ⟨.refl start, fits, _, rfl⟩

theorem Follows.mapperOf_eq (later : Follows s start w) (v : Value) :
    (w.board s.board).mapperOf v = (start.board s.board).mapperOf v := by
  obtain ⟨groups, board⟩ := later.board
  rw [board]
  rfl

section Resting

variable (covers : Covers s start)
include covers

theorem Scanned.rests (scanned : Scanned code s start (start.declared s.board) gs mid)
    (known : s.board < start.boards.size) (leaves : Leaves s (fun _ => False) (mid.regrouped s.board gs) later)
    (fits : s.around later) : Rests code s start gs later where
  toIntact := (scanned.toIntact.regrouped s.board gs).leaves leaves
  fits := fits
  board := by
    refine ⟨gs, ?_⟩
    rw [leaves.board, board_regrouped gs (Nat.lt_of_lt_of_le known scanned.boards), scanned.board]
  settled := by
    obtain ⟨length, each⟩ := List.forall₂_iff_zip.mp scanned.settled
    refine List.forall₂_iff_zip.mpr ⟨length, fun {d g} paired => ?_⟩
    have declares : start.Declares s.board d.cell := ⟨d, (List.of_mem_zip paired).1, rfl⟩
    exact ((each paired).setBoard _ _).leaves (covers.mine d.cell (.inr declares.member)) id leaves

theorem Scanned.enrolled {done : List Declaration} (scanned : Scanned code s start done gs w)
    (declared : ∀ d ∈ done, start.Declares s.board d.cell) : ∀ g ∈ gs, Enrolled s w g := by
  intro g member
  have flipped : List.Forall₂ (fun g d => Settled code s start (start.heap.mapAt d.cell) d g w) gs done :=
    scanned.settled.flip
  obtain ⟨d, among, settled⟩ := exists_of_forall₂ flipped member
  exact ⟨settled.born, ⟨d.cell, settled.data, covers.mine d.cell (.inr (declared d among).member)⟩, settled.known⟩

omit covers in
theorem Rests.mapping (rests : Rests code s start gs later) (declares : start.Declares s.board cell) :
    ∃ list v, ∃ early : World σ, Midway s start early ∧
      Placed s.board early (Value.ofOption ((start.heap.mapAt cell).at? "des")) v ∧
      later.heap.mapAt cell = (start.heap.mapAt cell).settle list v := by
  obtain ⟨d, member, rfl⟩ := declares
  obtain ⟨g, -, settled⟩ := exists_of_forall₂ rests.settled member
  obtain ⟨early, midway, placed⟩ := settled.destination
  exact ⟨_, _, early, midway, placed, settled.mapping⟩

theorem Rests.settled_again {first : World σ} (rests : Rests code s start gs later)
    (rescanned : Scanned code s later (later.declared s.board) hs mid)
    (leaves : Leaves s (fun _ => False) first later) :
    List.Forall₂ (fun d h => Settled code s later (first.heap.mapAt d.cell) d h (mid.regrouped s.board hs))
      (start.declared s.board) hs := by
  have settled := rescanned.settled
  rw [rests.toIntact.declared_eq covers rests.registry_eq] at settled
  obtain ⟨length, each⟩ := List.forall₂_iff_zip.mp settled
  refine List.forall₂_iff_zip.mpr ⟨length, fun {d h} paired => ?_⟩
  have declares : start.Declares s.board d.cell := ⟨d, (List.of_mem_zip paired).1, rfl⟩
  rw [← leaves.maps d.cell (covers.mine d.cell (.inr declares.member)) id]
  exact (each paired).setBoard s.board _

omit covers in
/-- A text that still stands for a destination is not resolved to anything else. -/
theorem Rests.text (rests : Rests code s start gs later) (declares : start.Declares s.board cell) {pattern : String}
    (stands : (later.heap.mapAt cell).at? "des" = some (.text pattern)) (w : World σ) :
    resolution s.board w pattern = .ok (.text pattern) := by
  obtain ⟨list, v, early, -, placed, mapping⟩ := rests.mapping declares
  rw [mapping, Mapping.destination_settle] at stands
  split at stands
  next first declared =>
    cases stands
    rw [declared] at placed
    obtain ⟨rfl, always⟩ := resolution_text placed.resolution_eq
    exact always w
  next other => exact absurd stands (other pattern)

omit covers in
theorem Rests.mapperAt_eq (rests : Rests code s start gs later) (declares : start.Declares s.board cell) :
    later.mapperAt s.board cell = start.mapperAt s.board cell := by
  obtain ⟨list, v, early, midway, placed, mapping⟩ := rests.mapping declares
  have same := placed.mapperOf_settle list
  rw [midway.board] at same
  unfold mapperAt
  rw [rests.mapperOf_eq]
  simpa only [Group.destinationOf, mapping] using same

end Resting

end World

namespace Board

section Visiting

variable (discreet : code.Discreet s) (mute : code.Mute s) (covers : Covers s start)
  (regular : code.Regular s receiver start) (rests : Rests code s start gs later)
include discreet mute covers regular rests

theorem yields_runMapper_again (declares : start.Declares s.board cell)
    (during : During s later w cell g record files content mid) (noted : Noted s w g [] mid)
    (leads : (later.board s.board).mapperOf record.destination = later.mapperAt s.board cell) :
    Yields (runMapper code s.board g receiver) mid fun _ after =>
      ∃ own, Noted s w g own after ∧ Forwards code s.board receiver w after g (mid.view g).mapper? own := by
  have mine := covers.mine cell (.inr declares.member)
  apply yields_runMapper_noted discreet mute mine during noted
  intro mapper mapped
  have same : start.mapperAt s.board cell = some mapper := by
    rw [← rests.mapperAt_eq declares, ← leads]
    have found := View.mapperOf_eq (later.board s.board) mapped
    rwa [during.view_eq] at found
  have called := during.quiet mine (discreet.drives.note (.mapped g mapper) mid)
  have data := (congrArg Group.data called.stands).trans called.data
  apply ((regular.maps cell mapper declares same g _ (rests.midway called.toMidway) (called.enrolled mine) data).keeps
    (keeps_callBound discreet.drives.carries s.board mapper [.group g])).mono
  rintro v ended - ⟨plain, quiet⟩
  refine ⟨plain, fun id receives => regular.receives id receives v _ (rests.midway ?_)⟩
  exact (called.toMidway.quiet quiet).quiet (discreet.drives.note (.delivered g id v) ended)

variable (member : d ∈ start.declared s.board)
include member

section Resolving

variable {text : String} {source : Value} {patterns : List Value} {list : Nat}
  (during : During s later w d.cell g ⟨.text text, patterns, Value.ofOption ((later.heap.mapAt d.cell).at? "des"),
    .map d.cell, list, none⟩ [] (later.heap.mapAt d.cell) mid)
  (noted : Noted s w g [] mid) (found : later.heap.sourceAt d.cell = some source)
  (read : Group.patterns later.heap source = .ok patterns)
include during noted found read

theorem ends_resolveGroup_again :
    Ends (resolveGroup code s.board g receiver) mid
      (fun _ after => ∃ own, Noted s w g own after ∧
        Forwards code s.board receiver w after g (after.view g).mapper? own)
      fun _ _ => False := by
  have declares : start.Declares s.board d.cell := ⟨d, member, rfl⟩
  have mine := covers.mine d.cell (.inr declares.member)
  have again := rests.covers covers
  have declared : later.Declares s.board d.cell := by
    rw [Declares, rests.toIntact.declared_eq covers rests.registry_eq]
    exact declares
  have writable := again.writable declared
  have lists : ∀ pattern ∈ patterns, Lists s start pattern := by
    have before := rests.sources covers.toIncludes declares.member
    rw [before] at found
    rw [(rests.contents covers.toIncludes declares.member found).2] at read
    exact fun pattern among => ⟨d.cell, source, patterns, declares, found, read, among⟩
  unfold resolveGroup
  apply Ends.bind
  · apply ((ends_groupFiles discreet writable during).keeps (keeps_groupFiles (keeps_resolveSources (mute.carries discreet) s.board) g)).mono
    · exact fun _ _ listed => listed
    · rintro failure after ⟨⟨⟨front, pattern, rest, more, stage, split, gathered, raised⟩, -⟩, -⟩
      have among : pattern ∈ patterns := by
        rw [show patterns = front ++ pattern :: rest from split]
        simp
      obtain ⟨files, same⟩ := regular.lists pattern (lists pattern among)
      have listed := same stage ((rests.midway during.toMidway).quiet (gathered.quiet discreet))
      rw [raised] at listed
      cases listed
  rintro files listed ⟨⟨-, still⟩, -, unnoted⟩
  have early := noted.unnoted during.leaves (during.enrolled mine) (unnoted during.fits)
  apply Ends.bind (((ends_setFiles discreet writable still files).keeps (keeps_setFiles Tacit.overlooks g files)).mono
    (fun _ _ filed => filed) fun _ _ failed => failed.1)
  rintro _ filed ⟨written, silently⟩
  apply Ends.bind
  · apply ((ends_settleDestination discreet writable written).keeps
      (keeps_settleDestination Tacit.overlooks s.board g)).mono
    · exact fun _ _ placed => placed
    · rintro failure _ ⟨⟨rfl, pattern, stands, raised⟩, -⟩
      rw [run_resolveDestination, rests.text declares (Value.ofOption_eq_text.mp stands)] at raised
      cases raised
  rintro _ settled ⟨⟨destination, placed, last⟩, tacitly⟩
  have leads := placed.mapperOf_eq
  rw [written.toMidway.board] at leads
  have sofar := (early.tacit silently).tacit tacitly
  obtain ⟨⟨⟩, after, ran, own, forwarded, forwards⟩ :=
    yields_runMapper_again discreet mute covers regular rests declares last sofar leads
  obtain ⟨pending, ended⟩ :=
    (@ends_runMapper _ code s receiver _ _ _ _ _ _ _ _ discreet writable last).returned _ after ran
  have seen : after.view g = settled.view g := by rw [ended.view_eq, last.view_eq]
  exact .of_ok ran ⟨own, forwarded, seen ▸ forwards⟩

theorem ends_resolveDeclared_again :
    Ends (resolveDeclared code s.board receiver g) mid
      (fun found after => found = g ∧ ∃ own, Noted s w g own after ∧
        Forwards code s.board receiver w after g (after.view g).mapper? own)
      fun _ _ => False := by
  have mine := covers.mine d.cell (.inr (mem_declared member).1)
  have named : (mid.group g).name = .text text := by rw [during.stands]
  have begun := during.quiet mine (discreet.drives.log .info ("Getting the source files of: " ++ text) mid)
  apply Ends.of_run (run_resolveDeclared named)
  apply Ends.run_bind (run_modify mid _)
  apply Ends.bind (ends_resolveGroup_again discreet mute covers regular rests member begun
    (noted.tacit ⟨rfl, Nat.le_refl _⟩) found read)
  rintro _ after ⟨own, forwarded, forwards⟩
  apply Ends.run_bind (run_modify after _)
  exact .pure ⟨rfl, own, forwarded.tacit ⟨rfl, Nat.le_refl _⟩, forwards.mono (List.suffix_refl _) (List.suffix_refl _)⟩

end Resolving

theorem ends_visitEntry_again {done : List Declaration} (scanned : Scanned code s later done hs w)
    (fresh : d.cell ∉ done.map Declaration.cell) (declares : (Value.map d.cell).declaresGroup w.heap = true) :
    Ends (visitEntry (resolveDeclared code s.board receiver) d.config d.group (.map d.cell)) w
      (fun _ after => ∃ own, Noted s w w.groups.size own after ∧
        Forwards code s.board receiver w after w.groups.size (after.view w.groups.size).mapper? own)
      fun _ _ => False := by
  have again := rests.covers covers
  have same := rests.toIntact.declared_eq covers rests.registry_eq
  have among : d ∈ later.declared s.board := same ▸ member
  have declared : later.Declares s.board d.cell := ⟨d, among, rfl⟩
  obtain ⟨g, -, settled⟩ := exists_of_forall₂ rests.settled member
  obtain ⟨text, label, -⟩ := settled.name
  obtain ⟨source, found, read⟩ := settled.source
  have stands : Group.patterns later.heap source = .ok (later.group g).source := by
    rw [(rests.contents covers.toIncludes (mem_declared member).1 found).2, read]
  rw [← rests.sources covers.toIncludes (mem_declared member).1] at found
  unfold visitEntry
  apply Ends.run_bind (run_heap w)
  rw [if_pos declares, again.label among w.heap, covers.label member later.heap, label]
  apply Ends.run_bind (run_ofExcept w _)
  apply Ends.bind
  · have made := ends_newGroup discreet again.toIncludes declared scanned.toMidway text
    apply (made.keeps (keeps_newGroup Tacit.overlooks _ _)).mono
    · exact fun _ _ made => made
    · rintro failure after ⟨⟨-, v, here, unread⟩, -⟩
      rw [found] at here
      cases here
      rw [stands] at unread
      cases unread
  rintro g made ⟨⟨v, patterns, rfl, here, read, during⟩, tacitly⟩
  rw [scanned.ahead d.cell declared fresh] at during
  have early : Noted s w w.groups.size [] made := (Noted.begins w _).tacit tacitly
  apply (ends_resolveDeclared_again discreet mute covers regular rests member during early here read).bind
  rintro _ after ⟨rfl, forwarded⟩
  exact .pure forwarded

omit member

theorem ends_scan_again (single : ((start.declared s.board).map Declaration.cell).Nodup) :
    Ends (eachGroup (do return (← Act.board s.board).registry.configs) (resolveDeclared code s.board receiver)) later
      (fun hs mid => Scanned code s later (later.declared s.board) hs mid ∧ Round code s receiver later hs mid)
      fun _ _ => False := by
  have again := rests.covers covers
  have same := rests.toIntact.declared_eq covers rests.registry_eq
  apply ends_eachGroup (fun done hs w => Scanned code s later done hs w ∧ Round code s receiver later hs w) again
  · exact fun _ _ _ course => course.1.toMidway
  · rintro done d rest hs w split ⟨scanned, round⟩ declares
    have declared : ∀ other ∈ done ++ d :: rest, later.Declares s.board other.cell := fun other member =>
      ⟨other, split ▸ member, rfl⟩
    have before : ∀ other ∈ done, later.Declares s.board other.cell := fun other member =>
      declared other (List.mem_append_left _ member)
    have fresh : d.cell ∉ done.map Declaration.cell := by
      rw [← same, split, List.map_append, List.map_cons] at single
      obtain ⟨-, -, apart⟩ := List.nodup_append.mp single
      exact fun member => apart _ member _ List.mem_cons_self rfl
    have member : d ∈ later.declared s.board := split ▸ by simp
    apply ((ends_visitEntry discreet again.toIncludes member scanned.toMidway declares).both
      (ends_visitEntry_again discreet mute covers regular rests (same ▸ member) scanned fresh declares)).mono
    · rintro _ after ⟨⟨rfl, settled, midway, leaves⟩, own, noted, forwards⟩
      exact ⟨scanned.visited again leaves fresh before midway settled (declared d (by simp)),
        round.further (scanned.enrolled again before) leaves noted forwards⟩
    · exact fun _ _ failed => failed.2
  · exact ⟨.begins rests.fits, .begins later⟩

end Visiting

end Board

namespace World

/-- A group that is settled again looks as the first one did. -/
theorem Settled.view_eq {first again : World σ} (discreet : code.Discreet s) (covers : Covers s start)
    (steady : Steady code s start) (fits : s.around start) (follows : Follows s start later)
    (member : d ∈ start.declared s.board) (one : Settled code s start (start.heap.mapAt d.cell) d g first)
    (two : Settled code s later (first.heap.mapAt d.cell) d h again) : again.view h = first.view g := by
  obtain ⟨sources, files⟩ := one.toRecorded.alike discreet covers steady ⟨d, member, rfl⟩ rfl (.refl fits) follows
    two.toRecorded
  obtain ⟨early, -, placed⟩ := one.destination
  obtain ⟨late, -, replaced⟩ := two.destination
  rw [one.mapping] at replaced
  obtain ⟨text, label, named⟩ := one.name
  obtain ⟨retext, relabel, renamed⟩ := two.name
  rw [covers.label member later.heap, label] at relabel
  cases relabel
  rw [view, view, named, renamed, sources, files, placed.again replaced]

/-- Both have written the same into the mapping of a group, each a list of its own. -/
theorem Settled.alike {first again : World σ} (one : Settled code s start (start.heap.mapAt d.cell) d g first)
    (two : Settled code s later (first.heap.mapAt d.cell) d h again) (mine : s.mine (.map d.cell))
    (view : again.view h = first.view g)
    (reads : ∀ value ∈ (start.heap.mapAt d.cell).entries.map (·.2), again.reading value = first.reading value) :
    Mapping.Alike first.reading again.reading (first.heap.mapAt d.cell) (again.heap.mapAt d.cell) := by
  obtain ⟨early, -, placed⟩ := one.destination
  have files : again.heap.listAt (again.group h).files = first.heap.listAt (first.group g).files :=
    congrArg View.files view
  have destination : (again.group h).destination = (first.group g).destination := congrArg View.destination view
  have here : first.Inscribed s (start.heap.mapAt d.cell) (Value.ofOption ((start.heap.mapAt d.cell).at? "des"))
      (first.group g).destination (first.heap.listAt (first.group g).files) d.cell :=
    ⟨g, ⟨one.born, ⟨d.cell, one.data, mine⟩, one.known⟩, one.mapping, rfl⟩
  have there : again.Inscribed s (start.heap.mapAt d.cell) (Value.ofOption ((start.heap.mapAt d.cell).at? "des"))
      (first.group g).destination (first.heap.listAt (first.group g).files) d.cell := by
    refine ⟨h, ⟨two.born, ⟨d.cell, two.data, mine⟩, two.known⟩, ?_, files⟩
    rw [two.mapping, one.mapping, destination, Mapping.settle_settle]
    rfl
  apply here.alike there (.of_reads reads)
  intro pattern declared
  rw [declared] at placed
  obtain ⟨-, same⟩ | ⟨_, _, _, -, -, -, same⟩ := resolution_ok placed.resolution_eq <;> rw [same] <;> rfl

section Both

variable {first last : World σ} (discreet : code.Discreet s) (covers : Covers s start) (steady : Steady code s start)
  (fits : s.around start) (follows : Follows s start later)
  (one : List.Forall₂ (fun d g => Settled code s start (start.heap.mapAt d.cell) d g first) (start.declared s.board) gs)
  (two : List.Forall₂ (fun d h => Settled code s later (first.heap.mapAt d.cell) d h last) (start.declared s.board) hs)
include discreet covers steady fits follows one two

theorem views_of_settled : hs.map last.view = gs.map first.view := by
  have paired : List.Forall₂ (fun g h => first.view g = last.view h) gs hs :=
    forall₂_through one two fun d member g h here there =>
      (here.view_eq discreet covers steady fits follows member there).symm
  exact (List.forall₂_eq_eq_eq ▸ List.forall₂_map_left_iff.mpr (List.forall₂_map_right_iff.mpr paired)).symm

theorem alike_of_settled (whole : Whole s start) (early : Intact s start first) (late : Intact s start last)
    (registry : (last.board s.board).registry = (first.board s.board).registry) : Alike s first last := by
  have lists : ∀ cell, s.mine (.list cell) ∨ s.mine (.set cell) → last.heap.listAt cell = first.heap.listAt cell := by
    intro cell mine
    have known := whole.listed cell mine
    rw [early.lists cell known mine, late.lists cell known mine]
  have reads : ∀ cell, s.mine (.map cell) → ∀ value ∈ (start.heap.mapAt cell).entries.map (·.2),
      last.reading value = first.reading value := by
    intro cell mine value member
    have part := whole.parts (.map cell) value mine member
    cases value with
    | list cell => exact congrArg Sum.inr (lists cell (.inl part))
    | _ => rfl
  refine ⟨registry, lists, fun cell mine => ?_⟩
  by_cases declares : start.Declares s.board cell
  · obtain ⟨d, member, rfl⟩ := declares
    obtain ⟨g, -, here⟩ := exists_of_forall₂ one member
    obtain ⟨h, -, there⟩ := exists_of_forall₂ two member
    have view := here.view_eq discreet covers steady fits follows member there
    exact here.alike there mine view (reads d.cell mine)
  · have foreign : ¬s.own cell := fun own => declares ((whole.own cell).mp own)
    rw [early.maps cell mine foreign, late.maps cell mine foreign]
    exact .of_reads (reads cell mine)

end Both

end World

/-- Collecting a second time changes nothing more, if the mapping of every group stands at one place of the configurations
only, patterns always list the same files, mappers give plain values, and whatever runs leaves the board and its groups
alone. Then a collection that comes after one that has returned, with anything in between that leaves the board alone,
returns as well, whatever the clock says by then. The board reads as after the first, with new lists of the same files,
and the groups look as the first ones do: their names, patterns, files and destinations are the same. Every mapper is
called once more, with the new group, and the receiver with what it gives, and nothing else is. -/
theorem collect_again {b : Nat} {around : World σ → Prop} {next : Option Nat} {first : World σ}
    (discreet : code.Discreet (start.scope b around)) (mute : code.Mute (start.scope b around)) (tree : start.Tree b)
    (listed : ∀ cell, start.Owns b (.list cell) ∨ start.Owns b (.set cell) → cell < start.heap.lists.size)
    (known : b < start.boards.size) (fits : around start) (regular : code.Regular (start.scope b around) next start)
    (collected : (collect code b receiver).run start = (.ok gs, first))
    (leaves : Leaves (start.scope b around) (fun _ => False) first later) (still : around later) :
    ∃ hs last, (collect code b next).run later = (.ok hs, last) ∧ (last.board b).groups = hs ∧
      hs.map last.view = gs.map first.view ∧ Alike (start.scope b around) first last ∧
      Round code (start.scope b around) next later hs last ∧ Dealings code b later last := by
  have covers : Covers (start.scope b around) start := tree.covers
  have whole : Whole (start.scope b around) start := ⟨fun _ => Iff.rfl, covers.mine, fun _ _ => .part, listed⟩
  obtain ⟨mid, scanning, rfl⟩ := scan_of_collect collected
  have scanned := (ends_scan receiver discreet covers tree.single fits).returned gs mid scanning
  have rests := scanned.rests covers known leaves still
  obtain ⟨hs, ended, rescanning, rescanned, round⟩ :=
    (ends_scan_again discreet mute covers regular rests tree.single).yields
  have recollected : (collect code b next).run later = (.ok hs, ended.regrouped b hs) := run_bind_ok rescanning
  have stands := board_regrouped hs (Nat.lt_of_lt_of_le known (Nat.le_trans rests.boards rescanned.boards))
  have one : List.Forall₂ (fun d g => Settled code (start.scope b around) start (start.heap.mapAt d.cell) d g
      (mid.regrouped b gs)) (start.declared b) gs := scanned.settled.imp fun _ _ settled => settled.setBoard b _
  have two := rests.settled_again covers rescanned leaves
  have kept : (ended.board b).registry = ((mid.regrouped b gs).board b).registry :=
    congrArg Board.registry (rescanned.board.trans leaves.board)
  refine ⟨hs, ended.regrouped b hs, recollected, by rw [stands],
    views_of_settled discreet covers regular.steady fits rests.toFollows one two, ?_, round.regrouped b, ?_⟩
  · apply alike_of_settled discreet covers regular.steady fits rests.toFollows one two whole
      (scanned.toIntact.regrouped b gs) ((rests.toIntact.trans rescanned.toIntact).regrouped b hs)
    exact (congrArg Board.registry stands).trans kept
  · have deals : Dealings code b later ((collect code b next).run later).2 := dealings_collect next later
    rwa [recollected] at deals

namespace Again

/-- A board with one task and one plugin, and with configurations named after the mappings that they are. -/
def holding (user : σ) (configs : List (Value × Value)) (maps : Array Mapping) : World σ where
  heap := { maps }
  boards := #[{
    cwd := "", runner := 9, registry := {
      tasks := ⟨[(.text "f", .callable (.user 0))]⟩
      plugins := ⟨[(.text "list", .callable (.user 0))]⟩
      configs := ⟨configs⟩ } }]
  clock := .whole 1
  user := user

/-- A configuration with a group under `files`, which is a group of another configuration as well. -/
def doubled : World Unit := holding () [(.text "b", .map 0), (.text "a", .map 1)] #[
  ⟨[(.text "src", .text "@none"), (.text "files", .map 2)]⟩, ⟨[(.text "g", .map 0)]⟩, ⟨[(.text "src", .text "@none")]⟩]

/-- A group whose patterns are the keys of the mapping of the next one. -/
def keyed : World Unit := holding () [(.text "c", .map 0)] #[
  ⟨[(.text "p", .map 1), (.text "q", .map 2)]⟩, ⟨[(.text "src", .map 2)]⟩, ⟨[(.text "src", .text "@none")]⟩]

def readings {α : Type} (w : World Unit) (read : World Unit → α) : Option (α × α) := do
  let first := (collect Orders.listing 0 none).run w
  let second := (collect Orders.listing 0 none).run first.2
  let _ ← first.1.toOption
  let _ ← second.1.toOption
  pure (read first.2, read second.2)

/-- Though no two groups share a mapping, a second collection does not come to the same if the mapping of a group stands
elsewhere as well: the files that are written into a configuration stand in place of a group that it has declared, and a
mapping under `src` lists the keys that were written. -/
theorem collect_again_differs :
    (((doubled.declared 0).map Declaration.cell).Nodup ∧
      readings doubled Orders.names = some ([some "b:files", some "a:g"], [some "a:g"])) ∧
    ((keyed.declared 0).map Declaration.cell).Nodup ∧
      readings keyed Orders.patterns =
        some ([[some "src"], [some "@none"]], [[some "src", some "files"], [some "@none"]]) := by
  refine ⟨⟨?_, by decide +kernel⟩, ?_, by decide +kernel⟩
  · exact (by decide : [2, 0].Nodup)
  · exact (by decide : [1, 2].Nodup)

/-- User code that gives one path, but for a receiver that keeps what it is called with. -/
def hearing : UserCode (List Value) where
  call id args := do
    if id = 1 then
      modify fun w => { w with user := w.user ++ args }
      pure (.value .nothing)
    else pure (.value (.tuple [.text "a.js"]))
  resume _ _ _ _ := pure (.value .nothing)
  run _ _ := pure []
  label? _ _ := none

/-- A group with a mapper and a stamped destination, and one without. -/
def stamped : World (List Value) := holding [] [(.text "c", .map 0)] #[
  ⟨[(.text "g", .map 1), (.text "h", .map 2)]⟩,
  ⟨[(.text "src", .text "#list"), (.text "des", .text "out-$VERSION$@f")]⟩,
  ⟨[(.text "src", .text "#list"), (.text "des", .text "plain")]⟩]

def whole : Scope (List Value) := stamped.scope 0 fun _ => True

theorem declared_stamped : stamped.declared 0 = [⟨.text "c", .text "g", 1⟩, ⟨.text "c", .text "h", 2⟩] := rfl

theorem discreet_hearing : hearing.Discreet whole where
  aside _ _ _ _ := trivial
  call id args := by
    simp only [hearing]
    split
    · exact Keeps.bind (Keeps.modify fun _ fits => ⟨.of_same rfl rfl rfl, fits⟩) fun _ => Keeps.pure _
    · exact Keeps.pure _
  resume _ _ _ _ := Keeps.pure _

theorem mute_hearing : hearing.Mute whole := by
  intro id args w _
  simp only [hearing]
  split
  · exact .of_tacit ⟨rfl, Nat.le_refl _⟩
  · exact .of_tacit (refl_of Tacit w)

theorem tree_stamped : stamped.Tree 0 where
  keys := by
    rw [declared_stamped]
    decide
  single := by
    rw [declared_stamped]
    decide
  apart := by
    apply apart_of_single rfl
    rw [declared_stamped]
    decide
  clear cell member source found := by
    have text : source = .text "#list" := by
      match cell, found with
      | 0, found | _ + 3, found => cases found
      | 1, found | 2, found =>
        cases found
        rfl
    rw [text]
    trivial

theorem owns_stamped {v : Value} (owned : stamped.Owns 0 v) : v.isShallow = true := by
  apply owned.all fun _ => id
  · intro kind
    cases kind <;> rfl
  · intro cell
    match cell with
    | 0 | 1 | 2 => rfl
    | _ + 3 => rfl
  · rfl

theorem mapper_stamped {cell : Nat} {mapper : Value} (declares : stamped.Declares 0 cell)
    (leads : stamped.mapperAt 0 cell = some mapper) : mapper = .callable (.user 0) := by
  obtain ⟨pattern, text⟩ : ∃ pattern, Group.destinationOf stamped.heap (.map cell) = .text pattern := by
    obtain ⟨d, member, rfl⟩ := declares
    rw [declared_stamped] at member
    simp only [List.mem_cons, List.not_mem_nil, or_false] at member
    rcases member with rfl | rfl <;> exact ⟨_, rfl⟩
  unfold mapperAt at leads
  rw [text] at leads
  obtain ⟨found, -⟩ := Option.filter_eq_some_iff.mp leads
  obtain ⟨name, -, task⟩ := Option.bind_eq_some_iff.mp found
  have member := Mapping.mem_of_get? task
  exact List.mem_singleton.mp member

theorem regular_hearing : hearing.Regular whole (some 1) stamped where
  lists := by
    rintro pattern ⟨cell, v, patterns, ⟨d, among, rfl⟩, source, read, member⟩
    have text : pattern = .text "#list" := by
      have declared : d ∈ stamped.declared 0 := among
      rw [declared_stamped] at declared
      simp only [List.mem_cons, List.not_mem_nil, or_false] at declared
      rcases declared with rfl | rfl <;>
      · cases source
        cases read
        exact List.mem_singleton.mp member
    rw [text]
    refine ⟨[.text "a.js"], fun stage later => ?_⟩
    obtain ⟨groups, board⟩ := later.board
    change stage.board 0 = { stamped.board 0 with groups } at board
    exact Orders.resolves_list rfl (congrArg (fun board : Board => board.registry.plugins) board) (congrArg Board.cwd board)
  maps cell mapper declares leads g stage _ _ _ := by
    rw [mapper_stamped declares leads]
    exact .intro rfl fun r same => by cases same
  receives id same v stage _ := by
    cases same
    exact .intro rfl trivial

/-- A second later the group still has the stamp of the first collection; its mapper is called again, and the receiver
once more. -/
theorem collect_again_stamped :
    ∃ gs first hs last, (collect hearing 0 (some 1)).run stamped = (.ok gs, first) ∧
      (collect hearing 0 (some 1)).run { first with clock := .whole 2 } = (.ok hs, last) ∧
      (last.board 0).groups = hs ∧ hs.map last.view = gs.map first.view ∧ World.Alike whole first last ∧
      Round hearing whole (some 1) { first with clock := .whole 2 } hs last ∧
      Dealings hearing 0 { first with clock := .whole 2 } last ∧
      Orders.destinations first = [some [.destination "out-1000", .callable (.user 0)], some [.text "plain"]] ∧
      first.user.map Value.key? = [some [.tuple 1, .text "a.js"]] ∧
      last.user.map Value.key? = [some [.tuple 1, .text "a.js"], some [.tuple 1, .text "a.js"]] := by
  have returned : ((collect hearing 0 (some 1)).run stamped).1.toOption.isSome = true := by decide +kernel
  have settled : Orders.destinations ((collect hearing 0 (some 1)).run stamped).2 =
      [some [.destination "out-1000", .callable (.user 0)], some [.text "plain"]] := by decide +kernel
  have once : ((collect hearing 0 (some 1)).run stamped).2.user.map Value.key? =
      [some [.tuple 1, .text "a.js"]] := by decide +kernel
  have twice : ((collect hearing 0 (some 1)).run
      { ((collect hearing 0 (some 1)).run stamped).2 with clock := .whole 2 }).2.user.map Value.key? =
        [some [.tuple 1, .text "a.js"], some [.tuple 1, .text "a.js"]] := by decide +kernel
  rcases collected : (collect hearing 0 (some 1)).run stamped with ⟨failure | gs, first⟩
  · rw [collected] at returned
    cases returned
  · rw [collected] at settled once twice
    have listed : ∀ cell, stamped.Owns 0 (.list cell) ∨ stamped.Owns 0 (.set cell) →
        cell < stamped.heap.lists.size := by
      rintro cell (owned | owned) <;> cases owns_stamped owned
    obtain ⟨hs, last, recollected, groups, views, alike, round, deals⟩ := collect_again discreet_hearing mute_hearing
      tree_stamped listed (by decide) trivial regular_hearing collected
      (.of_same rfl rfl rfl : Leaves whole _ first { first with clock := .whole 2 }) trivial
    rw [recollected] at twice
    exact ⟨gs, first, hs, last, rfl, recollected, groups, views, alike, round, deals, settled, once, twice⟩

end Again

end TaskBoard
