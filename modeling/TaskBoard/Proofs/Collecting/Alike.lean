import TaskBoard.Proofs.Collecting.Foreseeing

/-!
Boards that read the same in two worlds. Lists are read as their items, since every collection writes the files of a
group into a list of its own. Two collections from one start that have come equally far have mappings that read the same,
so the next group comes to the same in both, and they are still even after it.
-/

namespace TaskBoard

open Act World Board

variable {σ : Type}

def World.reading (w : World σ) : Value → Value ⊕ List Value
  | .list cell => .inr (w.heap.listAt cell)
  | v => .inl v

theorem World.eq_of_reading {w : World σ} {value other : Value} (same : w.reading value = .inl other) :
    value = other := by
  cases value with
  | list cell => cases same
  | _ => exact Sum.inl.inj same

namespace Mapping

/-- The same keys in the same order, with values that read the same. -/
def Alike (read reread : Value → Value ⊕ List Value) (m n : Mapping) : Prop :=
  List.Forall₂ (fun entry again => again.1 = entry.1 ∧ reread again.2 = read entry.2) m.entries n.entries

variable {read reread : Value → Value ⊕ List Value} {m n : Mapping}

namespace Alike

theorem of_reads (reads : ∀ value ∈ m.entries.map (·.2), reread value = read value) : Alike read reread m m :=
  List.forall₂_same.mpr fun entry member => ⟨rfl, reads entry.2 (List.mem_map.mpr ⟨entry, member, rfl⟩)⟩

theorem mono {later still : Value → Value ⊕ List Value} (alike : Alike read reread m n)
    (first : ∀ value ∈ m.entries.map (·.2), later value = read value)
    (second : ∀ value ∈ n.entries.map (·.2), still value = reread value) : Alike later still m n := by
  obtain ⟨entries⟩ := m
  obtain ⟨others⟩ := n
  change List.Forall₂ _ entries others at alike
  change List.Forall₂ _ entries others
  induction alike with
  | nil => exact .nil
  | @cons entry again rest tail same _ ih =>
    refine .cons ⟨same.1, ?_⟩ (ih (fun value member => first value (List.mem_cons_of_mem _ member))
      fun value member => second value (List.mem_cons_of_mem _ member))
    rw [first entry.2 List.mem_cons_self, second again.2 List.mem_cons_self, same.2]

theorem keys (alike : Alike read reread m n) : n.keys = m.keys :=
  (List.forall₂_eq_eq_eq ▸ (List.forall₂_map_right_iff.mpr (List.forall₂_map_left_iff.mpr
    (alike.imp fun _ _ same => same.1.symm))) : m.keys = n.keys).symm

theorem size (alike : Alike read reread m n) : n.size = m.size := alike.length_eq.symm

theorem entry (alike : Alike read reread m n) {i : Nat} {first again : Value × Value}
    (here : m.entries[i]? = some first) (there : n.entries[i]? = some again) :
    again.1 = first.1 ∧ reread again.2 = read first.2 := by
  obtain ⟨below, rfl⟩ := List.getElem?_eq_some_iff.mp here
  obtain ⟨within, rfl⟩ := List.getElem?_eq_some_iff.mp there
  exact alike.get below within

theorem get? (alike : Alike read reread m n) (key : Value) : (n.get? key).map reread = (m.get? key).map read := by
  obtain ⟨entries⟩ := m
  obtain ⟨others⟩ := n
  change List.Forall₂ _ entries others at alike
  change (lookup key others).map reread = (lookup key entries).map read
  induction alike with
  | nil => rfl
  | cons same _ ih =>
    simp only [lookup, same.1]
    split
    · exact congrArg some same.2
    · exact ih

theorem insert (alike : Alike read reread m n) (key : Value) {value other : Value} (same : reread other = read value) :
    Alike read reread (m.insert key value) (n.insert key other) := by
  obtain ⟨entries⟩ := m
  obtain ⟨others⟩ := n
  change List.Forall₂ _ entries others at alike
  change List.Forall₂ _ (write key value entries) (write key other others)
  induction alike with
  | nil => exact .cons ⟨rfl, same⟩ .nil
  | cons first tail ih =>
    simp only [write, first.1]
    split
    · exact .cons ⟨rfl, same⟩ tail
    · exact .cons ⟨rfl, first.2⟩ ih

theorem place (alike : Alike read reread m n) (declared : Value) {value other : Value}
    (same : ∀ pattern, declared = .text pattern → reread other = read value) :
    Alike read reread (m.place declared value) (n.place declared other) := by
  cases declared with
  | text pattern => exact alike.insert (.text "des") (same pattern rfl)
  | _ => exact alike

end Alike

end Mapping

namespace World

/-- A board reads the same in two worlds. -/
structure Alike (s : Scope σ) (w v : World σ) : Prop where
  registry : (v.board s.board).registry = (w.board s.board).registry
  lists : ∀ cell, s.mine (.list cell) ∨ s.mine (.set cell) → v.heap.listAt cell = w.heap.listAt cell
  maps : ∀ cell, s.mine (.map cell) → Mapping.Alike w.reading v.reading (w.heap.mapAt cell) (v.heap.mapAt cell)

/-- A collection on its way: what stands in the mappings can be traced, and groups have been made. -/
structure Underway (s : Scope σ) (start : World σ) (gs : List Nat) (w : World σ) : Prop where
  intact : Intact s start w
  traced : Traced s start w
  enrolled : ∀ g ∈ gs, Enrolled s w g

/-- Two collections from one start are equally far: mappings read the same, and groups look the same. -/
structure Even (s : Scope σ) (start : World σ) (gs hs : List Nat) (w v : World σ) : Prop where
  first : Underway s start gs w
  second : Underway s start hs v
  maps : ∀ cell, s.mine (.map cell) → Mapping.Alike w.reading v.reading (w.heap.mapAt cell) (v.heap.mapAt cell)
  views : hs.map v.view = gs.map w.view

variable {code : UserCode σ} {s : Scope σ} {listing : Value → Except Failure (List Value)}
  {start w v after late : World σ} {gs hs : List Nat} {d : Declaration} {cell : Nat} {but : Nat → Prop}

namespace Underway

section Leaving

variable (underway : Underway s start gs w) (leaves : Leaves s but w after)
include underway leaves

theorem views_eq : gs.map after.view = gs.map w.view :=
  List.map_congr_left fun g member => (underway.enrolled g member).view_eq leaves

theorem pendings_eq : (gs.map fun g => (after.group g).pending) = gs.map fun g => (w.group g).pending :=
  List.map_congr_left fun g member => by rw [(underway.enrolled g member).group_eq leaves]

theorem reading_eq (whole : Whole s start) (mine : s.mine (.map cell)) :
    ∀ value ∈ (w.heap.mapAt cell).entries.map (·.2), after.reading value = w.reading value := by
  intro value member
  rcases underway.traced.values whole mine value member with old | new
  · cases value with
    | list cell =>
      have known : cell < w.heap.lists.size := Nat.lt_of_lt_of_le (whole.listed cell (.inl old)) underway.intact.listed
      exact congrArg Sum.inr (leaves.lists cell known (.inl old))
    | _ => rfl
  · cases new with
    | @files g enrolled =>
      obtain ⟨own, data, among⟩ := enrolled.data
      exact congrArg Sum.inr (leaves.files g enrolled.born own data among enrolled.known)
    | text pattern => rfl
    | destination targets =>
      obtain ⟨out, mapper, rfl, -⟩ := targets
      rfl

end Leaving

theorem leaves (underway : Underway s start gs w) (leaves : Leaves s (fun _ => False) w after) :
    Underway s start gs after where
  intact := underway.intact.leaves leaves
  traced cell mine := by
    rw [leaves.maps cell mine id]
    exact (underway.traced cell mine).leaves leaves
  enrolled g member := (underway.enrolled g member).leaves leaves

theorem push (underway : Underway s start gs w) {g : Nat} (enrolled : Enrolled s w g) :
    Underway s start (gs ++ [g]) w where
  intact := underway.intact
  traced := underway.traced
  enrolled other member := by
    rcases List.mem_append.mp member with before | last
    · exact underway.enrolled other before
    · exact List.mem_singleton.mp last ▸ enrolled

theorem visited (underway : Underway s start gs w) (formed : Formed s start) (member : d ∈ start.declared s.board)
    (midway : Midway s start w) (visited : Visited s listing start w d after) : Underway s start gs after where
  intact := visited.midway.toIntact
  traced := visited.traced formed underway.traced midway
    (formed.mine d.cell (.inr (show start.Declares s.board d.cell from ⟨d, member, rfl⟩).member))
  enrolled g among := (underway.enrolled g among).leaves visited.leaves

end Underway

theorem Inscribed.alike {m n : Mapping} {declared settled : Value} {files : List Value}
    (first : w.Inscribed s m declared settled files cell) (second : v.Inscribed s n declared settled files cell)
    (alike : Mapping.Alike w.reading v.reading m n)
    (reads : ∀ pattern, declared = .text pattern → v.reading settled = w.reading settled) :
    Mapping.Alike w.reading v.reading (w.heap.mapAt cell) (v.heap.mapAt cell) := by
  obtain ⟨g, -, here, read⟩ := first
  obtain ⟨h, -, there, reread⟩ := second
  have listed : v.reading (.list (v.group h).files) = w.reading (.list (w.group g).files) :=
    congrArg Sum.inr (reread.trans read.symm)
  rw [here, there]
  exact (alike.insert _ listed).place declared reads

namespace Even

theorem begins (same : v.heap = w.heap) (first : Underway s start [] w) (second : Underway s start [] v) :
    Even s start [] [] w v := by
  refine ⟨first, second, fun cell _ => ?_, rfl⟩
  rw [same]
  refine .of_reads fun value _ => ?_
  cases value with
  | list cell => exact congrArg (fun h : Heap => Sum.inr (h.listAt cell)) same
  | _ => rfl

theorem push (even : Even s start gs hs w v) {g h : Nat} (enrolled : Enrolled s w g) (reenrolled : Enrolled s v h)
    (view : v.view h = w.view g) : Even s start (gs ++ [g]) (hs ++ [h]) w v where
  first := even.first.push enrolled
  second := even.second.push reenrolled
  maps := even.maps
  views := by simp [even.views, view]

section Whole

variable (even : Even s start gs hs w v) (whole : Whole s start)
include even whole

theorem leaves (leaves : Leaves s (fun _ => False) v late) : Even s start gs hs w late where
  first := even.first
  second := even.second.leaves leaves
  maps cell mine := by
    rw [leaves.maps cell mine id]
    exact (even.maps cell mine).mono (fun _ _ => rfl) (even.second.reading_eq leaves whole mine)
  views := (even.second.views_eq leaves).trans even.views

omit whole in
theorem destination_eq (mine : s.mine (.map cell)) : (v.heap.mapAt cell).at? "des" = (w.heap.mapAt cell).at? "des" := by
  have alike := (even.maps cell mine).get? (.text "des")
  rcases (even.first.traced cell mine).destination with old | ⟨_, new, out, mapper, rfl, -⟩
  · rcases (even.second.traced cell mine).destination with again | ⟨_, renewed, out, mapper, rfl, -⟩
    · exact again.trans old.symm
    · rw [show (v.heap.mapAt cell).get? (.text "des") = _ from renewed] at alike
      obtain ⟨value, found, same⟩ := Option.map_eq_some_iff.mp alike.symm
      exact renewed.trans ((eq_of_reading same) ▸ found).symm
  · rw [show (w.heap.mapAt cell).get? (.text "des") = _ from new] at alike
    obtain ⟨value, found, same⟩ := Option.map_eq_some_iff.mp alike
    exact (eq_of_reading same ▸ found : (v.heap.mapAt cell).get? (.text "des") = _).trans new.symm

theorem patterns_eq {source : Value} (mine : s.mine source) :
    Group.patterns v.heap source = Group.patterns w.heap source := by
  have lists : ∀ cell, s.mine (.list cell) ∨ s.mine (.set cell) → v.heap.listAt cell = w.heap.listAt cell := by
    intro cell mine
    have known := whole.listed cell mine
    rw [even.first.intact.lists cell known mine, even.second.intact.lists cell known mine]
  cases source with
  | list cell => simp [Group.patterns, Value.elements?, lists cell (.inl mine)]
  | set cell => simp [Group.patterns, Value.elements?, lists cell (.inr mine)]
  | map cell => simp [Group.patterns, Value.elements?, (even.maps cell mine).keys]
  | _ => rfl

end Whole

section Formed

variable (even : Even s start gs hs w v) (formed : Formed s start) (member : d ∈ start.declared s.board)
include even formed member

theorem survey_eq : v.survey listing d = w.survey listing d := by
  have declares : start.Declares s.board d.cell := ⟨d, member, rfl⟩
  have mine := formed.mine d.cell (.inr declares.member)
  obtain ⟨source, found⟩ := (mem_declared member).2
  have held : s.mine source := formed.parts (.map d.cell) source mine (Mapping.mem_of_get? found)
  have keys := formed.keys d member
  unfold survey Config.label
  rw [Heap.shown_of_hashable v.heap w.heap keys.1, Heap.shown_of_hashable v.heap w.heap keys.2,
    even.first.intact.sourceAt_eq mine, even.second.intact.sourceAt_eq mine, found, Value.ofOption,
    even.patterns_eq formed.toWhole held]

variable (repeats : code.Repeats s listing start) (first : Midway s start w) (second : Midway s start v)
include repeats first second

theorem destined_eq : v.destined s.board d = w.destined s.board d := by
  have declares : start.Declares s.board d.cell := ⟨d, member, rfl⟩
  have same := settlement_congr formed.toWhole repeats declares even.first.traced first second fun cell found =>
    even.destination_eq (formed.mine cell (.inl (Mapping.entry_of_get? found)))
  have mine := formed.mine d.cell (.inr declares.member)
  unfold destined
  rw [← same, Group.destinationOf, Group.destinationOf, even.destination_eq mine]

theorem foresee_eq : v.foresee s.board listing d = w.foresee s.board listing d := by
  unfold foresee
  rw [even.survey_eq formed member, even.destined_eq formed member repeats first second]

theorem visited (here : Visited s listing start w d after) (there : Visited s listing start v d late) :
    Even s start gs hs after late where
  first := even.first.visited formed member first here
  second := even.second.visited formed member second there
  views := by rw [even.first.views_eq here.leaves, even.second.views_eq there.leaves, even.views]
  maps cell mine := by
    have alike : Mapping.Alike after.reading late.reading (w.heap.mapAt cell) (v.heap.mapAt cell) :=
      (even.maps cell mine).mono (even.first.reading_eq here.leaves formed.toWhole mine)
        (even.second.reading_eq there.leaves formed.toWhole mine)
    by_cases own : cell = d.cell
    · subst own
      have left := here.left
      have right := there.left
      rw [even.survey_eq formed member, even.destined_eq formed member repeats first second] at right
      cases surveyed : w.survey listing d with
      | error failure =>
        rw [surveyed] at left right
        rwa [show after.heap.mapAt d.cell = _ from left, show late.heap.mapAt d.cell = _ from right]
      | ok found =>
        rw [surveyed] at left right
        cases settled : w.destined s.board d with
        | error failure =>
          rw [settled] at left right
          exact Inscribed.alike left right alike fun _ none => by cases none
        | ok destination =>
          rw [settled] at left right
          have right : late.Inscribed s _ (Value.ofOption ((v.heap.mapAt d.cell).at? "des")) destination _ _ := right
          rw [even.destination_eq mine] at right
          refine Inscribed.alike left right alike fun pattern declared => ?_
          have text : settlement s.board w (Value.ofOption ((w.heap.mapAt d.cell).at? "des")) = _ := settled
          rw [declared] at text
          rcases targets_of_settlement formed first text with rfl | ⟨out, mapper, rfl, -⟩ <;> rfl
    · rwa [here.leaves.maps cell mine own, there.leaves.maps cell mine own]

end Formed

end Even

end World

end TaskBoard
