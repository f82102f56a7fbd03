import TaskBoard.Proofs.Pattern.Triggering

/-!
What the occasion of a watch pattern tells about the events that get a task. It is the types of the filter with a
comma and a space between them, and no type has a comma, so cutting it there gives the types back. Only the mark of
a pattern without a filter is a type as well: a group that lists `all` and nothing else has the occasion of a pattern
that is open to every type.
-/

namespace TaskBoard

namespace Text

/-- The pieces between the occurrences of a word, which are found from left to right. -/
def piecesAt (word text : List Char) : List (List Char) :=
  match text with
  | [] => [[]]
  | c :: rest =>
    if _found : word ≠ [] ∧ word.isPrefixOf (c :: rest) then [] :: piecesAt word ((c :: rest).drop word.length)
    else (piecesAt word rest).modifyHead (c :: ·)
termination_by text.length
decreasing_by
  · have positive := List.length_pos_iff.mpr _found.1
    simp only [List.length_drop, List.length_cons]
    omega
  · simp

section Cutting

variable {first : Char} {others : List Char}

theorem piecesAt_word (rest : List Char) :
    piecesAt (first :: others) (first :: others ++ rest) = [] :: piecesAt (first :: others) rest := by
  have found : (first :: others) ≠ [] ∧ (first :: others).isPrefixOf (first :: (others ++ rest)) = true :=
    ⟨List.cons_ne_nil first others, List.isPrefixOf_iff_prefix.mpr (List.prefix_append (first :: others) rest)⟩
  rw [List.cons_append, piecesAt, dif_pos found]
  simp

/-- What does not have the first character of the word goes to the next piece as a whole. -/
theorem piecesAt_append {s : List Char} (absent : first ∉ s) (t : List Char) :
    piecesAt (first :: others) (s ++ t) = (piecesAt (first :: others) t).modifyHead (s ++ ·) := by
  induction s with
  | nil =>
    rw [List.nil_append]
    cases piecesAt (first :: others) t <;> rfl
  | cons c s ih =>
    have other : ¬((first :: others) ≠ [] ∧ (first :: others).isPrefixOf (c :: (s ++ t)) = true) := by
      rintro ⟨-, found⟩
      obtain ⟨after, begins⟩ := List.isPrefixOf_iff_prefix.mp found
      obtain ⟨rfl, -⟩ := List.cons.inj begins
      exact absent List.mem_cons_self
    have later := ih fun member => absent (List.mem_cons_of_mem c member)
    rw [List.cons_append, piecesAt, dif_neg other, later, List.modifyHead_modifyHead]
    rfl

/-- Cutting undoes joining, if the first character of the word stands in no piece. -/
theorem piecesAt_intercalate {pieces : List (List Char)} (filled : pieces ≠ [])
    (absent : ∀ piece ∈ pieces, first ∉ piece) :
    piecesAt (first :: others) ((first :: others).intercalate pieces) = pieces := by
  have whole : ∀ piece : List Char, first ∉ piece → piecesAt (first :: others) piece = [piece] := by
    intro piece foreign
    have alone : piecesAt (first :: others) (piece ++ []) = _ := piecesAt_append foreign []
    rw [List.append_nil, piecesAt] at alone
    simpa using alone
  induction pieces with
  | nil => exact absurd rfl filled
  | cons piece pieces ih =>
    have foreign := absent piece List.mem_cons_self
    cases pieces with
    | nil => rw [List.intercalate_singleton, whole piece foreign]
    | cons next pieces =>
      have later := ih (List.cons_ne_nil next pieces) fun other member => absent other (List.mem_cons_of_mem piece member)
      rw [List.intercalate_cons_cons, List.append_assoc, piecesAt_append foreign, piecesAt_word, later]
      simp

end Cutting

theorem mem_of_mem_pieces {separator c : Char} {text piece : List Char} (member : piece ∈ pieces separator text)
    (inside : c ∈ piece) : c ∈ text := by
  induction text generalizing piece with
  | nil =>
    obtain rfl := List.mem_singleton.mp member
    exact inside
  | cons d text ih =>
    by_cases same : d = separator
    · rw [pieces, if_pos same] at member
      rcases List.mem_cons.mp member with rfl | later
      · cases inside
      · exact List.mem_cons_of_mem d (ih later inside)
    · obtain ⟨first, others, cut⟩ := List.exists_cons_of_ne_nil (pieces_ne_nil separator text)
      simp only [pieces, if_neg same, cut] at member ih
      rcases List.mem_cons.mp member with rfl | later
      · rcases List.mem_cons.mp inside with rfl | inside
        · exact List.mem_cons_self
        · exact List.mem_cons_of_mem d (ih List.mem_cons_self inside)
      · exact List.mem_cons_of_mem d (ih (List.mem_cons_of_mem first later) inside)

end Text

/-- What stands between the types of an occasion. -/
def occasionGap : List Char := [',', ' ']

/-- The first group of a name lists the type once, and no other. -/
def ListsOnly (name : List Char) (type : String) : Prop :=
  ∃ content, FirstGroup name content ∧ typesBetween (content.filter (!Text.isBlank ·)) = [type.toList]

namespace WatchPattern

section Occasions

variable {pattern type : String} {types : List String}

theorem spelt_of_mem (read : (parse pattern).types = some types) (member : type ∈ types) :
    type ≠ "" ∧ ',' ∉ type.toList := by
  have holds : ¬Groupless (nameOf pattern) := by
    intro groupless
    rw [types_eq, findSome?_of_groupless groupless] at read
    cases read
  obtain ⟨content, first⟩ := exists_firstGroup holds
  rw [types_eq, findSome?_of_firstGroup first] at read
  obtain ⟨filled, piece⟩ := (mem_eventTypes? read).mp member
  refine ⟨filled, fun comma => ?_⟩
  have inside : ',' ∈ content := List.mem_of_mem_filter (Text.mem_of_mem_pieces piece comma)
  have allowed := first.1.2 ',' inside
  revert allowed
  decide

theorem occasion_of_types {p : WatchPattern} (read : p.types = some types) :
    p.occasion.toList = occasionGap.intercalate (types.map String.toList) := by
  rw [occasion, read]
  exact String.toList_intercalate

theorem mem_piecesAt_occasion (read : (parse pattern).types = some types) :
    type ≠ "" ∧ type.toList ∈ Text.piecesAt occasionGap (parse pattern).occasion.toList ↔ type ∈ types := by
  have spelt : ∀ type ∈ types, type ≠ "" ∧ ',' ∉ type.toList := fun type member => spelt_of_mem read member
  rw [occasion_of_types read]
  cases types with
  | nil =>
    have nothing : Text.piecesAt occasionGap (occasionGap.intercalate (List.map String.toList [])) = [[]] := by
      rw [List.map_nil, List.intercalate_nil, Text.piecesAt]
    rw [nothing, List.mem_singleton, String.toList_eq_nil_iff]
    simp
  | cons one types =>
    have cut : Text.piecesAt occasionGap (occasionGap.intercalate ((one :: types).map String.toList)) =
        (one :: types).map String.toList := by
      apply Text.piecesAt_intercalate (by simp)
      intro piece member
      obtain ⟨type, listed, rfl⟩ := List.mem_map.mp member
      exact (spelt type listed).2
    rw [cut, List.mem_map_of_injective (fun a b same => String.toList_inj.mp same)]
    exact and_iff_right_of_imp fun member => (spelt type member).1

/-- The mark of a pattern without a filter is also the occasion of the one type that is spelt like it. -/
theorem occasion_eq_all_iff :
    (parse pattern).occasion = "all" ↔ (parse pattern).types = none ∨ (parse pattern).types = some ["all"] := by
  cases read : (parse pattern).types with
  | none => simp [occasion, read]
  | some types =>
    have same : (parse pattern).occasion = "all" ↔ types = ["all"] := by
      rw [← String.toList_inj, occasion_of_types read]
      rcases types with _ | ⟨one, _ | ⟨two, more⟩⟩
      · simp
      · rw [List.map_singleton, List.intercalate_singleton, String.toList_inj]
        simp
      · constructor
        · intro spells
          have comma : ',' ∈ "all".toList := by
            rw [← spells, List.map_cons, List.map_cons, List.intercalate_cons_cons]
            exact List.mem_append_left _ (List.mem_append_right _ List.mem_cons_self)
          exact absurd comma (by decide)
        · rintro ⟨⟩
    simpa using same

theorem types_eq_singleton_iff : (parse pattern).types = some [type] ↔ ListsOnly (nameOf pattern) type := by
  rw [types_eq]
  have back : ∀ words : List (List Char), words.map String.ofList = [type] ↔ words = [type.toList] := by
    intro words
    constructor
    · intro same
      have again := congrArg (List.map String.toList) same
      simpa [Function.comp_def] using again
    · rintro rfl
      simp
  constructor
  · intro read
    have holds : ¬Groupless (nameOf pattern) := by
      intro groupless
      rw [findSome?_of_groupless groupless] at read
      cases read
    obtain ⟨content, first⟩ := exists_firstGroup holds
    rw [findSome?_of_firstGroup first] at read
    exact ⟨content, first, (back _).mp (Option.some.inj read)⟩
  · rintro ⟨content, first, only⟩
    rw [findSome?_of_firstGroup first]
    exact congrArg some ((back _).mpr only)

/-- Only the group that lists nothing but `all` is taken for a pattern without a filter. -/
theorem types_eq_none_iff :
    (parse pattern).types = none ↔ (parse pattern).occasion = "all" ∧ ¬ListsOnly (nameOf pattern) "all" := by
  rw [occasion_eq_all_iff, ← types_eq_singleton_iff]
  constructor
  · intro none
    rw [none]
    exact ⟨.inl rfl, nofun⟩
  · rintro ⟨none | only, other⟩
    · exact none
    · exact absurd only other

theorem accepts_of_types {p : WatchPattern} (read : p.types = some types) : p.accepts type = true ↔ type ∈ types := by
  rw [accepts, read]
  exact List.contains_iff_mem

/-- A filter is not open to every type, since it never lists the empty one. -/
theorem accepts_all_iff : (∀ type, (parse pattern).accepts type = true) ↔ (parse pattern).types = none := by
  constructor
  · intro every
    cases read : (parse pattern).types with
    | none => rfl
    | some types => exact absurd rfl (spelt_of_mem read ((accepts_of_types read).mp (every ""))).1
  · intro none type
    rw [accepts, none]

end Occasions

end WatchPattern

open WatchPattern Board

/-- The descriptor has the occasion for events of every type. -/
def Board.TellsOccasion {σ : Type} (w : World σ) (b : Nat) (pattern path occasion : String) : Prop :=
  ∀ type : String, ∃ name task part after,
    (eventTask b (.text pattern) ⟨.text type, .text path⟩).run w = (.ok (.eventTask occasion name task part), after)

theorem Board.tellsOccasion_iff {σ : Type} {w : World σ} {b : Nat} {pattern path occasion : String} :
    TellsOccasion w b pattern path occasion ↔ occasion = (parse (substituteFile pattern path)).occasion := by
  constructor
  · intro shows
    obtain ⟨name, task, part, after, ran⟩ := shows ""
    obtain ⟨later, again⟩ := run_eventTask w b "" (rfl : parse (substituteFile pattern path) = _)
    rw [again] at ran
    cases ran
    rfl
  · rintro rfl type
    obtain ⟨after, ran⟩ := run_eventTask w b type (rfl : parse (substituteFile pattern path) = _)
    exact ⟨_, _, _, after, ran⟩

/-- The occasion of the descriptor tells which events get a task. It is `all` exactly where they all do, and where the
filter lists the one type `all`. Wherever some event gets none, the types of those that do are the pieces of the
occasion between its commas, but for an empty one. So patterns with the same occasion have tasks for the same events,
unless that is `all` and just one of them has the filter that lists only this. -/
theorem occasion_tells_types {σ : Type} (w : World σ) (b : Nat) (pattern path : String) :
    ∃ occasion, TellsOccasion w b pattern path occasion ∧
      (occasion = "all" ↔ (∀ type, Triggers w b pattern ⟨.text type, .text path⟩) ∨
        ListsOnly (nameOf (substituteFile pattern path)) "all") ∧
      ((∃ type, ¬Triggers w b pattern ⟨.text type, .text path⟩) → ∀ type,
        Triggers w b pattern ⟨.text type, .text path⟩ ↔
          type ≠ "" ∧ type.toList ∈ Text.piecesAt occasionGap occasion.toList) ∧
      ∀ (w' : World σ) (b' : Nat) (other path' : String), TellsOccasion w' b' other path' occasion →
        (occasion = "all" → (ListsOnly (nameOf (substituteFile pattern path)) "all" ↔
          ListsOnly (nameOf (substituteFile other path')) "all")) →
        ∀ type, Triggers w b pattern ⟨.text type, .text path⟩ ↔ Triggers w' b' other ⟨.text type, .text path'⟩ := by
  have every : (∀ type, Triggers w b pattern ⟨.text type, .text path⟩) ↔
      (parse (substituteFile pattern path)).types = none := by
    rw [← accepts_all_iff]
    exact forall_congr' fun _ => triggers_iff
  refine ⟨_, tellsOccasion_iff.mpr rfl, ?_, ?_, ?_⟩
  · rw [occasion_eq_all_iff, every, types_eq_singleton_iff]
  · rintro ⟨refused, taskless⟩ type
    cases read : (parse (substituteFile pattern path)).types with
    | none => exact absurd (every.mpr read refused) taskless
    | some types => rw [mem_piecesAt_occasion read, triggers_iff, accepts_of_types read]
  · intro w' b' other path' shows alike type
    have same := tellsOccasion_iff.mp shows
    have open_alike : (parse (substituteFile pattern path)).types = none ↔
        (parse (substituteFile other path')).types = none := by
      rw [types_eq_none_iff, types_eq_none_iff, ← same]
      exact and_congr_right fun all => not_congr (alike all)
    rw [triggers_iff, triggers_iff]
    cases read : (parse (substituteFile pattern path)).types with
    | none =>
      have none := open_alike.mp read
      rw [accepts_all_iff.mpr read, accepts_all_iff.mpr none]
    | some types =>
      cases again : (parse (substituteFile other path')).types with
      | none =>
        rw [open_alike.mpr again] at read
        cases read
      | some types' =>
        rw [accepts_of_types read, accepts_of_types again, ← mem_piecesAt_occasion read,
          ← mem_piecesAt_occasion again, same]

/-- A name with two groups, the first one spaced out, tells of two types, as does a plain group in another place. -/
theorem occasion_tells_types_listed :
    ∃ w w' : World Unit, TellsOccasion w 0 "a\x7b| add ||un\tlink\x7db\x7bx\x7d:%FILE%" "c:/a.js" "add, unlink" ∧
      (∃ type, ¬Triggers w 0 "a\x7b| add ||un\tlink\x7db\x7bx\x7d:%FILE%" ⟨.text type, .text "c:/a.js"⟩) ∧
      (∀ type, Triggers w 0 "a\x7b| add ||un\tlink\x7db\x7bx\x7d:%FILE%" ⟨.text type, .text "c:/a.js"⟩ ↔
        type = "add" ∨ type = "unlink") ∧
      TellsOccasion w' 1 "%FILE%\x7badd|unlink\x7d" "b" "add, unlink" ∧
      ∀ type, Triggers w 0 "a\x7b| add ||un\tlink\x7db\x7bx\x7d:%FILE%" ⟨.text type, .text "c:/a.js"⟩ ↔
        Triggers w' 1 "%FILE%\x7badd|unlink\x7d" ⟨.text type, .text "b"⟩ := by
  have first : (parse (substituteFile "a\x7b| add ||un\tlink\x7db\x7bx\x7d:%FILE%" "c:/a.js")).occasion =
      "add, unlink" := by decide +kernel
  have second : (parse (substituteFile "%FILE%\x7badd|unlink\x7d" "b")).occasion = "add, unlink" := by decide +kernel
  have cut : Text.piecesAt occasionGap "add, unlink".toList = ["add".toList, "unlink".toList] := by decide +kernel
  have refused : ∃ type, ¬Triggers ({ user := () } : World Unit) 0 "a\x7b| add ||un\tlink\x7db\x7bx\x7d:%FILE%"
      ⟨.text type, .text "c:/a.js"⟩ := by
    refine ⟨"x", ?_⟩
    rw [triggers_iff]
    decide +kernel
  obtain ⟨occasion, shows, -, tells, alike⟩ :=
    occasion_tells_types ({ user := () } : World Unit) 0 "a\x7b| add ||un\tlink\x7db\x7bx\x7d:%FILE%" "c:/a.js"
  obtain rfl := (tellsOccasion_iff.mp shows).trans first
  refine ⟨_, { user := () }, shows, refused, fun type => ?_, tellsOccasion_iff.mpr second.symm, ?_⟩
  · rw [tells refused type, cut, List.mem_pair, String.toList_inj, String.toList_inj]
    apply and_iff_right_of_imp
    rintro (rfl | rfl) <;> decide
  · exact alike _ 1 _ "b" (tellsOccasion_iff.mpr second.symm) fun all => absurd all (by decide)

/-- A group that lists `all` has the occasion of a pattern without a group, but no task for another type. -/
theorem occasion_tells_less :
    TellsOccasion ({ user := () } : World Unit) 0 "build\x7ball\x7d" "a.js" "all" ∧
    ¬Triggers ({ user := () } : World Unit) 0 "build\x7ball\x7d" ⟨.text "add", .text "a.js"⟩ ∧
    TellsOccasion ({ user := () } : World Unit) 0 "build" "a.js" "all" ∧
    Triggers ({ user := () } : World Unit) 0 "build" ⟨.text "add", .text "a.js"⟩ := by
  simp only [tellsOccasion_iff, triggers_iff]
  decide +kernel

end TaskBoard
