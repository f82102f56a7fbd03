import TaskBoard.Proofs.Pattern.Triggering

/-!
Patterns that pass on the path of an event: a name, perhaps with a filter group behind it, and the mark of the path
behind a colon. What comes before the colon is read as it is written, whatever the path. But the path stands in the
pattern before that is cut, so a colon of the path cuts it as well, and only what comes before its first colon is
passed on.
-/

namespace TaskBoard

open WatchPattern

/-- What is written behind a name for its filter. -/
def writtenFilter : Option String → String
  | none => ""
  | some content => "\x7b" ++ content ++ "\x7d"

/-- A filter lets the types through that it lists, and all of them where there is none. -/
def Admits (filter : Option String) (type : String) : Prop := ∀ content ∈ filter, GroupLists content.toList type

/-- What a path holds before its first colon, if that is anything. -/
def beforeColon (path : String) : Option String :=
  match path.toList.takeWhile (· ≠ ':') with
  | [] => none
  | c :: rest => some (String.ofList (c :: rest))

section Paths

variable {path : String}

theorem partOf_pieces (path : String) : partOf (Text.pieces ':' path.toList) = beforeColon path := by
  obtain ⟨piece, others, cut⟩ := List.exists_cons_of_ne_nil (Text.pieces_ne_nil ':' path.toList)
  rw [cut, beforeColon, ← Text.eq_takeWhile_of_pieces cut]
  cases piece <;> rfl

/-- A path comes through whole if it is not empty and no colon cuts it. -/
theorem beforeColon_eq_some_iff : beforeColon path = some path ↔ path ≠ "" ∧ ':' ∉ path.toList := by
  have whole : path.toList.takeWhile (· ≠ ':') = path.toList ↔ ':' ∉ path.toList := by
    rw [List.takeWhile_eq_self_iff]
    constructor
    · intro all member
      simpa using all ':' member
    · intro absent c member
      simpa using fun same : c = ':' => absent (same ▸ member)
  rw [← whole, beforeColon]
  constructor
  · intro passed
    split at passed
    next => cases passed
    next c rest taken =>
      have same : c :: rest = path.toList := by rw [← Option.some.inj passed, String.toList_ofList]
      refine ⟨?_, taken.trans same⟩
      rintro rfl
      cases same
  · rintro ⟨filled, all⟩
    rw [all]
    split
    next empty => exact absurd (String.toList_eq_nil_iff.mp empty) filled
    next c rest taken => rw [← taken, String.ofList_toList]

end Paths

section Names

variable {name path : String} {filter : Option String}

theorem toList_writtenFilter (content : String) :
    (writtenFilter (some content)).toList = writtenGroup content.toList := by
  have opening : "\x7b".toList = ['{'] := rfl
  have closing : "\x7d".toList = ['}'] := rfl
  simp [writtenFilter, writtenGroup, opening, closing]

theorem colon_notMem_filtered (uncut : ':' ∉ name.toList) (group : ∀ content ∈ filter, GroupContent content.toList) :
    ':' ∉ (name ++ writtenFilter filter).toList := by
  cases filter with
  | none => simpa [writtenFilter] using uncut
  | some content =>
    have foreign : ':' ∉ content.toList := fun member => by
      have allowed := (group content rfl).2 ':' member
      revert allowed
      decide
    rw [String.toList_append, toList_writtenFilter]
    simp [writtenGroup, uncut, foreign]

theorem place_filtered (unmarked : ¬filePlaceholder.toList <:+: name.toList)
    (group : ∀ content ∈ filter, GroupContent content.toList) (path : List Char) :
    place path (name ++ writtenFilter filter).toList = (name ++ writtenFilter filter).toList := by
  have kept : place path name.toList = name.toList := Text.replaceWord_of_not_infix (by decide) unmarked
  cases filter with
  | none => rw [writtenFilter, String.append_empty, kept]
  | some content =>
    have own : place path (writtenGroup content.toList ++ []) = writtenGroup content.toList ++ place path [] :=
      place_writtenGroup (group content rfl) []
    rw [List.append_nil, place_nil, List.append_nil] at own
    have opens : ∀ c, (writtenGroup content.toList).head? = some c → c = '{' := by
      rintro c ⟨⟩
      rfl
    rw [String.toList_append, toList_writtenFilter, place_append name.toList opens, kept, own]

theorem toList_substituteFile_passing (unmarked : ¬filePlaceholder.toList <:+: name.toList)
    (group : ∀ content ∈ filter, GroupContent content.toList) (path : String) :
    (substituteFile (name ++ writtenFilter filter ++ (":" ++ filePlaceholder)) path).toList =
      (name ++ writtenFilter filter).toList ++ ':' :: path.toList := by
  have written : (name ++ writtenFilter filter ++ (":" ++ filePlaceholder)).toList =
      (name ++ writtenFilter filter).toList ++ ':' :: filePlaceholder.toList := by
    rw [String.toList_append, String.toList_append]
    rfl
  have passed : place path.toList filePlaceholder.toList = path.toList := by
    have alone : place path.toList (filePlaceholder.toList ++ []) = path.toList ++ place path.toList [] := place_mark []
    rwa [List.append_nil, place_nil, List.append_nil] at alone
  rw [substituteFile, String.toList_ofList, written, Text.replaceWord_append_cons (by decide) (by decide)]
  exact congrArg₂ (· ++ ':' :: ·) (place_filtered unmarked group path.toList) passed

theorem read_filtered (groupless : Groupless name.toList) (group : ∀ content ∈ filter, GroupContent content.toList) :
    (WatchToken.tokenize (name ++ writtenFilter filter).toList).flatMap WatchToken.literal = name.toList ∧
    (WatchToken.tokenize (name ++ writtenFilter filter).toList).findSome? WatchToken.eventTypes? =
      filter.bind fun content => (WatchPart.group content.toList).token.eventTypes? := by
  cases filter with
  | none =>
    rw [writtenFilter, String.append_empty, groupless.decomposes.tokenize]
    exact ⟨literal_textParts name.toList, eventTypes?_textParts name.toList⟩
  | some content =>
    have nothing : Decomposes [] [] := groupless_nil.decomposes
    have cut := groupless.decomposes_append (nothing.group (group content rfl))
    rw [List.append_nil, ← toList_writtenFilter, ← String.toList_append] at cut
    rw [cut.tokenize, List.map_append, List.flatMap_append, List.findSome?_append, literal_textParts,
      eventTypes?_textParts]
    exact ⟨List.append_nil _, rfl⟩

theorem parse_passing (uncut : ':' ∉ name.toList) (unmarked : ¬filePlaceholder.toList <:+: name.toList)
    (groupless : Groupless name.toList) (group : ∀ content ∈ filter, GroupContent content.toList) (path : String) :
    parse (substituteFile (name ++ writtenFilter filter ++ (":" ++ filePlaceholder)) path) =
      ⟨name, filter.bind fun content => (WatchPart.group content.toList).token.eventTypes?, beforeColon path⟩ := by
  have cut : Text.pieces ':' (substituteFile (name ++ writtenFilter filter ++ (":" ++ filePlaceholder)) path).toList =
      (name ++ writtenFilter filter).toList :: Text.pieces ':' path.toList := by
    rw [toList_substituteFile_passing unmarked group, Text.pieces_append_cons (colon_notMem_filtered uncut group)]
  obtain ⟨literal, types⟩ := read_filtered groupless group
  rw [(parse_of_pieces cut).2, literal, types, partOf_pieces, String.ofList_toList]

theorem accepts_passing (type : String) (part : Option String) :
    (WatchPattern.mk name (filter.bind fun content => (WatchPart.group content.toList).token.eventTypes?)
      part).accepts type = true ↔ Admits filter type := by
  cases filter with
  | none => simp [accepts, Admits]
  | some content =>
    have only : Admits (some content) type ↔ GroupLists content.toList type := by simp [Admits]
    rw [only]
    exact List.contains_iff_mem.trans (mem_eventTypes? rfl)

end Names

open Board

/-- A name with an optional filter group and the mark behind a colon gets the task of the name for every event whose type
the group lists, and none for the others, whatever the path of the event is. What it passes on is the path up to its
first colon: exactly the path, if that is not empty and has no colon, and nothing of it from a colon on. -/
theorem path_passed_unless_cut {σ : Type} (w : World σ) (b : Nat) {name : String} {filter : Option String}
    (uncut : ':' ∉ name.toList) (unmarked : ¬filePlaceholder.toList <:+: name.toList) (groupless : Groupless name.toList)
    (group : ∀ content ∈ filter, GroupContent content.toList) (type path : String) :
    ∃ occasion task after,
      (eventTask b (.text (name ++ writtenFilter filter ++ (":" ++ filePlaceholder))) ⟨.text type, .text path⟩).run w =
        (.ok (.eventTask occasion name task (beforeColon path)), after) ∧
      (Admits filter type → TaskOf b (w.board b).registry name task) ∧ (¬Admits filter type → task = .nothing) ∧
      (path ≠ "" → (beforeColon path = some path ↔ ':' ∉ path.toList)) := by
  obtain ⟨after, ran⟩ := run_eventTask w b type (parse_passing uncut unmarked groupless group path)
  refine ⟨_, _, after, ran, ?_, ?_, fun filled => ?_⟩
  · intro admits
    rw [if_pos ((accepts_passing type _).mpr admits)]
    exact taskOf_watchedTask b _ name
  · intro refused
    rw [if_neg fun accepted => refused ((accepts_passing type _).mp accepted)]
  · rw [beforeColon_eq_some_iff]
    exact and_iff_right filled

/-- A path with a group and the mark in it comes through, and one with a drive in front loses all but the drive. -/
theorem path_passed_unless_cut_drive :
    ':' ∉ "lint\x7b".toList ∧ ¬filePlaceholder.toList <:+: "lint\x7b".toList ∧ Groupless "lint\x7b".toList ∧
    GroupContent "change | add".toList ∧
    (∃ occasion task after,
      (eventTask 0 (.text ("lint\x7b" ++ writtenFilter (some "change | add") ++ (":" ++ filePlaceholder)))
        ⟨.text "add", .text "\x7bx\x7d/%FILE%.js"⟩).run ({ user := () } : World Unit) =
        (.ok (.eventTask occasion "lint\x7b" task (some "\x7bx\x7d/%FILE%.js")), after) ∧ task ≠ .nothing) ∧
    ∃ occasion task after,
      (eventTask 0 (.text ("lint\x7b" ++ writtenFilter (some "change | add") ++ (":" ++ filePlaceholder)))
        ⟨.text "unlink", .text "c:/a.js"⟩).run ({ user := () } : World Unit) =
        (.ok (.eventTask occasion "lint\x7b" task (some "c")), after) ∧ task = .nothing := by
  have uncut : ':' ∉ "lint\x7b".toList := by decide
  have unmarked : ¬filePlaceholder.toList <:+: "lint\x7b".toList := by decide
  have groupless : Groupless "lint\x7b".toList := by decide +kernel
  have group : GroupContent "change | add".toList := ⟨by decide, List.all_eq_true.mp (by decide +kernel)⟩
  have only : ∀ content ∈ some "change | add", GroupContent content.toList := by
    rintro content ⟨⟩
    exact group
  have lists : ∀ type : String, type.toList ∈ [['c', 'h', 'a', 'n', 'g', 'e'], ['a', 'd', 'd']] ↔
      type.toList ∈ Text.pieces '|' ("change | add".toList.filter (!Text.isBlank ·)) := by
    intro type
    have pieces : Text.pieces '|' ("change | add".toList.filter (!Text.isBlank ·)) =
        [['c', 'h', 'a', 'n', 'g', 'e'], ['a', 'd', 'd']] := by decide +kernel
    rw [pieces]
  have added : Admits (some "change | add") "add" := by
    rintro content ⟨⟩
    exact ⟨by decide, (lists "add").mp (by decide)⟩
  have removed : ¬Admits (some "change | add") "unlink" := fun admits =>
    absurd ((lists "unlink").mpr (admits _ rfl).2) (by decide)
  refine ⟨uncut, unmarked, groupless, group, ?_, ?_⟩
  · obtain ⟨occasion, task, after, ran, stands, -, whole⟩ := path_passed_unless_cut ({ user := () } : World Unit) 0
      uncut unmarked groupless only "add" "\x7bx\x7d/%FILE%.js"
    rw [(whole (by decide)).mpr (by decide)] at ran
    exact ⟨occasion, task, after, ran, (stands added).ne_nothing⟩
  · obtain ⟨occasion, task, after, ran, -, none, -⟩ := path_passed_unless_cut ({ user := () } : World Unit) 0
      uncut unmarked groupless only "unlink" "c:/a.js"
    have drive : beforeColon "c:/a.js" = some "c" := by decide +kernel
    rw [drive] at ran
    exact ⟨occasion, task, after, ran, none removed⟩

end TaskBoard
