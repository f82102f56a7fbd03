import Mathlib.Data.List.Infix
import TaskBoard.Proofs.Pattern.Parts
import TaskBoard.Proofs.Pattern.Placing
import TaskBoard.Proofs.Pattern.Rewriting

/-!
Writing watch patterns. A pattern is written as a name with one filter group somewhere in it and what is passed
on behind a colon; a group lists its types between bars, as many as one likes, and may be spaced out with white
space, inside the words too. However it is written, parsing gives back what was put in. The text around the
group may hold braces of its own as long as no group stands in it: then the written group is the only part of the
name that is one, by the uniqueness of decompositions.
-/

namespace TaskBoard

/-- An event type that a filter group can list: not empty, of ASCII letters and decimal digits. -/
structure IsWord (word : List Char) : Prop where
  filled : word ≠ []
  spelt : ∀ c ∈ word, (Text.isAsciiLetter c || Text.isDigit c) = true

/-- The types in order with one bar or more between neighbours. -/
inductive Barred : List (List Char) → List Char → Prop where
  | last (word : List Char) : Barred [word] word
  | next (word : List Char) (bars : Nat) {words : List (List Char)} {text : List Char} :
    Barred words text → Barred (word :: words) (word ++ (List.replicate (bars + 1) '|' ++ text))

/-- The second text is the first with white space put in anywhere. -/
inductive Spaced : List Char → List Char → Prop where
  | done : Spaced [] []
  | keep (c : Char) {bare text : List Char} : Spaced bare text → Spaced (c :: bare) (c :: text)
  | blank {c : Char} {bare text : List Char} : Text.isBlank c = true → Spaced bare text → Spaced bare (c :: text)

/-- The text can stand between the braces of a group that lists the types: bars may lead and trail too. -/
def ListsTypes (types : List String) (text : String) : Prop :=
  ∃ leading trailing bare, Barred (types.map String.toList) bare ∧
    Spaced (List.replicate leading '|' ++ (bare ++ List.replicate trailing '|')) text.toList

/-- What is written for the part that a pattern passes on. -/
def writtenPart : Option String → String
  | none => ""
  | some part => ":" ++ part

section Characters

theorem isBlank_of_isAsciiLetter {c : Char} (letter : Text.isAsciiLetter c = true) : Text.isBlank c = false := by
  have upper : ∀ n : Fin 128, 65 ≤ n.val →
      Text.blankRanges.any (fun run => run.1 ≤ n.val && n.val ≤ run.2) = false := by decide
  have bounds : 65 ≤ c.toNat ∧ c.toNat < 128 := by
    simp only [Text.isAsciiLetter, Bool.or_eq_true, Bool.and_eq_true, decide_eq_true_eq] at letter
    simp only [Char.le_def, UInt32.le_iff_toNat_le] at letter
    simp only [Char.toNat]
    rcases letter with ⟨low, high⟩ | ⟨low, high⟩
    · have first : 'a'.val.toNat = 97 := rfl
      have last : 'z'.val.toNat = 122 := rfl
      omega
    · have first : 'A'.val.toNat = 65 := rfl
      have last : 'Z'.val.toNat = 90 := rfl
      omega
  exact upper ⟨c.toNat, bounds.2⟩ bounds.1

theorem isBlank_of_isDigit {c : Char} (digit : Text.isDigit c = true) : Text.isBlank c = false := by
  have apart : ∀ start ∈ Text.zeroDigits, ∀ run ∈ Text.blankRanges, start + 9 < run.1 ∨ run.2 < start := by decide
  simp only [Text.isDigit, Text.digitValue?, Option.isSome_map] at digit
  obtain ⟨start, found⟩ := Option.isSome_iff_exists.mp digit
  have within := List.find?_some found
  simp only [Bool.and_eq_true, decide_eq_true_eq] at within
  simp only [Text.isBlank, List.any_eq_false]
  intro run member inside
  simp only [Bool.and_eq_true, decide_eq_true_eq] at inside
  have cases := apart start (List.mem_of_find?_eq_some found) run member
  omega

theorem isFilterChar_of_isBlank {c : Char} (blank : Text.isBlank c = true) : isFilterChar c = true := by
  simp [isFilterChar, blank]

end Characters

namespace IsWord

variable {word : List Char} {c : Char}

theorem isFilterChar (proper : IsWord word) (member : c ∈ word) : isFilterChar c = true := by
  have spelt := proper.spelt c member
  simp [TaskBoard.isFilterChar, spelt]

theorem isBlank (proper : IsWord word) (member : c ∈ word) : Text.isBlank c = false := by
  rcases Bool.or_eq_true_iff.mp (proper.spelt c member) with letter | digit
  · exact isBlank_of_isAsciiLetter letter
  · exact isBlank_of_isDigit digit

theorem bar_notMem (proper : IsWord word) : '|' ∉ word := by
  intro member
  have spelt := proper.spelt '|' member
  revert spelt
  decide

end IsWord

namespace Barred

variable {words : List (List Char)} {text : List Char}

theorem mem (barred : Barred words text) {c : Char} (member : c ∈ text) : c = '|' ∨ ∃ word ∈ words, c ∈ word := by
  induction barred with
  | last word => exact .inr ⟨word, List.mem_singleton_self word, member⟩
  | next word bars _ ih =>
    rcases List.mem_append.mp member with here | later
    · exact .inr ⟨word, List.mem_cons_self, here⟩
    · rcases List.mem_append.mp later with bar | later
      · exact .inl (List.eq_of_mem_replicate bar)
      · exact (ih later).imp_right fun ⟨other, listed, inside⟩ => ⟨other, List.mem_cons_of_mem word listed, inside⟩

theorem mem_between (barred : Barred words text) {leading trailing : Nat} {c : Char}
    (member : c ∈ List.replicate leading '|' ++ (text ++ List.replicate trailing '|')) :
    c = '|' ∨ ∃ word ∈ words, c ∈ word := by
  rcases List.mem_append.mp member with lead | rest
  · exact .inl (List.eq_of_mem_replicate lead)
  · rcases List.mem_append.mp rest with listed | trail
    · exact barred.mem listed
    · exact .inl (List.eq_of_mem_replicate trail)

theorem ne_nil (barred : Barred words text) (spelt : ∀ word ∈ words, IsWord word) : text ≠ [] := by
  cases barred with
  | last word => exact (spelt _ List.mem_cons_self).filled
  | next word bars later =>
    have filled := (spelt word List.mem_cons_self).filled
    simp [filled]

end Barred

namespace Spaced

variable {bare text : List Char}

theorem filter (spaced : Spaced bare text) (none : ∀ c ∈ bare, Text.isBlank c = false) :
    text.filter (!Text.isBlank ·) = bare := by
  induction spaced with
  | done => rfl
  | keep c _ ih =>
    have later := ih fun d member => none d (List.mem_cons_of_mem c member)
    rw [List.filter_cons_of_pos (by simp [none c List.mem_cons_self]), later]
  | @blank c _ _ blank _ ih =>
    rw [List.filter_cons_of_neg (by simp [blank]), ih none]

theorem mem (spaced : Spaced bare text) {c : Char} (member : c ∈ text) : c ∈ bare ∨ Text.isBlank c = true := by
  induction spaced with
  | done => cases member
  | keep d _ ih =>
    rcases List.mem_cons.mp member with rfl | later
    · exact .inl List.mem_cons_self
    · exact (ih later).imp_left (List.mem_cons_of_mem d)
  | blank blank _ ih =>
    rcases List.mem_cons.mp member with rfl | later
    · exact .inr blank
    · exact ih later

/-- A text is what it holds besides white space, spaced out. -/
theorem of_filter (text : List Char) : Spaced (text.filter (!Text.isBlank ·)) text := by
  induction text with
  | nil => exact .done
  | cons c text ih =>
    cases blank : Text.isBlank c with
    | true =>
      rw [List.filter_cons_of_neg (by simp [blank])]
      exact .blank blank ih
    | false =>
      rw [List.filter_cons_of_pos (by simp [blank])]
      exact .keep c ih

theorem ne_nil (spaced : Spaced bare text) (filled : bare ≠ []) : text ≠ [] := by
  cases spaced with
  | done => exact filled
  | keep => exact List.cons_ne_nil _ _
  | blank => exact List.cons_ne_nil _ _

end Spaced

section Types

/-- The pieces between bars that count. -/
def typesBetween (text : List Char) : List (List Char) := (Text.pieces '|' text).filter (· ≠ [])

theorem typesBetween_bar (text : List Char) : typesBetween ('|' :: text) = typesBetween text := by
  simp [typesBetween, Text.pieces]

theorem typesBetween_bars (bars : Nat) (text : List Char) :
    typesBetween (List.replicate bars '|' ++ text) = typesBetween text := by
  induction bars with
  | zero => rfl
  | succ bars ih => rw [List.replicate_succ, List.cons_append, typesBetween_bar, ih]

theorem typesBetween_word {word : List Char} (spelt : IsWord word) (text : List Char) :
    typesBetween (word ++ '|' :: text) = word :: typesBetween text := by
  rw [typesBetween, Text.pieces_append_cons spelt.bar_notMem]
  simp [typesBetween, spelt.filled]

theorem typesBetween_last {word : List Char} (spelt : IsWord word) (bars : Nat) :
    typesBetween (word ++ List.replicate bars '|') = [word] := by
  cases bars with
  | zero =>
    rw [List.replicate_zero, List.append_nil, typesBetween, Text.pieces_of_notMem spelt.bar_notMem]
    simp [spelt.filled]
  | succ bars =>
    have none := typesBetween_bars bars []
    rw [List.append_nil] at none
    rw [List.replicate_succ, typesBetween_word spelt, none]
    rfl

theorem Barred.typesBetween {words : List (List Char)} {text : List Char} (barred : Barred words text)
    (spelt : ∀ word ∈ words, IsWord word) (trailing : Nat) :
    typesBetween (text ++ List.replicate trailing '|') = words := by
  induction barred with
  | last word => exact typesBetween_last (spelt word List.mem_cons_self) trailing
  | @next word bars words text _ ih =>
    have later := ih fun other listed => spelt other (List.mem_cons_of_mem word listed)
    rw [List.replicate_succ, List.cons_append, List.append_assoc, List.cons_append, List.append_assoc,
      typesBetween_word (spelt word List.mem_cons_self), typesBetween_bars, later]

end Types

namespace ListsTypes

variable {types : List String} {text : String}

theorem content (lists : ListsTypes types text) (spelt : ∀ type ∈ types, IsWord type.toList) :
    GroupContent text.toList := by
  obtain ⟨leading, trailing, bare, barred, spaced⟩ := lists
  have words : ∀ word ∈ types.map String.toList, IsWord word := List.forall_mem_map.mpr spelt
  constructor
  · have filled := barred.ne_nil words
    exact spaced.ne_nil (by simp [filled])
  · intro c member
    rcases spaced.mem member with written | blank
    · rcases barred.mem_between written with rfl | ⟨word, listed, inside⟩
      · decide
      · exact (words word listed).isFilterChar inside
    · exact isFilterChar_of_isBlank blank

theorem eventTypes? (lists : ListsTypes types text) (spelt : ∀ type ∈ types, IsWord type.toList) :
    (WatchPart.group text.toList).token.eventTypes? = some types := by
  obtain ⟨leading, trailing, bare, barred, spaced⟩ := lists
  have words : ∀ word ∈ types.map String.toList, IsWord word := List.forall_mem_map.mpr spelt
  have unspaced : ∀ c ∈ List.replicate leading '|' ++ (bare ++ List.replicate trailing '|'),
      Text.isBlank c = false := by
    intro c member
    rcases barred.mem_between member with rfl | ⟨word, listed, inside⟩
    · decide
    · exact (words word listed).isBlank inside
  have read : typesBetween (text.toList.filter (!Text.isBlank ·)) = types.map String.toList := by
    rw [spaced.filter unspaced, typesBetween_bars, barred.typesBetween words]
  have back : (types.map String.toList).map String.ofList = types := by simp
  calc (WatchPart.group text.toList).token.eventTypes?
      = some ((typesBetween (text.toList.filter (!Text.isBlank ·))).map String.ofList) := rfl
    _ = some types := by rw [read, back]

end ListsTypes

/-- The parts of a text without groups: itself, unless it is empty. -/
def textParts : List Char → List WatchPart
  | [] => []
  | c :: text => [.text (c :: text)]

section Around

variable {text : List Char}

theorem written_textParts (text : List Char) : (textParts text).flatMap WatchPart.written = text := by
  cases text with
  | nil => rfl
  | cons c text => exact List.append_nil _

theorem literal_textParts (text : List Char) :
    ((textParts text).map WatchPart.token).flatMap WatchToken.literal = text := by
  cases text with
  | nil => rfl
  | cons c text => exact List.append_nil _

theorem eventTypes?_textParts (text : List Char) :
    ((textParts text).map WatchPart.token).findSome? WatchToken.eventTypes? = none := by
  cases text <;> rfl

theorem groupless_iff : Groupless text ↔ ∀ rest ∈ text.tails, filterGroup? rest = none := by
  constructor
  · intro groupless rest behind
    cases found : filterGroup? rest with
    | none => rfl
    | some cut =>
      obtain ⟨group, begins⟩ := filterGroup?_eq_some.mp (show filterGroup? rest = some (cut.1, cut.2) from found)
      have stands : writtenGroup cut.1 <:+: rest := ⟨[], cut.2, begins.symm⟩
      exact (groupless cut.1 group (stands.trans ((List.mem_tails rest text).mp behind).isInfix)).elim
  · rintro silent content group ⟨front, after, rfl⟩
    rw [List.append_assoc] at silent
    have none := silent _ ((List.mem_tails _ _).mpr (List.suffix_append front _))
    rw [filterGroup?_eq_some.mpr ⟨group, rfl⟩] at none
    cases none

instance (text : List Char) : Decidable (Groupless text) := decidable_of_iff _ groupless_iff.symm

theorem Groupless.proper_textParts (groupless : Groupless text) : ∀ part ∈ textParts text, part.Proper := by
  cases text with
  | nil => simp [textParts]
  | cons c text =>
    intro part member
    obtain rfl := List.mem_singleton.mp member
    exact ⟨List.cons_ne_nil c text, groupless⟩

theorem Groupless.decomposes (groupless : Groupless text) : Decomposes text (textParts text) where
  whole := written_textParts text
  proper := groupless.proper_textParts
  apart := by
    cases text with
    | nil => exact List.isChain_nil
    | cons c text => exact List.isChain_singleton _

/-- A text without groups may stand in front of what begins with one. -/
theorem Groupless.decomposes_append {rest content : List Char} {parts : List WatchPart} (groupless : Groupless text)
    (cut : Decomposes rest (.group content :: parts)) :
    Decomposes (text ++ rest) (textParts text ++ .group content :: parts) where
  whole := by rw [List.flatMap_append, written_textParts, cut.whole]
  proper part member := by
    rcases List.mem_append.mp member with first | later
    · exact groupless.proper_textParts part first
    · exact cut.proper part later
  apart := by
    cases text with
    | nil => exact cut.apart
    | cons c text => exact List.isChain_cons_cons.mpr ⟨fun texts => texts.2, cut.apart⟩

theorem Decomposes.tokenize {parts : List WatchPart} (cut : Decomposes text parts) :
    WatchToken.tokenize text = parts.map WatchPart.token := by
  obtain ⟨others, again, tokens⟩ := exists_decomposes text
  rw [tokens, again.unique cut]

end Around

namespace WatchPattern

theorem pieces_writtenPart {name : String} {part : Option String} (uncut : ':' ∉ name.toList)
    (passed : ∀ text ∈ part, text ≠ "" ∧ ':' ∉ text.toList) :
    ∃ others, Text.pieces ':' (name ++ writtenPart part).toList = name.toList :: others ∧ partOf others = part := by
  cases part with
  | none =>
    refine ⟨[], ?_, rfl⟩
    rw [writtenPart, String.append_empty, Text.pieces_of_notMem uncut]
  | some text =>
    obtain ⟨filled, plain⟩ := passed text rfl
    refine ⟨[text.toList], ?_, ?_⟩
    · have colon : ":".toList = [':'] := rfl
      rw [writtenPart, String.toList_append, String.toList_append, colon, List.singleton_append,
        Text.pieces_append_cons uncut, Text.pieces_of_notMem plain]
    · cases written : text.toList with
      | nil => exact absurd (String.toList_eq_nil_iff.mp written) filled
      | cons c rest =>
        have back : String.ofList (c :: rest) = text := by rw [← written, String.ofList_toList]
        rw [partOf, back]
        exact fun empty => List.cons_ne_nil c rest empty

theorem toList_grouped (before group after : String) :
    (before ++ "\x7b" ++ group ++ "\x7d" ++ after).toList =
      before.toList ++ (writtenGroup group.toList ++ after.toList) := by
  have opening : "\x7b".toList = ['{'] := rfl
  have closing : "\x7d".toList = ['}'] := rfl
  simp [opening, closing, writtenGroup]

variable {before after group : String} {types : List String} {part : Option String}

theorem tokenize_grouped (first : Groupless before.toList) (last : Groupless after.toList)
    (content : GroupContent group.toList) :
    WatchToken.tokenize (before ++ "\x7b" ++ group ++ "\x7d" ++ after).toList =
      (textParts before.toList).map WatchPart.token ++
        ((WatchPart.group group.toList).token :: (textParts after.toList).map WatchPart.token) := by
  have cut := first.decomposes_append (last.decomposes.group content)
  rw [toList_grouped, cut.tokenize, List.map_append, List.map_cons]

theorem parse_grouped (uncut : ':' ∉ before.toList ∧ ':' ∉ after.toList)
    (groupless : Groupless before.toList ∧ Groupless after.toList)
    (spelt : ∀ type ∈ types, IsWord type.toList) (lists : ListsTypes types group)
    (passed : ∀ text ∈ part, text ≠ "" ∧ ':' ∉ text.toList) :
    parse (before ++ "\x7b" ++ group ++ "\x7d" ++ after ++ writtenPart part) = ⟨before ++ after, some types, part⟩ := by
  have content := lists.content spelt
  have tokens := tokenize_grouped groupless.1 groupless.2 content
  have colon : ':' ∉ (before ++ "\x7b" ++ group ++ "\x7d" ++ after).toList := by
    have foreign : ':' ∉ group.toList := fun member => by
      have allowed := content.2 ':' member
      revert allowed
      decide
    rw [toList_grouped]
    simp [writtenGroup, uncut.1, uncut.2, foreign]
  obtain ⟨others, cut, given⟩ := pieces_writtenPart colon passed
  have task : String.ofList ((WatchToken.tokenize (before ++ "\x7b" ++ group ++ "\x7d" ++ after).toList).flatMap
      WatchToken.literal) = before ++ after := by
    have silent : (WatchPart.group group.toList).token.literal = [] := rfl
    rw [tokens, List.flatMap_append, List.flatMap_cons, literal_textParts, literal_textParts, silent, List.nil_append,
      ← String.toList_append, String.ofList_toList]
  have filter : (WatchToken.tokenize (before ++ "\x7b" ++ group ++ "\x7d" ++ after).toList).findSome?
      WatchToken.eventTypes? = some types := by
    rw [tokens, List.findSome?_append, eventTypes?_textParts, Option.none_or,
      List.findSome?_cons_of_isSome (by rw [lists.eventTypes? spelt]; rfl), lists.eventTypes? spelt]
  rw [(parse_of_pieces cut).2, task, filter, given]

theorem parse_groupless (uncut : ':' ∉ before.toList) (groupless : Groupless before.toList)
    (passed : ∀ text ∈ part, text ≠ "" ∧ ':' ∉ text.toList) :
    parse (before ++ writtenPart part) = ⟨before, none, part⟩ := by
  obtain ⟨others, cut, given⟩ := pieces_writtenPart uncut passed
  have tokens := groupless.decomposes.tokenize
  rw [(parse_of_pieces cut).2, tokens, literal_textParts, eventTypes?_textParts, String.ofList_toList, given]

end WatchPattern

open WatchPattern

/-- Parsing undoes writing. A name with a filter group somewhere in it, however the group is barred and spaced
out, gives the texts around the group as the task, the listed types in their order, and the part that is passed
on; the pattern accepts those types and no other. A name without a group is the task, and accepts every type. -/
theorem parse_written {before after group : String} {types : List String} {part : Option String}
    (uncut : ':' ∉ before.toList ∧ ':' ∉ after.toList)
    (groupless : Groupless before.toList ∧ Groupless after.toList)
    (spelt : ∀ type ∈ types, IsWord type.toList) (lists : ListsTypes types group)
    (passed : ∀ text ∈ part, text ≠ "" ∧ ':' ∉ text.toList) :
    parse (before ++ "\x7b" ++ group ++ "\x7d" ++ after ++ writtenPart part) = ⟨before ++ after, some types, part⟩ ∧
    (∀ type, (parse (before ++ "\x7b" ++ group ++ "\x7d" ++ after ++ writtenPart part)).accepts type = true ↔
      type ∈ types) ∧
    parse (before ++ writtenPart part) = ⟨before, none, part⟩ ∧
    ∀ type, (parse (before ++ writtenPart part)).accepts type = true := by
  have grouped := parse_grouped uncut groupless spelt lists passed
  have plain := parse_groupless uncut.1 groupless.1 passed
  refine ⟨grouped, fun type => ?_, plain, fun type => ?_⟩
  · rw [grouped]
    exact List.contains_iff_mem
  · rw [plain]
    rfl

/-- Braces that do not pair with the group between them, white space in a word, and bars at both ends. -/
theorem parse_written_unpaired :
    (':' ∉ "a\x7bx|-\x7b".toList ∧ ':' ∉ "\x7db\x7by".toList) ∧
    (Groupless "a\x7bx|-\x7b".toList ∧ Groupless "\x7db\x7by".toList) ∧
    (∀ type ∈ ["change", "add٣"], IsWord type.toList) ∧
    ListsTypes ["change", "add٣"] "| cha\u2009nge ||\tadd٣ |" ∧
    parse "a\x7bx|-\x7b\x7b| cha\u2009nge ||\tadd٣ |\x7d\x7db\x7by:js\x7d" =
      ⟨"a\x7bx|-\x7b\x7db\x7by", some ["change", "add٣"], some "js\x7d"⟩ ∧
    (∀ type, (parse "a\x7bx|-\x7b\x7b| cha\u2009nge ||\tadd٣ |\x7d\x7db\x7by:js\x7d").accepts type = true ↔
      type ∈ ["change", "add٣"]) ∧
    parse "a\x7bx|-\x7b:js\x7d" = ⟨"a\x7bx|-\x7b", none, some "js\x7d"⟩ := by
  have uncut : ':' ∉ "a\x7bx|-\x7b".toList ∧ ':' ∉ "\x7db\x7by".toList := by decide
  have groupless : Groupless "a\x7bx|-\x7b".toList ∧ Groupless "\x7db\x7by".toList := by decide +kernel
  have spelt : ∀ type ∈ ["change", "add٣"], IsWord type.toList := by
    simp only [List.mem_cons, List.not_mem_nil, or_false, forall_eq_or_imp, forall_eq]
    exact ⟨⟨by decide, List.all_eq_true.mp (by decide +kernel)⟩,
      ⟨by decide, List.all_eq_true.mp (by decide +kernel)⟩⟩
  have lists : ListsTypes ["change", "add٣"] "| cha\u2009nge ||\tadd٣ |" := by
    refine ⟨1, 1, _, .next "change".toList 1 (.last "add٣".toList), ?_⟩
    exact Spaced.of_filter "| cha\u2009nge ||\tadd٣ |".toList
  have passed : ∀ text ∈ some "js\x7d", text ≠ "" ∧ ':' ∉ text.toList := by
    rintro text ⟨⟩
    decide
  obtain ⟨parsed, accepted, plain, -⟩ := parse_written uncut groupless spelt lists passed
  exact ⟨uncut, groupless, spelt, lists, parsed, accepted, plain⟩

end TaskBoard
