import Mathlib.Data.List.Chain
import Mathlib.Data.List.TakeWhile
import TaskBoard.Pattern.Watch

/-!
The parts of a watch pattern. A text is cut into filter groups and what lies between them in one way only:
groups never overlap, since a brace is no character that a group may hold, so every group that stands
anywhere in the text has to be a part of its own. The tokens of a pattern are those of its parts.
-/

namespace TaskBoard

def GroupContent (content : List Char) : Prop := content ≠ [] ∧ ∀ c ∈ content, isFilterChar c = true

/-- A filter group as it is written. -/
def writtenGroup (content : List Char) : List Char := '{' :: (content ++ ['}'])

/-- No filter group stands anywhere in the text. -/
def Groupless (text : List Char) : Prop := ∀ content, GroupContent content → ¬writtenGroup content <:+: text

inductive WatchPart where
  | text (s : List Char)
  | group (content : List Char)

namespace WatchPart

def written : WatchPart → List Char
  | text s => s
  | group content => writtenGroup content

def token : WatchPart → WatchToken
  | text s => .text s
  | group content => .filter (content.filter (!Text.isBlank ·))

def IsText : WatchPart → Prop
  | text _ => True
  | group _ => False

/-- A text is not empty and holds no group; a group is one. -/
def Proper : WatchPart → Prop
  | text s => s ≠ [] ∧ Groupless s
  | group content => GroupContent content

end WatchPart

/-- The parts make up the text, and no two texts are neighbours. -/
structure Decomposes (text : List Char) (parts : List WatchPart) : Prop where
  whole : parts.flatMap WatchPart.written = text
  proper : ∀ part ∈ parts, part.Proper
  apart : parts.IsChain fun first second => ¬(first.IsText ∧ second.IsText)

section Groups

theorem filterGroup?_eq_some {text content after : List Char} :
    filterGroup? text = some (content, after) ↔ GroupContent content ∧ text = writtenGroup content ++ after := by
  constructor
  · intro found
    unfold filterGroup? at found
    split at found
    next rest =>
      split at found
      next first others after' taken dropped =>
        simp only [Option.some.injEq, Prod.mk.injEq] at found
        obtain ⟨rfl, rfl⟩ := found
        have allowed : ∀ c ∈ rest.takeWhile isFilterChar, isFilterChar c = true := fun c member =>
          List.mem_takeWhile_imp member
        have cut := List.takeWhile_append_dropWhile (p := isFilterChar) (l := rest)
        rw [taken] at allowed
        rw [taken, dropped] at cut
        refine ⟨⟨by simp, allowed⟩, ?_⟩
        rw [← cut]
        simp [writtenGroup]
      next => cases found
    next => cases found
  · rintro ⟨⟨filled, allowed⟩, rfl⟩
    have taken : (content ++ '}' :: after).takeWhile isFilterChar = content := by
      rw [List.takeWhile_append_of_pos allowed, List.takeWhile_cons_of_neg (by decide), List.append_nil]
    have dropped : (content ++ '}' :: after).dropWhile isFilterChar = '}' :: after := by
      rw [List.dropWhile_append_of_pos allowed, List.dropWhile_cons_of_neg (by decide)]
    obtain ⟨first, others, rfl⟩ := List.exists_cons_of_ne_nil filled
    have opened : writtenGroup (first :: others) ++ after = '{' :: (first :: others ++ '}' :: after) := by
      simp [writtenGroup]
    rw [opened]
    unfold filterGroup?
    simp only [taken, dropped]

theorem writtenGroup_inj {first second rest others : List Char} (one : GroupContent first)
    (two : GroupContent second) (same : writtenGroup first ++ rest = writtenGroup second ++ others) :
    first = second ∧ rest = others := by
  have found : filterGroup? (writtenGroup first ++ rest) = some (first, rest) := filterGroup?_eq_some.mpr ⟨one, rfl⟩
  rw [filterGroup?_eq_some.mpr ⟨two, same⟩] at found
  cases found
  exact ⟨rfl, rfl⟩

theorem Groupless.inside {text part : List Char} (groupless : Groupless text) (inside : part <:+: text) :
    Groupless part := fun content group stands => groupless content group (stands.trans inside)

/-- No group begins where none is found, so a text gets none by its first character. -/
theorem Groupless.cons {c : Char} {s rest : List Char} (groupless : Groupless s)
    (silent : filterGroup? (c :: (s ++ rest)) = none) : Groupless (c :: s) := by
  intro content group stands
  rcases List.infix_cons_iff.mp stands with ⟨after, begins⟩ | later
  · have found : filterGroup? (c :: (s ++ rest)) = some (content, after ++ rest) := by
      apply filterGroup?_eq_some.mpr
      refine ⟨group, ?_⟩
      rw [← List.append_assoc, begins]
      rfl
    rw [silent] at found
    cases found
  · exact groupless content group later

theorem Groupless.append_of_notMem {s rest : List Char} (groupless : Groupless rest) (absent : '{' ∉ s) :
    Groupless (s ++ rest) := by
  induction s with
  | nil => exact groupless
  | cons c s ih =>
    intro content group stands
    rcases List.infix_cons_iff.mp stands with ⟨after, begins⟩ | later
    · obtain ⟨rfl, -⟩ := List.cons.inj begins
      simp at absent
    · exact ih (fun member => absent (List.mem_cons_of_mem c member)) content group later

theorem groupless_nil : Groupless [] := by
  intro content group stands
  have empty := List.infix_nil.mp stands
  cases empty

/-- A text without groups is not the first part of what begins with a group, whatever is next. -/
theorem Groupless.not_begins_group {s content rest others : List Char} (groupless : Groupless s) (filled : s ≠ [])
    (group : GroupContent content) (next : ∀ c, others.head? = some c → c = '{')
    (same : writtenGroup content ++ rest = s ++ others) : False := by
  rcases List.append_eq_append_iff.mp same with ⟨more, longer, -⟩ | ⟨left, cut, beyond⟩
  · exact groupless content group ⟨[], more, by rw [longer]; rfl⟩
  · cases left with
    | nil =>
      rw [List.append_nil] at cut
      exact groupless content group (cut ▸ List.infix_refl _)
    | cons c left =>
      obtain rfl : c = '{' := next c (by rw [beyond]; rfl)
      obtain ⟨first, tail, rfl⟩ := List.exists_cons_of_ne_nil filled
      -- the brace that comes next would stand inside the group, behind its first character
      have inside : '{' ∈ content ++ ['}'] := by
        have behind := (List.cons.inj cut).2
        rw [behind]
        simp
      rcases List.mem_append.mp inside with held | last
      · have allowed := group.2 '{' held
        revert allowed
        decide
      · revert last
        decide

end Groups

namespace Decomposes

variable {text : List Char} {part other : WatchPart} {parts others : List WatchPart}

theorem tail (cut : Decomposes text (part :: parts)) : Decomposes (parts.flatMap WatchPart.written) parts where
  whole := rfl
  proper later member := cut.proper later (List.mem_cons_of_mem part member)
  apart := cut.apart.tail

/-- A text is followed by a group or by nothing. -/
theorem next_of_text {s : List Char} (cut : Decomposes text (.text s :: parts)) :
    ∀ c, (parts.flatMap WatchPart.written).head? = some c → c = '{' := by
  intro c first
  cases parts with
  | nil => cases first
  | cons part parts =>
    cases part with
    | text t => exact absurd ⟨trivial, trivial⟩ (List.isChain_cons_cons.mp cut.apart).1
    | group content =>
      simp only [List.flatMap_cons, WatchPart.written, writtenGroup, List.cons_append, List.head?_cons,
        Option.some.injEq] at first
      exact first.symm

theorem text_le {s t : List Char} (cut : Decomposes text (.text s :: parts))
    (again : Decomposes text (.text t :: others)) : t.length ≤ s.length := by
  by_contra longer
  have same : s ++ parts.flatMap WatchPart.written = t ++ others.flatMap WatchPart.written :=
    cut.whole.trans again.whole.symm
  -- what the longer text has beyond the shorter one begins with a group
  rcases List.append_eq_append_iff.mp same with ⟨more, rfl, beyond⟩ | ⟨more, rfl, -⟩
  · have filled : more ≠ [] := by
      rintro rfl
      simp at longer
    have groupless : Groupless more := (again.proper _ List.mem_cons_self).2.inside (List.suffix_append s more).isInfix
    cases parts with
    | nil =>
      have empty := List.append_eq_nil_iff.mp beyond.symm
      exact filled empty.1
    | cons part parts =>
      cases part with
      | text u => exact (List.isChain_cons_cons.mp cut.apart).1 ⟨trivial, trivial⟩
      | group content =>
        have group : GroupContent content := cut.proper (.group content) (by simp)
        rw [List.flatMap_cons] at beyond
        exact groupless.not_begins_group filled group again.next_of_text beyond
  · simp at longer

/-- Two ways to cut a text begin with the same part. -/
theorem head_eq (cut : Decomposes text (part :: parts)) (again : Decomposes text (other :: others)) :
    part = other ∧ parts.flatMap WatchPart.written = others.flatMap WatchPart.written := by
  have same : part.written ++ parts.flatMap WatchPart.written =
      other.written ++ others.flatMap WatchPart.written := cut.whole.trans again.whole.symm
  have one := cut.proper part List.mem_cons_self
  have two := again.proper other List.mem_cons_self
  cases part with
  | text s =>
    cases other with
    | text t =>
      have lengths := Nat.le_antisymm (again.text_le cut) (cut.text_le again)
      obtain ⟨rfl, rest⟩ := List.append_inj same lengths
      exact ⟨rfl, rest⟩
    | group content => exact (one.2.not_begins_group one.1 two cut.next_of_text same.symm).elim
  | group content =>
    cases other with
    | text t => exact (two.2.not_begins_group two.1 one again.next_of_text same).elim
    | group content' =>
      obtain ⟨rfl, rest⟩ := writtenGroup_inj one two same
      exact ⟨rfl, rest⟩

theorem ne_nil (cut : Decomposes text (part :: parts)) : text ≠ [] := by
  intro empty
  have nothing := (List.append_eq_nil_iff.mp (cut.whole.trans empty)).1
  have proper := cut.proper part List.mem_cons_self
  cases part with
  | text s => exact proper.1 nothing
  | group content => cases nothing

theorem unique (cut : Decomposes text parts) (again : Decomposes text others) : parts = others := by
  induction parts generalizing text others with
  | nil =>
    cases others with
    | nil => rfl
    | cons other others => exact absurd cut.whole.symm again.ne_nil
  | cons part parts ih =>
    cases others with
    | nil => exact absurd again.whole.symm cut.ne_nil
    | cons other others =>
      obtain ⟨rfl, rest⟩ := cut.head_eq again
      have later := again.tail
      rw [← rest] at later
      rw [ih cut.tail later]

end Decomposes

namespace WatchToken

theorem tokenize_of_group {text content after : List Char} (found : filterGroup? text = some (content, after)) :
    tokenize text = filter (content.filter (!Text.isBlank ·)) :: tokenize after := by
  cases text with
  | nil => cases found
  | cons c rest =>
    rw [tokenize]
    split
    next content' after' found' =>
      rw [found] at found'
      cases found'
      rfl
    next silent =>
      rw [found] at silent
      cases silent

/-- A character that begins no group joins the text that comes after it. -/
theorem tokenize_of_no_group {c : Char} {rest : List Char} (silent : filterGroup? (c :: rest) = none) :
    tokenize (c :: rest) = match tokenize rest with
      | text s :: tokens => text (c :: s) :: tokens
      | tokens => text [c] :: tokens := by
  rw [tokenize]
  split
  next found =>
    rw [silent] at found
    cases found
  next => rfl

end WatchToken

namespace WatchPart

/-- The parts of a text that gets one more character in front, which begins no group. -/
def join (c : Char) : List WatchPart → List WatchPart
  | text s :: parts => text (c :: s) :: parts
  | parts => text [c] :: parts

end WatchPart

namespace Decomposes

variable {c : Char} {rest : List Char} {parts : List WatchPart}

theorem join (silent : filterGroup? (c :: rest) = none) (cut : Decomposes rest parts) :
    Decomposes (c :: rest) (WatchPart.join c parts) := by
  have alone : Groupless [c] := groupless_nil.cons (show filterGroup? (c :: ([] ++ rest)) = none from silent)
  match parts, cut with
  | [], cut =>
    refine ⟨?_, ?_, List.isChain_singleton _⟩
    · simpa [WatchPart.join, WatchPart.written] using cut.whole
    · simpa [WatchPart.join, WatchPart.Proper] using alone
  | .text s :: parts, cut =>
    have whole : s ++ parts.flatMap WatchPart.written = rest := cut.whole
    refine ⟨?_, ?_, ?_⟩
    · simpa [WatchPart.join, WatchPart.written] using whole
    · rw [← whole] at silent
      have longer : Groupless (c :: s) := (cut.proper _ List.mem_cons_self).2.cons silent
      intro part member
      rcases List.mem_cons.mp member with rfl | later
      · exact ⟨List.cons_ne_nil c s, longer⟩
      · exact cut.proper part (List.mem_cons_of_mem _ later)
    · have apart := cut.apart
      cases parts with
      | nil => exact List.isChain_singleton _
      | cons part parts => exact List.isChain_cons_cons.mpr (List.isChain_cons_cons.mp apart)
  | .group content :: parts, cut =>
    refine ⟨?_, ?_, List.isChain_cons_cons.mpr ⟨fun texts => texts.2, cut.apart⟩⟩
    · simpa [WatchPart.join, WatchPart.written] using cut.whole
    · intro part member
      rcases List.mem_cons.mp member with rfl | later
      · exact ⟨List.cons_ne_nil c [], alone⟩
      · exact cut.proper part later

theorem group {content after : List Char} {parts : List WatchPart} (group : GroupContent content)
    (cut : Decomposes after parts) : Decomposes (writtenGroup content ++ after) (.group content :: parts) := by
  refine ⟨?_, ?_, ?_⟩
  · rw [List.flatMap_cons, cut.whole]
    rfl
  · intro part member
    rcases List.mem_cons.mp member with rfl | later
    · exact group
    · exact cut.proper part later
  · cases parts with
    | nil => exact List.isChain_singleton _
    | cons part parts => exact List.isChain_cons_cons.mpr ⟨fun texts => texts.1, cut.apart⟩

end Decomposes

theorem WatchPart.token_join {c : Char} {rest : List Char} {parts : List WatchPart}
    (silent : filterGroup? (c :: rest) = none) (tokens : WatchToken.tokenize rest = parts.map WatchPart.token) :
    WatchToken.tokenize (c :: rest) = (WatchPart.join c parts).map WatchPart.token := by
  rw [WatchToken.tokenize_of_no_group silent, tokens]
  match parts with
  | [] => rfl
  | .text s :: parts => rfl
  | .group content :: parts => rfl

/-- The scan finds parts that make up the text, one leftmost group after another. -/
theorem exists_decomposes (text : List Char) :
    ∃ parts, Decomposes text parts ∧ WatchToken.tokenize text = parts.map WatchPart.token := by
  induction bound : text.length using Nat.strong_induction_on generalizing text with
  | _ length ih =>
    subst bound
    cases text with
    | nil => exact ⟨[], ⟨rfl, by simp, List.isChain_nil⟩, by simp [WatchToken.tokenize]⟩
    | cons c rest =>
      cases found : filterGroup? (c :: rest) with
      | some cut =>
        obtain ⟨content, after⟩ := cut
        obtain ⟨group, whole⟩ := filterGroup?_eq_some.mp found
        obtain ⟨parts, cut, tokens⟩ := ih after.length (filterGroup?_shorter found) after rfl
        refine ⟨.group content :: parts, whole ▸ cut.group group, ?_⟩
        rw [WatchToken.tokenize_of_group found, tokens]
        rfl
      | none =>
        obtain ⟨parts, cut, tokens⟩ := ih rest.length (by simp) rest rfl
        exact ⟨WatchPart.join c parts, cut.join found, WatchPart.token_join found tokens⟩

/-- Every text has exactly one decomposition into groups and texts between them, and a list of tokens belongs to
a decomposition of the text if and only if it is what the scan gives. -/
theorem tokenize_decomposes_uniquely (text : List Char) :
    (∃! parts, Decomposes text parts) ∧
      ∀ tokens, (∃ parts, Decomposes text parts ∧ parts.map WatchPart.token = tokens) ↔
        tokens = WatchToken.tokenize text := by
  obtain ⟨parts, cut, scanned⟩ := exists_decomposes text
  refine ⟨⟨parts, cut, fun others again => again.unique cut⟩, fun tokens => ⟨?_, ?_⟩⟩
  · rintro ⟨others, again, rfl⟩
    rw [scanned, again.unique cut]
  · rintro rfl
    exact ⟨parts, cut, scanned.symm⟩

end TaskBoard
