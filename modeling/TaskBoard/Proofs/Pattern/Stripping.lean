import TaskBoard.Proofs.Pattern.Triggering

/-!
What is left of a watch pattern when its filter groups are dropped. The texts between the groups come together
in the name of the task, so a brace before a dropped group and one behind it can make a group that nobody wrote.
Nothing else does: a text alone holds no group, and the name is free of them, hence read again as it is, unless
two of its braces stand astride of a group.
-/

namespace TaskBoard

/-- An opening brace of one text and a closing brace of a later text, between which only group characters are left
once the groups are dropped. -/
def Straddled (parts : List WatchPart) : Prop :=
  ∃ before opening inside middle rest closing after,
    parts = before ++ .text (opening ++ '{' :: inside) :: (middle ++ .text (rest ++ '}' :: closing) :: after) ∧
    GroupContent (inside ++ leftOver middle ++ rest)

section LeftOver

variable {parts others : List WatchPart}

@[simp] theorem leftOver_nil : leftOver [] = [] := rfl

@[simp] theorem leftOver_text (s : List Char) : leftOver (.text s :: parts) = s ++ leftOver parts := rfl

@[simp] theorem leftOver_group (content : List Char) : leftOver (.group content :: parts) = leftOver parts := rfl

@[simp] theorem leftOver_append : leftOver (parts ++ others) = leftOver parts ++ leftOver others := by
  simp [leftOver]

/-- What is left has no character that the text did not have. -/
theorem mem_of_mem_leftOver {c : Char} (member : c ∈ leftOver parts) : c ∈ parts.flatMap WatchPart.written := by
  induction parts with
  | nil => exact member
  | cons part parts ih =>
    rw [List.flatMap_cons]
    cases part with
    | text s => exact List.mem_append.mpr ((List.mem_append.mp member).imp_right ih)
    | group content => exact List.mem_append_right _ (ih member)

theorem exists_closing {s left : List Char} (ends : leftOver parts = s ++ '}' :: left) (unclosed : '}' ∉ s) :
    ∃ middle rest closing after, parts = middle ++ .text (rest ++ '}' :: closing) :: after ∧
      s = leftOver middle ++ rest := by
  induction parts generalizing s with
  | nil => simp at ends
  | cons part parts ih =>
    cases part with
    | group content =>
      obtain ⟨middle, rest, closing, after, rfl, rfl⟩ := ih ends unclosed
      exact ⟨.group content :: middle, rest, closing, after, rfl, rfl⟩
    | text t =>
      rw [leftOver_text] at ends
      rcases List.append_eq_append_iff.mp ends with ⟨more, rfl, beyond⟩ | ⟨more, rfl, beyond⟩
      · obtain ⟨middle, rest, closing, after, rfl, rfl⟩ :=
          ih beyond fun member => unclosed (List.mem_append_right t member)
        exact ⟨.text t :: middle, rest, closing, after, rfl, by simp⟩
      · cases more with
        | nil =>
          obtain ⟨middle, rest, closing, after, rfl, none⟩ := ih (s := []) beyond.symm List.not_mem_nil
          exact ⟨.text (s ++ []) :: middle, rest, closing, after, rfl, by simp [← none]⟩
        | cons c more =>
          obtain ⟨rfl, -⟩ := List.cons.inj beyond
          exact ⟨[], s, more, parts, rfl, rfl⟩

theorem Straddled.cons (straddled : Straddled parts) (part : WatchPart) : Straddled (part :: parts) := by
  obtain ⟨before, opening, inside, middle, rest, closing, after, rfl, group⟩ := straddled
  exact ⟨part :: before, opening, inside, middle, rest, closing, after, rfl, group⟩

/-- Braces astride of a group do make one. -/
theorem Straddled.makes_group (straddled : Straddled parts) : ¬Groupless (leftOver parts) := by
  obtain ⟨before, opening, inside, middle, rest, closing, after, rfl, group⟩ := straddled
  intro groupless
  apply groupless _ group
  exact ⟨leftOver before ++ opening, closing ++ leftOver after, by simp [writtenGroup]⟩

theorem GroupContent.closing_notMem {content : List Char} (group : GroupContent content) : '}' ∉ content := by
  intro member
  have allowed := group.2 '}' member
  revert allowed
  decide

theorem straddled_of_begins {opening begun left content after : List Char} (group : GroupContent content)
    (filled : begun ≠ []) (beyond : left ≠ []) (begins : writtenGroup content = begun ++ left)
    (next : leftOver parts = left ++ after) : Straddled (.text (opening ++ begun) :: parts) := by
  obtain ⟨c, inside, rfl⟩ := List.exists_cons_of_ne_nil filled
  obtain ⟨rfl, split⟩ := List.cons.inj begins
  obtain ⟨s, last, rfl⟩ := (List.eq_nil_or_concat left).resolve_left beyond
  have cut : content = inside ++ s ∧ ['}'] = [last] := by
    apply List.append_inj'
    · rw [split]
      simp
    · rfl
  obtain ⟨rfl, ends⟩ := cut
  obtain rfl : '}' = last := by simpa using ends
  have unclosed : '}' ∉ s := fun member => group.closing_notMem (List.mem_append_right inside member)
  obtain ⟨middle, rest, closing, later, rfl, rfl⟩ := exists_closing (by simpa using next) unclosed
  exact ⟨[], opening, inside, middle, rest, closing, later, rfl, by simpa using group⟩

theorem Decomposes.groupless_leftOver {text : List Char} (cut : Decomposes text parts) :
    Groupless (leftOver parts) ↔ ¬Straddled parts := by
  constructor
  · intro groupless straddled
    exact straddled.makes_group groupless
  · intro apart content group stands
    apply apart
    clear apart
    induction parts generalizing text with
    | nil => exact (groupless_nil content group stands).elim
    | cons part parts ih =>
      cases part with
      | group dropped => exact (ih cut.tail stands).cons _
      | text s =>
        have groupless : Groupless s := (cut.proper _ List.mem_cons_self).2
        obtain ⟨before, after, whole⟩ := stands
        rw [leftOver_text, List.append_assoc] at whole
        rcases List.append_eq_append_iff.mp whole with ⟨begun, rfl, within⟩ | ⟨between, rfl, later⟩
        · rcases List.append_eq_append_iff.mp within with ⟨more, rfl, -⟩ | ⟨left, begins, next⟩
          · exact (groupless content group ⟨before, more, by simp⟩).elim
          · by_cases filled : begun = []
            · subst filled
              have same : writtenGroup content = left := begins
              rw [← same] at next
              exact (ih cut.tail ⟨[], after, next.symm⟩).cons _
            · by_cases beyond : left = []
              · subst beyond
                rw [List.append_nil] at begins
                exact (groupless content group ⟨before, [], by simp [begins]⟩).elim
              · exact straddled_of_begins group filled beyond begins next
        · exact (ih cut.tail ⟨between, after, by simp [later]⟩).cons _

end LeftOver

namespace WatchPattern

/-- The name of a task is cut off before the first colon. -/
theorem colon_notMem_task (pattern : String) : ':' ∉ (parse pattern).task.toList := by
  obtain ⟨parts, cut, -⟩ := exists_decomposes (nameOf pattern)
  intro member
  rw [toList_task cut] at member
  have named := mem_of_mem_leftOver member
  rw [cut.whole, nameOf_eq] at named
  have different := List.mem_takeWhile_imp named
  simp at different

theorem types_ne_none {name : String} (uncut : ':' ∉ name.toList) (holds : ¬Groupless name.toList) :
    (parse name).types ≠ none := by
  obtain ⟨content, first⟩ := exists_firstGroup holds
  rw [(parse_of_pieces (Text.pieces_of_notMem uncut)).2, findSome?_of_firstGroup first]
  exact Option.some_ne_none _

end WatchPattern

open WatchPattern

/-- The name of a task never holds a colon, and it holds no filter group unless the pattern has braces astride of
one. These are the patterns whose name is not read again as itself: every other name is, with no filter and with
nothing to pass on. -/
theorem task_stable_unless_straddled (pattern : String) :
    ':' ∉ (parse pattern).task.toList ∧
    (Groupless (parse pattern).task.toList ↔
      ∀ parts, Decomposes (nameOf pattern) parts → ¬Straddled parts) ∧
    (parse (parse pattern).task = ⟨(parse pattern).task, none, none⟩ ↔
      ∀ parts, Decomposes (nameOf pattern) parts → ¬Straddled parts) := by
  have uncut := colon_notMem_task pattern
  have exact_when : Groupless (parse pattern).task.toList ↔
      ∀ parts, Decomposes (nameOf pattern) parts → ¬Straddled parts := by
    constructor
    · intro groupless parts cut
      rw [toList_task cut] at groupless
      exact cut.groupless_leftOver.mp groupless
    · intro apart
      obtain ⟨parts, cut, -⟩ := exists_decomposes (nameOf pattern)
      rw [toList_task cut]
      exact cut.groupless_leftOver.mpr (apart parts cut)
  refine ⟨uncut, exact_when, ?_⟩
  rw [← exact_when]
  constructor
  · intro stable
    by_contra holds
    exact types_ne_none uncut holds (by rw [stable])
  · intro groupless
    have nothing : ∀ text ∈ (none : Option String), text ≠ "" ∧ ':' ∉ text.toList := by simp
    have again := parse_groupless uncut groupless nothing
    rwa [writtenPart, String.append_empty] at again

/-- The inner group goes, and the braces around it come together: the name is read as a filter and no name. -/
theorem task_stable_unless_straddled_nested :
    (parse "\x7ba\x7bx\x7db\x7d").task = "\x7bab\x7d" ∧
    (parse "\x7ba\x7bx\x7db\x7d").types = some ["x"] ∧
    ¬Groupless "\x7bab\x7d".toList ∧
    parse "\x7bab\x7d" = ⟨"", some ["ab"], none⟩ ∧
    ∃ parts, Decomposes (nameOf "\x7ba\x7bx\x7db\x7d") parts ∧ Straddled parts := by
  have task : (parse "\x7ba\x7bx\x7db\x7d").task = "\x7bab\x7d" := by decide +kernel
  have types : (parse "\x7ba\x7bx\x7db\x7d").types = some ["x"] := by decide +kernel
  have holds : ¬Groupless "\x7bab\x7d".toList := by decide +kernel
  obtain ⟨-, strips, -⟩ := task_stable_unless_straddled "\x7ba\x7bx\x7db\x7d"
  refine ⟨task, types, holds, by decide +kernel, ?_⟩
  by_contra apart
  push Not at apart
  rw [task] at strips
  exact holds (strips.mpr apart)

end TaskBoard
