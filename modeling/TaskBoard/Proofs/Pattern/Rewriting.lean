import Mathlib.Data.List.Basic
import Mathlib.Data.List.TakeWhile
import TaskBoard.Text.Pieces

/-!
How rewriting and cutting texts go together. A word is replaced in every part of a text on its own where
the parts meet at characters that the word does not have, so it can be replaced before or after a text is
cut at such a character.
-/

namespace TaskBoard.Text

section Replacing

variable {word new : List Char}

theorem replaceWord_found (filled : word ≠ []) (rest : List Char) :
    replaceWord word new (word ++ rest) = new ++ replaceWord word new rest := by
  obtain ⟨first, others, rfl⟩ := List.exists_cons_of_ne_nil filled
  rw [List.cons_append, replaceWord]
  have found : (first :: others) ≠ [] ∧ (first :: others).isPrefixOf (first :: (others ++ rest)) = true :=
    ⟨filled, List.isPrefixOf_iff_prefix.mpr (List.prefix_append (first :: others) rest)⟩
  rw [dif_pos found]
  simp

theorem replaceWord_other {c : Char} {rest : List Char} (absent : ¬word <+: c :: rest) :
    replaceWord word new (c :: rest) = c :: replaceWord word new rest := by
  rw [replaceWord, dif_neg]
  rintro ⟨-, found⟩
  exact absent (List.isPrefixOf_iff_prefix.mp found)

theorem replaceWord_nil : replaceWord word new [] = [] := by rw [replaceWord]

/-- What is shown of a text by the steps in which a word is replaced. -/
theorem replaceWord_induction (filled : word ≠ []) {motive : List Char → Prop} (empty : motive [])
    (found : ∀ rest, motive rest → motive (word ++ rest))
    (other : ∀ c rest, ¬word <+: c :: rest → motive rest → motive (c :: rest)) (text : List Char) : motive text := by
  induction bound : text.length using Nat.strongRecOn generalizing text with
  | _ length ih =>
    subst bound
    cases text with
    | nil => exact empty
    | cons c rest =>
      by_cases stands : word <+: c :: rest
      · obtain ⟨after, cut⟩ := stands
        have positive := List.length_pos_iff.mpr filled
        have shorter : after.length < (c :: rest).length := by
          rw [← cut, List.length_append]
          omega
        exact cut ▸ found after (ih after.length shorter after rfl)
      · exact other c rest stands (ih rest.length (by simp) rest rfl)

/-- The second text is the first with a new one for the word, wherever the word stands as one reads on. -/
inductive Replaces (word new : List Char) : List Char → List Char → Prop where
  | done : Replaces word new [] []
  | found {rest out : List Char} : Replaces word new rest out → Replaces word new (word ++ rest) (new ++ out)
  | other {c : Char} {rest out : List Char} : ¬word <+: c :: rest → Replaces word new rest out →
    Replaces word new (c :: rest) (c :: out)

theorem replaces_replaceWord (filled : word ≠ []) (text : List Char) :
    Replaces word new text (replaceWord word new text) := by
  induction text using replaceWord_induction filled with
  | empty =>
    rw [replaceWord_nil]
    exact .done
  | found rest ih =>
    rw [replaceWord_found filled]
    exact .found ih
  | other c rest absent ih =>
    rw [replaceWord_other absent]
    exact .other absent ih

theorem replaces_iff (filled : word ≠ []) {text out : List Char} :
    Replaces word new text out ↔ out = replaceWord word new text := by
  constructor
  · intro replaces
    induction replaces with
    | done => rw [replaceWord_nil]
    | found later ih => rw [replaceWord_found filled, ih]
    | other absent later ih => rw [replaceWord_other absent, ih]
  · rintro rfl
    exact replaces_replaceWord filled text

/-- A character that the word does not have parts a text into two that are rewritten alone. -/
theorem replaceWord_append_cons {c : Char} (filled : word ≠ []) (foreign : c ∉ word) (s t : List Char) :
    replaceWord word new (s ++ c :: t) = replaceWord word new s ++ c :: replaceWord word new t := by
  induction s using replaceWord_induction filled with
  | empty =>
    rw [replaceWord_nil, List.nil_append, List.nil_append]
    apply replaceWord_other
    rintro ⟨after, begins⟩
    obtain ⟨first, others, rfl⟩ := List.exists_cons_of_ne_nil filled
    obtain ⟨rfl, -⟩ := List.cons.inj begins
    simp at foreign
  | found rest ih =>
    rw [List.append_assoc, replaceWord_found filled, replaceWord_found filled, ih, List.append_assoc]
  | other first rest absent ih =>
    have still : ¬word <+: first :: (rest ++ c :: t) := by
      rintro ⟨after, begins⟩
      rw [← List.cons_append] at begins
      rcases List.append_eq_append_iff.mp begins with ⟨more, cut, -⟩ | ⟨more, cut, beyond⟩
      · exact absent ⟨more, cut.symm⟩
      · cases more with
        | nil => exact absent ⟨[], by rw [cut, List.append_nil, List.append_nil]⟩
        | cons d more =>
          obtain ⟨rfl, -⟩ := List.cons.inj beyond
          apply foreign
          rw [cut]
          simp
    rw [List.cons_append, replaceWord_other still, replaceWord_other absent, ih, List.cons_append]

/-- Nothing is replaced where the word cannot begin. -/
theorem replaceWord_append_of_no_start {first : Char} {others s : List Char} (absent : first ∉ s) (t : List Char) :
    replaceWord (first :: others) new (s ++ t) = s ++ replaceWord (first :: others) new t := by
  induction s with
  | nil => rfl
  | cons c s ih =>
    have still : ¬(first :: others) <+: c :: (s ++ t) := by
      rintro ⟨after, begins⟩
      obtain ⟨rfl, -⟩ := List.cons.inj begins
      simp at absent
    rw [List.cons_append, replaceWord_other still, ih fun member => absent (List.mem_cons_of_mem c member),
      List.cons_append]

/-- A word that does not stand in a text is not replaced in it. -/
theorem replaceWord_of_not_infix {text : List Char} (filled : word ≠ []) (absent : ¬word <:+: text) :
    replaceWord word new text = text := by
  induction text using replaceWord_induction filled with
  | empty => exact replaceWord_nil
  | found rest => exact absurd (List.prefix_append word rest).isInfix absent
  | other c rest absentHere ih =>
    have later : ¬word <:+: rest := fun stands => absent (stands.trans (List.suffix_cons c rest).isInfix)
    rw [replaceWord_other absentHere, ih later]

theorem mem_replaceWord {c : Char} {text : List Char} (filled : word ≠ [])
    (member : c ∈ replaceWord word new text) : c ∈ text ∨ c ∈ new := by
  induction text using replaceWord_induction filled with
  | empty =>
    rw [replaceWord_nil] at member
    exact .inl member
  | found rest ih =>
    rw [replaceWord_found filled] at member
    rcases List.mem_append.mp member with written | later
    · exact .inr written
    · exact (ih later).imp_left (List.mem_append_right word)
  | other first rest absent ih =>
    rw [replaceWord_other absent] at member
    rcases List.mem_cons.mp member with rfl | later
    · exact .inl List.mem_cons_self
    · exact (ih later).imp_left (List.mem_cons_of_mem first)

theorem replaceWord_eq_nil (filled : word ≠ []) (given : new ≠ []) {text : List Char} :
    replaceWord word new text = [] ↔ text = [] := by
  induction text using replaceWord_induction filled with
  | empty => rw [replaceWord_nil]
  | found rest ih => simp [replaceWord_found filled, filled, given]
  | other first rest absent ih => simp [replaceWord_other absent]

end Replacing

section Cutting

variable {separator : Char}

theorem pieces_of_notMem {s : List Char} (foreign : separator ∉ s) : pieces separator s = [s] := by
  induction s with
  | nil => rfl
  | cons c s ih =>
    have different : c ≠ separator := by
      rintro rfl
      simp at foreign
    rw [pieces, if_neg different, ih fun member => foreign (List.mem_cons_of_mem c member)]

theorem pieces_append_cons {s : List Char} (foreign : separator ∉ s) (t : List Char) :
    pieces separator (s ++ separator :: t) = s :: pieces separator t := by
  induction s with
  | nil => rw [List.nil_append, pieces, if_pos rfl]
  | cons c s ih =>
    have different : c ≠ separator := by
      rintro rfl
      simp at foreign
    rw [List.cons_append, pieces, if_neg different, ih fun member => foreign (List.mem_cons_of_mem c member)]

theorem cut_cases (separator : Char) (text : List Char) :
    separator ∉ text ∨ ∃ s t, text = s ++ separator :: t ∧ separator ∉ s := by
  by_cases member : separator ∈ text
  · exact .inr (List.eq_append_cons_of_mem member)
  · exact .inl member

theorem headD_pieces (separator : Char) (text : List Char) :
    (pieces separator text).headD [] = text.takeWhile (· ≠ separator) := by
  rcases cut_cases separator text with none | ⟨s, t, rfl, none⟩
  · have all : ∀ c ∈ text, decide (c ≠ separator) = true := by grind
    rw [pieces_of_notMem none, List.takeWhile_eq_self_iff.mpr all]
    rfl
  · have all : ∀ c ∈ s, decide (c ≠ separator) = true := by grind
    rw [pieces_append_cons none, List.takeWhile_append_of_pos all, List.takeWhile_cons_of_neg (by simp)]
    simp

theorem eq_takeWhile_of_pieces {separator : Char} {text piece : List Char} {others : List (List Char)}
    (cut : pieces separator text = piece :: others) : piece = text.takeWhile (· ≠ separator) := by
  rw [← headD_pieces, cut]
  rfl

/-- Replacing a word in the pieces of a text is replacing it in the whole. -/
theorem pieces_replaceWord {word new : List Char} (filled : word ≠ []) (foreign : separator ∉ word)
    (plain : separator ∉ new) (text : List Char) :
    pieces separator (replaceWord word new text) = (pieces separator text).map (replaceWord word new) := by
  have stays : ∀ s, separator ∉ s → separator ∉ replaceWord word new s := fun s none member =>
    (mem_replaceWord filled member).elim none plain
  induction bound : text.length using Nat.strongRecOn generalizing text with
  | _ length ih =>
    subst bound
    rcases cut_cases separator text with none | ⟨s, t, rfl, none⟩
    · rw [pieces_of_notMem none, pieces_of_notMem (stays text none)]
      rfl
    · have later := ih t.length (by simp; omega) t rfl
      rw [replaceWord_append_cons filled foreign, pieces_append_cons none, pieces_append_cons (stays s none), later]
      rfl

end Cutting

end TaskBoard.Text
