/-!
Cutting and rewriting texts given as lists of characters: the pieces between separators, the
replacement of a fixed word, and a run of one character at the end.
-/

namespace TaskBoard.Text

/-- The pieces between the separators; there is always one more than there are separators. -/
def pieces (separator : Char) : List Char → List (List Char)
  | [] => [[]]
  | c :: rest =>
    if c = separator then [] :: pieces separator rest
    else
      match pieces separator rest with
      | [] => [[c]]
      | piece :: others => (c :: piece) :: others

theorem pieces_ne_nil (separator : Char) (text : List Char) : pieces separator text ≠ [] := by
  cases text with
  | nil => simp [pieces]
  | cons c rest =>
    unfold pieces
    split
    · simp
    · split <;> simp

def joinPieces (separator : List Char) : List (List Char) → List Char
  | [] => []
  | [piece] => piece
  | piece :: others => piece ++ separator ++ joinPieces separator others

/-- Replaces every occurrence of `word`, from left to right and without overlaps. -/
def replaceWord (word new : List Char) (text : List Char) : List Char :=
  match text with
  | [] => []
  | c :: rest =>
    if _found : word ≠ [] ∧ word.isPrefixOf (c :: rest) then
      new ++ replaceWord word new ((c :: rest).drop word.length)
    else c :: replaceWord word new rest
termination_by text.length
decreasing_by
  · have positive := List.length_pos_iff.mpr _found.1
    simp only [List.length_drop, List.length_cons]
    omega
  · simp

/-- The text without the run of `c` at its end. -/
def dropEnd (c : Char) (text : List Char) : List Char :=
  (text.reverse.dropWhile (· == c)).reverse

/-- The order of texts by code point, a start before its extensions. -/
def atMost : List Char → List Char → Bool
  | [], _ => true
  | _ :: _, [] => false
  | a :: as, b :: bs => if a = b then atMost as bs else a.toNat < b.toNat

end TaskBoard.Text
