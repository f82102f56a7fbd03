import TaskBoard.Proofs.Files.Paths

/-!
What is taken off the front of a provided path: the working directory where the path is that directory or leads
into it, and one slash after that. A name that only begins like the directory stays whole.
-/

namespace TaskBoard

theorem Text.dropEnd_ne_append (c : Char) (text front : List Char) : Text.dropEnd c text ≠ front ++ [c] := by
  intro same
  have whole : text.rdropWhile (· == c) = front ++ [c] := same
  have filled : text.rdropWhile (· == c) ≠ [] := by simp [whole]
  have last := List.rdropWhile_last_not (· == c) text filled
  simp [whole] at last

namespace Path

/-- A path is a directory or leads into it. -/
def Within (root path : List Char) : Prop := path = root ∨ root ++ ['/'] <+: path

instance (root path : List Char) : Decidable (Within root path) := inferInstanceAs (Decidable (_ ∨ _))

/-- The directory that is taken off a path: the working directory without slashes at its end, or nothing. -/
def removedRoot (path cwd : List Char) : List Char :=
  if Text.dropEnd '/' cwd ≠ [] ∧ Within (Text.dropEnd '/' cwd) path then Text.dropEnd '/' cwd else []

variable {root path cwd rest : List Char}

theorem isAbsolute_iff : isAbsolute path = true ↔ ∃ rest, path = '/' :: rest := by
  unfold isAbsolute
  split <;> simp_all

/-- What stands in a directory has its name in front, and nothing or a slash after it. -/
theorem within_iff : Within root path ↔ ∃ rest, path = root ++ rest ∧ (rest = [] ∨ isAbsolute rest = true) := by
  constructor
  · rintro (rfl | ⟨rest, rfl⟩)
    · exact ⟨[], by simp, .inl rfl⟩
    · exact ⟨'/' :: rest, by simp, .inr rfl⟩
  · rintro ⟨rest, rfl, rfl | absolute⟩
    · exact .inl (by simp)
    · obtain ⟨inner, rfl⟩ := isAbsolute_iff.mp absolute
      exact .inr ⟨inner, by simp⟩

theorem Within.isAbsolute_eq (within : Within root path) (filled : root ≠ []) : isAbsolute path = isAbsolute root := by
  obtain ⟨rest, rfl, -⟩ := within_iff.mp within
  exact isAbsolute_append filled rest

theorem not_within_of_sibling {c : Char} (other : c ≠ '/') : ¬Within root (root ++ c :: rest) := by
  intro within
  obtain ⟨inner, same, ends⟩ := within_iff.mp within
  rw [← List.append_cancel_left same] at ends
  rcases ends with nothing | absolute
  · cases nothing
  · obtain ⟨inner, same⟩ := isAbsolute_iff.mp absolute
    cases same
    exact other rfl

theorem removedRoot_cases (path cwd : List Char) :
    removedRoot path cwd = [] ∨ removedRoot path cwd = Text.dropEnd '/' cwd := by
  unfold removedRoot
  split
  next => exact .inr rfl
  next => exact .inl rfl

theorem removedRoot_of_within (within : Within (Text.dropEnd '/' cwd) path) :
    removedRoot path cwd = Text.dropEnd '/' cwd := by
  unfold removedRoot
  split
  next => rfl
  next none => exact (not_not.mp fun filled => none ⟨filled, within⟩).symm

theorem removedRoot_of_not_within (outside : ¬Within (Text.dropEnd '/' cwd) path) : removedRoot path cwd = [] :=
  if_neg fun holds => outside holds.2

theorem removedRoot_prefix (path cwd : List Char) : removedRoot path cwd <+: path := by
  unfold removedRoot
  split
  next inside =>
    obtain ⟨rest, whole, -⟩ := within_iff.mp inside.2
    exact ⟨rest, whole.symm⟩
  next => exact List.nil_prefix

theorem stripCwd_cases (whole : path = removedRoot path cwd ++ rest) :
    rest = '/' :: stripCwd path cwd ∨ rest = stripCwd path cwd ∧ isAbsolute rest = false := by
  have inner : (if Text.dropEnd '/' cwd ≠ [] ∧ (path = Text.dropEnd '/' cwd ∨
      (Text.dropEnd '/' cwd ++ ['/']).isPrefixOf path) then path.drop (Text.dropEnd '/' cwd).length else path) = rest := by
    unfold removedRoot Within at whole
    simp only [List.isPrefixOf_iff_prefix]
    split at whole
    next holds =>
      rw [if_pos holds]
      conv_lhs => rw [whole]
      exact List.drop_left
    next none =>
      rw [if_neg none]
      exact whole
  unfold stripCwd
  dsimp only
  rw [inner]
  split
  next => exact .inl rfl
  next other =>
    refine .inr ⟨rfl, Bool.eq_false_iff.mpr fun absolute => ?_⟩
    obtain ⟨tail, same⟩ := isAbsolute_iff.mp absolute
    exact other tail same

theorem exists_slash (path cwd : List Char) : ∃ slash, path = removedRoot path cwd ++ slash ++ stripCwd path cwd ∧
    (slash = ['/'] ∨ slash = [] ∧ isAbsolute (stripCwd path cwd) = false) := by
  obtain ⟨rest, whole⟩ := removedRoot_prefix path cwd
  rcases stripCwd_cases whole.symm with slash | ⟨same, relative⟩
  · exact ⟨['/'], by rw [List.append_assoc, List.singleton_append, ← slash, whole], .inl rfl⟩
  · exact ⟨[], by rw [List.append_nil, ← same, whole], .inr ⟨rfl, same ▸ relative⟩⟩

theorem stripCwd_inside (cwd rest : List Char) : stripCwd (Text.dropEnd '/' cwd ++ '/' :: rest) cwd = rest := by
  have within : Within (Text.dropEnd '/' cwd) (Text.dropEnd '/' cwd ++ '/' :: rest) := .inr ⟨rest, by simp⟩
  rcases stripCwd_cases (congrArg (· ++ '/' :: rest) (removedRoot_of_within within)).symm with slash | ⟨-, relative⟩
  · exact (List.cons.inj slash).2.symm
  · cases relative

theorem isAbsolute_dropEnd (absolute : isAbsolute cwd = true) (filled : Text.dropEnd '/' cwd ≠ []) :
    isAbsolute (Text.dropEnd '/' cwd) = true := by
  obtain ⟨n, whole⟩ := Text.dropEnd_append '/' cwd
  rwa [← whole, isAbsolute_append filled] at absolute

/-- Nothing is taken off a relative path, if the working directory is absolute. -/
theorem stripCwd_of_relative (absolute : isAbsolute cwd = true) (relative : isAbsolute path = false) :
    stripCwd path cwd = path := by
  have none : removedRoot path cwd = [] := by
    refine if_neg fun ⟨filled, within⟩ => ?_
    rw [within.isAbsolute_eq filled, isAbsolute_dropEnd absolute filled] at relative
    cases relative
  have whole : path = removedRoot path cwd ++ path := by rw [none, List.nil_append]
  rcases stripCwd_cases whole with slash | ⟨same, -⟩
  · rw [isAbsolute_iff.mpr ⟨_, slash⟩] at relative
    cases relative
  · exact same.symm

theorem stripCwd_sibling {c : Char} (absolute : isAbsolute cwd = true) (filled : Text.dropEnd '/' cwd ≠ [])
    (other : c ≠ '/') :
    '/' :: stripCwd (Text.dropEnd '/' cwd ++ c :: rest) cwd = Text.dropEnd '/' cwd ++ c :: rest := by
  have none : removedRoot (Text.dropEnd '/' cwd ++ c :: rest) cwd = [] :=
    removedRoot_of_not_within (not_within_of_sibling other)
  have whole := congrArg (· ++ (Text.dropEnd '/' cwd ++ c :: rest)) none.symm
  rcases stripCwd_cases whole with slash | ⟨-, relative⟩
  · exact slash.symm
  · rw [isAbsolute_append filled, isAbsolute_dropEnd absolute filled] at relative
    cases relative

theorem isAbsolute_stripCwd (single : ¬['/', '/'] <:+: path) (cwd : List Char) :
    isAbsolute (stripCwd path cwd) = false := by
  obtain ⟨slash, whole, rfl | ⟨-, relative⟩⟩ := exists_slash path cwd
  · refine Bool.eq_false_iff.mpr fun again => single ?_
    obtain ⟨rest, same⟩ := isAbsolute_iff.mp again
    rw [whole, same]
    exact ⟨removedRoot path cwd, rest, by simp⟩
  · exact relative

/-- The working directory, which has no slash at its end, is found in what is taken off a path only if it was taken
off as a directory. -/
theorem infix_removed_iff {slash : List Char} (filled : Text.dropEnd '/' cwd ≠ []) (ends : slash = ['/'] ∨ slash = []) :
    Text.dropEnd '/' cwd <:+: removedRoot path cwd ++ slash ↔ Within (Text.dropEnd '/' cwd) path := by
  constructor
  · intro found
    refine not_not.mp fun outside => ?_
    rw [removedRoot_of_not_within outside, List.nil_append] at found
    rcases ends with rfl | rfl
    · rcases List.infix_cons_iff.mp found with front | nothing
      · rcases List.prefix_cons_iff.mp front with empty | ⟨tail, same, more⟩
        · exact filled empty
        · rw [List.prefix_nil.mp more] at same
          exact Text.dropEnd_ne_append '/' cwd [] same
      · exact filled (List.infix_nil.mp nothing)
    · exact filled (List.infix_nil.mp found)
  · intro within
    rw [removedRoot_of_within within]
    exact (List.prefix_append _ _).isInfix

/-- What is taken off a path is nothing, a slash, the working directory, or that with a slash; it holds the directory
exactly if the path is it or leads into it, and one slash after that if there is one. So nothing is taken off relative
paths, siblings of the directory only lose the slash in front, paths in the directory stay apart, and a path without
doubled slashes becomes relative and stays as it is from then on. -/
theorem stripCwd_whole (path cwd : List Char) :
    let root := Text.dropEnd '/' cwd
    let rest := stripCwd path cwd
    (∃ directory slash, path = directory ++ slash ++ rest ∧
      directory ++ slash ∈ [[], ['/'], root, root ++ ['/']] ∧
      (root ≠ [] → (root <:+: directory ++ slash ↔ path = root ∨ root ++ ['/'] <+: path)) ∧
      (directory = if root ≠ [] ∧ (path = root ∨ root ++ ['/'] <+: path) then root else []) ∧
      slash = if isAbsolute (slash ++ rest) then ['/'] else []) ∧
    (isAbsolute cwd = true →
      (isAbsolute path = false → rest = path) ∧
      (∀ c r, c ≠ '/' → root ≠ [] → '/' :: stripCwd (root ++ c :: r) cwd = root ++ c :: r) ∧
      (∀ r, stripCwd (root ++ '/' :: r) cwd = r) ∧
      (Function.Injective fun r => stripCwd (root ++ '/' :: r) cwd) ∧
      (¬['/', '/'] <:+: path → isAbsolute rest = false ∧ stripCwd rest cwd = rest)) := by
  intro root rest
  constructor
  · obtain ⟨slash, whole, ends⟩ := exists_slash path cwd
    have short : slash = ['/'] ∨ slash = [] := ends.imp_right And.left
    refine ⟨removedRoot path cwd, slash, whole, ?_, fun filled => infix_removed_iff filled short, rfl, ?_⟩
    · rcases removedRoot_cases path cwd with none | all
      · rcases short with rfl | rfl <;> simp [none]
      · rcases short with rfl | rfl <;> simp [all, root]
    · rcases ends with rfl | ⟨rfl, relative⟩
      · rfl
      · exact (if_neg (Bool.eq_false_iff.mp relative)).symm
  · intro absolute
    refine ⟨stripCwd_of_relative absolute, fun c r other filled => stripCwd_sibling absolute filled other,
      stripCwd_inside cwd, ?_, fun single => ?_⟩
    · intro r s same
      exact (stripCwd_inside cwd r).symm.trans (same.trans (stripCwd_inside cwd s))
    · have relative := isAbsolute_stripCwd single cwd
      exact ⟨relative, stripCwd_of_relative absolute relative⟩

/-- The working directory may be written with slashes at its end. -/
theorem stripCwd_whole_trailing :
    let cwd := "/home/work//".toList
    let path := "/home/work/space/x".toList
    let root := Text.dropEnd '/' cwd
    isAbsolute cwd = true ∧ root ≠ [] ∧ ¬['/', '/'] <:+: path ∧ stripCwd path cwd = "space/x".toList ∧
      '/' :: stripCwd (root ++ "space/x".toList) cwd = "/home/workspace/x".toList ∧
      isAbsolute (stripCwd path cwd) = false ∧ stripCwd (stripCwd path cwd) cwd = stripCwd path cwd := by
  intro cwd path root
  obtain ⟨-, consequences⟩ := stripCwd_whole path cwd
  have absolute : isAbsolute cwd = true := by decide +kernel
  obtain ⟨-, siblings, inside, -, again⟩ := consequences absolute
  have filled : root ≠ [] := by decide +kernel
  have single : ¬['/', '/'] <:+: path := by decide +kernel
  have leads : path = root ++ '/' :: "space/x".toList := by decide +kernel
  have beside : root ++ "space/x".toList = "/home/workspace/x".toList := by decide +kernel
  have first : "space/x".toList = 's' :: "pace/x".toList := by decide +kernel
  refine ⟨absolute, filled, single, ?_, ?_, again single⟩
  · rw [leads]
    exact inside _
  · rw [← beside, first]
    exact siblings 's' _ (by decide) filled

end Path

end TaskBoard
