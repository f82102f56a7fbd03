import Mathlib.Data.List.Infix
import TaskBoard.Proofs.Files.Matching
import TaskBoard.Proofs.Files.Sorting

/-!
Listing the files of a pattern under a root and from inside the directory of the root. Both find the same, and what is
found under a root is told relative to it, in normal form. The listing under a root has the root itself too where the
pattern is nothing but `**`.
-/

namespace TaskBoard

open TaskBoard.Path

namespace FileTree

variable {tree : FileTree} {root : List Char} {place : Route} {path rest pattern : List Char}

theorem resolve_filter (place : Route) (path : List (List Char)) :
    resolve place (path.filter (· ≠ [])) = resolve place path := by
  have fold : ∀ kept, (path.filter (· ≠ [])).foldl (settle true) kept = path.foldl (settle true) kept := by
    induction path with
    | nil => exact fun kept => rfl
    | cons part path ih =>
      intro kept
      by_cases empty : part = []
      · subst empty
        rw [List.filter_cons_of_neg (by simp), ih]
        rfl
      · rw [List.filter_cons_of_pos (by simpa using empty), List.foldl_cons, List.foldl_cons, ih]
  rw [resolve, fold, resolve]

theorem resolve_of_real (place : Route) {path : List (List Char)} (real : ∀ name ∈ path, Real name) :
    resolve place path = place ++ path := by
  induction path generalizing place with
  | nil => simp [resolve]
  | cons name path ih =>
    obtain ⟨filled, -, here, up⟩ := real name List.mem_cons_self
    have one : resolve place [name] = place ++ [name] := by simp [resolve, settle, filled, here, up]
    have later := ih (place ++ [name]) fun other member => real other (List.mem_cons_of_mem _ member)
    rw [← List.singleton_append, resolve_append, one, later, List.append_assoc]

theorem mem_resolve {place : Route} {path : List (List Char)} {name : List Char} (member : name ∈ resolve place path) :
    name ∈ place ∨ name ∈ path ∧ name ≠ [] := by
  have settled : ∀ kept part, name ∈ settle true kept part → name ∈ kept ∨ name = part ∧ part ≠ [] := by
    intro kept part inside
    unfold settle at inside
    split at inside
    next => exact .inl inside
    next moves =>
      have filled : part ≠ [] := fun empty => moves (.inl empty)
      split at inside
      next up =>
        cases kept with
        | nil => cases inside
        | cons last before =>
          dsimp only at inside
          split at inside
          · exact (List.mem_cons.mp inside).symm.imp_right fun same => ⟨same, filled⟩
          · exact .inl (List.mem_cons_of_mem _ inside)
      next => exact (List.mem_cons.mp inside).symm.imp_right fun same => ⟨same, filled⟩
  have fold : ∀ kept, name ∈ path.foldl (settle true) kept → name ∈ kept ∨ name ∈ path ∧ name ≠ [] := by
    clear member
    induction path with
    | nil => exact fun kept inside => .inl inside
    | cons part path ih =>
      intro kept inside
      rcases ih _ inside with before | ⟨later, filled⟩
      · rcases settled kept part before with earlier | ⟨rfl, filled⟩
        · exact .inl earlier
        · exact .inr ⟨List.mem_cons_self, filled⟩
      · exact .inr ⟨List.mem_cons_of_mem _ later, filled⟩
  simpa using fold _ (List.mem_reverse.mp member)

theorem parts_join {directory path : List Char} (filled : directory ≠ []) (relative : isAbsolute path = false) :
    Path.parts (join directory path) = Path.parts directory ++ Path.parts path := by
  have heads := Heads.joined filled
  obtain ⟨front, slash⟩ := eq_append_slash (endsWithSlash_join_nil filled)
  have same := heads.parts
  rw [slash, parts_append_slash] at same
  rw [join_eq relative, slash, List.append_assoc, List.singleton_append, parts_append_slash, ← same]
  exact congrArg (· ++ Path.parts path) (List.append_nil _).symm

theorem parts_normal {path : List Char} (isAbsolute : isAbsolute path = true) :
    Path.parts (normal path) = resolve [] (Path.parts path) := by
  have slashes : leadingSlashes path ≠ 0 := by
    rw [ne_eq, leadingSlashes_eq_zero_iff, isAbsolute]
    exact Bool.noConfusion
  have clean : ∀ name ∈ resolve [] (Text.pieces '/' path), name ≠ [] ∧ '/' ∉ name := by
    intro name member
    rcases mem_resolve member with none | ⟨inside, filled⟩
    · cases none
    · exact ⟨filled, Text.notMem_of_mem_pieces inside⟩
  have same : resolve [] (Path.parts path) = resolve [] (Text.pieces '/' path) := resolve_filter [] _
  have kept : ((Text.pieces '/' path).foldl (settle (leadingSlashes path ≠ 0)) []).reverse =
      resolve [] (Text.pieces '/' path) := by
    rw [decide_eq_true slashes]
    rfl
  have filled : List.replicate (leadingSlashes path) '/' ++ joinParts (resolve [] (Text.pieces '/' path)) ≠ [] := by
    simp [slashes]
  unfold normal
  dsimp only
  rw [kept, same]
  split
  next empty => exact absurd empty filled
  next => rw [parts_replicate_append, parts_joinParts clean]

theorem Sound.parts_absolute (sound : tree.Sound) (path : List Char) :
    Path.parts (absolute tree.cwd path) =
      resolve (if isAbsolute path then [] else Path.parts tree.cwd) (Path.parts path) := by
  obtain ⟨route, placed, real⟩ := sound.cwd
  have parts_cwd : Path.parts tree.cwd = route := by
    rw [placed, parts_cons_slash]
    exact parts_joinParts fun name member => ⟨(real name member).filled, (real name member).whole⟩
  have filled : tree.cwd ≠ [] := by simp [placed]
  unfold absolute
  cases direct : isAbsolute path with
  | true => exact parts_normal direct
  | false =>
    have whole : isAbsolute (join tree.cwd path) = true := by
      rw [join_eq direct, isAbsolute_append (Heads.joined filled).filled, (Heads.joined filled).absolute, placed]
      rfl
    rw [if_neg (by decide), parts_normal whole, parts_join filled direct, parts_cwd, resolve_append,
      resolve_of_real [] real]
    rfl

theorem Rooted.parts_absolute (rooted : Rooted tree root place) : Path.parts (absolute tree.cwd root) = place := by
  rw [rooted.sound.parts_absolute]
  exact (resolve_filter _ _).trans rooted.resolved.1.symm

theorem commonLength_self (route : Route) : commonLength route route = route.length := by
  induction route with
  | nil => rfl
  | cons name route ih => rw [commonLength, if_pos rfl, ih, List.length_cons]

theorem seenFrom_inside (rooted : Rooted tree root place) (inside : Inside root path rest) :
    tree.seenFrom root path = (tree.within place).seenFrom ['.'] rest := by
  have origin : Path.parts (absolute (tree.within place).cwd ['.']) = place := by
    rw [rooted.sound_within.parts_absolute]
    change resolve (Path.parts (tree.within place).cwd) [['.']] = place
    rw [rooted.parts_cwd]
    simp [resolve, settle]
  have target : Path.parts (absolute tree.cwd path) = Path.parts (absolute (tree.within place).cwd rest) := by
    obtain ⟨front, heads, ends, rfl⟩ := inside.front
    obtain ⟨directory, rfl⟩ := eq_append_slash ends
    have parts_root := heads.parts
    rw [parts_append_slash] at parts_root
    have same : Path.parts directory = Path.parts root := (List.append_nil _).symm.trans parts_root
    rw [rooted.sound.parts_absolute, rooted.sound_within.parts_absolute, rooted.parts_cwd, inside.proper.relative,
      isAbsolute_append heads.filled, heads.absolute, List.append_assoc, List.singleton_append, parts_append_slash,
      same, resolve_append, ← rooted.sound.parts_absolute, rooted.parts_absolute]
    rfl
  unfold seenFrom relative
  rw [rooted.parts_absolute, target, origin, inside.endsWithSlash]

theorem seenFrom_heads (rooted : Rooted tree root place) (heads : Heads root path) (ends : endsWithSlash path = true) :
    tree.seenFrom root path = ['.', '/'] := by
  have target : Path.parts (absolute tree.cwd path) = place := by
    rw [rooted.sound.parts_absolute, heads.absolute, heads.parts, ← rooted.sound.parts_absolute, rooted.parts_absolute]
  unfold seenFrom relative
  rw [rooted.parts_absolute, target, ends]
  simp [commonLength_self]

/-- What is found without the empty path in front. -/
def untopped : List (List Char) → List (List Char)
  | [] :: rests => rests
  | found => found

theorem glob_eq (tree : FileTree) (pattern : List Char) :
    tree.glob pattern = (do
      let found ← tree.matched pattern false
      pure (if pattern.isEmpty || pattern.take 2 == ['*', '*'] then untopped found else found)) := by
  unfold glob
  apply bind_congr
  intro found
  cases pattern.isEmpty || pattern.take 2 == ['*', '*'] with
  | false => rfl
  | true =>
    cases found with
    | nil => rfl
    | cons path rests => cases path <;> rfl

theorem untopped_of_filled {found : List (List Char)} (filled : ∀ path ∈ found, path ≠ []) :
    untopped found = found := by
  unfold untopped
  split
  next rests => exact absurd rfl (filled [] List.mem_cons_self)
  next => rfl

theorem Lists.filled {deep : Bool} {paths rests : List (List Char)} (lists : Lists root deep paths rests) :
    (∀ path ∈ paths, path ≠ []) ∧ ∀ path ∈ rests, path ≠ [] := by
  have each : ∀ {paths rests : List (List Char)}, List.Forall₂ (Inside root) paths rests →
      (∀ path ∈ paths, path ≠ []) ∧ ∀ path ∈ rests, path ≠ [] := by
    intro paths rests each
    induction each with
    | nil => simp
    | cons inside _ ih => simpa [inside.filled, inside.proper.filled] using ih
  cases lists with
  | even first => exact each first
  | deep heads _ first => simpa [heads.filled] using each first

theorem glob_under (rooted : Rooted tree root place) (proper : Proper pattern)
    (fits : Fits (tree.within place) root pattern) :
    Agree (Lists root (isDeep pattern)) (tree.glob (join root pattern)) ((tree.within place).glob pattern) := by
  rw [glob_eq, glob_eq]
  apply (matched_under rooted proper fits false).bind
  rintro paths _ - ⟨rests, rfl, lists⟩
  have above : (if (join root pattern).isEmpty || (join root pattern).take 2 == ['*', '*'] then untopped paths
      else paths) = paths := by
    rw [untopped_of_filled lists.filled.1]
    exact ite_self _
  have inside : (if pattern.isEmpty || pattern.take 2 == ['*', '*'] then
      untopped (withTop (isDeep pattern && !endsWithSlash pattern) rests)
      else withTop (isDeep pattern && !endsWithSlash pattern) rests) = rests := by
    cases deep : isDeep pattern with
    | false =>
      change (if _ then untopped rests else rests) = rests
      rw [untopped_of_filled lists.filled.2]
      exact ite_self _
    | true =>
      have some : (pattern.isEmpty || pattern.take 2 == ['*', '*']) = true := by simp [take_of_isDeep proper deep]
      rw [some, if_pos rfl]
      cases endsWithSlash pattern with
      | false => rfl
      | true => exact untopped_of_filled lists.filled.2
  rw [above, inside]
  exact .returned lists

theorem unmarked_of_head? (plain : pattern.head? ≠ some '!') : unmarked pattern = pattern := by
  unfold unmarked
  split
  next rest => exact absurd rfl plain
  next => rfl

theorem list_root (filled : root ≠ []) (proper : Proper pattern) (plain : pattern.head? ≠ some '!') :
    tree.list root pattern = (do return sorted ((← tree.glob (join root pattern)).map (tree.seenFrom root))) := by
  have some : root.isEmpty = false := by simpa using filled
  unfold list
  dsimp only
  rw [unmarked_of_head? plain, some, proper.relative]
  rfl

theorem list_nil (plain : pattern.head? ≠ some '!') :
    tree.list [] pattern = (do return sorted (← tree.glob pattern)) := by
  unfold list
  dsimp only
  rw [unmarked_of_head? plain]
  rfl

theorem Lists.seenFrom (rooted : Rooted tree root place) {deep : Bool} {paths rests : List (List Char)}
    (lists : Lists root deep paths rests) :
    paths.map (tree.seenFrom root) =
      (if deep then [['.', '/']] else []) ++ rests.map ((tree.within place).seenFrom ['.']) := by
  have each : ∀ {paths rests : List (List Char)}, List.Forall₂ (Inside root) paths rests →
      paths.map (tree.seenFrom root) = rests.map ((tree.within place).seenFrom ['.']) := by
    intro paths rests each
    induction each with
    | nil => rfl
    | cons inside _ ih => rw [List.map_cons, List.map_cons, ih, seenFrom_inside rooted inside]
  cases lists with
  | even first => exact each first
  | deep heads ends first =>
    rw [List.map_cons, seenFrom_heads rooted heads ends, each first]
    rfl

end FileTree

open FileTree

/-- Listing a pattern under a root without wildcards is listing it from inside the directory of the root, each path told
in normal form with its final slash kept; nothing is missing and nothing is added, but for the root itself under a
pattern that is nothing but `**`. -/
theorem list_under_root {tree : FileTree} {root : List Char} {place : Route} {pattern : List Char}
    (rooted : Rooted tree root place) (proper : Proper pattern) (unmarked : pattern.head? ≠ some '!')
    (fits : Fits (tree.within place) root pattern) :
    tree.list root pattern = (do
      let found ← (tree.within place).list [] pattern
      let top := if isDeep pattern then [['.', '/']] else []
      pure (sorted (top ++ found.map ((tree.within place).seenFrom ['.'])))) := by
  have agree := glob_under rooted proper fits
  rw [list_root rooted.filled proper unmarked, list_nil unmarked]
  generalize tree.glob (join root pattern) = above at agree ⊢
  generalize (tree.within place).glob pattern = inside at agree ⊢
  cases agree with
  | failed failure => rfl
  | @returned paths rests lists =>
    refine congrArg Except.ok (sorted_eq_of_perm ?_)
    rw [lists.seenFrom rooted]
    exact ((sorted_perm rests).symm.map _).append_left _

namespace Nested

/-- A directory with a file and another directory in it, which holds a file too. The part `**` looks
for a directory first. -/
def tree : FileTree where
  entries :=
    [([['a']], .directory), ([['a'], ['x']], .file (.bytes [])), ([['a'], ['l']], .directory),
      ([['a'], ['l'], ['y']], .file (.bytes []))]
  looks := true

def root : List Char := ['.', '/', 'a', '/', '/']

/-- What stands beside the directories at and below the root. -/
def pattern : List Char := ['*', '*', '/', '.', '.', '/', '*']

theorem rooted : Rooted tree root [['a']] where
  sound := {
    cwd := ⟨[], rfl, by simp⟩
    names := by
      have real : ∀ name ∈ [['a'], ['x'], ['l'], ['y']], Real name := by
        intro name member
        constructor <;> revert name <;> decide
      intro entry member name part
      apply real
      revert entry name
      simp [tree] }
  located := by decide
  directory := rfl
  plain := by decide

theorem fits : Fits (tree.within [['a']]) root pattern := by
  have short : ∀ lead ∈ pattern.inits, ∀ only,
      ∀ path ∈ ((tree.within [['a']]).matched lead only).toOption.getD [], byteLength (join root path) ≤ pathLimit := by
    decide +kernel
  intro lead front only found same path member
  apply short lead ((List.mem_inits ..).mpr front) only
  rw [same]
  exact member

theorem found : (tree.within [['a']]).glob pattern =
    .ok [['.', '.', '/', 'a'], ['l', '/', '.', '.', '/', 'x'], ['l', '/', '.', '.', '/', 'l']] := by
  decide +kernel

/-- The root itself, found from above it, and what is in it, found from below, in normal form. -/
theorem list_under_root_nested :
    Rooted tree root [['a']] ∧ Fits (tree.within [['a']]) root pattern ∧
      tree.list root pattern = .ok [['.'], ['l'], ['x']] := by
  refine ⟨rooted, fits, ?_⟩
  have inside : (tree.within [['a']]).list [] pattern =
      .ok [['.', '.', '/', 'a'], ['l', '/', '.', '.', '/', 'l'], ['l', '/', '.', '.', '/', 'x']] := by
    rw [list_nil (by decide), found]
    exact congrArg Except.ok ((sorted_eq_of_perm (by decide)).trans (sorted_of_pairwise (by decide)))
  rw [list_under_root rooted ⟨by decide, by decide⟩ (by decide) fits, inside]
  exact congrArg Except.ok (sorted_of_pairwise (by decide +kernel))

end Nested

end TaskBoard
