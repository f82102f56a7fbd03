import Mathlib.Data.List.Forall2
import TaskBoard.Proofs.Files.Rooting

/-!
What patterns match, by their parts. A part is matched in every directory that the parts before it have found, so
a pattern finds the same under a root as from inside the directory of the root, path by path. Only the empty path,
which is what a pattern of `**` alone finds first, is one that can be looked at under the root and not from inside.
-/

namespace TaskBoard.FileTree

open TaskBoard.Path

variable {tree : FileTree} {root : List Char} {place : Route}

/-- What a part of a pattern matches inside a directory that can be listed. -/
def matchIn (tree : FileTree) (directory part : List Char) (only : Bool) : List (List Char) :=
  if hasWildcard part then tree.matchWildcard directory part only else tree.matchName directory part

/-- What a part of a pattern matches inside some directories. -/
def matchAll (tree : FileTree) (directories : List (List Char)) (part : List Char) (only : Bool) : List (List Char) :=
  directories.flatMap fun directory => (tree.matchIn directory part only).map (join directory)

/-- The paths that a pattern matches, with as many steps as it can need. -/
def matched (tree : FileTree) (pattern : List Char) (only : Bool) : Except Failure (List (List Char)) :=
  tree.matchPattern (pattern.length + 1) pattern only

/-- The directories that the directory part of a pattern stands for. -/
def leading (tree : FileTree) (directory : List Char) : Except Failure (List (List Char)) :=
  if hasWildcard directory then tree.matched directory true else pure [directory]

section Steps

/-- More steps than a pattern has characters make no difference. -/
theorem matchPattern_steps {pattern : List Char} {n steps : Nat} (short : pattern.length ≤ n) (enough : n ≤ steps)
    (only : Bool) : tree.matchPattern (steps + 1) pattern only = tree.matchPattern (n + 1) pattern only := by
  induction n generalizing pattern steps only with
  | zero =>
    obtain rfl := List.length_eq_zero_iff.mp (Nat.le_zero.mp short)
    rfl
  | succ n ih =>
    obtain ⟨steps, rfl⟩ : ∃ s, steps = s + 1 := ⟨steps - 1, by omega⟩
    have inner : (split pattern).1 ≠ pattern →
        tree.matchPattern (steps + 1) (split pattern).1 true = tree.matchPattern (n + 1) (split pattern).1 true := by
      intro proper
      have front := split_prefix pattern
      have shorter : (split pattern).1.length ≠ pattern.length := fun same => proper (front.eq_of_length same)
      have below := front.length_le
      exact ih (by omega) (by omega) true
    conv_lhs => unfold matchPattern
    conv_rhs => unfold matchPattern
    by_cases deeper : (split pattern).1 ≠ pattern ∧ hasWildcard (split pattern).1 = true
    · simp only [if_pos deeper, inner deeper.1]
    · simp only [if_neg deeper]

variable {pattern directory part : List Char} {only : Bool}

theorem matched_plain (plain : hasWildcard pattern = false) (only : Bool) :
    tree.matched pattern only = .ok (tree.matchPlain pattern) := by
  unfold matched matchPattern
  rw [plain]
  rfl

theorem matchPart_eq (directory part : List Char) (only : Bool) :
    tree.matchPart directory part only =
      if hasWildcard part && directory.contains '\x00' then .error .badValue
      else .ok (tree.matchIn directory part only) := by
  unfold matchPart matchIn
  cases hasWildcard part with
  | false => rfl
  | true => cases directory.contains '\x00' <;> rfl

theorem matched_single (wild : hasWildcard pattern = true) (whole : '/' ∉ pattern) (only : Bool) :
    tree.matched pattern only = .ok (tree.matchIn [] pattern only) := by
  unfold matched matchPattern
  rw [split_of_notMem whole, wild]
  exact (matchPart_eq [] pattern only).trans (by simp)

theorem mapM_matchPart (directories : List (List Char)) (part : List Char) (only : Bool) :
    (directories.mapM fun directory => do
      return (← tree.matchPart directory part only).map (join directory) : Except Failure (List (List (List Char)))) =
      if hasWildcard part && directories.any (·.contains '\x00') then .error .badValue
      else .ok (directories.map fun directory => (tree.matchIn directory part only).map (join directory)) := by
  induction directories with
  | nil => cases hasWildcard part <;> rfl
  | cons directory directories ih =>
    rw [List.mapM_cons, ih, matchPart_eq, List.any_cons, Bool.and_or_distrib_left]
    cases hasWildcard part && directory.contains '\x00' with
    | true => rfl
    | false => cases hasWildcard part && directories.any (·.contains '\x00') <;> rfl

theorem matched_deeper (wild : hasWildcard pattern = true) (cut : split pattern = (directory, part))
    (filled : directory ≠ []) (shorter : directory ≠ pattern) (only : Bool) :
    tree.matched pattern only = (do
      let directories ← tree.leading directory
      if hasWildcard part && directories.any (·.contains '\x00') then .error .badValue
      else .ok (tree.matchAll directories part only)) := by
  have front : directory <+: pattern := by
    have whole := split_prefix pattern
    rwa [cut] at whole
  have less : directory.length + 1 ≤ pattern.length := by
    have below := front.length_le
    have differs : directory.length ≠ pattern.length := fun same => shorter (front.eq_of_length same)
    omega
  obtain ⟨steps, length⟩ : ∃ steps, pattern.length = steps + 1 := ⟨pattern.length - 1, by omega⟩
  have all : ∀ directories, (do
      let found ← directories.mapM fun directory => do
        return (← tree.matchPart directory part only).map (join directory)
      pure found.flatten : Except Failure (List (List Char))) =
      if hasWildcard part && directories.any (·.contains '\x00') then .error .badValue
      else .ok (tree.matchAll directories part only) := by
    intro directories
    rw [mapM_matchPart]
    cases hasWildcard part && directories.any (·.contains '\x00') <;> rfl
  have some : directory.isEmpty = false := by simpa using filled
  unfold matched matchPattern leading
  rw [cut, wild]
  dsimp only
  rw [if_neg (by decide), some, if_neg (by decide)]
  by_cases deep : hasWildcard directory = true
  · rw [if_pos ⟨shorter, deep⟩, if_pos deep, length, matchPattern_steps (Nat.le_refl _) (by omega)]
    exact bind_congr all
  · rw [if_neg fun both => deep both.2, if_neg deep]
    exact bind_congr all

end Steps

section Names

variable {directory part name : List Char} {only : Bool}

theorem real_of_mem_namesIn (sound : tree.Sound) (member : name ∈ tree.namesIn directory only) : Real name := by
  unfold namesIn at member
  split at member
  next => cases member
  next place _ =>
    split at member
    · obtain ⟨⟨route, entry⟩, stands, last⟩ := List.mem_filterMap.mp (List.mem_filter.mp member).1
      dsimp only at last
      split at last
      · exact sound.names (route, entry) stands name (List.mem_of_getLast? last)
      · cases last
    · cases member

theorem proper_of_mem_below (sound : tree.Sound) {depth : Nat} (member : name ∈ tree.below only depth directory) :
    Proper name := by
  induction depth generalizing directory name with
  | zero => cases member
  | succ depth ih =>
    obtain ⟨first, listed, inside⟩ := List.mem_flatMap.mp member
    have proper := (real_of_mem_namesIn sound (List.mem_filter.mp listed).1).proper
    rcases List.mem_cons.mp inside with rfl | deeper
    · exact proper
    · obtain ⟨rest, later, rfl⟩ := List.mem_map.mp deeper
      have further := ih later
      rw [beside_of_proper further]
      exact proper.join further.relative

/-- The working directory is matched by `**` in any case. -/
theorem matchIn_stars (only : Bool) : tree.matchIn [] ['*', '*'] only = [] :: tree.below only tree.depth [] := by
  have itself : tree.matchesItself [] = true := by simp [matchesItself]
  change (if tree.matchesItself [] then [[]] else []) ++ _ = _
  rw [itself]
  rfl

/-- What a part matches continues the path of its directory; only two kinds of parts match the directory itself. -/
theorem mem_matchIn (sound : tree.Sound) (whole : '/' ∉ part) (member : name ∈ tree.matchIn directory part only) :
    Proper name ∨ name = [] ∧ (part = [] ∨ part = ['*', '*']) := by
  unfold matchIn at member
  split at member
  · unfold matchWildcard at member
    split at member
    next stars =>
      rcases List.mem_append.mp member with itself | deeper
      · split at itself
        · exact .inr ⟨List.mem_singleton.mp itself, .inr stars⟩
        · cases itself
      · exact .inl (proper_of_mem_below sound deeper)
    next => exact .inl (real_of_mem_namesIn sound (List.mem_filter.mp member).1).proper
  · unfold matchName at member
    split at member
    next empty =>
      split at member
      · exact .inr ⟨List.mem_singleton.mp member, .inl (List.isEmpty_iff.mp empty)⟩
      · cases member
    next filled =>
      split at member
      · rw [List.mem_singleton.mp member]
        exact .inl (.of_notMem (by simpa using filled) whole)
      · cases member

theorem relative_of_mem_matchIn (sound : tree.Sound) (whole : '/' ∉ part)
    (member : name ∈ tree.matchIn directory part only) : isAbsolute name = false := by
  rcases mem_matchIn sound whole member with proper | ⟨rfl, -⟩
  · exact proper.relative
  · rfl

end Names

section Under

variable {path rest part : List Char} {only : Bool}

theorem namesIn_under (rooted : Rooted tree root place) (under : Under root path rest) (only : Bool) :
    tree.namesIn path only =
      if byteLength path ≤ pathLimit then (tree.within place).namesIn rest only else [] := by
  have filled : path.isEmpty = false := by simpa using under.filled
  unfold namesIn
  rw [filled, if_neg (by decide), under.locate? rooted]
  by_cases short : byteLength path ≤ pathLimit
  · rw [if_pos short, if_pos short]
    rfl
  · rw [if_neg short, if_neg short]

theorem exists?_inside (rooted : Rooted tree root place) (inside : Inside root path rest) :
    tree.exists? path = (decide (byteLength path ≤ pathLimit) && (tree.within place).exists? rest) := by
  have filled : rest.isEmpty = false := by simpa using inside.proper.filled
  unfold exists?
  rw [(Under.inside inside).locate? rooted, filled]
  by_cases short : byteLength path ≤ pathLimit <;> simp [short]

theorem isDirectory_inside (rooted : Rooted tree root place) (inside : Inside root path rest) :
    tree.isDirectory path = (decide (byteLength path ≤ pathLimit) && (tree.within place).isDirectory rest) := by
  have filled : rest.isEmpty = false := by simpa using inside.proper.filled
  unfold isDirectory
  rw [(Under.inside inside).locate? rooted, filled]
  by_cases short : byteLength path ≤ pathLimit <;> simp [short]

theorem eq_nil_of_long (under : Under root path rest) (long : ¬byteLength path ≤ pathLimit) {names : List (List Char)}
    (relative : ∀ name ∈ names, isAbsolute name = false)
    (fits : ∀ name ∈ names, byteLength (join root (join rest name)) ≤ pathLimit) : names = [] :=
  List.eq_nil_iff_forall_not_mem.mpr fun name member =>
    long (Nat.le_trans (under.size_join (relative name member)) (fits name member))

theorem below_under (rooted : Rooted tree root place) (under : Under root path rest) (only : Bool) (depth : Nat)
    (fits : ∀ name ∈ (tree.within place).below only depth rest, byteLength (join root (join rest name)) ≤ pathLimit) :
    tree.below only depth path = (tree.within place).below only depth rest := by
  have sound : (tree.within place).Sound := rooted.sound_within
  induction depth generalizing path rest with
  | zero => rfl
  | succ depth ih =>
    have listed : (tree.namesIn path only).filter (!isHidden ·) =
        ((tree.within place).namesIn rest only).filter (!isHidden ·) := by
      rw [namesIn_under rooted under]
      split
      · rfl
      next long =>
        refine (eq_nil_of_long under long (fun name member => ?_) fun name member => ?_).symm
        · exact (real_of_mem_namesIn sound (List.mem_filter.mp member).1).proper.relative
        · exact fits name (List.mem_flatMap.mpr ⟨name, member, List.mem_cons_self⟩)
    unfold below
    rw [listed]
    apply List.flatMap_congr
    intro name member
    have proper := (real_of_mem_namesIn sound (List.mem_filter.mp member).1).proper
    have inner : tree.below only depth (beside path name) =
        (tree.within place).below only depth (beside rest name) := by
      apply ih (.inside (under.beside proper))
      intro other deeper
      have further := proper_of_mem_below sound deeper
      have found : beside name other ∈ (tree.within place).below only (depth + 1) rest :=
        List.mem_flatMap.mpr ⟨name, member, List.mem_cons_of_mem _ (List.mem_map_of_mem deeper)⟩
      have short := fits _ found
      have joined : join (join rest name) other = join rest (join name other) := by
        rw [join_eq proper.relative, join_append_left _ proper.filled further.relative,
          ← join_eq (proper.join further.relative).relative]
      rwa [beside_of_proper further, ← joined, ← beside_of_proper proper rest] at short
    rw [inner]

theorem matchName_under (rooted : Rooted tree root place) (under : Under root path rest) (whole : '/' ∉ part)
    (either : part ≠ [] ∨ rest ≠ [])
    (fits : ∀ name ∈ (tree.within place).matchName rest part, byteLength (join root (join rest name)) ≤ pathLimit) :
    tree.matchName path part = (tree.within place).matchName rest part := by
  unfold matchName at fits ⊢
  split at fits
  next empty =>
    have inside := under.of_filled (either.resolve_left fun filled => filled (List.isEmpty_iff.mp empty))
    rw [if_pos empty, if_pos empty, isDirectory_inside rooted inside]
    cases here : (tree.within place).isDirectory rest with
    | false => simp
    | true =>
      have short := Nat.le_trans (under.size_join (show isAbsolute [] = false from rfl)) (fits [] (by simp [here]))
      simp [short]
  next filled =>
    have proper : Proper part := .of_notMem (by simpa using filled) whole
    have inside := under.beside proper
    rw [if_neg filled, if_neg filled, exists?_inside rooted inside]
    cases here : (tree.within place).exists? (beside rest part) with
    | false => simp
    | true =>
      have short := fits part (by simp [here])
      rw [← beside_of_proper proper rest] at short
      simp [Nat.le_trans inside.size short]

theorem isDirectory_under (rooted : Rooted tree root place) (under : Under root path rest) :
    tree.isDirectory path =
      (decide (byteLength path ≤ pathLimit) && (rest.isEmpty || (tree.within place).isDirectory rest)) := by
  cases under with
  | inside inside =>
    have own : rest.isEmpty = false := by simpa using inside.proper.filled
    rw [isDirectory_inside rooted inside, own, Bool.false_or]
  | here heads =>
    by_cases short : byteLength path ≤ pathLimit
    · have found : tree.isDirectory path = true := by
        rw [isDirectory, locate?_eq_some.mpr (heads.locate rooted short)]
        exact rooted.directory
      simp [found, short]
    · have refused : tree.locate? path = none := by rw [(Under.here heads).locate? rooted, if_neg short]
      simp [isDirectory, refused, short]

/-- A directory is matched by `**` under a root as it is from inside, if it can be looked up where that matches it. -/
theorem matchesItself_under (rooted : Rooted tree root place) (under : Under root path rest)
    (fits : (tree.within place).matchesItself rest = true → byteLength path ≤ pathLimit) :
    tree.matchesItself path = (tree.within place).matchesItself rest := by
  have filled : path.isEmpty = false := by simpa using under.filled
  have looks : (tree.within place).looks = tree.looks := rfl
  unfold matchesItself at fits ⊢
  rw [looks] at fits ⊢
  rw [filled, isDirectory_under rooted under]
  grind

theorem matchWildcard_under (rooted : Rooted tree root place) (under : Under root path rest)
    (fits : ∀ name ∈ (tree.within place).matchWildcard rest part only,
      byteLength (join root (join rest name)) ≤ pathLimit) :
    tree.matchWildcard path part only = (tree.within place).matchWildcard rest part only := by
  unfold matchWildcard at fits ⊢
  split at fits
  next stars =>
    rw [if_pos stars, if_pos stars, matchesItself_under rooted under fun itself => ?_]
    · exact congrArg _ (below_under rooted under only _ fun name member => fits name (List.mem_append_right _ member))
    · have found : [] ∈ (if (tree.within place).matchesItself rest then [[]] else [] : List (List Char)) := by
        rw [itself]
        exact List.mem_singleton_self _
      exact under.size_join rfl |>.trans (fits [] (List.mem_append_left _ found))
  next other =>
    rw [if_neg other, if_neg other]
    dsimp only at fits ⊢
    rw [namesIn_under rooted under]
    split
    · rfl
    next long =>
      refine (eq_nil_of_long under long (fun name member => ?_) fits).symm
      exact (real_of_mem_namesIn rooted.sound_within (List.mem_filter.mp member).1).proper.relative

/-- Under a root, a part matches in a directory what it matches there from inside, if what it matches is short enough.
Only the directory of the root itself is not found from inside. -/
theorem matchIn_under (rooted : Rooted tree root place) (under : Under root path rest) (whole : '/' ∉ part)
    (either : part ≠ [] ∨ rest ≠ [])
    (fits : ∀ name ∈ (tree.within place).matchIn rest part only, byteLength (join root (join rest name)) ≤ pathLimit) :
    tree.matchIn path part only = (tree.within place).matchIn rest part only := by
  unfold matchIn at fits ⊢
  split at fits
  next wild =>
    rw [if_pos wild, if_pos wild]
    exact matchWildcard_under rooted under fits
  next plain =>
    rw [if_neg plain, if_neg plain]
    exact matchName_under rooted under whole either fits

end Under

/-- What a pattern finds under a root, against what it finds from inside the directory of the root: the same, after the
root itself if there is nothing but `**` in the pattern. -/
inductive Lists (root : List Char) : Bool → List (List Char) → List (List Char) → Prop
  | even {paths rests : List (List Char)} (each : List.Forall₂ (Inside root) paths rests) : Lists root false paths rests
  | deep {top : List Char} {paths rests : List (List Char)} (heads : Heads root top) (ends : endsWithSlash top = true)
      (each : List.Forall₂ (Inside root) paths rests) : Lists root true (top :: paths) rests

/-- What is found from inside, after the empty path if that is found too. -/
def withTop (deep : Bool) (rests : List (List Char)) : List (List Char) := if deep then [] :: rests else rests

/-- Whether each part of a pattern is `**`. -/
def isDeep (pattern : List Char) : Bool := (Path.parts pattern).all (· == ['*', '*'])

section Directories

variable {deep : Bool} {path rest part : List Char} {paths rests : List (List Char)} {only : Bool}

theorem matchAll_cons (tree : FileTree) (directory part : List Char) (directories : List (List Char)) (only : Bool) :
    tree.matchAll (directory :: directories) part only =
      (tree.matchIn directory part only).map (join directory) ++ tree.matchAll directories part only := rfl

theorem each_matchIn (rooted : Rooted tree root place) (inside : Inside root path rest) (whole : '/' ∉ part)
    (fits : ∀ path ∈ ((tree.within place).matchIn rest part only).map (join rest),
      byteLength (join root path) ≤ pathLimit) :
    List.Forall₂ (Inside root) ((tree.matchIn path part only).map (join path))
      (((tree.within place).matchIn rest part only).map (join rest)) := by
  rw [matchIn_under rooted (.inside inside) whole (.inr inside.proper.filled) fun name member =>
    fits _ (List.mem_map_of_mem member)]
  apply List.forall₂_map_left_iff.mpr
  apply List.forall₂_map_right_iff.mpr
  apply List.forall₂_same.mpr
  exact fun name member => inside.join (relative_of_mem_matchIn rooted.sound_within whole member)

theorem each_matchAll (rooted : Rooted tree root place) (whole : '/' ∉ part)
    (each : List.Forall₂ (Inside root) paths rests)
    (fits : ∀ path ∈ (tree.within place).matchAll rests part only, byteLength (join root path) ≤ pathLimit) :
    List.Forall₂ (Inside root) (tree.matchAll paths part only) ((tree.within place).matchAll rests part only) := by
  induction each with
  | nil => exact .nil
  | cons inside each ih =>
    rw [matchAll_cons] at fits ⊢
    rw [matchAll_cons]
    have first := each_matchIn rooted inside whole fun path member => fits path (List.mem_append_left _ member)
    exact List.rel_append first (ih fun path member => fits path (List.mem_append_right _ member))

theorem lists_matchIn (only : Bool) (rooted : Rooted tree root place) (heads : Heads root path) (whole : '/' ∉ part)
    (filled : part ≠ [])
    (fits : ∀ path ∈ (tree.within place).matchIn [] part only, byteLength (join root path) ≤ pathLimit) :
    ∃ found, (tree.within place).matchIn [] part only = withTop (part == ['*', '*']) found ∧
      Lists root (part == ['*', '*']) ((tree.matchIn path part only).map (join path)) found := by
  have goes : ∀ names : List (List Char), (∀ name ∈ names, Proper name) →
      List.Forall₂ (Inside root) (names.map (join path)) names := by
    intro names proper
    apply List.forall₂_map_left_iff.mpr
    apply List.forall₂_same.mpr
    intro name member
    have inside := (Under.here heads).join (proper name member)
    rwa [join_nil_left] at inside
  rw [matchIn_under rooted (.here heads) whole (.inl filled) fun name member => by
    rw [join_nil_left]
    exact fits name member]
  by_cases stars : part = ['*', '*']
  · subst stars
    rw [matchIn_stars]
    have below := goes ((tree.within place).below only (tree.within place).depth []) fun name member =>
      proper_of_mem_below rooted.sound_within member
    exact ⟨_, rfl, .deep heads.join_nil (endsWithSlash_join_nil heads.filled) below⟩
  · have other : (part == ['*', '*']) = false := by simpa using stars
    rw [other]
    refine ⟨_, rfl, .even (goes _ fun name member => ?_)⟩
    rcases mem_matchIn rooted.sound_within whole member with proper | ⟨-, empty | same⟩
    · exact proper
    · exact absurd empty filled
    · exact absurd same stars

theorem Lists.append {more others : List (List Char)} (lists : Lists root deep paths rests)
    (each : List.Forall₂ (Inside root) more others) : Lists root deep (paths ++ more) (rests ++ others) := by
  cases lists with
  | even first => exact .even (List.rel_append first each)
  | deep heads ends first => exact .deep heads ends (List.rel_append first each)

theorem Lists.any_contains {c : Char} (lists : Lists root deep paths rests) (foreign : c ∉ root) (other : c ≠ '/') :
    paths.any (·.contains c) = (withTop deep rests).any (·.contains c) := by
  have same : ∀ {path rest : List Char}, Under root path rest → path.contains c = rest.contains c := by
    intro path rest under
    have iff := under.notMem foreign other
    rw [Bool.eq_iff_iff, List.contains_iff_mem, List.contains_iff_mem]
    exact not_iff_not.mp iff
  have each : ∀ {paths rests : List (List Char)}, List.Forall₂ (Inside root) paths rests →
      paths.any (·.contains c) = rests.any (·.contains c) := by
    intro paths rests each
    induction each with
    | nil => rfl
    | cons inside _ ih => rw [List.any_cons, List.any_cons, ih, same (.inside inside)]
  cases lists with
  | even first => exact each first
  | deep heads _ first => exact (congrArg₂ or (same (.here heads)) (each first))

theorem lists_matchAll (rooted : Rooted tree root place) (whole : '/' ∉ part) (filled : part ≠ [])
    (lists : Lists root deep paths rests)
    (fits : ∀ path ∈ (tree.within place).matchAll (withTop deep rests) part only,
      byteLength (join root path) ≤ pathLimit) :
    ∃ found, (tree.within place).matchAll (withTop deep rests) part only = withTop (deep && part == ['*', '*']) found ∧
      Lists root (deep && part == ['*', '*']) (tree.matchAll paths part only) found := by
  cases lists with
  | even each => exact ⟨_, rfl, .even (each_matchAll rooted whole each fits)⟩
  | @deep top paths rests heads ends each =>
    have plain : ((tree.within place).matchIn [] part only).map (join []) = (tree.within place).matchIn [] part only :=
      (List.map_congr_left fun name _ => join_nil_left name).trans (List.map_id _)
    unfold withTop at fits ⊢
    rw [if_pos rfl, matchAll_cons, plain] at fits ⊢
    rw [matchAll_cons, Bool.true_and]
    have later := each_matchAll rooted whole each fun path member => fits path (List.mem_append_right _ member)
    obtain ⟨found, same, first⟩ := lists_matchIn only rooted heads whole filled fun path member =>
      fits path (List.mem_append_left _ member)
    refine ⟨found ++ (tree.within place).matchAll rests part only, ?_, first.append later⟩
    rw [same]
    cases part == ['*', '*'] <;> rfl

/-- A final slash keeps the directories. The root is one, but it is not seen as one from inside. -/
theorem lists_matchAll_nil (rooted : Rooted tree root place) (lists : Lists root deep paths rests)
    (room : deep = true → byteLength (join root []) ≤ pathLimit)
    (fits : ∀ path ∈ (tree.within place).matchAll (withTop deep rests) [] only,
      byteLength (join root path) ≤ pathLimit) :
    Lists root deep (tree.matchAll paths [] only) ((tree.within place).matchAll (withTop deep rests) [] only) := by
  have whole : '/' ∉ ([] : List Char) := List.not_mem_nil
  cases lists with
  | even each => exact .even (each_matchAll rooted whole each fits)
  | @deep top paths rests heads ends each =>
    have short : byteLength top ≤ pathLimit := by
      have size := Nat.le_trans heads.size (room rfl)
      rwa [join_of_endsWithSlash ends rfl, List.append_nil] at size
    have seen : tree.matchIn top [] only = [[]] := by
      have found : tree.isDirectory top = true := by
        rw [isDirectory_under rooted (.here heads)]
        simp [short]
      change (if tree.isDirectory top then [[]] else []) = _
      rw [found]
      rfl
    have unseen : (tree.within place).matchIn [] [] only = [] := rfl
    unfold withTop at fits ⊢
    rw [if_pos rfl, matchAll_cons, unseen, List.map_nil, List.nil_append] at fits
    rw [if_pos rfl, matchAll_cons (tree.within place), unseen, List.map_nil, List.nil_append, matchAll_cons, seen]
    exact .deep heads.join_nil (endsWithSlash_join_nil heads.filled) (each_matchAll rooted whole each fits)

end Directories

section Patterns

variable {pattern : List Char} {only : Bool}

/-- Both fail in the same way, or what they give is related. -/
inductive Agree {α β : Type} (R : α → β → Prop) : Except Failure α → Except Failure β → Prop
  | returned {a : α} {b : β} (related : R a b) : Agree R (.ok a) (.ok b)
  | failed (failure : Failure) : Agree R (.error failure) (.error failure)

theorem Agree.bind {α β γ δ : Type} {R : α → β → Prop} {S : γ → δ → Prop} {first : Except Failure α}
    {second : Except Failure β} {next : α → Except Failure γ} {other : β → Except Failure δ}
    (agree : Agree R first second) (rest : ∀ a b, second = .ok b → R a b → Agree S (next a) (other b)) :
    Agree S (first >>= next) (second >>= other) := by
  cases agree with
  | returned related => exact rest _ _ rfl related
  | failed failure => exact .failed failure

/-- What the leading parts of a pattern find from inside a directory can be looked up under a root. -/
def Fits (tree : FileTree) (root pattern : List Char) : Prop :=
  ∀ lead, lead <+: pattern → ∀ only found, tree.matched lead only = .ok found →
    ∀ path ∈ found, byteLength (join root path) ≤ pathLimit

theorem Fits.lead {lead : List Char} (fits : Fits tree root pattern) (front : lead <+: pattern) : Fits tree root lead :=
  fun other inside => fits other (inside.trans front)

/-- What a pattern finds under a root and from inside, where the empty path may come first. -/
def Finds (root pattern : List Char) (paths found : List (List Char)) : Prop :=
  ∃ rests, found = withTop (isDeep pattern && !endsWithSlash pattern) rests ∧ Lists root (isDeep pattern) paths rests

theorem Finds.of_plain {paths found : List (List Char)} (flat : isDeep pattern = false)
    (each : List.Forall₂ (Inside root) paths found) : Finds root pattern paths found := by
  unfold Finds
  rw [flat]
  exact ⟨found, rfl, .even each⟩

theorem hasWildcard_join (rooted : Rooted tree root place) (relative : isAbsolute pattern = false) :
    hasWildcard (join root pattern) = hasWildcard pattern := by
  have plain := (Heads.joined rooted.filled).plain rooted
  rw [join_eq relative]
  unfold hasWildcard at plain ⊢
  rw [List.any_append, plain, Bool.false_or]

theorem take_of_isDeep (proper : Proper pattern) (deep : isDeep pattern = true) : pattern.take 2 = ['*', '*'] := by
  unfold isDeep at deep
  rcases Text.cut_cases '/' pattern with none | ⟨s, t, rfl, none⟩
  · rw [parts_of_notMem proper.filled none] at deep
    obtain rfl : pattern = ['*', '*'] := by simpa using deep
    rfl
  · have filled : s ≠ [] := by
      rintro rfl
      cases proper.relative
    rw [parts_append_slash, parts_of_notMem filled none, List.all_append] at deep
    obtain rfl : s = ['*', '*'] := by simpa using (Bool.and_eq_true_iff.mp deep).1
    rfl

theorem isDeep_of_plain (proper : Proper pattern) (plain : hasWildcard pattern = false) : isDeep pattern = false := by
  cases deep : isDeep pattern with
  | false => rfl
  | true =>
    have star : '*' ∈ pattern := by
      have front : '*' ∈ pattern.take 2 := by simp [take_of_isDeep proper deep]
      exact List.mem_of_mem_take front
    exact absurd rfl (List.any_eq_false.mp plain '*' star)

theorem isDeep_append {head last : List Char} (ends : endsWithSlash head = true) (whole : '/' ∉ last) :
    isDeep (head ++ last) = (isDeep (Text.dropEnd '/' head) && (last.isEmpty || last == ['*', '*'])) := by
  obtain ⟨front, rfl⟩ := eq_append_slash ends
  have same : Path.parts (Text.dropEnd '/' (front ++ ['/'])) = Path.parts front := by
    rw [parts_dropEnd, parts_append_slash]
    exact List.append_nil _
  unfold isDeep
  rw [same, List.append_assoc, List.singleton_append, parts_append_slash, List.all_append]
  cases last with
  | nil => rfl
  | cons c last =>
    rw [parts_of_notMem (List.cons_ne_nil c last) whole]
    simp

/-- A path under a root is cut where the path itself is, and its directory part goes on from the root if there is no
name behind it. -/
theorem exists_split_join (filled : root ≠ []) (proper : Proper pattern) :
    ∃ part directory front, Path.split pattern = (directory, part) ∧ Path.split (join root pattern) = (front, part) ∧
      (part = [] → Inside root front directory ∧ byteLength front ≤ byteLength (join root pattern)) := by
  obtain ⟨head, last, rfl, whole, rfl | ends⟩ := exists_cut pattern
  · rw [List.nil_append] at proper ⊢
    obtain ⟨front, cut, -⟩ := Heads.split filled whole
    rw [← join_eq proper.relative] at cut
    exact ⟨last, [], front, split_of_notMem whole, cut, fun empty => absurd empty proper.filled⟩
  · obtain ⟨cut, inner, -, split⟩ := split_proper proper whole ends
    refine ⟨last, _, _, cut, split root, fun _ => ⟨inside_join filled inner, byteLength_le_of_initial ?_⟩⟩
    rw [join_eq inner.relative, join_eq proper.relative]
    have front : Text.dropEnd '/' head <+: head := List.rdropWhile_prefix _ _
    exact (List.prefix_append_right_inj _).mpr (front.trans (List.prefix_append _ _))

theorem matchPlain_under (rooted : Rooted tree root place) (proper : Proper pattern)
    (fits : ∀ path ∈ (tree.within place).matchPlain pattern, byteLength (join root path) ≤ pathLimit) :
    List.Forall₂ (Inside root) (tree.matchPlain (join root pattern)) ((tree.within place).matchPlain pattern) := by
  have inside := inside_join rooted.filled proper
  obtain ⟨part, directory, front, cut, split, enters⟩ := exists_split_join rooted.filled proper
  unfold matchPlain at fits ⊢
  rw [cut] at fits
  rw [cut, split]
  dsimp only at fits ⊢
  cases part with
  | nil =>
    obtain ⟨inner, before⟩ := enters rfl
    rw [List.isEmpty_nil, if_pos rfl] at fits ⊢
    rw [if_pos rfl, isDirectory_inside rooted inner]
    cases here : (tree.within place).isDirectory directory with
    | false => simp
    | true =>
      have short := Nat.le_trans before (fits pattern (by simp [here]))
      simpa [short] using inside
  | cons c part =>
    simp only [List.isEmpty_cons, Bool.false_eq_true, if_false] at fits ⊢
    rw [exists?_inside rooted inside]
    cases here : (tree.within place).exists? pattern with
    | false => simp
    | true =>
      have short := fits pattern (by simp [here])
      simpa [short] using inside

theorem leading_under (rooted : Rooted tree root place) (proper : Proper pattern)
    (found : hasWildcard pattern = true →
      Agree (Finds root pattern) (tree.matched (join root pattern) true) ((tree.within place).matched pattern true)) :
    Agree (Finds root pattern) (tree.leading (join root pattern)) ((tree.within place).leading pattern) := by
  unfold leading
  rw [hasWildcard_join rooted proper.relative]
  cases wild : hasWildcard pattern with
  | true => exact found wild
  | false =>
    exact .returned (.of_plain (isDeep_of_plain proper wild) (.cons (inside_join rooted.filled proper) .nil))

theorem matched_single_under (rooted : Rooted tree root place) (proper : Proper pattern) (whole : '/' ∉ pattern)
    (wild : hasWildcard pattern = true) (fits : Fits (tree.within place) root pattern) (only : Bool) :
    Agree (Finds root pattern) (tree.matched (join root pattern) only) ((tree.within place).matched pattern only) := by
  have plain := (locate_eq_ok.mp rooted.located).2.1
  have inside : (tree.within place).matched pattern only = _ := matched_single wild whole only
  have short := fits pattern (List.prefix_refl _) only _ inside
  obtain ⟨front, cut, heads, before⟩ := Heads.split rooted.filled whole
  rw [← join_eq proper.relative] at cut
  have shorter : front ≠ join root pattern := by
    intro same
    have first := before.length_le
    have second := (prefix_join root (show isAbsolute [] = false from rfl)).length_le
    have some := List.length_pos_iff.mpr proper.filled
    rw [same, join_eq proper.relative, List.length_append] at first
    omega
  have listed : [front].any (·.contains '\x00') = false := by
    simpa using heads.notMem plain (by decide)
  have above : tree.matched (join root pattern) only = .ok (tree.matchAll [front] pattern only) := by
    rw [matched_deeper ((hasWildcard_join rooted proper.relative).trans wild) cut heads.filled shorter, leading,
      heads.plain rooted, if_neg (by decide)]
    change (if hasWildcard pattern && [front].any (·.contains '\x00') then _ else _) = _
    rw [listed, Bool.and_false]
    rfl
  obtain ⟨found, same, lists⟩ := lists_matchIn only rooted heads whole proper.filled short
  have deep : isDeep pattern = (pattern == ['*', '*']) := by
    unfold isDeep
    rw [parts_of_notMem proper.filled whole]
    simp
  rw [above, inside]
  refine .returned ⟨found, ?_, ?_⟩
  · rw [deep, endsWithSlash_of_notMem whole, same]
    simp
  · rw [deep, matchAll_cons]
    simpa [matchAll] using lists

theorem Fits.room {lead : List Char} {rests : List (List Char)} (fits : Fits tree root pattern)
    (front : lead <+: pattern) (proper : Proper lead)
    (found : tree.leading lead = .ok (withTop (isDeep lead) rests)) (deep : isDeep lead = true) :
    byteLength (join root []) ≤ pathLimit := by
  have wild : hasWildcard lead = true := by
    cases plain : hasWildcard lead with
    | true => rfl
    | false =>
      rw [isDeep_of_plain proper plain] at deep
      cases deep
  rw [leading, if_pos wild] at found
  exact fits lead front true _ found [] (by simp [withTop, deep])

theorem finds_nil (rooted : Rooted tree root place) {head : List Char} (ends : endsWithSlash head = true) {only : Bool}
    {paths rests : List (List Char)} (lists : Lists root (isDeep (Text.dropEnd '/' head)) paths rests)
    (room : isDeep (Text.dropEnd '/' head) = true → byteLength (join root []) ≤ pathLimit)
    (fits : ∀ path ∈ (tree.within place).matchAll (withTop (isDeep (Text.dropEnd '/' head)) rests) [] only,
      byteLength (join root path) ≤ pathLimit) :
    Finds root (head ++ []) (tree.matchAll paths [] only)
      ((tree.within place).matchAll (withTop (isDeep (Text.dropEnd '/' head)) rests) [] only) := by
  have deep : isDeep (head ++ []) = isDeep (Text.dropEnd '/' head) := by
    rw [isDeep_append ends List.not_mem_nil]
    exact Bool.and_true _
  refine ⟨_, ?_, deep ▸ lists_matchAll_nil rooted lists room fits⟩
  rw [deep, List.append_nil, ends, Bool.not_true, Bool.and_false]
  rfl

theorem finds_append (rooted : Rooted tree root place) {head last : List Char} (whole : '/' ∉ last)
    (filled : last ≠ []) (ends : endsWithSlash head = true) {only : Bool} {paths rests : List (List Char)}
    (lists : Lists root (isDeep (Text.dropEnd '/' head)) paths rests)
    (fits : ∀ path ∈ (tree.within place).matchAll (withTop (isDeep (Text.dropEnd '/' head)) rests) last only,
      byteLength (join root path) ≤ pathLimit) :
    Finds root (head ++ last) (tree.matchAll paths last only)
      ((tree.within place).matchAll (withTop (isDeep (Text.dropEnd '/' head)) rests) last only) := by
  obtain ⟨found, same, lists⟩ := lists_matchAll rooted whole filled lists fits
  have some : last.isEmpty = false := by simpa using filled
  have deep : isDeep (head ++ last) = (isDeep (Text.dropEnd '/' head) && last == ['*', '*']) := by
    rw [isDeep_append ends whole, some, Bool.false_or]
  refine ⟨found, ?_, deep ▸ lists⟩
  rw [deep, endsWithSlash_append head filled, endsWithSlash_of_notMem whole, Bool.not_false, Bool.and_true]
  exact same

theorem matched_deeper_under (rooted : Rooted tree root place) {head last : List Char} (proper : Proper (head ++ last))
    (whole : '/' ∉ last) (ends : endsWithSlash head = true) (wild : hasWildcard (head ++ last) = true)
    (fits : Fits (tree.within place) root (head ++ last)) (only : Bool)
    (agree : Agree (Finds root (Text.dropEnd '/' head)) (tree.leading (join root (Text.dropEnd '/' head)))
      ((tree.within place).leading (Text.dropEnd '/' head))) :
    Agree (Finds root (head ++ last)) (tree.matched (join root (head ++ last)) only)
      ((tree.within place).matched (head ++ last) only) := by
  have plain := (locate_eq_ok.mp rooted.located).2.1
  obtain ⟨cut, inner, closed, split⟩ := split_proper proper whole ends
  have shorter : Text.dropEnd '/' head ≠ head ++ last := by
    intro same
    have less := length_dropEnd_lt ends
    rw [same, List.length_append] at less
    omega
  have longer : join root (Text.dropEnd '/' head) ≠ join root (head ++ last) := by
    rw [join_eq inner.relative, join_eq proper.relative]
    exact fun same => shorter (List.append_cancel_left same)
  have inside : (tree.within place).matched (head ++ last) only = _ := matched_deeper wild cut inner.filled shorter only
  have above : tree.matched (join root (head ++ last)) only = _ :=
    matched_deeper ((hasWildcard_join rooted proper.relative).trans wild) (split root)
      (inside_join rooted.filled inner).filled longer only
  rw [above, inside]
  apply agree.bind
  rintro paths _ found ⟨rests, rfl, lists⟩
  rw [closed, Bool.not_false, Bool.and_true] at found
  rw [closed, Bool.not_false, Bool.and_true, lists.any_contains plain (by decide)]
  cases bad : hasWildcard last && (withTop (isDeep (Text.dropEnd '/' head)) rests).any (·.contains '\x00') with
  | true => exact .failed _
  | false =>
    have short := fits _ (List.prefix_refl _) only ((tree.within place).matchAll (withTop _ rests) last only) (by
      rw [inside, found]
      change (if hasWildcard last && (withTop _ rests).any (·.contains '\x00') then _ else _) = _
      rw [bad]
      rfl)
    cases last with
    | nil =>
      have front : Text.dropEnd '/' head <+: head ++ [] :=
        (List.rdropWhile_prefix _ _).trans (List.prefix_append _ _)
      exact .returned (finds_nil rooted ends lists (fits.room front inner found) short)
    | cons c last => exact .returned (finds_append rooted whole (List.cons_ne_nil c last) ends lists short)

theorem matched_under (rooted : Rooted tree root place) (proper : Proper pattern)
    (fits : Fits (tree.within place) root pattern) (only : Bool) :
    Agree (Finds root pattern) (tree.matched (join root pattern) only) ((tree.within place).matched pattern only) := by
  induction bound : pattern.length using Nat.strongRecOn generalizing pattern only with
  | _ length ih =>
    subst bound
    have wildcards := hasWildcard_join rooted proper.relative
    cases wild : hasWildcard pattern with
    | false =>
      rw [wild] at wildcards
      have short := fits pattern (List.prefix_refl _) only _ (matched_plain wild only)
      rw [matched_plain wildcards, matched_plain wild]
      exact .returned (.of_plain (isDeep_of_plain proper wild) (matchPlain_under rooted proper short))
    | true =>
      rw [wild] at wildcards
      obtain ⟨head, last, rfl, whole, none | ends⟩ := exists_cut pattern
      · subst none
        rw [List.nil_append] at proper fits wildcards wild ⊢
        exact matched_single_under rooted proper whole wild fits only
      · have inner := (split_proper proper whole ends).2.1
        have front : Text.dropEnd '/' head <+: head ++ last :=
          (List.rdropWhile_prefix _ _).trans (List.prefix_append _ _)
        have shorter : (Text.dropEnd '/' head).length < (head ++ last).length :=
          Nat.lt_of_lt_of_le (length_dropEnd_lt ends) (List.prefix_append _ _).length_le
        have agree := leading_under rooted inner fun _ => ih _ shorter inner (fits.lead front) true rfl
        exact matched_deeper_under rooted proper whole ends wild fits only agree

end Patterns

end TaskBoard.FileTree
