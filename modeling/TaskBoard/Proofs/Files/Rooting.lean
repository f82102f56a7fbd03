import TaskBoard.Files.Glob
import TaskBoard.Proofs.Files.Paths

/-!
Paths under a root. A path that goes on from a root leads to the place that the rest of it leads to from inside the
directory of the root, in whatever way the root is written; only the whole may become too long to be looked up.
-/

namespace TaskBoard.FileTree

open TaskBoard.Path

/-- A tree as there are on disks: its names are real, and it is worked with from one of its places. -/
structure Sound (tree : FileTree) : Prop where
  cwd : ∃ route, tree.cwd = '/' :: joinParts route ∧ ∀ name ∈ route, Real name
  names : ∀ entry ∈ tree.entries, ∀ name ∈ entry.1, Real name

/-- The tree, worked with from another place. -/
def within (tree : FileTree) (place : Route) : FileTree := { tree with cwd := '/' :: joinParts place }

/-- A path without wildcards that leads to a directory. -/
structure Rooted (tree : FileTree) (root : List Char) (place : Route) : Prop where
  sound : tree.Sound
  located : tree.locate root = .ok place
  directory : tree.isDirectoryAt place = true
  plain : hasWildcard root = false

/-- A root, but for the slashes in it. -/
structure Heads (root front : List Char) : Prop where
  filled : front ≠ []
  absolute : isAbsolute front = isAbsolute root
  parts : parts front = parts root
  chars : ∀ c ∈ front, c ∈ root ∨ c = '/'
  size : byteLength (join front []) ≤ byteLength (join root [])

/-- A path that goes on from a root, and the rest of it. -/
structure Inside (root path rest : List Char) : Prop where
  front : ∃ front, Heads root front ∧ endsWithSlash front = true ∧ path = front ++ rest
  proper : Proper rest

/-- A path that leads to a root or goes on from it, and the rest of it. -/
inductive Under (root : List Char) : List Char → List Char → Prop
  | here {path : List Char} (heads : Heads root path) : Under root path []
  | inside {path rest : List Char} (inside : Inside root path rest) : Under root path rest

variable {tree : FileTree} {root : List Char} {place : Route}

@[simp] theorem isDirectoryAt_within (tree : FileTree) (place route : Route) :
    (tree.within place).isDirectoryAt route = tree.isDirectoryAt route := rfl

@[simp] theorem names_within (tree : FileTree) (place route : Route) :
    (tree.within place).names route = tree.names route := rfl

@[simp] theorem depth_within (tree : FileTree) (place : Route) : (tree.within place).depth = tree.depth := rfl

@[simp] theorem follow_within (tree : FileTree) (place start : Route) (path : List (List Char)) :
    (tree.within place).follow start path = tree.follow start path := by
  induction path generalizing start with
  | nil => rfl
  | cons part path ih =>
    rw [follow_cons, follow_cons]
    exact congrArg (tree.step start part >>= ·) (funext ih)

theorem beside_of_proper {name : List Char} (proper : Proper name) (directory : List Char) :
    beside directory name = join directory name := by
  have filled : name.isEmpty = false := by simpa using proper.filled
  unfold beside
  rw [filled]
  split
  next none => rw [List.isEmpty_iff.mp none, join_nil_left]
  next => rfl

namespace Rooted

variable (rooted : Rooted tree root place)
include rooted

theorem filled : root ≠ [] := (locate_eq_ok.mp rooted.located).1

theorem leads : tree.follow (if isAbsolute root then [] else Path.parts tree.cwd) (Text.pieces '/' root) = .ok place :=
  (locate_eq_ok.mp rooted.located).2.2.2

theorem resolved : place = resolve (if isAbsolute root then [] else Path.parts tree.cwd) (Text.pieces '/' root) ∧
    ∀ name ∈ place, Real name := by
  apply follow_eq_resolve ?_ (fun part member => Text.notMem_of_mem_pieces member) rooted.leads
  split
  · simp
  · obtain ⟨route, cwd, real⟩ := rooted.sound.cwd
    rw [cwd, parts_cons_slash, parts_joinParts fun name member => ⟨(real name member).filled, (real name member).whole⟩]
    exact real

theorem parts_cwd : Path.parts (tree.within place).cwd = place := by
  change Path.parts ('/' :: joinParts place) = place
  rw [parts_cons_slash]
  have real := rooted.resolved.2
  exact parts_joinParts fun name member => ⟨(real name member).filled, (real name member).whole⟩

theorem sound_within : (tree.within place).Sound := ⟨⟨place, rfl, rooted.resolved.2⟩, rooted.sound.names⟩

end Rooted

namespace Heads

variable {front : List Char}

theorem trans {middle : List Char} (first : Heads root middle) (second : Heads middle front) : Heads root front where
  filled := second.filled
  absolute := second.absolute.trans first.absolute
  parts := second.parts.trans first.parts
  chars c member := (second.chars c member).elim (first.chars c) .inr
  size := Nat.le_trans second.size first.size

theorem refl (filled : root ≠ []) : Heads root root := ⟨filled, rfl, rfl, fun _ member => .inl member, Nat.le_refl _⟩

theorem joined (filled : root ≠ []) : Heads root (join root []) := by
  have slash := endsWithSlash_join_nil filled
  have size : byteLength (join (join root []) []) ≤ byteLength (join root []) := by
    rw [join_of_endsWithSlash slash rfl, List.append_nil]
  have cases : join root [] = root ∨ join root [] = root ++ ['/'] := by
    rw [Path.join_nil filled]
    exact ite_eq_or_eq _ _ _
  rcases cases with same | same
  · refine ⟨?_, ?_, ?_, ?_, size⟩ <;> rw [same]
    · exact filled
    · exact fun c member => .inl member
  · refine ⟨?_, ?_, ?_, ?_, size⟩ <;> rw [same]
    · simp
    · exact isAbsolute_append filled _
    · exact (parts_append_slash root []).trans (List.append_nil _)
    · intro c member
      simpa using member

theorem join_nil (heads : Heads root front) : Heads root (join front []) := heads.trans (joined heads.filled)

theorem notMem (heads : Heads root front) {c : Char} (foreign : c ∉ root) (other : c ≠ '/') : c ∉ front := fun member =>
  (heads.chars c member).elim foreign other

/-- However a root is written, it leads to its place. -/
theorem locate (heads : Heads root front) (rooted : Rooted tree root place) (short : byteLength front ≤ pathLimit) :
    tree.locate front = .ok place := by
  have plain := (locate_eq_ok.mp rooted.located).2.1
  refine locate_eq_ok.mpr ⟨heads.filled, heads.notMem plain (by decide), short, ?_⟩
  rw [heads.absolute]
  exact follow_of_parts rooted.directory rooted.leads heads.parts

theorem plain (heads : Heads root front) (rooted : Rooted tree root place) : hasWildcard front = false := by
  rw [hasWildcard, List.any_eq_false]
  intro c member
  rcases heads.chars c member with own | rfl
  · exact List.any_eq_false.mp rooted.plain c own
  · decide

theorem dropEnd (left : Text.dropEnd '/' root ≠ []) : Heads root (Text.dropEnd '/' root) where
  filled := left
  absolute := by
    obtain ⟨slashes, whole⟩ : Text.dropEnd '/' root <+: root := List.rdropWhile_prefix _ _
    have first := isAbsolute_append left slashes
    rw [whole] at first
    exact first.symm
  parts := parts_dropEnd root
  chars c member := .inl ((List.rdropWhile_prefix _ _).subset member)
  size := by
    obtain ⟨n, whole⟩ := Text.dropEnd_append '/' root
    cases n with
    | zero =>
      rw [List.replicate_zero, List.append_nil] at whole
      rw [whole]
    | succ n =>
      -- one of the slashes that were dropped is the one that is put at the end
      refine byteLength_le_of_initial (List.IsPrefix.trans ?_ (prefix_join root rfl))
      rw [Path.join_nil left]
      split
      · exact List.rdropWhile_prefix _ _
      · exact ⟨List.replicate n '/', by rw [List.append_assoc, List.singleton_append, ← List.replicate_succ, whole]⟩

theorem split {name : List Char} (filled : root ≠ []) (whole : '/' ∉ name) :
    ∃ front, Path.split (join root [] ++ name) = (front, name) ∧ Heads root front ∧ front <+: root := by
  have all : (join root []).all (· == '/') = root.all (· == '/') := by
    rw [Path.join_nil filled]
    split <;> simp
  refine ⟨_, split_append whole (.inr (endsWithSlash_join_nil filled)), ?_⟩
  rw [all]
  split
  next slashes =>
    have ends : endsWithSlash root = true := by
      rw [endsWithSlash, List.getLast?_eq_getLast_of_ne_nil filled]
      exact List.all_eq_true.mp slashes _ (List.getLast_mem filled)
    rw [Path.join_nil filled, if_pos ends]
    exact ⟨refl filled, List.prefix_refl root⟩
  next more =>
    have same : Text.dropEnd '/' (join root []) = Text.dropEnd '/' root := by
      rw [Path.join_nil filled]
      split
      · rfl
      · exact List.rdropWhile_concat_pos _ _ _ rfl
    have left : Text.dropEnd '/' root ≠ [] := by
      intro none
      exact more (List.all_eq_true.mpr (List.rdropWhile_eq_nil_iff.mp none))
    rw [same]
    exact ⟨dropEnd left, List.rdropWhile_prefix _ _⟩

end Heads

namespace Inside

variable {path rest name : List Char}

theorem filled (inside : Inside root path rest) : path ≠ [] := by
  obtain ⟨front, heads, -, rfl⟩ := inside.front
  simp [heads.filled]

theorem size (inside : Inside root path rest) : byteLength path ≤ byteLength (join root rest) := by
  obtain ⟨front, heads, ends, rfl⟩ := inside.front
  have short := heads.size
  rw [join_of_endsWithSlash ends rfl, List.append_nil] at short
  rw [join_eq inside.proper.relative, byteLength_append, byteLength_append]
  exact Nat.add_le_add_right short _

theorem endsWithSlash (inside : Inside root path rest) : Path.endsWithSlash path = Path.endsWithSlash rest := by
  obtain ⟨front, -, -, rfl⟩ := inside.front
  exact endsWithSlash_append front inside.proper.filled

theorem notMem (inside : Inside root path rest) {c : Char} (foreign : c ∉ root) (other : c ≠ '/') :
    c ∉ path ↔ c ∉ rest := by
  obtain ⟨front, heads, -, rfl⟩ := inside.front
  simp [heads.notMem foreign other]

theorem follow (inside : Inside root path rest) (rooted : Rooted tree root place) :
    tree.follow (if isAbsolute path then [] else Path.parts tree.cwd) (Text.pieces '/' path) =
      tree.follow place (Text.pieces '/' rest) := by
  obtain ⟨front, heads, ends, rfl⟩ := inside.front
  obtain ⟨directory, rfl⟩ := eq_append_slash ends
  have same : Path.parts directory = Path.parts root := by
    rw [← heads.parts, parts_append_slash]
    exact (List.append_nil _).symm
  have enters := follow_of_parts rooted.directory rooted.leads same
  rw [isAbsolute_append heads.filled, heads.absolute, List.append_assoc, List.singleton_append, Text.pieces_append,
    follow_append, enters]
  rfl

theorem join (inside : Inside root path rest) (relative : isAbsolute name = false) :
    Inside root (Path.join path name) (Path.join rest name) := by
  obtain ⟨front, heads, slash, rfl⟩ := inside.front
  obtain ⟨filled, proper⟩ := inside.proper
  refine ⟨⟨front, heads, slash, join_append_left front filled relative⟩, ?_⟩
  exact Proper.join ⟨filled, proper⟩ relative

end Inside

namespace Under

variable {path rest name : List Char}

theorem of_filled (under : Under root path rest) (filled : rest ≠ []) : Inside root path rest := by
  cases under with
  | here heads => exact absurd rfl filled
  | inside inside => exact inside

theorem filled (under : Under root path rest) : path ≠ [] := by
  cases under with
  | here heads => exact heads.filled
  | inside inside => exact inside.filled

theorem notMem (under : Under root path rest) {c : Char} (foreign : c ∉ root) (other : c ≠ '/') :
    c ∉ path ↔ c ∉ rest := by
  cases under with
  | here heads => simpa using heads.notMem foreign other
  | inside inside => exact inside.notMem foreign other

theorem size (under : Under root path rest) : byteLength path ≤ byteLength (join root rest) := by
  cases under with
  | here heads =>
    refine Nat.le_trans ?_ heads.size
    rw [Path.join_nil heads.filled]
    split
    · exact Nat.le_refl _
    · rw [byteLength_append]
      exact Nat.le_add_right _ _
  | inside inside => exact inside.size

theorem relative (under : Under root path rest) : isAbsolute rest = false := by
  cases under with
  | here heads => rfl
  | inside inside => exact inside.proper.relative

/-- What goes on from a path can be looked up under a root only if the path can. -/
theorem size_join (under : Under root path rest) (relative : isAbsolute name = false) :
    byteLength path ≤ byteLength (Path.join root (Path.join rest name)) := by
  have further : isAbsolute (Path.join rest name) = false := by
    cases under with
    | here heads => rwa [join_nil_left]
    | inside inside => exact (inside.proper.join relative).relative
  refine Nat.le_trans under.size (byteLength_le_of_initial ?_)
  rw [join_eq under.relative, join_eq further]
  exact (List.prefix_append_right_inj _).mpr (prefix_join rest relative)

theorem join (under : Under root path rest) (proper : Proper name) :
    Inside root (Path.join path name) (Path.join rest name) := by
  cases under with
  | here heads =>
    rw [join_nil_left, join_eq proper.relative]
    exact ⟨⟨_, heads.join_nil, endsWithSlash_join_nil heads.filled, rfl⟩, proper⟩
  | inside inside => exact inside.join proper.relative

theorem beside (under : Under root path rest) (proper : Proper name) :
    Inside root (FileTree.beside path name) (FileTree.beside rest name) := by
  rw [beside_of_proper proper, beside_of_proper proper]
  exact under.join proper

theorem locate? (under : Under root path rest) (rooted : Rooted tree root place) :
    tree.locate? path = if byteLength path ≤ pathLimit then
      (tree.within place).locate? (if rest.isEmpty then ['.'] else rest) else none := by
  have plain := (locate_eq_ok.mp rooted.located).2.1
  split
  next short =>
    cases under with
    | here heads =>
      have stays : tree.step place ['.'] = .ok place := by
        rw [step, if_pos rooted.directory, if_pos (.inr rfl)]
        rfl
      have here : (tree.within place).locate ['.'] = .ok place := by
        refine locate_eq_ok.mpr ⟨by decide, by decide, by decide, ?_⟩
        change (tree.within place).follow (parts (tree.within place).cwd) [['.']] = _
        rw [rooted.parts_cwd, follow_within, follow_cons, stays]
        rfl
      exact (locate?_eq_some.mpr (heads.locate rooted short)).trans (locate?_eq_some.mpr here).symm
    | inside inside =>
      have own : rest.isEmpty = false := by simpa using inside.proper.filled
      have starts : (if isAbsolute rest then [] else Path.parts (tree.within place).cwd) = place := by
        rw [inside.proper.relative]
        exact rooted.parts_cwd
      have size : byteLength rest ≤ byteLength path := by
        obtain ⟨front, -, -, rfl⟩ := inside.front
        rw [byteLength_append]
        exact Nat.le_add_left _ _
      rw [own]
      apply Option.ext
      intro last
      refine locate?_eq_some.trans (Iff.trans ?_ locate?_eq_some.symm)
      rw [if_neg (by decide), locate_eq_ok, locate_eq_ok, starts, follow_within, ← inside.follow rooted,
        inside.notMem plain (by decide)]
      simp only [ne_eq, inside.filled, inside.proper.filled, short, Nat.le_trans size short, not_false_eq_true]
  next long =>
    have refused : ¬∃ last, tree.locate path = .ok last := by
      rintro ⟨last, located⟩
      exact long (locate_eq_ok.mp located).2.2.1
    cases found : tree.locate? path with
    | none => rfl
    | some last => exact absurd ⟨last, locate?_eq_some.mp found⟩ refused

end Under

theorem inside_join (filled : root ≠ []) {path : List Char} (proper : Proper path) :
    Inside root (join root path) path := by
  have inside := (Under.here (Heads.refl filled)).join proper
  rwa [join_nil_left] at inside

end TaskBoard.FileTree
