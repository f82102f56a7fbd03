import Mathlib.Data.List.DropRight
import TaskBoard.Files.Tree
import TaskBoard.Proofs.Pattern.Rewriting

/-!
Path texts by their parts. Slashes that are doubled or stand at the end change neither the parts of a path nor, in
front of a directory's name, the place that it leads to. Following a path only looks at its text, so a place is
what the parts lead to, each `..` taking back the name before it.
-/

namespace TaskBoard

namespace Text

variable {separator : Char}

/-- Cutting at each separator is cutting at one of them first. -/
theorem pieces_append (s t : List Char) :
    pieces separator (s ++ separator :: t) = pieces separator s ++ pieces separator t := by
  induction s with
  | nil => simp [pieces]
  | cons c s ih =>
    by_cases same : c = separator
    · simp [pieces, same, ih]
    · cases cut : pieces separator s with
      | nil => exact absurd cut (pieces_ne_nil separator s)
      | cons piece others => simp [pieces, same, ih, cut]

theorem notMem_of_mem_pieces {text piece : List Char} (member : piece ∈ pieces separator text) :
    separator ∉ piece := by
  induction text generalizing piece with
  | nil =>
    rw [pieces, List.mem_singleton] at member
    simp [member]
  | cons c text ih =>
    by_cases same : c = separator
    · simp only [pieces, if_pos same, List.mem_cons] at member
      rcases member with rfl | later
      · exact List.not_mem_nil
      · exact ih later
    · cases cut : pieces separator text with
      | nil => exact absurd cut (pieces_ne_nil separator text)
      | cons first others =>
        simp only [pieces, if_neg same, cut, List.mem_cons] at member ih
        rcases member with rfl | later
        · have inside : separator ∉ first := ih (.inl rfl)
          simpa [Ne.symm same] using inside
        · exact ih (.inr later)

theorem dropEnd_append (c : Char) (text : List Char) : ∃ n, dropEnd c text ++ List.replicate n c = text := by
  refine ⟨(text.rtakeWhile (· == c)).length, ?_⟩
  have run : text.rtakeWhile (· == c) = List.replicate (text.rtakeWhile (· == c)).length c :=
    List.eq_replicate_of_mem fun d member => by simpa using List.mem_rtakeWhile_imp member
  rw [← run]
  exact List.rdropWhile_append_rtakeWhile

/-- The end of a text is its end also when something stands in front, if the text is more than that end. -/
theorem dropEnd_append_left {c : Char} (front : List Char) {text : List Char} (left : ¬text.all (· == c) = true) :
    dropEnd c (front ++ text) = front ++ dropEnd c text := by
  change (front ++ text).rdropWhile (· == c) = front ++ text.rdropWhile (· == c)
  induction text using List.reverseRecOn with
  | nil => exact absurd rfl left
  | append_singleton text d ih =>
    rw [← List.append_assoc, List.rdropWhile_concat, List.rdropWhile_concat]
    split
    next same =>
      apply ih
      simpa [same] using left
    next => rw [List.append_assoc]

end Text

namespace Path

/-- A name as directories have them. -/
structure Real (name : List Char) : Prop where
  filled : name ≠ []
  whole : '/' ∉ name
  here : name ≠ ['.']
  up : name ≠ ['.', '.']

/-- A path that says more than where it starts. -/
structure Proper (path : List Char) : Prop where
  filled : path ≠ []
  relative : isAbsolute path = false

theorem Proper.of_notMem {name : List Char} (filled : name ≠ []) (whole : '/' ∉ name) : Proper name where
  filled := filled
  relative := by
    cases name with
    | nil => rfl
    | cons c name =>
      unfold isAbsolute
      split
      next same => exact absurd (by simp_all) whole
      next => rfl

theorem Real.proper {name : List Char} (real : Real name) : Proper name := .of_notMem real.filled real.whole

theorem parts_append_slash (s t : List Char) : parts (s ++ '/' :: t) = parts s ++ parts t := by
  rw [parts, Text.pieces_append, List.filter_append]
  rfl

theorem parts_cons_slash (s : List Char) : parts ('/' :: s) = parts s := parts_append_slash [] s

theorem parts_replicate_append (n : Nat) (s : List Char) : parts (List.replicate n '/' ++ s) = parts s := by
  induction n with
  | zero => rfl
  | succ n ih => rw [List.replicate_succ, List.cons_append, parts_cons_slash, ih]

theorem parts_append_replicate (s : List Char) (n : Nat) : parts (s ++ List.replicate n '/') = parts s := by
  induction n generalizing s with
  | zero => rw [List.replicate_zero, List.append_nil]
  | succ n ih =>
    rw [List.replicate_succ, parts_append_slash, ← List.append_nil (List.replicate n '/'), parts_replicate_append]
    exact List.append_nil _

theorem parts_dropEnd (s : List Char) : parts (Text.dropEnd '/' s) = parts s := by
  obtain ⟨n, whole⟩ := Text.dropEnd_append '/' s
  rw [← parts_append_replicate (Text.dropEnd '/' s) n, whole]

theorem parts_of_notMem {name : List Char} (filled : name ≠ []) (whole : '/' ∉ name) : parts name = [name] := by
  rw [parts, Text.pieces_of_notMem whole]
  simp [filled]

theorem parts_joinParts {route : List (List Char)} (clean : ∀ name ∈ route, name ≠ [] ∧ '/' ∉ name) :
    parts (joinParts route) = route := by
  induction route with
  | nil => rfl
  | cons name route ih =>
    obtain ⟨filled, whole⟩ := clean name List.mem_cons_self
    have later := ih fun other member => clean other (List.mem_cons_of_mem _ member)
    cases route with
    | nil => exact parts_of_notMem filled whole
    | cons next route =>
      have joined : joinParts (name :: next :: route) = name ++ '/' :: joinParts (next :: route) := by
        simp [joinParts, Text.joinPieces]
      rw [joined, parts_append_slash, parts_of_notMem filled whole, later]
      rfl

theorem isAbsolute_append {s : List Char} (filled : s ≠ []) (t : List Char) : isAbsolute (s ++ t) = isAbsolute s := by
  cases s with
  | nil => exact absurd rfl filled
  | cons c s => rw [List.cons_append]; unfold isAbsolute; split <;> simp_all

/-- A normal form has slashes in front exactly if the path is absolute. -/
theorem leadingSlashes_eq_zero_iff {path : List Char} : leadingSlashes path = 0 ↔ isAbsolute path = false := by
  unfold leadingSlashes isAbsolute
  split <;> split <;> simp_all

theorem endsWithSlash_append (s : List Char) {t : List Char} (filled : t ≠ []) :
    endsWithSlash (s ++ t) = endsWithSlash t := by
  rw [endsWithSlash, List.getLast?_append_of_ne_nil _ filled, endsWithSlash]

theorem eq_append_slash {path : List Char} (ends : endsWithSlash path = true) : ∃ front, path = front ++ ['/'] := by
  obtain ⟨front, last⟩ := List.getLast?_eq_some_iff.mp (beq_iff_eq.mp ends)
  exact ⟨front, last⟩

theorem endsWithSlash_of_notMem {name : List Char} (whole : '/' ∉ name) : endsWithSlash name = false := by
  cases ends : endsWithSlash name with
  | false => rfl
  | true =>
    obtain ⟨front, rfl⟩ := eq_append_slash ends
    exact absurd (by simp) whole

theorem join_nil_left (path : List Char) : join [] path = path := by
  unfold join
  split <;> rfl

theorem join_of_endsWithSlash {root path : List Char} (ends : endsWithSlash root = true)
    (relative : isAbsolute path = false) : join root path = root ++ path := by
  rw [join, relative, ends, Bool.or_true]
  rfl

theorem join_nil {root : List Char} (filled : root ≠ []) :
    join root [] = if endsWithSlash root then root else root ++ ['/'] := by
  have empty : root.isEmpty = false := by simpa using filled
  rw [join, empty]
  cases endsWithSlash root <;> simp [isAbsolute]

theorem endsWithSlash_join_nil {root : List Char} (filled : root ≠ []) : endsWithSlash (join root []) = true := by
  rw [join_nil filled]
  split
  next ends => exact ends
  next => exact endsWithSlash_append root (List.cons_ne_nil _ _)

theorem join_eq {root path : List Char} (relative : isAbsolute path = false) :
    join root path = join root [] ++ path := by
  unfold join
  rw [relative]
  cases root.isEmpty || endsWithSlash root <;> simp [isAbsolute]

/-- A path is cut after its last slash; the slashes there go, unless they are all that is left. -/
theorem split_append {head last : List Char} (whole : '/' ∉ last) (ends : head = [] ∨ endsWithSlash head = true) :
    split (head ++ last) = (if head.all (· == '/') then head else Text.dropEnd '/' head, last) := by
  have run : last.reverse.takeWhile (· ≠ '/') = last.reverse := by
    rw [List.takeWhile_eq_self_iff]
    intro c member
    simpa using fun same : c = '/' => whole (same ▸ List.mem_reverse.mp member)
  have stop : head.reverse.takeWhile (· ≠ '/') = [] := by
    rcases ends with rfl | slash
    · rfl
    · obtain ⟨front, rfl⟩ := eq_append_slash slash
      simp
  have cut : ((head ++ last).reverse.takeWhile (· ≠ '/')).reverse = last := by
    rw [List.reverse_append, List.takeWhile_append_of_pos (List.takeWhile_eq_self_iff.mp run), stop, List.append_nil,
      List.reverse_reverse]
  have taken : (head ++ last).take ((head ++ last).length - last.length) = head := by simp
  unfold split
  rw [cut]
  dsimp only
  rw [taken]
  split <;> rfl

theorem prefix_join (directory : List Char) {name : List Char} (relative : isAbsolute name = false) :
    directory <+: join directory name := by
  unfold join
  rw [relative]
  cases directory.isEmpty || endsWithSlash directory <;> exact List.prefix_append _ _

theorem Proper.join {directory name : List Char} (proper : Proper directory) (relative : isAbsolute name = false) :
    Proper (join directory name) := by
  obtain ⟨more, joined⟩ := prefix_join directory relative
  rw [← joined]
  exact ⟨by simp [proper.filled], (isAbsolute_append proper.filled more).trans proper.relative⟩

theorem join_append_left (front : List Char) {directory name : List Char} (filled : directory ≠ [])
    (relative : isAbsolute name = false) : join (front ++ directory) name = front ++ join directory name := by
  have some : (front ++ directory).isEmpty = false := by simp [filled]
  have own : directory.isEmpty = false := by simpa using filled
  unfold join
  rw [relative, endsWithSlash_append front filled, some, own]
  cases endsWithSlash directory <;> simp

theorem split_of_notMem {name : List Char} (whole : '/' ∉ name) : split name = ([], name) :=
  split_append whole (.inl rfl)

theorem exists_cut (path : List Char) :
    ∃ head last, path = head ++ last ∧ '/' ∉ last ∧ (head = [] ∨ endsWithSlash head = true) := by
  refine ⟨path.rdropWhile (· ≠ '/'), path.rtakeWhile (· ≠ '/'), List.rdropWhile_append_rtakeWhile.symm, ?_, ?_⟩
  · intro member
    simpa using List.mem_rtakeWhile_imp member
  · by_cases filled : path.rdropWhile (· ≠ '/') = []
    · exact .inl filled
    · have last := List.rdropWhile_last_not (· ≠ '/') path filled
      refine .inr ?_
      rw [endsWithSlash, List.getLast?_eq_getLast_of_ne_nil filled]
      simpa using last

theorem split_prefix (path : List Char) : (split path).1 <+: path := by
  obtain ⟨head, last, rfl, whole, ends⟩ := exists_cut path
  rw [split_append whole ends]
  dsimp only
  split
  · exact List.prefix_append _ _
  · exact (List.rdropWhile_prefix _ _).trans (List.prefix_append _ _)

theorem length_dropEnd_lt {head : List Char} (ends : endsWithSlash head = true) :
    (Text.dropEnd '/' head).length < head.length := by
  obtain ⟨front, rfl⟩ := eq_append_slash ends
  have same : Text.dropEnd '/' (front ++ ['/']) = Text.dropEnd '/' front := List.rdropWhile_concat_pos _ _ _ rfl
  have front_le := (List.rdropWhile_prefix (· == '/') front).length_le
  rw [same, List.length_append]
  exact Nat.lt_succ_of_le front_le

theorem split_proper {head last : List Char} (proper : Proper (head ++ last)) (whole : '/' ∉ last)
    (ends : endsWithSlash head = true) :
    split (head ++ last) = (Text.dropEnd '/' head, last) ∧ Proper (Text.dropEnd '/' head) ∧
      endsWithSlash (Text.dropEnd '/' head) = false ∧
      ∀ root, split (join root (head ++ last)) = (join root (Text.dropEnd '/' head), last) := by
  obtain ⟨front, rfl⟩ := eq_append_slash ends
  have filled : front ++ ['/'] ≠ [] := by simp
  have relative : isAbsolute (front ++ ['/']) = false := by
    rw [← isAbsolute_append filled last]
    exact proper.relative
  have more : ¬(front ++ ['/']).all (· == '/') = true := by
    intro all
    cases front with
    | nil => cases relative
    | cons c front =>
      obtain rfl : c = '/' := by simpa using List.all_eq_true.mp all c (by simp)
      cases relative
  have short : Text.dropEnd '/' (front ++ ['/']) <+: front ++ ['/'] := List.rdropWhile_prefix _ _
  have left : Text.dropEnd '/' (front ++ ['/']) ≠ [] := fun none =>
    more (List.all_eq_true.mpr (List.rdropWhile_eq_nil_iff.mp none))
  have inner : Proper (Text.dropEnd '/' (front ++ ['/'])) := by
    refine ⟨left, ?_⟩
    obtain ⟨slashes, joined⟩ := short
    rw [← isAbsolute_append left slashes, joined]
    exact relative
  refine ⟨?_, inner, ?_, fun root => ?_⟩
  · rw [split_append whole (.inr ends), if_neg more]
  · have final := List.rdropWhile_last_not (· == '/') (front ++ ['/']) left
    rw [endsWithSlash, List.getLast?_eq_getLast_of_ne_nil left, Option.some_beq_some]
    exact Bool.eq_false_iff.mpr final
  · have cut : split (join root [] ++ (front ++ ['/']) ++ last) = _ :=
      split_append whole (.inr ((endsWithSlash_append _ filled).trans ends))
    have all : ¬(join root [] ++ (front ++ ['/'])).all (· == '/') = true := by
      rw [List.all_append]
      simp only [Bool.and_eq_true, not_and]
      exact fun _ => more
    rw [if_neg all, Text.dropEnd_append_left _ more, ← join_eq inner.relative] at cut
    rw [join_eq proper.relative, ← List.append_assoc, cut]

end Path

namespace FileTree

variable {tree : FileTree}

theorem byteLength_append (s t : List Char) : byteLength (s ++ t) = byteLength s + byteLength t := by
  have shifted : ∀ (text : List Char) (size : Nat),
      text.foldl (fun size c => size + c.utf8Size) size = size + byteLength text := by
    intro text
    induction text with
    | nil => exact fun size => rfl
    | cons c text ih =>
      intro size
      rw [byteLength, List.foldl_cons, List.foldl_cons, ih, ih (0 + c.utf8Size)]
      omega
  rw [byteLength, List.foldl_append, shifted]
  rfl

theorem byteLength_le_of_initial {s t : List Char} (front : s <+: t) : byteLength s ≤ byteLength t := by
  obtain ⟨more, rfl⟩ := front
  rw [byteLength_append]
  exact Nat.le_add_right _ _

/-- Goes from a place on by one part of a path. -/
def step (tree : FileTree) (place : Route) (part : List Char) : Except Absence Route :=
  if tree.isDirectoryAt place then
    if part = [] ∨ part = ['.'] then pure place
    else if part = ['.', '.'] then pure place.dropLast
    else if nameLimit < byteLength part then throw .tooLong
    else if (tree.entry? (place ++ [part])).isSome then pure (place ++ [part])
    else throw .missing
  else throw .missing

theorem follow_cons (place : Route) (part : List Char) (path : List (List Char)) :
    tree.follow place (part :: path) = (do tree.follow (← tree.step place part) path) := by
  rw [follow, step]
  split
  · split
    · rfl
    · split
      · rfl
      · split
        · rfl
        · dsimp only
          split <;> rfl
  · rfl

theorem follow_append (place : Route) (first second : List (List Char)) :
    tree.follow place (first ++ second) = (do tree.follow (← tree.follow place first) second) := by
  induction first generalizing place with
  | nil => rfl
  | cons part first ih =>
    rw [List.cons_append, follow_cons, follow_cons]
    cases tree.step place part with
    | error absence => rfl
    | ok next => exact ih next

theorem isDirectoryAt_of_step {place next : Route} {part : List Char} (goes : tree.step place part = .ok next) :
    tree.isDirectoryAt place = true := by
  unfold step at goes
  split at goes
  next directory => exact directory
  next => cases goes

theorem step_nil {place : Route} (here : tree.isDirectoryAt place = true) : tree.step place [] = .ok place := by
  rw [step, if_pos here, if_pos (.inl rfl)]
  rfl

theorem follow_cons_eq_ok {place last : Route} {part : List Char} {path : List (List Char)} :
    tree.follow place (part :: path) = .ok last ↔
      ∃ next, tree.step place part = .ok next ∧ tree.follow next path = .ok last := by
  rw [follow_cons]
  cases tree.step place part with
  | error absence =>
    constructor
    · rintro ⟨⟩
    · rintro ⟨next, ⟨⟩, -⟩
  | ok next =>
    constructor
    · exact fun leads => ⟨next, rfl, leads⟩
    · rintro ⟨_, ⟨rfl⟩, leads⟩
      exact leads

/-- What leads to a directory starts from one. -/
theorem isDirectoryAt_of_follow {place last : Route} (directory : tree.isDirectoryAt last = true)
    {path : List (List Char)} (leads : tree.follow place path = .ok last) : tree.isDirectoryAt place = true := by
  cases path with
  | nil =>
    cases leads
    exact directory
  | cons part path =>
    obtain ⟨next, goes, -⟩ := follow_cons_eq_ok.mp leads
    exact isDirectoryAt_of_step goes

theorem follow_filter {place last : Route} (directory : tree.isDirectoryAt last = true) (path : List (List Char)) :
    tree.follow place path = .ok last ↔ tree.follow place (path.filter (· ≠ [])) = .ok last := by
  induction path generalizing place with
  | nil => rfl
  | cons part path ih =>
    by_cases empty : part = []
    · subst empty
      rw [follow_cons_eq_ok, List.filter_cons_of_neg (by simp)]
      constructor
      · rintro ⟨next, goes, leads⟩
        rw [step_nil (isDirectoryAt_of_step goes)] at goes
        cases goes
        exact ih.mp leads
      · intro leads
        have here := isDirectoryAt_of_follow directory leads
        exact ⟨place, step_nil here, ih.mpr leads⟩
    · rw [List.filter_cons_of_pos (by simpa using empty), follow_cons_eq_ok, follow_cons_eq_ok]
      exact exists_congr fun next => and_congr_right fun _ => ih

/-- A path with the parts of the one that leads to a directory leads there too. -/
theorem follow_of_parts {place last : Route} (directory : tree.isDirectoryAt last = true) {path other : List Char}
    (leads : tree.follow place (Text.pieces '/' path) = .ok last) (same : Path.parts other = Path.parts path) :
    tree.follow place (Text.pieces '/' other) = .ok last := by
  rw [follow_filter directory] at leads ⊢
  exact (congrArg (tree.follow place) same).trans leads

/-- The place that parts lead to from another one, as far as their text tells. -/
def resolve (place : Route) (path : List (List Char)) : Route :=
  (path.foldl (Path.settle true) place.reverse).reverse

theorem resolve_append (place : Route) (first second : List (List Char)) :
    resolve place (first ++ second) = resolve (resolve place first) second := by
  rw [resolve, resolve, resolve, List.foldl_append, List.reverse_reverse]

/-- Going on from a place of real names by one part is what the text of the part tells. -/
theorem step_eq_settle {place next : Route} {part : List Char} (real : ∀ name ∈ place, Path.Real name)
    (whole : '/' ∉ part) (goes : tree.step place part = .ok next) :
    next.reverse = Path.settle true place.reverse part ∧ ∀ name ∈ next, Path.Real name := by
  unfold step at goes
  rw [if_pos (isDirectoryAt_of_step goes)] at goes
  unfold Path.settle
  split at goes
  next still =>
    cases goes
    rw [if_pos still]
    exact ⟨rfl, real⟩
  next moves =>
    rw [if_neg moves]
    split at goes
    next up =>
      cases goes
      rw [if_pos up]
      rcases List.eq_nil_or_concat place with rfl | ⟨before, last, rfl⟩
      · exact ⟨rfl, real⟩
      · have named : last ≠ ['.', '.'] := (real last (by simp)).up
        refine ⟨by simp [named], fun name member => real name ?_⟩
        rw [List.concat_eq_append, List.dropLast_concat] at member
        simp [member]
    next down =>
      rw [if_neg down]
      split at goes
      next => cases goes
      next =>
        split at goes
        next =>
          cases goes
          refine ⟨by simp, fun name member => ?_⟩
          rcases List.mem_append.mp member with before | last
          · exact real name before
          · rw [List.mem_singleton.mp last]
            exact ⟨fun same => moves (.inl same), whole, fun same => moves (.inr same), down⟩
        next => cases goes

/-- Following a path from a place of real names ends at the place that its text tells. -/
theorem follow_eq_resolve {place last : Route} {path : List (List Char)} (real : ∀ name ∈ place, Path.Real name)
    (whole : ∀ part ∈ path, '/' ∉ part) (leads : tree.follow place path = .ok last) :
    last = resolve place path ∧ ∀ name ∈ last, Path.Real name := by
  induction path generalizing place with
  | nil =>
    cases leads
    exact ⟨by simp [resolve], real⟩
  | cons part path ih =>
    rw [follow_cons] at leads
    cases goes : tree.step place part with
    | error absence =>
      rw [goes] at leads
      cases leads
    | ok next =>
      rw [goes] at leads
      obtain ⟨settled, still⟩ := step_eq_settle real (whole part List.mem_cons_self) goes
      obtain ⟨ended, all⟩ := ih still (fun other member => whole other (List.mem_cons_of_mem _ member)) leads
      refine ⟨?_, all⟩
      rw [ended, resolve, resolve, List.foldl_cons, settled]

theorem locate_eq_ok {path : List Char} {place : Route} :
    tree.locate path = .ok place ↔ path ≠ [] ∧ '\x00' ∉ path ∧ byteLength path ≤ pathLimit ∧
      tree.follow (if Path.isAbsolute path then [] else Path.parts tree.cwd) (Text.pieces '/' path) = .ok place := by
  unfold locate
  constructor
  · intro located
    split at located
    next => cases located
    next filled =>
      split at located
      next => cases located
      next short =>
        refine ⟨fun empty => filled (.inl empty), fun nul => filled (.inr ?_), Nat.le_of_not_lt short, located⟩
        exact List.contains_iff_mem.mpr nul
  · rintro ⟨filled, plain, short, leads⟩
    have proper : ¬(path = [] ∨ path.contains '\x00' = true) := by simp [filled, plain]
    rw [if_neg proper, if_neg (Nat.not_lt.mpr short)]
    exact leads

theorem locate?_eq_some {path : List Char} {place : Route} :
    tree.locate? path = some place ↔ tree.locate path = .ok place := by
  unfold locate?
  cases tree.locate path <;> simp [Except.toOption]

end FileTree

end TaskBoard
