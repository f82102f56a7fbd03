import TaskBoard.Board.Sources
import TaskBoard.Proofs.Acting
import TaskBoard.Proofs.Files.Listing

/-!
What comes to the front when a path is put in normal form. A part of a relative path is the first one of the normal
form exactly if the parts before it lead back to where the path starts and those after it never lead out of it again.
So a rooted pattern in normal form may begin with the mark of verbatim patterns although neither the root nor the
pattern does: the mark has then stood in front of a later part.
-/

namespace TaskBoard

namespace Path

/-- How far a part leads down: a name by one, `..` by one in the other direction, and the others not at all. -/
def drop (part : List Char) : Int :=
  if part = [] ∨ part = ['.'] then 0 else if part = ['.', '.'] then -1 else 1

/-- How far some parts lead down, one after another. -/
def descent : List (List Char) → Int
  | [] => 0
  | part :: parts => drop part + descent parts

/-- The parts never lead above the place where they start. -/
def StaysBelow (parts : List (List Char)) : Prop := ∀ front, front <+: parts → 0 ≤ descent front

instance (parts : List (List Char)) : Decidable (StaysBelow parts) :=
  decidable_of_iff (∀ front ∈ parts.inits, 0 ≤ descent front) (by simp [StaysBelow])

/-- The parts lead back to the place where they start, and never above it. -/
structure Circular (parts : List (List Char)) : Prop where
  below : StaysBelow parts
  returns : descent parts = 0

/-- A part that begins with the mark of verbatim patterns comes to the front from behind others. -/
def Resurfaces (path : List Char) : Prop :=
  isAbsolute path = false ∧ ∃ before part after, Text.pieces '/' path = before ++ part :: after ∧
    before ≠ [] ∧ part.head? = some '!' ∧ Circular before ∧ StaysBelow after

section Descent

variable {parts before after : List (List Char)} {part : List Char}

theorem descent_append (parts others : List (List Char)) :
    descent (parts ++ others) = descent parts + descent others := by
  induction parts with
  | nil => exact (Int.zero_add _).symm
  | cons part parts ih => rw [List.cons_append, descent, descent, ih, Int.add_assoc]

theorem descent_concat (parts : List (List Char)) (part : List Char) :
    descent (parts ++ [part]) = descent parts + drop part := by
  rw [descent_append, descent, descent, Int.add_zero]

theorem staysBelow_nil : StaysBelow [] := by
  intro front within
  rw [List.prefix_nil.mp within]
  exact Int.le_refl 0

theorem circular_nil : Circular [] := ⟨staysBelow_nil, rfl⟩

theorem staysBelow_concat : StaysBelow (parts ++ [part]) ↔ StaysBelow parts ∧ 0 ≤ descent parts + drop part := by
  constructor
  · intro below
    refine ⟨fun front within => below front (within.trans (List.prefix_append parts [part])), ?_⟩
    rw [← descent_concat]
    exact below _ (List.prefix_refl _)
  · rintro ⟨below, last⟩ front within
    rcases List.prefix_concat_iff.mp within with rfl | earlier
    · rwa [descent_concat]
    · exact below front earlier

theorem staysBelow_append (below : StaysBelow before)
    (later : ∀ front, front <+: after → 0 ≤ descent before + descent front) : StaysBelow (before ++ after) := by
  rintro front ⟨rest, whole⟩
  rcases List.append_eq_append_iff.mp whole with ⟨more, early, -⟩ | ⟨inside, rfl, late⟩
  · exact below front ⟨more, early.symm⟩
  · rw [descent_append]
    exact later inside ⟨rest, late.symm⟩

theorem Circular.closed (circular : Circular before) (name : drop part = 1) (below : StaysBelow after)
    (level : descent after = 0) : Circular (before ++ part :: after ++ [['.', '.']]) := by
  have up : drop ['.', '.'] = -1 := by decide
  have into : StaysBelow (before ++ part :: after) := by
    refine staysBelow_append circular.below fun front within => ?_
    rw [circular.returns, Int.zero_add]
    rcases List.prefix_cons_iff.mp within with rfl | ⟨later, rfl, inside⟩
    · exact Int.le_refl 0
    · have rest := below later inside
      rw [descent, name]
      omega
  have whole : descent (before ++ part :: after) = 1 := by
    rw [descent_append, descent, circular.returns, name, level]
    rfl
  refine ⟨staysBelow_concat.mpr ⟨into, by rw [whole, up]; decide⟩, ?_⟩
  rw [descent_concat, whole, up]
  rfl

end Descent

section Settling

variable {absolute : Bool} {kept parts before after : List (List Char)} {part : List Char}

theorem drop_cases (part : List Char) :
    ((part = [] ∨ part = ['.']) ∧ drop part = 0) ∨ (part = ['.', '.'] ∧ drop part = -1) ∨
      (part ≠ ['.', '.'] ∧ drop part = 1) := by
  by_cases idle : part = [] ∨ part = ['.']
  · exact .inl ⟨idle, if_pos idle⟩
  · by_cases up : part = ['.', '.']
    · subst up
      exact .inr (.inl ⟨rfl, by decide⟩)
    · exact .inr (.inr ⟨up, by rw [drop, if_neg idle, if_neg up]⟩)

theorem settle_idle (idle : part = [] ∨ part = ['.']) : settle absolute kept part = kept := if_pos idle

theorem settle_name (name : drop part = 1) : settle absolute kept part = part :: kept := by
  rcases drop_cases part with ⟨_, level⟩ | ⟨_, level⟩ | ⟨other, _⟩
  · rw [name] at level
    cases level
  · rw [name] at level
    cases level
  · have moves : ¬(part = [] ∨ part = ['.']) := fun idle => by
      rw [drop, if_pos idle] at name
      cases name
    unfold settle
    rw [if_neg moves, if_neg other]

theorem settle_up {last : List Char} (other : last ≠ ['.', '.']) :
    settle absolute (last :: kept) ['.', '.'] = kept := by
  simp [settle, other]

/-- Parts that stay below where they start add names to what is kept, and take none of it back. -/
theorem foldl_settle_of_staysBelow (absolute : Bool) (kept : List (List Char)) (below : StaysBelow parts) :
    ∃ names, parts.foldl (settle absolute) kept = names ++ kept ∧ (names.length : Int) = descent parts ∧
      ∀ name ∈ names, name ≠ ['.', '.'] := by
  induction parts using List.reverseRecOn with
  | nil => exact ⟨[], rfl, rfl, by simp⟩
  | append_singleton parts part ih =>
    obtain ⟨early, last⟩ := staysBelow_concat.mp below
    obtain ⟨names, ended, size, others⟩ := ih early
    rw [List.foldl_append, ended, List.foldl_cons, List.foldl_nil, descent_concat]
    rcases drop_cases part with ⟨idle, level⟩ | ⟨rfl, level⟩ | ⟨other, level⟩
    · exact ⟨names, settle_idle idle, by rw [level, size, Int.add_zero], others⟩
    · cases names with
      | nil =>
        -- nothing is left to take back, so that this part would lead above the start
        rw [level, ← size] at last
        simp at last
      | cons name names =>
        obtain ⟨other, rest⟩ := List.forall_mem_cons.mp others
        refine ⟨names, settle_up other, ?_, rest⟩
        rw [level, ← size, List.length_cons]
        omega
    · refine ⟨part :: names, settle_name level, ?_, List.forall_mem_cons.mpr ⟨other, others⟩⟩
      rw [level, ← size, List.length_cons]
      omega

theorem getLast?_foldl_settle (name : drop part = 1) (circular : Circular before) (below : StaysBelow after) :
    ((before ++ part :: after).foldl (settle absolute) []).getLast? = some part := by
  obtain ⟨names, early, size, -⟩ := foldl_settle_of_staysBelow absolute [] circular.below
  obtain ⟨others, late, -, -⟩ := foldl_settle_of_staysBelow absolute [part] below
  have none : names = [] := List.length_eq_zero_iff.mp (by exact_mod_cast size.trans circular.returns)
  rw [List.foldl_append, early, none, List.foldl_cons, List.append_nil, settle_name name, late]
  exact List.getLast?_concat

/-- Where some parts have led, told by what is kept of them: back to the start, into a name that they have not left
again, or above the start. -/
inductive Leads (parts : List (List Char)) : List (List Char) → Prop where
  | back (circular : Circular parts) : Leads parts []
  | into {before after names : List (List Char)} {first : List Char} (cut : parts = before ++ first :: after)
    (name : drop first = 1) (circular : Circular before) (below : StaysBelow after)
    (size : (names.length : Int) = descent after) (others : ∀ name ∈ names, name ≠ ['.', '.']) :
    Leads parts (names ++ [first])
  | above {kept : List (List Char)} (up : kept.getLast? = some ['.', '.']) : Leads parts kept

theorem getLast?_settle (up : kept.getLast? = some ['.', '.']) (part : List Char) :
    (settle false kept part).getLast? = some ['.', '.'] := by
  obtain ⟨last, others, rfl⟩ := List.exists_cons_of_ne_nil (l := kept) (by rintro rfl; cases up)
  rcases drop_cases part with ⟨idle, -⟩ | ⟨rfl, -⟩ | ⟨-, level⟩
  · rwa [settle_idle idle]
  · by_cases same : last = ['.', '.']
    · simpa [settle, same] using up
    · rw [settle_up same]
      cases others with
      | nil => exact absurd (Option.some.inj up) same
      | cons next others => exact up
  · rw [settle_name level]
    exact up

theorem Leads.settle (leads : Leads parts kept) (part : List Char) :
    Leads (parts ++ [part]) (settle false kept part) := by
  cases leads with
  | above up => exact .above (getLast?_settle up part)
  | back circular =>
    rcases drop_cases part with ⟨idle, level⟩ | ⟨rfl, -⟩ | ⟨-, level⟩
    · rw [settle_idle idle]
      refine .back ⟨staysBelow_concat.mpr ⟨circular.below, ?_⟩, ?_⟩
      · rw [level, circular.returns]
        decide
      · rw [descent_concat, level, circular.returns]
        rfl
    · exact .above rfl
    · rw [settle_name level]
      have inside : Leads (parts ++ [part]) ([] ++ [part]) :=
        .into rfl level circular staysBelow_nil rfl (List.forall_mem_nil _)
      exact inside
  | @into before after names first cut name circular below size others =>
    have longer : parts ++ [part] = before ++ first :: (after ++ [part]) := by simp [cut]
    have deep : 0 ≤ descent after := below after (List.prefix_refl after)
    rcases drop_cases part with ⟨idle, level⟩ | ⟨rfl, level⟩ | ⟨other, level⟩
    · rw [settle_idle idle]
      refine .into longer name circular (staysBelow_concat.mpr ⟨below, by omega⟩) ?_ others
      rw [descent_concat, level, size, Int.add_zero]
    · cases names with
      | nil =>
        -- going up leaves the first name itself, so that all the parts together lead back
        have single : first ≠ ['.', '.'] := by
          rintro rfl
          cases name
        rw [List.nil_append, settle_up single, cut]
        exact .back (circular.closed name below size.symm)
      | cons next names =>
        obtain ⟨other, rest⟩ := List.forall_mem_cons.mp others
        have shorter : (names.length : Int) = descent after + drop ['.', '.'] := by
          rw [level, ← size, List.length_cons]
          omega
        rw [List.cons_append, settle_up other]
        refine .into longer name circular (staysBelow_concat.mpr ⟨below, by omega⟩) ?_ rest
        rw [descent_concat, shorter]
    · rw [settle_name level, ← List.cons_append]
      refine .into longer name circular (staysBelow_concat.mpr ⟨below, by omega⟩) ?_
        (List.forall_mem_cons.mpr ⟨other, others⟩)
      rw [descent_concat, level, ← size, List.length_cons]
      omega

theorem leads_settled (parts : List (List Char)) : Leads parts (parts.foldl (Path.settle false) []) := by
  induction parts using List.reverseRecOn with
  | nil => exact .back circular_nil
  | append_singleton parts part ih =>
    rw [List.foldl_append]
    exact ih.settle part

end Settling

section Normal

variable {path root pattern : List Char}

theorem normal_ne_nil (path : List Char) : normal path ≠ [] := by
  unfold normal
  dsimp only
  split
  next => exact List.cons_ne_nil _ _
  next filled => exact filled

theorem head?_normal_of_absolute (absolute : isAbsolute path = true) : (normal path).head? = some '/' := by
  have slashes : leadingSlashes path ≠ 0 := by
    rw [ne_eq, leadingSlashes_eq_zero_iff, absolute]
    exact Bool.noConfusion
  obtain ⟨n, leading⟩ := Nat.exists_eq_succ_of_ne_zero slashes
  unfold normal
  rw [leading]
  rfl

theorem normal_of_none_kept (relative : isAbsolute path = false)
    (nothing : (Text.pieces '/' path).foldl (settle false) [] = []) : normal path = ['.'] := by
  unfold normal
  rw [leadingSlashes_eq_zero_iff.mpr relative]
  dsimp only
  rw [decide_eq_false (by decide), nothing]
  rfl

/-- The normal form of a relative path begins like the first part that is kept. -/
theorem head?_normal_of_kept {first : List Char} (relative : isAbsolute path = false)
    (kept : ((Text.pieces '/' path).foldl (settle false) []).getLast? = some first) (filled : first ≠ []) :
    (normal path).head? = first.head? := by
  obtain ⟨others, whole⟩ := List.getLast?_eq_some_iff.mp kept
  obtain ⟨c, rest, rfl⟩ := List.exists_cons_of_ne_nil filled
  unfold normal
  rw [leadingSlashes_eq_zero_iff.mpr relative]
  dsimp only
  rw [decide_eq_false (by decide), whole, List.reverse_append]
  cases others.reverse <;> rfl

theorem drop_of_head? {part : List Char} {c : Char} (begins : part.head? = some c) (other : c ≠ '.') : drop part = 1 := by
  rcases drop_cases part with ⟨rfl | rfl, -⟩ | ⟨rfl, -⟩ | ⟨-, level⟩
  · cases begins
  · exact absurd (Option.some.inj begins).symm other
  · exact absurd (Option.some.inj begins).symm other
  · exact level

theorem head?_of_pieces {part : List Char} {c : Char} {after : List (List Char)}
    (cut : Text.pieces '/' path = part :: after) (begins : part.head? = some c) : path.head? = some c := by
  rw [Text.eq_takeWhile_of_pieces cut] at begins
  cases path with
  | nil => cases begins
  | cons d path =>
    rw [List.takeWhile_cons] at begins
    split at begins
    · exact begins
    · cases begins

theorem resurfaces_of_head?_normal (relative : isAbsolute path = false) (unmarked : path.head? ≠ some '!')
    (marked : (normal path).head? = some '!') : Resurfaces path := by
  have leads := leads_settled (Text.pieces '/' path)
  generalize settled : (Text.pieces '/' path).foldl (settle false) [] = kept at leads
  cases leads with
  | back circular =>
    rw [normal_of_none_kept relative settled] at marked
    cases marked
  | above up =>
    rw [head?_normal_of_kept relative (settled ▸ up) (by decide)] at marked
    cases marked
  | @into before after names first cut name circular below size others =>
    have filled : first ≠ [] := by
      rintro rfl
      cases name
    have begins : first.head? = some '!' := by
      rw [← marked]
      exact (head?_normal_of_kept relative (settled ▸ List.getLast?_concat) filled).symm
    refine ⟨relative, before, first, after, cut, ?_, begins, circular, below⟩
    rintro rfl
    exact unmarked (head?_of_pieces cut begins)

theorem Resurfaces.head?_normal (resurfaces : Resurfaces path) : (normal path).head? = some '!' := by
  obtain ⟨relative, before, part, after, cut, -, begins, circular, below⟩ := resurfaces
  have filled : part ≠ [] := by
    rintro rfl
    cases begins
  have kept : ((Text.pieces '/' path).foldl (settle false) []).getLast? = some part := by
    rw [cut]
    exact getLast?_foldl_settle (drop_of_head? begins (by decide)) circular below
  rw [head?_normal_of_kept relative kept filled, begins]

/-- The mark comes to the front of a path without it exactly if a part behind others brings it there. -/
theorem head?_normal_mark_iff (unmarked : path.head? ≠ some '!') :
    (normal path).head? = some '!' ↔ Resurfaces path := by
  refine ⟨fun marked => ?_, Resurfaces.head?_normal⟩
  cases relative : isAbsolute path with
  | true =>
    rw [head?_normal_of_absolute relative] at marked
    cases marked
  | false => exact resurfaces_of_head?_normal relative unmarked marked

theorem head?_join {c : Char} (root_begins : root.head? ≠ some c) (begins : pattern.head? ≠ some c) :
    (join root pattern).head? ≠ some c := by
  unfold join
  split
  · exact begins
  · cases root with
    | nil => exact begins
    | cons d root =>
      split
      · exact root_begins
      · exact root_begins

end Normal

end Path

namespace FileTree

/-- The listing of a pattern that is taken as it stands, whatever it begins with. -/
def listAsIs (tree : FileTree) (root pattern : List Char) : Except Failure (List (List Char)) := do
  if root.isEmpty || Path.isAbsolute pattern then return sorted (← tree.glob pattern)
  else return sorted ((← tree.glob (Path.join root pattern)).map (tree.seenFrom root))

theorem list_eq_listAsIs (tree : FileTree) (root pattern : List Char) :
    tree.list root pattern = tree.listAsIs root (unmarked pattern) := rfl

theorem listAsIs_of_relative {root pattern : List Char} (tree : FileTree) (filled : root ≠ [])
    (relative : Path.isAbsolute pattern = false) : tree.listAsIs root pattern = (do
      return sorted ((← tree.glob (Path.join root pattern)).map (tree.seenFrom root))) := by
  have some : root.isEmpty = false := by simpa using filled
  rw [listAsIs, some, relative]
  rfl

end FileTree

namespace Board

open TaskBoard.Path Act

variable {σ : Type} (code : UserCode σ) {b : Nat} {w : World σ} {source : Option String}

theorem parse_plain {pattern : String}
    (plain : ∀ mark, pattern.toList.head? = some mark → mark ≠ '#' ∧ mark ≠ '@' ∧ mark ≠ '!') :
    SourcePattern.parse pattern = .rooted pattern := by
  unfold SourcePattern.parse
  split
  next whole => exact absurd rfl (plain _ (by rw [whole]; rfl)).1
  next whole => exact absurd rfl (plain _ (by rw [whole]; rfl)).2.1
  next whole => exact absurd rfl (plain _ (by rw [whole]; rfl)).2.2
  next => rfl

/-- The root that a missing or written source path stands for. -/
def rootOf (source : Option String) : List Char := (source.getD "").toList

theorem rootPath_text (h : Heap) (source : Option String) :
    rootPath h (source.map .text) = .ok (rootOf source) := by
  cases source <;> rfl

theorem head?_rooted (root pattern : List Char) : (rooted root pattern).head? = (normal (join root pattern)).head? :=
  List.head?_append_of_ne_nil _ (normal_ne_nil _)

theorem run_listFiles_plain {pattern : String}
    (plain : ∀ mark, pattern.toList.head? = some mark → mark ≠ '#' ∧ mark ≠ '@' ∧ mark ≠ '!')
    (given : ((w.board b).paths w.heap).at? "src" = source.map .text) :
    (listFiles code b (SourcePattern.parse pattern)).run w =
      (glob code b (String.ofList (rooted (rootOf source) pattern.toList))).run w := by
  rw [parse_plain plain]
  unfold listFiles
  rw [run_bind_ok (run_heap w), run_bind_ok (run_board w b), given, rootPath_text]
  exact run_bind_ok (run_ofExcept w _)

theorem run_glob_tree (own : (w.board b).lister = none) (pattern : List Char) :
    (glob code b (String.ofList pattern)).run w =
      ((w.files.list (w.board b).cwd.toList pattern).map (·.map toText), w) := by
  unfold glob
  rw [run_bind_ok (run_board w b), own, run_bind_ok (run_get w), String.toList_ofList]
  dsimp only
  generalize w.files.list (w.board b).cwd.toList pattern = listed
  cases listed <;> rfl

end Board

open TaskBoard.Path Board

/-- A pattern without a mark in front, under a missing root or one that does not begin with the mark of verbatim
patterns, goes to the glob primitive joined to the root and in normal form. What arrives there begins with the mark
exactly if a later part that begins with it comes to the front. Then, and only then, the pattern is not taken as it
stands, but without a mark that was not written in front. -/
theorem taken_as_is_unless_resurfaces {σ : Type} (code : UserCode σ) {b : Nat} {w : World σ} {source : Option String}
    {pattern : String} (plain : ∀ mark, pattern.toList.head? = some mark → mark ≠ '#' ∧ mark ≠ '@' ∧ mark ≠ '!')
    (given : ((w.board b).paths w.heap).at? "src" = source.map .text) (unmarked : (rootOf source).head? ≠ some '!') :
    (listFiles code b (SourcePattern.parse pattern)).run w =
      (glob code b (String.ofList (rooted (rootOf source) pattern.toList))).run w ∧
    ((rooted (rootOf source) pattern.toList).head? = some '!' ↔ Resurfaces (join (rootOf source) pattern.toList)) ∧
    ((w.board b).lister = none → ¬Resurfaces (join (rootOf source) pattern.toList) →
      (listFiles code b (SourcePattern.parse pattern)).run w =
        ((w.files.listAsIs (w.board b).cwd.toList (rooted (rootOf source) pattern.toList)).map (·.map toText), w)) ∧
    ((w.board b).lister = none → Resurfaces (join (rootOf source) pattern.toList) →
      (listFiles code b (SourcePattern.parse pattern)).run w =
        ((w.files.listAsIs (w.board b).cwd.toList (rooted (rootOf source) pattern.toList).tail).map (·.map toText),
          w)) := by
  have whole := run_listFiles_plain code plain given
  have marked : (rooted (rootOf source) pattern.toList).head? = some '!' ↔
      Resurfaces (join (rootOf source) pattern.toList) := by
    rw [head?_rooted]
    exact head?_normal_mark_iff (head?_join unmarked fun begins => (plain _ begins).2.2 rfl)
  refine ⟨whole, marked, fun own stays => ?_, fun own surfaces => ?_⟩
  · rw [whole, run_glob_tree code own, FileTree.list_eq_listAsIs,
      FileTree.unmarked_of_head? fun begins => stays (marked.mp begins)]
  · have begins := marked.mpr surfaces
    rw [whole, run_glob_tree code own, FileTree.list_eq_listAsIs]
    generalize rooted (rootOf source) pattern.toList = passed at begins
    obtain ⟨rest, rfl⟩ := List.head?_eq_some_iff.mp begins
    rfl

namespace Marked

/-- A directory whose name begins with the mark, with a file in it. -/
def tree : FileTree where
  entries := [([['!', 'a']], .directory), ([['!', 'a'], ['x', '.', 'j', 's']], .file (.bytes []))]

def start : World Unit := { boards := #[{ cwd := "/", runner := 0 }], files := tree, user := () }

def idle : UserCode Unit where
  call _ _ := pure (.value .nothing)
  resume _ _ _ _ := pure (.value .nothing)
  run _ _ := pure []
  label? _ _ := none

theorem resurfaces : Resurfaces (join (rootOf none) "./!a/*.js".toList) :=
  ⟨by decide, [['.']], ['!', 'a'], [['*', '.', 'j', 's']], by decide, by decide, rfl, ⟨by decide, by decide⟩, by decide⟩

end Marked

/-- Below a directory whose name begins with the mark nothing is found, since the mark is lost on the way. -/
theorem taken_as_is_unless_resurfaces_directory :
    (∀ mark, "./!a/*.js".toList.head? = some mark → mark ≠ '#' ∧ mark ≠ '@' ∧ mark ≠ '!') ∧
    ((Marked.start.board 0).paths Marked.start.heap).at? "src" = none ∧ (rootOf none).head? ≠ some '!' ∧
    (listFiles Marked.idle 0 (SourcePattern.parse "./!a/*.js")).run Marked.start = (.ok [], Marked.start) ∧
    Marked.tree.listAsIs ['/'] (rooted (rootOf none) "./!a/*.js".toList) =
      .ok [['!', 'a', '/', 'x', '.', 'j', 's']] := by
  have plain : ∀ mark, "./!a/*.js".toList.head? = some mark → mark ≠ '#' ∧ mark ≠ '@' ∧ mark ≠ '!' := by
    rintro mark ⟨⟩
    decide
  have given : ((Marked.start.board 0).paths Marked.start.heap).at? "src" = none := by decide
  have root : (rootOf none).head? ≠ some '!' := by decide
  have passed : rooted (rootOf none) "./!a/*.js".toList = ['!', 'a', '/', '*', '.', 'j', 's'] := by decide +kernel
  have nothing : Marked.tree.glob (join ['/'] ['a', '/', '*', '.', 'j', 's']) = .ok [] := by decide +kernel
  have file : Marked.tree.glob (join ['/'] ['!', 'a', '/', '*', '.', 'j', 's']) =
      .ok [['/', '!', 'a', '/', 'x', '.', 'j', 's']] := by decide +kernel
  have seen : [['/', '!', 'a', '/', 'x', '.', 'j', 's']].map (Marked.tree.seenFrom ['/']) =
      [['!', 'a', '/', 'x', '.', 'j', 's']] := by decide +kernel
  obtain ⟨-, -, -, lost⟩ := taken_as_is_unless_resurfaces Marked.idle plain given root
  have listed : Marked.tree.listAsIs ['/'] ['a', '/', '*', '.', 'j', 's'] = .ok [] := by
    rw [FileTree.listAsIs_of_relative _ (by decide) rfl, nothing]
    exact congrArg Except.ok (FileTree.sorted_of_pairwise List.Pairwise.nil)
  refine ⟨plain, given, root, ?_, ?_⟩
  · rw [lost rfl Marked.resurfaces, passed]
    exact congrArg (fun files : Except Failure _ => (files.map (·.map toText), Marked.start)) listed
  · rw [passed, FileTree.listAsIs_of_relative _ (by decide) rfl, file]
    exact congrArg Except.ok ((congrArg FileTree.sorted seen).trans (FileTree.sorted_of_pairwise (by decide)))

end TaskBoard
