import Mathlib.Data.List.Infix
import TaskBoard.Proofs.Collecting.Settling
import TaskBoard.Proofs.Files.Paths
import TaskBoard.Proofs.Number.Stamping
import TaskBoard.Proofs.Pattern.Rewriting

/-!
Version marks in output paths. Writing a stamp for each mark of a pattern leaves none in the pattern's own path,
however its marks overlap, since a mark that came about anew would have to hold a character of the stamp. Joining
the path to the root makes none either, since no mark reaches over a slash. So an output path holds a mark exactly
if the root holds it and the path is joined to the root.
-/

namespace TaskBoard

namespace Text

variable {word new : List Char}

theorem prefix_of_prefix_replaceWord {start text : List Char} (filled : word ≠ []) (given : new ≠ [])
    (foreign : ∀ c ∈ new, c ∉ start) (begins : start <+: replaceWord word new text) : start <+: text := by
  induction text using replaceWord_induction filled generalizing start with
  | empty =>
    rw [replaceWord_nil] at begins
    exact begins
  | found rest _ =>
    rw [replaceWord_found filled] at begins
    obtain ⟨first, others, rfl⟩ := List.exists_cons_of_ne_nil given
    cases start with
    | nil => exact List.nil_prefix
    | cons c start =>
      obtain ⟨rfl, -⟩ := List.cons_prefix_cons.mp begins
      exact absurd List.mem_cons_self (foreign c List.mem_cons_self)
  | other first rest absent ih =>
    rw [replaceWord_other absent] at begins
    cases start with
    | nil => exact List.nil_prefix
    | cons c start =>
      obtain ⟨rfl, later⟩ := List.cons_prefix_cons.mp begins
      have fresh : ∀ d ∈ new, d ∉ start := fun d member inside => foreign d member (List.mem_cons_of_mem c inside)
      exact List.cons_prefix_cons.mpr ⟨rfl, ih fresh later⟩

/-- No occurrence of a word reaches over a character that it does not have. -/
theorem infix_append_cons_iff {c : Char} (foreign : c ∉ word) (s t : List Char) :
    word <:+: s ++ c :: t ↔ word <:+: s ∨ word <:+: t := by
  constructor
  · intro stands
    rcases List.infix_append_iff.mp stands with before | after | ⟨front, back, rfl, ends, begins⟩
    · exact .inl before
    · rcases List.infix_cons_iff.mp after with begins | later
      · cases word with
        | nil => exact .inl List.nil_infix
        | cons first others =>
          obtain ⟨rfl, -⟩ := List.cons_prefix_cons.mp begins
          exact absurd List.mem_cons_self foreign
      · exact .inr later
    · cases back with
      | nil =>
        rw [List.append_nil]
        exact .inl ends.isInfix
      | cons first others =>
        obtain ⟨rfl, -⟩ := List.cons_prefix_cons.mp begins
        exact absurd (List.mem_append_right front List.mem_cons_self) foreign
  · rintro (before | after)
    · exact before.trans (List.prefix_append s (c :: t)).isInfix
    · exact after.trans ((List.suffix_cons c t).trans (List.suffix_append s (c :: t))).isInfix

/-- Replacing a word by something that shares no character with it leaves no occurrence of the word. -/
theorem not_infix_replaceWord (filled : word ≠ []) (given : new ≠ []) (foreign : ∀ c ∈ new, c ∉ word)
    (text : List Char) : ¬word <:+: replaceWord word new text := by
  induction text using replaceWord_induction filled with
  | empty =>
    rw [replaceWord_nil, List.infix_nil]
    exact filled
  | found rest ih =>
    rw [replaceWord_found filled]
    intro stands
    obtain ⟨front, last, rfl⟩ := (List.eq_nil_or_concat' new).resolve_left given
    -- the last character of the replacement parts what stands before it from the rest
    have outside : last ∉ word := foreign last (List.mem_append_right front List.mem_cons_self)
    rw [List.append_assoc, List.singleton_append] at stands
    rcases (infix_append_cons_iff outside front _).mp stands with before | after
    · obtain ⟨c, others, rfl⟩ := List.exists_cons_of_ne_nil filled
      have inside : c ∈ front := before.subset List.mem_cons_self
      exact foreign c (List.mem_append_left [last] inside) List.mem_cons_self
    · exact ih after
  | other first rest absent ih =>
    rw [replaceWord_other absent]
    intro stands
    rcases List.infix_cons_iff.mp stands with begins | later
    · rw [← replaceWord_other absent] at begins
      exact absent (prefix_of_prefix_replaceWord filled given foreign begins)
    · exact ih later

end Text

namespace Path

/-- A word without slashes stands in a joined path where it stands in one of the two. -/
theorem infix_join_iff {word root path : List Char} (whole : '/' ∉ word) (relative : isAbsolute path = false) :
    word <:+: join root path ↔ word <:+: root ∨ word <:+: path := by
  cases ends : endsWithSlash root with
  | true =>
    obtain ⟨front, rfl⟩ := eq_append_slash ends
    have last := Text.infix_append_cons_iff whole front []
    rw [join_of_endsWithSlash ends relative, List.append_assoc, List.singleton_append,
      Text.infix_append_cons_iff whole, last]
    have nothing : word <:+: [] → word <:+: path := fun empty => by
      rw [List.infix_nil.mp empty]
      exact List.nil_infix
    constructor
    · exact fun either => either.imp_left .inl
    · rintro ((front | empty) | path)
      · exact .inl front
      · exact .inr (nothing empty)
      · exact .inr path
  | false =>
    cases root with
    | nil =>
      rw [join_nil_left]
      constructor
      · exact .inr
      · rintro (empty | path)
        · rw [List.infix_nil.mp empty]
          exact List.nil_infix
        · exact path
    | cons c root =>
      have joined : join (c :: root) path = c :: root ++ '/' :: path := by
        rw [join, relative, ends]
        rfl
      rw [joined, Text.infix_append_cons_iff whole]

end Path

namespace DestinationPattern

def Marked (text : List Char) : Prop := versionPlaceholder.toList <:+: text

instance (text : List Char) : Decidable (Marked text) := inferInstanceAs (Decidable (_ <:+: text))

theorem parse_of_mem {pattern : String} (mapped : '@' ∈ pattern.toList) : ∃ path rest mapper,
    pattern.toList = path ++ '@' :: rest ∧ parse pattern = ⟨String.ofList path, some mapper⟩ := by
  obtain ⟨path, rest, cut, foreign⟩ := (Text.cut_cases '@' pattern.toList).resolve_left (absurd mapped ·)
  obtain ⟨mapper, others, pieces⟩ := List.exists_cons_of_ne_nil (Text.pieces_ne_nil '@' rest)
  refine ⟨path, rest, String.ofList mapper, cut, ?_⟩
  unfold parse
  rw [cut, Text.pieces_append_cons foreign, pieces]

variable {stamp : String}

theorem not_marked_stampVersion (stamped : IsStamp stamp.toList) (path : String) :
    ¬Marked (stampVersion stamp path).toList := by
  have foreign : ∀ c ∈ stamp.toList, c ∉ versionPlaceholder.toList := by
    intro c member inside
    have known : versionPlaceholder.toList.all (fun d => !d.isDigit && d != '-') = true := by decide
    obtain ⟨letter, other⟩ : c.isDigit = false ∧ c ≠ '-' := by
      simpa using List.all_eq_true.mp known c inside
    rcases stamped.plain c member with digit | same
    · rw [letter] at digit
      cases digit
    · exact other same
  rw [stampVersion, String.toList_ofList]
  exact Text.not_infix_replaceWord (by decide) stamped.filled foreign path.toList

theorem isAbsolute_stampVersion (stamped : IsStamp stamp.toList) (path : String) :
    Path.isAbsolute (stampVersion stamp path).toList = Path.isAbsolute path.toList := by
  have filled : versionPlaceholder.toList ≠ [] := by decide
  rw [stampVersion, String.toList_ofList]
  induction path.toList using Text.replaceWord_induction filled with
  | empty => rw [Text.replaceWord_nil]
  | found rest _ =>
    obtain ⟨first, others, written⟩ := List.exists_cons_of_ne_nil stamped.filled
    have other : first ≠ '/' := by
      rintro rfl
      have plain := stamped.plain '/' (written ▸ List.mem_cons_self)
      revert plain
      decide
    have begins : Path.isAbsolute stamp.toList = false := by
      rw [written]
      unfold Path.isAbsolute
      split
      next same => exact absurd (List.cons.inj same).1 other
      next => rfl
    rw [Text.replaceWord_found filled, Path.isAbsolute_append stamped.filled, begins]
    rfl
  | other c rest absent _ =>
    have first : ∀ others, Path.isAbsolute (c :: others) = Path.isAbsolute [c] := fun others =>
      Path.isAbsolute_append (List.cons_ne_nil c []) others
    rw [Text.replaceWord_other absent, first, first rest]

end DestinationPattern

open DestinationPattern

variable {σ : Type}

/-- With a finite time a pattern with a mapper resolves to an output path, unless the time exceeds what can be told;
and that path holds a version mark just where the destination root holds one and the pattern is joined to it. -/
theorem marked_out_iff {b : Nat} {w : World σ} {pattern : String} {root : List Char} (finite : w.clock.Finite)
    (mapped : '@' ∈ pattern.toList)
    (found : Board.rootPath w.heap (((w.board b).paths w.heap).at? "des") = .ok root) :
    (∃ failure, w.clock.Exceeds failure ∧
      (Board.resolveDestination b (.text pattern)).run w = (.error failure, w)) ∨
    (∀ failure, ¬w.clock.Exceeds failure) ∧ ∃ out mapper,
      (Board.resolveDestination b (.text pattern)).run w = (.ok (.destination out mapper), w) ∧
      (Marked out.toList ↔ Marked root ∧ Path.isAbsolute pattern.toList = false) := by
  obtain ⟨path, rest, name, cut, parsed⟩ := parse_of_mem mapped
  rw [Board.run_resolveDestination, Board.resolution, parsed]
  rcases Board.stampOf_cases finite with ⟨failure, exceeds, stampless⟩ | ⟨told, stamp, stamped, timed⟩
  · refine .inl ⟨failure, exceeds, ?_⟩
    rw [stampless]
    rfl
  · have begins : Path.isAbsolute pattern.toList = Path.isAbsolute path := by
      rw [cut]
      cases path with
      | nil => rfl
      | cons c path => exact Path.isAbsolute_append (List.cons_ne_nil c path) _
    have joined := isAbsolute_stampVersion stamped (String.ofList path)
    rw [String.toList_ofList, ← begins] at joined
    have clean := not_marked_stampVersion stamped (String.ofList path)
    refine .inr ⟨told, _, _, by rw [timed, found]; rfl, ?_⟩
    rw [String.toList_ofList]
    cases absolute : Path.isAbsolute pattern.toList with
    | true =>
      rw [absolute] at joined
      rw [Path.join, if_pos joined]
      exact ⟨fun marked => absurd marked clean, fun both => Bool.noConfusion both.2⟩
    | false =>
      rw [absolute] at joined
      have whole : '/' ∉ versionPlaceholder.toList := by decide
      have parts := @Path.infix_join_iff _ root _ whole joined
      constructor
      · exact fun marked => ⟨(parts.mp marked).resolve_right clean, rfl⟩
      · exact fun both => parts.mpr (.inl both.1)

namespace Versioned

/-- A board whose destination root holds a version mark, at the start of the epoch. -/
def start : World Unit where
  heap := { maps := #[⟨[(.text "paths", .map 1)]⟩, ⟨[(.text "des", .text "dist/$VERSION$")]⟩] }
  boards := #[{ cwd := "", runner := 0, registry := { configs := ⟨[(.text "paths", .map 1)]⟩ } }]
  user := ()

/-- The mark of the root stays, in an accepted configuration and for a pattern whose marks overlap. -/
theorem marked_out_of_root :
    Config.check start.heap (.map 0) = .ok ⟨⟩ ∧ start.clock.Finite ∧ '@' ∈ "app$VERSION$VERSION$.js@m".toList ∧
    Board.rootPath start.heap (((start.board 0).paths start.heap).at? "des") = .ok "dist/$VERSION$".toList ∧
    ∃ out mapper, (Board.resolveDestination 0 (.text "app$VERSION$VERSION$.js@m")).run start =
      (.ok (.destination out mapper), start) ∧ Marked out.toList := by
  have mapped : '@' ∈ "app$VERSION$VERSION$.js@m".toList := by decide
  have found : Board.rootPath start.heap (((start.board 0).paths start.heap).at? "des") =
    .ok "dist/$VERSION$".toList := rfl
  have positive : ∀ limit, 0 < Nat.pow 10 limit := fun limit => Nat.pow_pos (by decide)
  have finite : start.clock.Finite := trivial
  refine ⟨rfl, finite, mapped, found, ?_⟩
  rcases marked_out_iff finite mapped found with
    ⟨failure, exceeds, -⟩ | ⟨-, out, mapper, ran, marked⟩
  · cases exceeds with
    | long digits => exact absurd digits (Nat.not_le.mpr (positive _))
  · exact ⟨out, mapper, ran, marked.mpr ⟨by decide, by decide⟩⟩

end Versioned

end TaskBoard
