import Mathlib.Data.List.Forall2
import TaskBoard.Proofs.Collecting.Scanning

/-!
What a collection leaves behind, wherever it ends: the groups that it has come past are settled, the one that
stops it is as it was or differs in its files and destination, and everything else is as it was before.
-/

namespace TaskBoard

open Act World

variable {σ : Type}

namespace World

/-- Every mapping that declares a source group stands at one place of the configurations and nowhere else; keys can be
looked up, and what is under `src` exists. -/
structure Tree (b : Nat) (start : World σ) : Prop where
  keys : ∀ d ∈ start.declared b, d.config.hashable = true ∧ d.group.hashable = true
  single : ((start.declared b).map Declaration.cell).Nodup
  apart : ∀ cell, start.Declares b cell → ¬start.Configures b cell
  clear : ∀ cell, start.Member b cell → ∀ source, start.heap.sourceAt cell = some source →
    source.Clear start.heap (start.Declares b)

/-- A board with all that belongs to it, whose declared groups may be written. -/
def scope (start : World σ) (b : Nat) (around : World σ → Prop) : Scope σ :=
  ⟨b, start.Owns b, start.Declares b, around⟩

variable {b : Nat} {start : World σ} {around : World σ → Prop}

theorem Tree.covers (tree : start.Tree b) : Covers (start.scope b around) start where
  keys := tree.keys
  own _ declares := declares
  mine cell place := by
    rcases place with configures | member
    · exact configures.owns
    · exact member.owns
  sources cell member source found := member.owns.part (Mapping.mem_of_get? found)
  apart := tree.apart
  clear := tree.clear

variable {code : UserCode σ} {s : Scope σ} {receiver : Option Nat} {done rest : List Declaration} {gs : List Nat}
  {d : Declaration} {w after : World σ}

/-- A scan that has settled some groups and has the others still before it. -/
structure Scanned (code : UserCode σ) (s : Scope σ) (start : World σ) (done : List Declaration) (gs : List Nat)
    (w : World σ) : Prop extends Midway s start w where
  settled : List.Forall₂ (fun d g => Settled code s start (start.heap.mapAt d.cell) d g w) done gs
  ahead : ∀ cell, start.Declares s.board cell → cell ∉ done.map Declaration.cell →
    w.heap.mapAt cell = start.heap.mapAt cell

/-- A collection that has settled all that was declared. -/
structure Completed (code : UserCode σ) (s : Scope σ) (start : World σ) (gs : List Nat) (last : World σ) :
    Prop where
  settled : List.Forall₂ (fun d g => Settled code s start (start.heap.mapAt d.cell) d g last) (start.declared s.board) gs
  board : last.board s.board = { start.board s.board with groups := gs }
  intact : Intact s start last

/-- A collection that has settled some groups, was stopped by the next one and has not come to the others. -/
structure BrokenOff (code : UserCode σ) (s : Scope σ) (receiver : Option Nat) (start : World σ) (failure : Failure)
    (last : World σ) : Prop where
  stopped : ∃ done d rest gs, start.declared s.board = done ++ d :: rest ∧
    List.Forall₂ (fun d g => Settled code s start (start.heap.mapAt d.cell) d g last) done gs ∧
    Stopped code s receiver start (start.heap.mapAt d.cell) d failure last ∧
    ∀ later ∈ rest, last.heap.mapAt later.cell = start.heap.mapAt later.cell
  board : last.board s.board = start.board s.board
  intact : Intact s start last

theorem Scanned.begins (fits : s.around start) : Scanned code s start [] [] start :=
  ⟨.refl fits, .nil, fun _ _ _ => rfl⟩

section Visit

variable (covers : Covers s start) (scanned : Scanned code s start done gs w) (leaves : Leaves s (· = d.cell) w after)
  (fresh : d.cell ∉ done.map Declaration.cell) (declared : ∀ d ∈ done, start.Declares s.board d.cell)
include covers scanned leaves fresh declared

/-- The visit of a further group, whether it ends well or not, leaves the settled ones and those ahead. -/
theorem Scanned.aside : List.Forall₂ (fun d g => Settled code s start (start.heap.mapAt d.cell) d g after) done gs ∧
    ∀ cell, start.Declares s.board cell → cell ∉ done.map Declaration.cell → cell ≠ d.cell →
      after.heap.mapAt cell = start.heap.mapAt cell := by
  constructor
  · obtain ⟨length, each⟩ := List.forall₂_iff_zip.mp scanned.settled
    refine List.forall₂_iff_zip.mpr ⟨length, ?_⟩
    intro earlier g paired
    have member := (List.of_mem_zip paired).1
    have mine := covers.mine earlier.cell (.inr (declared earlier member).member)
    apply (each paired).leaves mine _ leaves
    rintro same
    exact fresh (List.mem_map.mpr ⟨earlier, member, same⟩)
  · intro cell declares unvisited other
    rw [leaves.maps cell (covers.mine cell (.inr declares.member)) other]
    exact scanned.ahead cell declares unvisited

theorem Scanned.visited {g : Nat} (midway : Midway s start after)
    (settled : Settled code s start (w.heap.mapAt d.cell) d g after)
    (declares : start.Declares s.board d.cell) : Scanned code s start (done ++ [d]) (gs ++ [g]) after := by
  obtain ⟨before, ahead⟩ := scanned.aside covers leaves fresh declared
  rw [scanned.ahead d.cell declares fresh] at settled
  refine ⟨midway, List.rel_append before (.cons settled .nil), ?_⟩
  intro cell declares unvisited
  rw [List.map_append, List.mem_append, not_or] at unvisited
  exact ahead cell declares unvisited.1 fun same => unvisited.2 (by simp [same])

end Visit

end World

namespace Board

variable {code : UserCode σ} {s : Scope σ} {start : World σ}

theorem ends_scan (receiver : Option Nat) (discreet : code.Discreet s) (covers : Covers s start)
    (single : ((start.declared s.board).map Declaration.cell).Nodup) (fits : s.around start) :
    Ends (eachGroup (do return (← Act.board s.board).registry.configs) (resolveDeclared code s.board receiver)) start
      (fun gs mid => Scanned code s start (start.declared s.board) gs mid)
      (fun failure mid => BrokenOff code s receiver start failure mid) := by
  apply ends_eachGroup (Scanned code s start) covers
  · exact fun _ _ _ scanned => scanned.toMidway
  · intro done d rest gs w split scanned declares
    have declared : ∀ other ∈ done ++ d :: rest, start.Declares s.board other.cell := fun other member =>
      ⟨other, split ▸ member, rfl⟩
    have before : ∀ other ∈ done, start.Declares s.board other.cell := fun other member =>
      declared other (List.mem_append_left _ member)
    have here : start.Declares s.board d.cell := declared d (by simp)
    rw [split, List.map_append, List.map_cons] at single
    obtain ⟨-, later, apart⟩ := List.nodup_append.mp single
    have fresh : d.cell ∉ done.map Declaration.cell := fun member => apart _ member _ List.mem_cons_self rfl
    apply (ends_visitEntry discreet covers.toIncludes (split ▸ by simp) scanned.toMidway declares).mono
    · rintro _ after ⟨rfl, settled, midway, leaves⟩
      exact scanned.visited covers leaves fresh before midway settled here
    -- the failing visit has touched one mapping, which is neither settled nor still ahead
    · rintro failure after ⟨stopped, midway, leaves⟩
      obtain ⟨settled, ahead⟩ := scanned.aside covers leaves fresh before
      rw [scanned.ahead d.cell here fresh] at stopped
      refine ⟨⟨done, d, rest, gs, split, settled, stopped, ?_⟩, midway.board, midway.toIntact⟩
      intro other member
      have cell : other.cell ∈ rest.map Declaration.cell := List.mem_map.mpr ⟨other, member, rfl⟩
      apply ahead other.cell (declared other (by simp [member]))
      · exact fun earlier => apart _ earlier _ (List.mem_cons_of_mem _ cell) rfl
      · intro same
        rw [same] at cell
        exact (List.nodup_cons.mp later).1 cell
  · exact .begins fits

end Board

open Board

variable {code : UserCode σ} {b : Nat} {start : World σ} {around : World σ → Prop}

/-- What a collection leaves, on success and on failure, wherever it may fail first. The groups before that point are
settled: their records and mappings have the files of all patterns, one after another, and the destination as it
resolves. The mapping of the group that fails is as it was if a pattern has failed, and else differs in its files and
its destination at most. All else is as it was: the mappings of later groups, the rest of the configurations, the
order of keys, tasks, initializers and plugins, and, after a failure, the groups of the board. -/
theorem collect_settles_prefix (receiver : Option Nat) (discreet : code.Discreet (start.scope b around))
    (tree : start.Tree b) (fits : around start) (known : b < start.boards.size) :
    (∃ gs last, (collect code b receiver).run start = (.ok gs, last) ∧
      Completed code (start.scope b around) start gs last) ∨
    ∃ failure last, (collect code b receiver).run start = (.error failure, last) ∧
      BrokenOff code (start.scope b around) receiver start failure last := by
  have scan := ends_scan receiver discreet tree.covers tree.single fits
  rcases ran : (eachGroup (do return (← Act.board b).registry.configs) (resolveDeclared code b receiver)).run start
    with ⟨failure | gs, mid⟩
  · exact .inr ⟨failure, mid, run_bind_error ran, scan.failed failure mid ran⟩
  · let last : World σ := mid.setBoard b { mid.board b with groups := gs }
    have ended : (collect code b receiver).run start = (.ok gs, last) := run_bind_ok ran
    have scanned := scan.returned gs mid ran
    have kept : mid.board b = start.board b := scanned.board
    refine .inl ⟨gs, last, ended, ?_, ?_, { scanned.toIntact with boards := ?_ }⟩
    · exact scanned.settled.imp fun d g settled => settled.setBoard b _
    · change last.board b = { start.board b with groups := gs }
      rw [← kept]
      exact board_setBoard_self _ (Nat.lt_of_lt_of_le known scanned.boards)
    · simpa [last, World.setBoard] using scanned.boards

namespace Halfway

def failing : UserCode Unit where
  call id _ := if id = 2 then throw (.raised "ValueError" "two") else pure (.value (.tuple [.text "a.js", .text "b.js"]))
  resume _ _ _ _ := pure (.value .nothing)
  run _ _ := pure []
  label? _ _ := none

def grouped (mapper : String) : Mapping := ⟨[(.text "des", .text ("out@" ++ mapper)), (.text "src", .text "#list:js")]⟩

/-- Three groups with the mappers 1, 2 and 1. -/
def halfway : World Unit where
  heap := { maps := #[⟨[(.text "p", .map 1), (.text "q", .map 2), (.text "r", .map 3)]⟩, grouped "1", grouped "2",
    grouped "1"] }
  boards := #[{
    cwd := "", runner := 0, groups := [7], registry := {
      tasks := ⟨[(.text "1", .callable (.user 1)), (.text "2", .callable (.user 2))]⟩
      plugins := ⟨[(.text "list", .callable (.user 0))]⟩
      configs := ⟨[(.text "c", .map 0)]⟩ } }]
  user := ()

theorem discreet_failing (s : Scope Unit) (free : ∀ w, s.around w) : failing.Discreet s where
  aside _ after _ _ := free after
  call id args := by
    simp only [failing]
    split
    · exact Keeps.throw _
    · exact Keeps.pure _
  resume _ _ _ _ := Keeps.pure _

theorem declared_halfway : halfway.declared 0 =
    [⟨.text "c", .text "p", 1⟩, ⟨.text "c", .text "q", 2⟩, ⟨.text "c", .text "r", 3⟩] := rfl

theorem tree_halfway : halfway.Tree 0 where
  keys := by
    rw [declared_halfway]
    decide
  single := by
    rw [declared_halfway]
    decide
  apart := by
    apply apart_of_single rfl
    rw [declared_halfway]
    decide
  clear cell member source found := by
    have text : source = .text "#list:js" := by
      match cell, found with
      | 0, found | _ + 4, found => cases found
      | 1, found | 2, found | 3, found =>
        cases found
        rfl
    rw [text]
    trivial

/-- The mapper of the second group fails: the first two are settled, the third is as it was, and the board has the
groups that it had. -/
theorem collect_settles_prefix_halfway :
    ∃ failure last, (collect failing 0 none).run halfway = (.error failure, last) ∧
      BrokenOff failing (halfway.scope 0 fun _ => True) none halfway failure last ∧
      (last.board 0).groups = [7] ∧ (last.heap.mapAt 2).keys.map Value.text? = [some "des", some "src", some "files"] ∧
      (last.heap.mapAt 3).keys.map Value.text? = [some "des", some "src"] := by
  have fails : ((collect failing 0 none).run halfway).1.toOption = none := by decide +kernel
  have second : (((collect failing 0 none).run halfway).2.heap.mapAt 2).keys.map Value.text? =
      [some "des", some "src", some "files"] := by decide +kernel
  have third : (((collect failing 0 none).run halfway).2.heap.mapAt 3).keys.map Value.text? =
      [some "des", some "src"] := by decide +kernel
  have discreet := discreet_failing (halfway.scope 0 fun _ => True) fun _ => trivial
  obtain ⟨gs, last, ran, -⟩ | ⟨failure, last, ran, broken⟩ :=
    collect_settles_prefix none discreet tree_halfway trivial (by decide)
  · rw [ran] at fails
    cases fails
  · rw [ran] at second third
    have kept : last.board 0 = halfway.board 0 := broken.board
    exact ⟨failure, last, ran, broken, by rw [kept]; rfl, second, third⟩

end Halfway

end TaskBoard
