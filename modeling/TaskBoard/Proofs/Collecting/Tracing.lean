import TaskBoard.Proofs.Collecting.Serving
import TaskBoard.Proofs.Collecting.Viewing

/-!
What stands in the mappings of a board in the course of a collection: what stood there at the start, and the files and
destinations of the groups that were visited. A mapping may be a group in one place and a configuration in another, or
stand under the `src` of a group; everything can still be traced.
-/

namespace TaskBoard

open Act World Board

variable {σ : Type}

/-- A destination that is resolved, with no mapper or one that belongs to the board. -/
def Scope.Targets (s : Scope σ) (v : Value) : Prop :=
  ∃ out mapper, v = .destination out mapper ∧ (mapper = .nothing ∨ s.mine mapper)

namespace World

/-- A whole board whose groups have names that can be written, and which its tasks belong to. -/
structure Formed (s : Scope σ) (start : World σ) : Prop extends Whole s start where
  keys : ∀ d ∈ start.declared s.board, d.config.hashable = true ∧ d.group.hashable = true
  tasks : ∀ name task, (name, task) ∈ (start.board s.board).registry.tasks.entries → s.mine task

/-- What a collection writes into a mapping: the files of a group, or what a destination is settled to. -/
inductive Written (s : Scope σ) (w : World σ) : Value → Prop where
  | files {g : Nat} (enrolled : Enrolled s w g) : Written s w (.list (w.group g).files)
  | text (pattern : String) : Written s w (.text pattern)
  | destination {v : Value} (targets : s.Targets v) : Written s w v

end World

open World

/-- A mapping holds what it held before, and what a collection writes. -/
structure Mapping.Traced (s : Scope σ) (w : World σ) (first m : Mapping) : Prop where
  entries : ∀ entry ∈ m.entries, entry ∈ first.entries ∨ Written s w entry.2
  destination : m.at? "des" = first.at? "des" ∨ ∃ v, m.at? "des" = some v ∧ s.Targets v

/-- The mappings of a board hold what they held at the start, and what a collection writes. -/
def World.Traced (s : Scope σ) (start w : World σ) : Prop :=
  ∀ cell, s.mine (.map cell) → (start.heap.mapAt cell).Traced s w (w.heap.mapAt cell)

/-- A mapping into which the files of a group are written, and a destination where a text was declared. -/
def World.Inscribed (s : Scope σ) (m : Mapping) (declared destination : Value) (files : List Value) (cell : Nat)
    (w : World σ) : Prop :=
  ∃ g, Enrolled s w g ∧
    w.heap.mapAt cell = (m.insert (.text "files") (.list (w.group g).files)).place declared destination ∧
    w.heap.listAt (w.group g).files = files

variable {s : Scope σ} {start w v after : World σ} {but : Nat → Prop} {cell : Nat}

theorem World.Written.leaves {value : Value} (written : Written s w value) (leaves : Leaves s but w after) :
    Written s after value := by
  cases written with
  | files enrolled =>
    rw [← enrolled.group_eq leaves]
    exact .files (enrolled.leaves leaves)
  | text pattern => exact .text pattern
  | destination targets => exact .destination targets

theorem World.Inscribed.leaves {m : Mapping} {declared destination : Value} {files : List Value}
    (inscribed : w.Inscribed s m declared destination files cell) (mine : s.mine (.map cell))
    (leaves : Leaves s (fun _ => False) w after) : after.Inscribed s m declared destination files cell := by
  obtain ⟨g, enrolled, content, read⟩ := inscribed
  obtain ⟨own, data, among⟩ := enrolled.data
  refine ⟨g, enrolled.leaves leaves, ?_, ?_⟩
  · rw [leaves.maps cell mine id, enrolled.group_eq leaves, content]
  · rw [enrolled.group_eq leaves, leaves.files g enrolled.born own data among enrolled.known, read]

namespace Mapping.Traced

variable {first m : Mapping}

theorem refl (m : Mapping) : Mapping.Traced s w m m := ⟨fun _ => .inl, .inl rfl⟩

theorem leaves (traced : first.Traced s w m) (leaves : Leaves s but w after) : first.Traced s after m where
  entries entry member := (traced.entries entry member).imp_right fun written => written.leaves leaves
  destination := traced.destination

theorem file (traced : first.Traced s w m) {g : Nat} (enrolled : Enrolled s w g) :
    first.Traced s w (m.insert (.text "files") (.list (w.group g).files)) where
  entries entry member := by
    rcases mem_write member with before | new
    · exact traced.entries entry before
    · exact .inr (new ▸ .files enrolled)
  destination := by
    rw [show (m.insert (.text "files") _).at? "des" = m.at? "des" from get?_insert_other m _ (by decide)]
    exact traced.destination

theorem place (traced : first.Traced s w m) {declared settled : Value}
    (stands : Value.ofOption (m.at? "des") = declared)
    (fits : ∀ pattern, declared = .text pattern → settled = .text pattern ∨ s.Targets settled) :
    first.Traced s w (m.place declared settled) := by
  cases declared with
  | text pattern =>
    have written : (m.insert (.text "des") settled).at? "des" = some settled := get?_insert_self _ _ _
    refine ⟨fun entry member => ?_, ?_⟩
    · rcases mem_write member with before | new
      · exact traced.entries entry before
      · rcases fits pattern rfl with same | targets
        · exact .inr (new.trans same ▸ .text pattern)
        · exact .inr (new ▸ .destination targets)
    · rcases fits pattern rfl with rfl | targets
      · rw [show (m.place (.text pattern) (.text pattern)).at? "des" = m.at? "des" from
          written.trans (Value.ofOption_eq_text.mp stands).symm]
        exact traced.destination
      · exact .inr ⟨settled, written, targets⟩
  | _ => exact traced

end Mapping.Traced

namespace World

namespace Traced

theorem values (traced : Traced s start w) (whole : Whole s start) (mine : s.mine (.map cell)) :
    ∀ value ∈ (w.heap.mapAt cell).entries.map (·.2), s.mine value ∨ Written s w value := by
  intro value member
  obtain ⟨entry, among, rfl⟩ := List.mem_map.mp member
  rcases (traced cell mine).entries entry among with old | new
  · exact .inl (whole.parts (.map cell) entry.2 mine (List.mem_map.mpr ⟨entry, old, rfl⟩))
  · exact .inr new

theorem member (traced : Traced s start w) (mine : s.mine (.map cell)) {key : Value} {own : Nat}
    (entry : (key, Value.map own) ∈ (w.heap.mapAt cell).entries) :
    (key, Value.map own) ∈ (start.heap.mapAt cell).entries := by
  refine ((traced cell mine).entries _ entry).resolve_right fun written => ?_
  cases written with
  | destination targets =>
    obtain ⟨out, mapper, same, -⟩ := targets
    cases same

theorem visited (traced : Traced s start w) (leaves : Leaves s (· = cell) w after)
    (here : (start.heap.mapAt cell).Traced s after (after.heap.mapAt cell)) : Traced s start after := by
  intro other mine
  by_cases own : other = cell
  · rwa [own]
  · rw [leaves.maps other mine own]
    exact (traced other mine).leaves leaves

end Traced

theorem Formed.writable (formed : Formed s start) (declares : start.Declares s.board cell) : Writable s start cell := by
  refine ⟨(formed.own cell).mpr declares, formed.mine cell (.inr declares.member), ?_⟩
  obtain ⟨d, member, rfl⟩ := declares
  exact (mem_declared member).2

section Roots

variable (whole : Whole s start) (traced : Traced s start w) (midway : Midway s start w) (other : Midway s start v)
include whole traced midway other

theorem root_congr (stands : ∀ cell, (start.board s.board).registry.configs.at? "paths" = some (.map cell) →
      (v.heap.mapAt cell).at? "des" = (w.heap.mapAt cell).at? "des") :
    rootPath v.heap (((v.board s.board).paths v.heap).at? "des") =
      rootPath w.heap (((w.board s.board).paths w.heap).at? "des") := by
  apply whole.root_congr midway.board other.board
  intro cell found mine
  rw [stands cell found]
  rcases (traced cell mine).destination with old | ⟨_, new, out, mapper, rfl, -⟩
  · have owned : ∀ v, (w.heap.mapAt cell).at? "des" = some v → s.mine v := fun v entry =>
      whole.parts (.map cell) v mine (Mapping.mem_of_get? (old ▸ entry))
    rw [whole.rootPath_eq midway owned, whole.rootPath_eq other owned]
  · rw [new]
    rfl

end Roots

end World

end TaskBoard
