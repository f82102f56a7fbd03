import TaskBoard.Proofs.Collecting.Serving

/-!
Mappings that are written again while others are resolved. A settled mapping declares the groups that it has declared,
its destination is what was declared or what that settles to, and the root of output paths stays where it is.
-/

namespace TaskBoard

open Act World Board

variable {σ : Type}

namespace Mapping

theorem filterMap_write {α : Type} {f : Value × Value → Option α} {key v : Value} (silent : ∀ k, f (k, v) = none)
    {entries : List (Value × Value)} (old : ∀ before, lookup key entries = some before → ∀ k, f (k, before) = none) :
    (write key v entries).filterMap f = entries.filterMap f := by
  induction entries with
  | nil => simp [write, silent]
  | cons entry rest ih =>
    obtain ⟨k, before⟩ := entry
    by_cases same : k.sameKey key = true
    · have passed : f (k, before) = none := old before (by simp [lookup, same]) k
      simp [write, same, silent, passed]
    · have later := ih fun other found => old other (by simpa [lookup, same] using found)
      simp only [write, same, Bool.false_eq_true, if_false]
      rw [List.filterMap_cons, List.filterMap_cons, later]

variable {m : Mapping} {files : Nat} {v : Value}

theorem filterMap_settle {α : Type} {f : Value × Value → Option α} (list : ∀ k, f (k, .list files) = none)
    (settled : ∀ k, f (k, v) = none) (text : ∀ k pattern, f (k, .text pattern) = none)
    (old : ∀ before, m.at? "files" = some before → ∀ k, f (k, before) = none) :
    (m.settle files v).entries.filterMap f = m.entries.filterMap f := by
  have filed : (m.insert (.text "files") (.list files)).entries.filterMap f = m.entries.filterMap f :=
    filterMap_write list old
  have kept : (m.insert (.text "files") (.list files)).at? "des" = m.at? "des" := get?_insert_other m _ (by decide)
  unfold settle
  cases stands : m.at? "des" with
  | none => exact filed
  | some declared =>
    cases declared with
    | text pattern =>
      refine (filterMap_write settled fun before found k => ?_).trans filed
      have same : some before = some (Value.text pattern) := found.symm.trans (kept.trans stands)
      cases same
      exact text k pattern
    | _ => exact filed

theorem mem_settle {entry : Value × Value} (member : entry ∈ (m.settle files v).entries) :
    entry ∈ m.entries ∨ entry.2 = .list files ∨ entry.2 = v := by
  have filed : entry ∈ (m.insert (.text "files") (.list files)).entries → entry ∈ m.entries ∨ entry.2 = .list files :=
    mem_write
  unfold settle at member
  cases declared : Value.ofOption (m.at? "des") with
  | text pattern =>
    rw [declared] at member
    rcases mem_write member with before | own
    · exact (filed before).imp_right .inl
    · exact .inr (.inr own)
  | _ =>
    rw [declared] at member
    exact (filed member).imp_right .inl

end Mapping

namespace World

/-- What a destination that was declared as a text, or not at all, can be settled to. -/
def Settleable (b : Nat) (start : World σ) (v : Value) : Prop :=
  v = .nothing ∨ (∃ text, v = .text text) ∨
    ∃ out name, v = .destination out (Value.ofOption ((start.board b).registry.tasks.at? name))

theorem Settleable.not_map {b : Nat} {start : World σ} {v : Value} (settleable : Settleable b start v) :
    v.isMap = false := by
  rcases settleable with rfl | ⟨text, rfl⟩ | ⟨out, name, rfl⟩ <;> rfl

theorem declaration?_of_not_map {h : Heap} {config k v : Value} (plain : v.isMap = false) :
    h.declaration? config (k, v) = none := by
  cases v with
  | map cell => cases plain
  | _ => rfl

end World

namespace Board

variable {s : Scope σ} {start w : World σ} {v : Value}

theorem Placed.resolution_eq {b : Nat} {pattern : String} (placed : Placed b w (.text pattern) v) :
    resolution b w pattern = .ok v := by
  cases placed with
  | kept other => exact absurd rfl (other pattern)
  | resolved ran =>
    rw [run_resolveDestination] at ran
    exact (Prod.mk.inj ran).1

theorem Placed.settleable {declared : Value} (midway : Midway s start w) (placed : Placed s.board w declared v)
    (plain : declared = .nothing ∨ ∃ text, declared = .text text) : Settleable s.board start v := by
  rcases plain with rfl | ⟨text, rfl⟩
  · cases placed
    exact .inl rfl
  · obtain ⟨-, rfl⟩ | ⟨name, stamp, root, -, -, -, rfl⟩ := resolution_ok placed.resolution_eq
    · exact .inr (.inl ⟨_, rfl⟩)
    · rw [midway.board]
      exact .inr (.inr ⟨_, name, rfl⟩)

end Board

namespace World

variable {code : UserCode σ} {s : Scope σ} {start w late : World σ} {done : List Declaration} {gs : List Nat}
  {d : Declaration} {v : Value}

theorem Reached.placed (reached : Reached code s start done gs w) (mine : s.mine (.map d.cell))
    (midway : Midway s start late)
    (placed : Placed s.board late (Value.ofOption ((w.heap.mapAt d.cell).at? "des")) v) :
    ∃ early, Midway s start early ∧ Placed s.board early (Value.ofOption ((start.heap.mapAt d.cell).at? "des")) v := by
  by_cases shared : ∃ other ∈ done, other.cell = d.cell
  · obtain ⟨other, member, same⟩ := shared
    obtain ⟨last, number, cell, settled⟩ := reached.visited other member
    obtain ⟨early, first, before⟩ := settled.destination
    have mapping := settled.mapping
    rw [cell, same] at mapping
    rw [same] at before
    rw [mapping] at placed
    rw [before.again placed]
    exact ⟨early, first, before⟩
  · rw [reached.ahead d.cell mine fun other member same => shared ⟨other, member, same⟩] at placed
    exact ⟨late, midway, placed⟩

section Visited

variable (reached : Reached code s start done gs w) (declared : ∀ d ∈ done, start.Declares s.board d.cell)
include reached declared

theorem Reached.destination {cell : Nat} (mine : s.mine (.map cell)) :
    (w.heap.mapAt cell).at? "des" = (start.heap.mapAt cell).at? "des" ∨
    start.Declares s.board cell ∧ ∃ pattern v, ∃ early : World σ,
      (start.heap.mapAt cell).at? "des" = some (.text pattern) ∧
      (w.heap.mapAt cell).at? "des" = some v ∧ resolution s.board early pattern = .ok v := by
  by_cases visited : ∃ d ∈ done, d.cell = cell
  · obtain ⟨d, member, rfl⟩ := visited
    obtain ⟨last, number, cell, settled⟩ := reached.visited d member
    obtain ⟨early, -, placed⟩ := settled.destination
    have after := Mapping.destination_settle (start.heap.mapAt d.cell) (w.group number).files
      (w.group number).destination
    have mapping := settled.mapping
    rw [cell] at mapping
    rw [← mapping] at after
    split at after
    next pattern stands =>
      rw [stands] at placed
      exact .inr ⟨declared d member, pattern, _, early, stands, after, placed.resolution_eq⟩
    next => exact .inl after
  · rw [reached.ahead cell mine fun d member same => visited ⟨d, member, same⟩]
    exact .inl rfl

/-- A text that still stands for a destination has stood there at the start. -/
theorem Reached.text {cell : Nat} (mine : s.mine (.map cell)) {pattern : String}
    (stands : (w.heap.mapAt cell).at? "des" = some (.text pattern)) :
    (start.heap.mapAt cell).at? "des" = some (.text pattern) := by
  rcases reached.destination declared mine with same | ⟨-, text, v, early, before, now, resolves⟩
  · rwa [← same]
  · rw [stands] at now
    cases now
    rw [before, (resolution_text resolves).1]

theorem Reached.keepsRoot (resolvable : Resolvable s start) : KeepsRoot s start w := by
  intro cell found
  have configured : start.Configures s.board cell := Mapping.entry_of_get? found
  rcases reached.destination declared (resolvable.mine cell (.inl configured)) with
    same | ⟨declares, pattern, v, early, before, now, resolves⟩
  · exact same
  · have text : Group.destinationOf start.heap (.map cell) = .text pattern := by
      rw [Group.destinationOf, before]
      rfl
    have unmapped := (resolvable.twofold cell declares configured).root found pattern text
    unfold resolution at resolves
    rw [unmapped] at resolves
    cases resolves
    rw [before, now]

theorem Reached.shows (resolvable : Resolvable s start) : Shows s.board start w := by
  have content : ∀ cell, start.Configures s.board cell → w.heap.mapAt cell = start.heap.mapAt cell ∨
      start.Twofold s.board cell ∧ ∃ files v, v.isMap = false ∧
        w.heap.mapAt cell = (start.heap.mapAt cell).settle files v := by
    intro cell configured
    by_cases visited : ∃ d ∈ done, d.cell = cell
    · obtain ⟨d, member, rfl⟩ := visited
      obtain ⟨last, number, cell, settled⟩ := reached.visited d member
      obtain ⟨early, midway, placed⟩ := settled.destination
      obtain ⟨other, among, same⟩ := declared d member
      obtain ⟨source, -, passes⟩ := resolvable.passes other among
      have plain := passes.destination
      have mapping := settled.mapping
      rw [same] at plain
      rw [cell] at mapping
      exact .inr ⟨resolvable.twofold d.cell (declared d member) configured, _, _,
        (placed.settleable midway plain).not_map, mapping⟩
    · exact .inl (reached.ahead cell (resolvable.mine cell (.inl configured)) fun d member same =>
        visited ⟨d, member, same⟩)
  constructor
  · intro config cell configured
    rcases content cell configured with same | ⟨twofold, files, v, plain, settled⟩
    · rw [same]
      rfl
    · rw [settled]
      apply Mapping.filterMap_settle
      · exact fun k => rfl
      · exact fun k => declaration?_of_not_map plain
      · exact fun k pattern => rfl
      · intro before stands k
        have silent := twofold.files before stands
        cases before with
        | map own => exact if_neg (Bool.eq_false_iff.mp silent)
        | _ => rfl
  · intro cell configured entry member
    rcases content cell configured with same | ⟨twofold, files, v, plain, settled⟩
    · rw [same] at member
      exact .inl member
    · rw [settled] at member
      rcases Mapping.mem_settle member with old | list | own
      · exact .inl old
      · rw [list]
        exact .inr rfl
      · rw [own]
        exact .inr plain

end Visited

end World

end TaskBoard
