import Mathlib.Data.List.Forall2
import TaskBoard.Proofs.Collecting.Scanning

/-!
Collections in which several source groups may share a mapping. The first of them settles the destination, the
others find it settled and only write the files again; so a mapping that was settled twice is as if it had been
settled once, with the later files.
-/

namespace TaskBoard

open Act World

variable {σ : Type}

namespace Mapping

theorem write_write (key first second : Value) (entries : List (Value × Value)) :
    write key second (write key first entries) = write key second entries := by
  induction entries with
  | nil => simp [write, Value.sameKey_refl]
  | cons entry rest ih =>
    obtain ⟨k, v⟩ := entry
    by_cases same : k.sameKey key = true <;> simp [write, same, ih]

/-- A key that stands already can be written before or after another one. -/
theorem write_comm {key other : Value} (different : key.sameKey other = false) (v more : Value)
    {entries : List (Value × Value)} (stands : (lookup key entries).isSome = true) :
    write key v (write other more entries) = write other more (write key v entries) := by
  induction entries with
  | nil => cases stands
  | cons entry rest ih =>
    obtain ⟨k, old⟩ := entry
    by_cases own : k.sameKey key = true
    · have apart : k.sameKey other = false := by
        cases joined : k.sameKey other
        · rfl
        · have reversed : key.sameKey k = true := by rw [← Value.sameKey_comm k key, own]
          rw [Value.sameKey_trans reversed joined] at different
          exact different
      simp [write, own, apart]
    · rw [lookup, if_neg own] at stands
      by_cases second : k.sameKey other = true
      · simp [write, own, second]
      · simp [write, own, second, ih stands]

theorem insert_insert (m : Mapping) (key first second : Value) :
    (m.insert key first).insert key second = m.insert key second :=
  congrArg Mapping.mk (write_write key first second m.entries)

theorem insert_comm {m : Mapping} {key other : Value} (different : key.sameKey other = false) (v more : Value)
    (stands : (m.get? key).isSome = true) :
    (m.insert other more).insert key v = (m.insert key v).insert other more :=
  congrArg Mapping.mk (write_comm different v more stands)

theorem destination_settle (m : Mapping) (files : Nat) (v : Value) :
    (m.settle files v).at? "des" =
      match m.at? "des" with
      | some (.text _) => some v
      | other => other := by
  have other : (m.insert (.text "files") (.list files)).at? "des" = m.at? "des" :=
    get?_insert_other m _ (by decide)
  unfold settle
  cases declared : m.at? "des" with
  | none => exact other.trans declared
  | some old =>
    cases old with
    | text pattern => exact get?_insert_self _ _ _
    | _ => exact other.trans declared

theorem settle_settle (m : Mapping) (early late : Nat) (v : Value) :
    (m.settle early v).settle late v = m.settle late v := by
  have again : (m.insert (.text "files") (.list early)).insert (.text "files") (.list late) =
      m.insert (.text "files") (.list late) := insert_insert m _ _ _
  have commuted : ((m.insert (.text "files") (.list early)).insert (.text "des") v).insert (.text "files") (.list late) =
      (m.insert (.text "files") (.list late)).insert (.text "des") v := by
    rw [insert_comm (by decide) _ _ (by rw [get?_insert_self]; rfl), again]
  have declared := destination_settle m early v
  unfold settle at declared ⊢
  cases stands : m.at? "des" with
  | none =>
    simp only [stands, Value.ofOption, place] at declared ⊢
    simp only [declared, again]
  | some old =>
    cases old with
    | text pattern =>
      simp only [stands, Value.ofOption, place] at declared ⊢
      rw [declared, commuted]
      cases v <;> simp only [insert_insert]
    | _ =>
      simp only [stands, Value.ofOption, place] at declared ⊢
      simp only [declared, again]

end Mapping

namespace Board

theorem resolution_ok {b : Nat} {w : World σ} {pattern : String} {v : Value}
    (resolves : resolution b w pattern = .ok v) :
    ((DestinationPattern.parse pattern).mapper = none ∧ v = .text pattern) ∨
    ∃ mapper stamp root, (DestinationPattern.parse pattern).mapper = some mapper ∧ stampOf w.clock = .ok stamp ∧
      rootPath w.heap (((w.board b).paths w.heap).at? "des") = .ok root ∧
      v = .destination
        (String.ofList (Path.join root (DestinationPattern.stampVersion stamp (DestinationPattern.parse pattern).out).toList))
        (Value.ofOption ((w.board b).registry.tasks.at? mapper)) := by
  unfold resolution at resolves
  cases mapper : (DestinationPattern.parse pattern).mapper with
  | none =>
    rw [mapper] at resolves
    exact .inl ⟨rfl, (Except.ok.inj resolves).symm⟩
  | some name =>
    rw [mapper] at resolves
    cases stamped : stampOf w.clock with
    | error failure =>
      rw [stamped] at resolves
      cases resolves
    | ok stamp =>
      rw [stamped] at resolves
      cases rooted : rootPath w.heap (((w.board b).paths w.heap).at? "des") with
      | error failure =>
        rw [rooted] at resolves
        cases resolves
      | ok root =>
        rw [rooted] at resolves
        exact .inr ⟨name, stamp, root, rfl, rfl, rfl, (Except.ok.inj resolves).symm⟩

theorem resolution_text {b : Nat} {w : World σ} {pattern text : String}
    (resolves : resolution b w pattern = .ok (.text text)) :
    text = pattern ∧ ∀ other : World σ, resolution b other pattern = .ok (.text pattern) := by
  obtain ⟨unmapped, same⟩ | ⟨mapper, stamp, root, -, -, -, same⟩ := resolution_ok resolves
  · refine ⟨Value.text.inj same, fun other => ?_⟩
    unfold resolution
    rw [unmapped]
    rfl
  · cases same

theorem Placed.eq {b : Nat} {early late : World σ} {declared v more : Value} (first : Placed b early declared v)
    (second : Placed b late declared more)
    (same : ∀ pattern, declared = .text pattern → resolution b early pattern = resolution b late pattern) :
    more = v := by
  cases first with
  | kept other =>
    cases second with
    | kept => rfl
    | resolved => exact absurd rfl (other _)
  | resolved ran =>
    cases second with
    | kept other => exact absurd rfl (other _)
    | resolved again =>
      rw [run_resolveDestination] at ran again
      rw [← same _ rfl, (Prod.mk.inj ran).1] at again
      exact (Except.ok.inj (Prod.mk.inj again).1).symm

/-- A destination that is settled already stays as it is. -/
theorem Placed.again {b list : Nat} {early late : World σ} {m : Mapping} {v more : Value}
    (first : Placed b early (Value.ofOption (m.at? "des")) v)
    (second : Placed b late (Value.ofOption ((m.settle list v).at? "des")) more) : more = v := by
  rw [Mapping.destination_settle] at second
  cases stands : m.at? "des" with
  | none =>
    rw [stands] at first second
    cases first
    cases second
    rfl
  | some old =>
    rw [stands] at first second
    cases old with
    | text pattern =>
      cases first with
      | kept other => exact absurd rfl (other pattern)
      | resolved ran =>
        rw [run_resolveDestination] at ran
        cases second with
        | kept other => rfl
        | resolved again =>
          -- it was settled to a text, so to the pattern itself, which resolves to itself at any time
          obtain ⟨same, always⟩ := resolution_text (Prod.mk.inj ran).1
          rw [run_resolveDestination, same, always] at again
          rw [same]
          exact (Except.ok.inj (Prod.mk.inj again).1).symm
    | _ =>
      cases first
      cases second
      rfl

end Board

namespace World

variable {code : UserCode σ} {s : Scope σ} {start : World σ} {done : List Declaration} {gs : List Nat}
  {d : Declaration} {g : Nat} {w after : World σ}

theorem Settled.again {m : Mapping} {list : Nat} {v : Value} {early : World σ} (midway : Midway s start early)
    (first : Board.Placed s.board early (Value.ofOption (m.at? "des")) v)
    (settled : Settled code s start (m.settle list v) d g w) : Settled code s start m d g w := by
  obtain ⟨late, -, second⟩ := settled.destination
  have same : (w.group g).destination = v := first.again second
  refine ⟨⟨settled.born, settled.data, settled.name, settled.source, settled.known, settled.files, early, midway, ?_⟩,
    ?_⟩
  · rwa [same]
  · rw [settled.mapping, same, Mapping.settle_settle]

/-- The world in which a board has other groups. -/
def regrouped (w : World σ) (b : Nat) (gs : List Nat) : World σ := w.setBoard b { w.board b with groups := gs }

theorem board_regrouped {b : Nat} (gs : List Nat) (known : b < w.boards.size) :
    (w.regrouped b gs).board b = { w.board b with groups := gs } := board_setBoard_self _ known

theorem Intact.regrouped (intact : Intact s start w) (b : Nat) (gs : List Nat) : Intact s start (w.regrouped b gs) :=
  { intact with boards := by simpa [World.regrouped, World.setBoard] using intact.boards }

/-- A scan that has come past some groups. Each has its record; every mapping among theirs is settled by the last of
those that share it. -/
structure Reached (code : UserCode σ) (s : Scope σ) (start : World σ) (done : List Declaration) (gs : List Nat)
    (w : World σ) : Prop extends Midway s start w where
  recorded : List.Forall₂ (fun d g => Recorded code s start (start.heap.mapAt d.cell) d g w) done gs
  visited : ∀ d ∈ done, ∃ last g, last.cell = d.cell ∧ Settled code s start (start.heap.mapAt d.cell) last g w
  ahead : ∀ cell, s.mine (.map cell) → (∀ d ∈ done, d.cell ≠ cell) → w.heap.mapAt cell = start.heap.mapAt cell

/-- A visit settles the mapping of its group, whether another group has done so before or not. -/
theorem Reached.settles (reached : Reached code s start done gs w) (mine : s.mine (.map d.cell))
    (settled : Settled code s start (w.heap.mapAt d.cell) d g after) :
    Settled code s start (start.heap.mapAt d.cell) d g after := by
  by_cases shared : ∃ other ∈ done, other.cell = d.cell
  · obtain ⟨other, member, same⟩ := shared
    obtain ⟨last, number, cell, before⟩ := reached.visited other member
    obtain ⟨early, midway, placed⟩ := before.destination
    have mapping := before.mapping
    rw [cell, same] at mapping
    rw [same] at placed
    rw [mapping] at settled
    exact settled.again midway placed
  · rwa [reached.ahead d.cell mine fun other member same => shared ⟨other, member, same⟩] at settled

theorem Reached.further (includes : Includes s start) (reached : Reached code s start done gs w)
    (declared : ∀ other ∈ done, start.Declares s.board other.cell) (declares : start.Declares s.board d.cell)
    (midway : Midway s start after) (leaves : Leaves s (· = d.cell) w after)
    (settled : Settled code s start (w.heap.mapAt d.cell) d g after) :
    Reached code s start (done ++ [d]) (gs ++ [g]) after := by
  have mine : ∀ {cell}, start.Declares s.board cell → s.mine (.map cell) := fun declares =>
    includes.mine _ (.inr declares.member)
  have now := reached.settles (mine declares) settled
  refine ⟨midway, ?_, ?_, ?_⟩
  · obtain ⟨length, each⟩ := List.forall₂_iff_zip.mp reached.recorded
    refine List.rel_append (List.forall₂_iff_zip.mpr ⟨length, ?_⟩) (.cons now.toRecorded .nil)
    intro other number paired
    exact (each paired).leaves (mine (declared other (List.of_mem_zip paired).1)) leaves
  · intro other member
    by_cases same : other.cell = d.cell
    -- a group that shares the mapping with this one is settled by it from now on
    · rw [same]
      exact ⟨d, g, rfl, now⟩
    · have earlier : other ∈ done := by
        rcases List.mem_append.mp member with earlier | own
        · exact earlier
        · exact absurd (congrArg Declaration.cell (List.mem_singleton.mp own)) same
      obtain ⟨last, number, cell, before⟩ := reached.visited other earlier
      refine ⟨last, number, cell, before.leaves ?_ ?_ leaves⟩
      · rw [cell]
        exact mine (declared other earlier)
      · rwa [cell]
  · intro cell own unvisited
    have other : cell ≠ d.cell := fun same => unvisited d (by simp) same.symm
    rw [leaves.maps cell own other]
    exact reached.ahead cell own fun earlier member => unvisited earlier (List.mem_append_left _ member)

end World

namespace Board

variable {code : UserCode σ} {s : Scope σ} {receiver : Option Nat} {start : World σ}

theorem ends_share (receiver : Option Nat) (discreet : code.Discreet s) (covers : Covers s start)
    (fits : s.around start) :
    Ends (eachGroup (do return (← Act.board s.board).registry.configs) (resolveDeclared code s.board receiver)) start
      (fun gs mid => Reached code s start (start.declared s.board) gs mid) (fun _ _ => True) := by
  apply ends_eachGroup (Reached code s start) covers
  · exact fun _ _ _ reached => reached.toMidway
  · intro done d rest gs w split reached declares
    have declared : ∀ other ∈ done ++ d :: rest, start.Declares s.board other.cell := fun other member =>
      ⟨other, split ▸ member, rfl⟩
    apply (ends_visitEntry discreet covers.toIncludes (split ▸ by simp) reached.toMidway declares).mono
    · rintro _ after ⟨rfl, settled, midway, leaves⟩
      exact reached.further covers.toIncludes (fun other member => declared other (List.mem_append_left _ member))
        (declared d (by simp)) midway leaves settled
    · exact fun _ _ _ => trivial
  · exact ⟨.refl fits, .nil, fun d member => absurd member List.not_mem_nil, fun _ _ _ => rfl⟩

theorem scan_of_collect {b : Nat} {gs : List Nat} {last : World σ}
    (ran : (collect code b receiver).run start = (.ok gs, last)) :
    ∃ mid, (eachGroup (do return (← Act.board b).registry.configs) (resolveDeclared code b receiver)).run start =
      (.ok gs, mid) ∧ last = mid.regrouped b gs := by
  rcases scanned : (eachGroup (do return (← Act.board b).registry.configs)
      (resolveDeclared code b receiver)).run start with ⟨failure | found, mid⟩
  · have failed : (collect code b receiver).run start = (.error failure, mid) := run_bind_error scanned
    rw [failed] at ran
    cases ran
  · have ended : (collect code b receiver).run start = (.ok found, mid.regrouped b found) := run_bind_ok scanned
    rw [ended] at ran
    cases ran
    exact ⟨mid, rfl, rfl⟩

theorem reached_of_collect {gs : List Nat} {last : World σ} (discreet : code.Discreet s) (covers : Covers s start)
    (fits : s.around start) (ran : (collect code s.board receiver).run start = (.ok gs, last)) :
    ∃ mid, Reached code s start (start.declared s.board) gs mid ∧
      last = mid.regrouped s.board gs := by
  obtain ⟨mid, scanned, same⟩ := scan_of_collect ran
  exact ⟨mid, (ends_share receiver discreet covers fits).returned gs mid scanned, same⟩

end Board

end TaskBoard
