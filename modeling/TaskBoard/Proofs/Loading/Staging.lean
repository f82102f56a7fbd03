import TaskBoard.Proofs.Collecting.Sharing

/-!
Collections of one board at different times. What a pattern or a destination resolves to depends on what is
registered then, and on nothing that a collection has changed before; so two collections with the same
registries come to the same files, and to the same destinations unless one of them finds a destination that an
earlier collection has settled.
-/

namespace TaskBoard

open Act World Board

variable {σ : Type}

namespace World

/-- A later world in which all that belongs to the board is as it was, but for what collections write and the groups
that they make. -/
structure Follows (s : Scope σ) (base stage : World σ) : Prop extends Intact s base stage where
  fits : s.around stage
  board : ∃ groups, stage.board s.board = { base.board s.board with groups }

/-- The patterns of declared source groups. -/
def Lists (s : Scope σ) (base : World σ) (pattern : Value) : Prop :=
  ∃ cell v patterns, base.Declares s.board cell ∧ base.heap.sourceAt cell = some v ∧
    Group.patterns base.heap v = .ok patterns ∧ pattern ∈ patterns

/-- A declared pattern that resolves at two stages gives the same files. -/
def Steady (code : UserCode σ) (s : Scope σ) (base : World σ) : Prop :=
  ∀ pattern, Lists s base pattern → ∀ first second, Follows s base first → Follows s base second →
    ∀ files more firstAfter secondAfter,
      (resolveSources code s.board pattern).run first = (.ok files, firstAfter) →
      (resolveSources code s.board pattern).run second = (.ok more, secondAfter) → files = more

/-- What consists of what belongs to the board belongs to it, and mappings that may be written have sources. -/
structure Closed (s : Scope σ) (base : World σ) : Prop where
  parts : ∀ whole v, s.mine whole → v ∈ base.partsOf whole → s.mine v
  sourced : ∀ cell, s.own cell → ∃ source, base.heap.sourceAt cell = some source

end World

variable {code : UserCode σ} {s : Scope σ} {base start stage after : World σ}

namespace World

theorem Intact.trans {mid : World σ} (early : Intact s base mid) (late : Intact s mid after) : Intact s base after where
  boards := Nat.le_trans early.boards late.boards
  lists cell known mine :=
    (late.lists cell (Nat.lt_of_lt_of_le known early.listed) mine).trans (early.lists cell known mine)
  maps cell mine other := (late.maps cell mine other).trans (early.maps cell mine other)
  rewritten cell mine own := (early.rewritten cell mine own).trans (late.rewritten cell mine own)
  groups g known mine := (late.groups g (Nat.lt_of_lt_of_le known early.grouped) mine).trans (early.groups g known mine)
  listed := Nat.le_trans early.listed late.listed
  grouped := Nat.le_trans early.grouped late.grouped

section Reading

variable (intact : Intact s base stage) (covers : Covers s base)
include intact covers

theorem Intact.declaredIn_eq {entry : Value × Value}
    (member : entry ∈ (base.board s.board).registry.configs.entries) :
    stage.heap.declaredIn entry = base.heap.declaredIn entry := by
  obtain ⟨config, data⟩ := entry
  cases data with
  | map cell =>
    have configures : base.Configures s.board cell := ⟨config, member⟩
    change (stage.heap.mapAt cell).entries.filterMap _ = (base.heap.mapAt cell).entries.filterMap _
    rw [intact.configs covers configures]
    apply List.filterMap_congr
    rintro ⟨group, inner⟩ entry
    cases inner with
    | map own =>
      have same := intact.declaresGroup covers.toIncludes configures entry
      simp only [Heap.declaration?, same]
    | _ => rfl
  | _ => rfl

theorem Intact.declared_eq (registry : (stage.board s.board).registry = (base.board s.board).registry) :
    stage.declared s.board = base.declared s.board := by
  unfold World.declared
  rw [registry]
  apply List.flatMap_congr
  exact fun entry member => intact.declaredIn_eq covers member

theorem Intact.of_member (registry : (stage.board s.board).registry = (base.board s.board).registry) {cell : Nat}
    (member : stage.Member s.board cell) : base.Member s.board cell := by
  obtain ⟨config, ⟨name, configures⟩, group, entry⟩ := member
  rw [registry] at configures
  rw [intact.configs covers ⟨name, configures⟩] at entry
  exact ⟨config, ⟨name, configures⟩, group, entry⟩

end Reading

namespace Follows

theorem midway (begins : Follows s base start) (midway : Midway s start stage) : Follows s base stage where
  toIntact := begins.toIntact.trans midway.toIntact
  fits := midway.fits
  board := by
    rw [midway.board]
    exact begins.board

theorem quiet (begins : Follows s base stage) (quiet : Quiet s stage after) : Follows s base after := by
  obtain ⟨leaves, fits⟩ := quiet begins.fits
  refine ⟨begins.toIntact.leaves leaves, fits, ?_⟩
  rw [leaves.board]
  exact begins.board

theorem registry_eq (later : Follows s base stage) : (stage.board s.board).registry = (base.board s.board).registry := by
  obtain ⟨groups, board⟩ := later.board
  rw [board]

theorem covers (later : Follows s base stage) (covers : Covers s base) : Covers s stage := by
  have registry := later.registry_eq
  have declared := later.toIntact.declared_eq covers registry
  have members : ∀ cell, stage.Member s.board cell → base.Member s.board cell := fun _ member =>
    later.toIntact.of_member covers registry member
  have configures : ∀ cell, stage.Configures s.board cell → base.Configures s.board cell := by
    rintro cell ⟨name, member⟩
    exact ⟨name, registry ▸ member⟩
  refine { keys := ?keys, own := ?own, mine := ?mine, sources := ?sources, clear := ?clear, apart := ?apart }
  case keys =>
    rw [declared]
    exact covers.keys
  case own =>
    intro cell declares
    apply covers.own
    rwa [Declares, declared] at declares
  case mine =>
    rintro cell (configured | member)
    · exact covers.mine cell (.inl (configures cell configured))
    · exact covers.mine cell (.inr (members cell member))
  case sources =>
    intro cell member source found
    rw [later.sources covers.toIncludes (members cell member)] at found
    exact covers.sources cell (members cell member) source found
  case apart => exact fun cell own configured => covers.apart cell own (configures cell configured)
  case clear =>
    intro cell member source found
    rw [later.sources covers.toIncludes (members cell member)] at found
    have clear := covers.clear cell (members cell member) source found
    cases source with
    | list cell => exact Nat.lt_of_lt_of_le clear later.listed
    | set cell => exact Nat.lt_of_lt_of_le clear later.listed
    | _ => exact clear

section Resolving

variable (later : Follows s base stage) (closed : Closed s base)
include later closed

theorem falsy {v : Value} (mine : s.mine v) (falsy : v.truthy stage.heap = false) : v.truthy base.heap = false := by
  cases v with
  | list cell =>
    by_cases known : cell < base.heap.lists.size
    · simpa [Value.truthy, later.lists cell known (.inl mine)] using falsy
    · rw [Value.truthy, Heap.listAt_of_unknown (Nat.le_of_not_lt known)]
      rfl
  | set cell =>
    by_cases known : cell < base.heap.lists.size
    · simpa [Value.truthy, later.lists cell known (.inr mine)] using falsy
    · rw [Value.truthy, Heap.listAt_of_unknown (Nat.le_of_not_lt known)]
      rfl
  | map cell =>
    by_cases own : s.own cell
    -- a mapping that declares a group has an entry under `src`, which stays
    · obtain ⟨source, found⟩ := closed.sourced cell own
      have kept := (later.rewritten cell mine own).others (.text "src") (by decide) (by decide)
      have stands : source ∈ (stage.heap.mapAt cell).entries.map (·.2) :=
        Mapping.mem_of_get? (kept.trans found)
      have empty : (stage.heap.mapAt cell).entries = [] := by simpa [Value.truthy, Mapping.size] using falsy
      rw [empty] at stands
      cases stands
    · simpa [Value.truthy, later.maps cell mine own] using falsy
  | _ => exact falsy

theorem rootPath_eq {root : Option Value} (mine : ∀ v, root = some v → s.mine v) {path : List Char}
    (found : rootPath stage.heap root = .ok path) : rootPath base.heap root = .ok path := by
  cases root with
  | none => exact found
  | some v =>
    have before := later.falsy closed (mine v rfl)
    cases v with
    | text text => exact found
    | _ =>
      simp only [rootPath] at found ⊢
      split at found
      · cases found
      next empty =>
        rw [before (Bool.eq_false_iff.mpr empty)]
        exact found

variable (covers : Covers s base)
include covers

theorem root_eq {path : List Char}
    (found : rootPath stage.heap (((stage.board s.board).paths stage.heap).at? "des") = .ok path) :
    rootPath base.heap (((base.board s.board).paths base.heap).at? "des") = .ok path := by
  have rootless : ∀ v, ({} : Mapping).at? "des" = some v → s.mine v := by
    intro v absent
    have empty : ({} : Mapping).at? "des" = none := rfl
    rw [empty] at absent
    cases absent
  unfold Board.paths at found ⊢
  rw [later.registry_eq] at found
  cases stands : (base.board s.board).registry.configs.at? "paths" with
  | none =>
    rw [stands] at found
    exact later.rootPath_eq closed rootless found
  | some paths =>
    rw [stands] at found
    cases paths with
    | map cell =>
      have configures : base.Configures s.board cell := Mapping.entry_of_get? stands
      have mine := covers.mine cell (.inl configures)
      have kept := later.configs covers configures
      dsimp only at found ⊢
      rw [kept] at found
      apply later.rootPath_eq closed _ found
      exact fun v entry => closed.parts (.map cell) v mine (Mapping.mem_of_get? entry)
    | _ => exact later.rootPath_eq closed rootless found

theorem resolution_eq (clock : stage.clock = base.clock) {pattern : String} {v : Value}
    (resolves : resolution s.board stage pattern = .ok v) : resolution s.board base pattern = .ok v := by
  unfold resolution
  obtain ⟨unmapped, rfl⟩ | ⟨mapper, stamp, root, mapped, stamped, rooted, rfl⟩ := resolution_ok resolves
  · rw [unmapped]
    rfl
  · have first := later.root_eq closed covers rooted
    rw [clock] at stamped
    rw [mapped, later.registry_eq]
    dsimp only
    rw [stamped, first]
    rfl

theorem placed (clock : stage.clock = base.clock) {declared v : Value} (placed : Placed s.board stage declared v) :
    Placed s.board base declared v := by
  cases placed with
  | kept other => exact .kept other
  | resolved ran =>
    rw [run_resolveDestination] at ran
    have first := later.resolution_eq closed covers clock (Prod.mk.inj ran).1
    exact .resolved (by rw [run_resolveDestination, first])

end Resolving

end Follows

end World

namespace Board

theorem Gathered.eq (discreet : code.Discreet s) (steady : Steady code s base) {first second late later : World σ}
    {patterns files more : List Value} (listed : ∀ pattern ∈ patterns, Lists s base pattern)
    (gathered : Gathered code s.board first patterns files late) (again : Gathered code s.board second patterns more later)
    (early : Follows s base first) (now : Follows s base second) : files = more := by
  -- along the first gathering; both worlds move on by what one pattern does
  induction gathered generalizing second more with
  | nil w =>
    cases again
    rfl
  | @cons first mid late pattern patterns files others resolved rest ih =>
    cases again with
    | @cons _ next _ _ _ more another resolvedAgain restAgain =>
      have quiet := keeps_resolveSources discreet.drives.carries s.board pattern first
      have quietAgain := keeps_resolveSources discreet.drives.carries s.board pattern second
      rw [resolved] at quiet
      rw [resolvedAgain] at quietAgain
      have here := steady pattern (listed pattern List.mem_cons_self) first second early now _ _ _ _ resolved
        resolvedAgain
      have there := ih (fun other member => listed other (List.mem_cons_of_mem _ member)) restAgain (early.quiet quiet)
        (now.quiet quietAgain)
      rw [here, there]

end Board

namespace World

/-- What the records of two groups have in common that were made of one mapping in two collections. -/
theorem Recorded.alike (discreet : code.Discreet s) (covers : Covers s base) (steady : Steady code s base)
    {first second once twice : World σ} {m n : Mapping} {d e : Declaration} {g h : Nat}
    (declares : base.Declares s.board d.cell) (same : e.cell = d.cell)
    (begins : Follows s base first) (again : Follows s base second)
    (one : Recorded code s first m d g once) (two : Recorded code s second n e h twice) :
    (once.group g).source = (twice.group h).source ∧
      once.heap.listAt (once.group g).files = twice.heap.listAt (twice.group h).files := by
  have reads : ∀ {start last : World σ} {k : Mapping} {f : Declaration} {i : Nat}, f.cell = d.cell →
      Follows s base start → Recorded code s start k f i last →
      ∃ v, base.heap.sourceAt d.cell = some v ∧ Group.patterns base.heap v = .ok (last.group i).source := by
    intro start last k f i cell stage recorded
    obtain ⟨v, source, patterns⟩ := recorded.source
    rw [cell, stage.sources covers.toIncludes declares.member] at source
    rw [(stage.contents covers.toIncludes declares.member source).2] at patterns
    exact ⟨v, source, patterns⟩
  obtain ⟨v, found, patterns⟩ := reads rfl begins one
  obtain ⟨v', found', patterns'⟩ := reads same again two
  rw [found] at found'
  cases found'
  rw [patterns] at patterns'
  have sources : (once.group g).source = (twice.group h).source := Except.ok.inj patterns'
  refine ⟨sources, ?_⟩
  obtain ⟨early, late, midway, gathered⟩ := one.files
  obtain ⟨earlyAgain, lateAgain, midwayAgain, gatheredAgain⟩ := two.files
  rw [← sources] at gatheredAgain
  apply gathered.eq discreet steady _ gatheredAgain (begins.midway midway) (again.midway midwayAgain)
  exact fun pattern member => ⟨d.cell, v, _, declares, found, patterns, member⟩

end World

end TaskBoard
