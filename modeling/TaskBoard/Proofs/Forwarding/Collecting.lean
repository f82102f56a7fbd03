import Mathlib.Data.List.Forall2
import TaskBoard.Proofs.Forwarding.Resolving
import TaskBoard.Proofs.Visiting

/-!
A collection from its first declared group to its last. The walk over the configurations visits every entry
once, in order; a visit of a source group makes a record for it and resolves it, and leaves what has become
of the groups before it.
-/

namespace TaskBoard

open Act World

variable {σ : Type} {code : UserCode σ} {b : Nat} {receiver : Option Nat} {around : World σ → Prop}
  {start : World σ}

namespace Board

section Walking

variable {α : Type} {content : Act σ Mapping} {m : Mapping} {visit : Value → Value → Act σ (List α)}

theorem yields_walkAll (stays : List (Value × Value) → List α → World σ → Prop)
    (reads : ∀ done found w, stays done found w → content.run w = (.ok m, w))
    (visits : ∀ done entry rest found w, m.entries = done ++ entry :: rest → stays done found w →
      Yields (visit entry.1 entry.2) w fun more after => stays (done ++ [entry]) (found ++ more) after)
    {w : World σ} (holds : stays [] [] w) :
    Yields (walkAll content visit) w fun found after => stays m.entries found after := by
  apply Ends.yields
  apply ends_walkAll stays reads _ holds
  exact fun done entry rest found w cut still => .of_yields (visits done entry rest found w cut still)

end Walking

section Visiting

variable {before : World σ} {cell : Nat} {name : String} {g : Nat} {w : World σ}

theorem yields_resolveGroup (ready : Ready code b receiver around start) (proper : Proper b start)
    (declares : start.Declares b cell) (resolving : Resolving b around start before cell name g [] w)
    (sources : ∀ pattern ∈ (w.group g).source, ∀ w, Stays b around start w →
      Yields (resolveSources code b pattern) w fun _ after => Stays b around start after) :
    Yields (resolveGroup code b g receiver) w fun _ after =>
      Resolved code b receiver around start before cell name g after := by
  unfold resolveGroup
  apply (yields_groupFiles ready resolving sources).bind
  intro files listed found
  apply (yields_setFiles ready proper declares found files).bind
  intro _ filed written
  apply (yields_settleDestination ready proper declares written).bind
  rintro _ destined ⟨settled, plain⟩
  exact yields_runMapper ready declares settled plain

theorem yields_resolveDeclared (ready : Ready code b receiver around start) (proper : Proper b start)
    (declares : start.Declares b cell) (resolving : Resolving b around start before cell name g [] w)
    (sources : ∀ pattern ∈ (w.group g).source, ∀ w, Stays b around start w →
      Yields (resolveSources code b pattern) w fun _ after => Stays b around start after) :
    Yields (resolveDeclared code b receiver g) w fun found after =>
      found = g ∧ Resolved code b receiver around start before cell name g after := by
  apply Yields.of_run (run_resolveDeclared resolving.name)
  have begins := yields_log ready resolving.toStays .info ("Getting the source files of: " ++ name)
  apply (begins.keeps (minds_log _ _ (by decide))).bind
  rintro _ begun ⟨stays, minds⟩
  have still := resolving.step stays minds
  apply (yields_resolveGroup ready proper declares still ?_).bind
  · intro _ ended resolved
    have ends := yields_log ready resolved.toStays .info
      ("Source files of " ++ name ++ " successfully collected.")
    apply (ends.keeps (minds_log _ _ (by decide))).bind
    rintro _ last ⟨stays, minds⟩
    exact .pure ⟨rfl, resolved.step stays minds⟩
  · rw [minds.group g resolving.born]
    exact sources

theorem yields_newGroup (ready : Ready code b receiver around start) (proper : Proper b start)
    (declares : start.Declares b cell) (stays : Stays b around start w) (sound : w.Sound) (name : String) :
    Yields (newGroup (.text name) (.map cell)) w fun g after =>
      g = w.groups.size ∧ Resolving b around start w cell name g [] after ∧
        ∀ pattern ∈ (after.group g).source, ∀ w, Stays b around start w →
          Yields (resolveSources code b pattern) w fun _ after => Stays b around start after := by
  obtain ⟨d, member, rfl⟩ := declares
  have declares : start.Declares b d.cell := ⟨d, member, rfl⟩
  obtain ⟨stands, source, found⟩ := mem_declared member
  obtain ⟨patterns, parsed, resolves⟩ := ready.sources d.cell declares source found
  have here : w.heap.sourceAt d.cell = some source := by rw [stays.sources d.cell stands, found]
  have same := (stays.contents d.cell stands source found).2
  rw [parsed] at same
  let record : Group := ⟨.text name, patterns, Group.destinationOf w.heap (.map d.cell), .map d.cell,
    w.heap.lists.size, none⟩
  have grown := stays.newList ready proper []
  have listed : Minds w { w with heap := (w.heap.newList []).2 } := .of_same rfl rfl rfl rfl rfl
  have minds := listed.trans (.pushGroup _ record)
  have newest : World.group { w with heap := (w.heap.newList []).2, groups := w.groups.push record }
      w.groups.size = record := World.group_push_newest rfl
  apply Yields.run_bind (run_onHeap_ok (Group.ofConfig_of_source (.text name) here same))
  refine .intro (run_modifyGet _ _) ⟨rfl, ⟨?_, ⟨?_, ?_, ?_⟩, ?_, ?_, ?_, ?_, ?_, ?_, ?_⟩, ?_⟩
  · exact grown.books ready grown.running
  · simp
  · exact sound.telling w.groups.size (Nat.le_refl _)
  · exact sound.watchers w.groups.size (Nat.le_refl _)
  · exact minds.sound sound
  · exact minds.toBooks
  · exact congrArg Group.data newest
  · exact congrArg Group.name newest
  · exact congrArg Group.pending newest
  · exact (congrArg Group.destination newest) ▸ stays.destinations d.cell declares
  · exact congrArg List.reverse sound.unnoted
  · rw [show _ = record.source from congrArg Group.source newest]
    exact resolves

end Visiting

end Board

def World.deedsAmong (w : World σ) (gs : List Nat) : List GroupDeed := (w.past.filter (·.group ∈ gs)).reverse

theorem World.Books.deedsAmong {w after : World σ} {gs : List Nat} (books : Books (· < w.groups.size) w after)
    (sound : w.Sound) (older : ∀ g ∈ gs, g < w.groups.size) :
    after.deedsAmong (gs ++ [w.groups.size]) = w.deedsAmong gs ++ after.deedsOf w.groups.size := by
  obtain ⟨news, past, -⟩ := books.ledger
  have early : w.past.filter (·.group == w.groups.size) = [] := sound.unnoted
  have unnoted : ∀ deed ∈ news, deed.group ∉ gs := by
    intro deed member about
    have same := books.deeds deed.group (older deed.group about)
    simp only [deedsOf, past, List.filter_append, List.reverse_append] at same
    have none := List.append_right_eq_self.mp same
    have empty := List.filter_eq_nil_iff.mp (List.reverse_eq_nil_iff.mp none) deed member
    simp at empty
  have late : news.filter (·.group ∈ gs ++ [w.groups.size]) = news.filter (·.group == w.groups.size) := by
    apply List.filter_congr
    intro deed member
    rw [Bool.eq_iff_iff]
    simp [unnoted deed member]
  have before : w.past.filter (·.group ∈ gs ++ [w.groups.size]) = w.past.filter (·.group ∈ gs) := by
    apply List.filter_congr
    intro deed member
    have less := sound.past deed member
    simp [Nat.ne_of_lt less]
  simp only [World.deedsAmong, deedsOf, past, List.filter_append, late, before, early, List.reverse_append,
    List.append_nil]

/-- What there is to show for a declared group at the end of a collection: a record with its name and its
mapping, and a handling of its mapper, which stands whatever happens later. -/
structure Forwarded (code : UserCode σ) (b : Nat) (receiver : Option Nat) (start last : World σ) (d : Declaration)
    (g : Nat) : Prop where
  data : (last.group g).data = .map d.cell
  named : ∃ name, Config.label start.heap d.config d.group = .ok name ∧ (last.group g).name = .text name
  handled : ∃ handling : Handling, handling.Origin code b receiver g start last (start.mapperAt b d.cell) ∧
    handling.Begins receiver g last ∧ ∀ later, Later code last later → handling.Stands code receiver g last later

theorem Forwarded.books {w after : World σ} {d : Declaration} {g : Nat} (tame : code.Tame)
    (forwarded : Forwarded code b receiver start w d g) (books : Books (· = g) w after) :
    Forwarded code b receiver start after d g := by
  obtain ⟨data, ⟨name, label, named⟩, handling, origin, begins, -⟩ := forwarded
  have same := books.group g rfl
  have still := begins.books books
  refine ⟨by rw [same, data], ⟨name, label, by rw [same, named]⟩, handling, ?_, still, fun _ => still.later tame⟩
  exact origin.mono (.refl start) books.ledger

/-- A collection that has come past some declared groups and made others of them. -/
structure Collected (code : UserCode σ) (b : Nat) (receiver : Option Nat) (around : World σ → Prop)
    (start : World σ) (ds : List Declaration) (gs : List Nat) (w : World σ) : Prop
    extends Stays b around start w where
  sound : w.Sound
  books : Books (· < start.groups.size) start w
  fresh : ∀ g ∈ gs, start.groups.size ≤ g
  born : ∀ g ∈ gs, g < w.groups.size
  rising : gs.Pairwise (· < ·)
  each : List.Forall₂ (Forwarded code b receiver start w) ds gs
  order : w.deedsAmong gs = gs.flatMap w.deedsOf

namespace Collected

variable {ds : List Declaration} {gs : List Nat} {w after : World σ}

theorem resolved (ready : Ready code b receiver around start)
    (collected : Collected code b receiver around start ds gs w) {d : Declaration} {name : String}
    (label : Config.label start.heap d.config d.group = .ok name)
    (resolved : Resolved code b receiver around start w d.cell name w.groups.size after) :
    Collected code b receiver around start (ds ++ [d]) (gs ++ [w.groups.size]) after := by
  have books := resolved.books
  have since : ∀ g ∈ gs, Books (· = g) w after := fun g member =>
    books.mono fun other same => by
      rw [same]
      exact collected.born g member
  refine ⟨resolved.toStays, resolved.sound, ?books, ?fresh, ?born, ?rising, ?each, ?order⟩
  case books =>
    apply collected.books.trans
    exact books.mono fun g old => Nat.lt_of_lt_of_le old collected.books.groups
  case fresh =>
    intro g member
    rcases List.mem_append.mp member with before | newest
    · exact collected.fresh g before
    · rw [List.mem_singleton.mp newest]
      exact collected.books.groups
  case born =>
    intro g member
    rcases List.mem_append.mp member with before | newest
    · exact Nat.lt_of_lt_of_le (collected.born g before) books.groups
    · rw [List.mem_singleton.mp newest]
      exact resolved.born
  case rising =>
    apply List.pairwise_append.mpr
    refine ⟨collected.rising, List.pairwise_singleton _ _, ?_⟩
    intro g member other newest
    rw [List.mem_singleton.mp newest]
    exact collected.born g member
  case each =>
    apply List.rel_append
    · obtain ⟨length, each⟩ := List.forall₂_iff_zip.mp collected.each
      refine List.forall₂_iff_zip.mpr ⟨length, ?_⟩
      intro d g paired
      exact (each paired).books ready.tame (since g (List.of_mem_zip paired).2)
    · refine .cons ⟨resolved.data, ⟨name, label, resolved.name⟩, ?_⟩ .nil
      obtain ⟨handling, origin, begins⟩ := resolved.handled
      exact ⟨handling, origin.mono collected.books.ledger (.refl after), begins, fun _ => begins.later ready.tame⟩
  case order =>
    have same : gs.flatMap after.deedsOf = gs.flatMap w.deedsOf := by
      apply List.flatMap_congr
      intro g member
      exact books.deeds g (collected.born g member)
    rw [books.deedsAmong collected.sound collected.born, collected.order, List.flatMap_append, same]
    simp

end Collected

namespace Board

section Scanning

variable {ds : List Declaration} {gs : List Nat} {w : World σ}

theorem yields_visitEntry (ready : Ready code b receiver around start) (proper : Proper b start)
    (collected : Collected code b receiver around start ds gs w) {config : Value} {cell : Nat}
    (configured : (config, .map cell) ∈ (start.board b).registry.configs.entries) {entry : Value × Value}
    (stands : entry ∈ (start.heap.mapAt cell).entries) :
    Yields (visitEntry (resolveDeclared code b receiver) config entry.1 entry.2) w fun found after =>
      Collected code b receiver around start (ds ++ (start.heap.declaration? config entry).toList) (gs ++ found)
        after := by
  obtain ⟨group, data⟩ := entry
  have same := collected.declaresGroup ⟨config, configured⟩ stands
  unfold visitEntry
  apply Yields.run_bind (run_heap w)
  rw [same]
  split
  next declares =>
    cases data with
    | map own =>
      have found : start.heap.declaration? config (group, .map own) = some ⟨config, group, own⟩ := if_pos declares
      have member : ⟨config, group, own⟩ ∈ start.declared b :=
        List.mem_flatMap.mpr ⟨_, configured, List.mem_filterMap.mpr ⟨_, stands, found⟩⟩
      have declares : start.Declares b own := ⟨_, member, rfl⟩
      obtain ⟨name, label⟩ := proper.named _ member
      have here : (Act.ofExcept (Config.label w.heap config group) : Act σ String).run w = (.ok name, w) := by
        rw [proper.label member w.heap, label]
        rfl
      apply Yields.run_bind here
      apply (yields_newGroup ready proper declares collected.toStays collected.sound name).bind
      rintro g made ⟨rfl, resolving, sources⟩
      apply (yields_resolveDeclared ready proper declares resolving sources).bind
      rintro found' after ⟨rfl, resolved⟩
      refine .pure ?_
      rw [found]
      exact collected.resolved ready label resolved
    | _ => cases declares
  next silent =>
    have none : start.heap.declaration? config (group, data) = none := by
      unfold Heap.declaration?
      cases data with
      | map own => exact if_neg silent
      | _ => rfl
    refine .pure ?_
    rw [none, Option.toList_none, List.append_nil, List.append_nil]
    exact collected

theorem yields_configuration (ready : Ready code b receiver around start) (proper : Proper b start)
    (collected : Collected code b receiver around start ds gs w) {config : Value} {cell : Nat}
    (configured : (config, .map cell) ∈ (start.board b).registry.configs.entries) :
    Yields (walkAll (do return (← Act.heap).mapAt cell) fun group data =>
        visitEntry (resolveDeclared code b receiver) config group data) w fun found after =>
      Collected code b receiver around start (ds ++ start.heap.declaredIn (config, .map cell)) (gs ++ found)
        after := by
  apply yields_walkAll fun past found w => Collected code b receiver around start
    (ds ++ past.filterMap (start.heap.declaration? config)) (gs ++ found) w
  · intro past found w further
    apply (run_bind_ok (run_heap w)).trans
    rw [further.configs cell ⟨config, configured⟩]
    rfl
  · intro past entry rest found w cut further
    have stands : entry ∈ (start.heap.mapAt cell).entries := by
      rw [cut]
      simp
    apply (yields_visitEntry ready proper further configured stands).mono
    intro more after _ next
    rw [← List.append_assoc, List.filterMap_append, ← List.append_assoc]
    cases declared : start.heap.declaration? config entry with
    | none => simpa [declared] using next
    | some d => simpa [declared] using next
  · simpa using collected

theorem yields_eachGroup (ready : Ready code b receiver around start) (proper : Proper b start) :
    Yields (eachGroup (do return (← Act.board b).registry.configs) (resolveDeclared code b receiver)) start
      fun gs after => Collected code b receiver around start (start.declared b) gs after := by
  have begins : Collected code b receiver around start [] [] start :=
    ⟨⟨.refl ready.running, ready.fits⟩, ready.sound, .refl _ start, by simp, by simp, .nil, .nil,
      by simp [World.deedsAmong]⟩
  unfold eachGroup
  apply yields_walkAll fun done gs w =>
    Collected code b receiver around start (done.flatMap start.heap.declaredIn) gs w
  · intro done gs w collected
    apply (run_bind_ok (run_board w b)).trans
    rw [collected.board]
    rfl
  · rintro done ⟨config, data⟩ rest gs w cut collected
    have configured : (config, data) ∈ (start.board b).registry.configs.entries := by
      rw [cut]
      simp
    dsimp only
    split
    next cell =>
      apply (yields_configuration ready proper collected configured).mono
      intro found after _ further
      rw [List.flatMap_append]
      simpa using further
    next other =>
      have none : start.heap.declaredIn (config, data) = [] := by
        cases data with
        | map cell => exact absurd rfl (other cell)
        | _ => rfl
      refine .pure ?_
      rw [List.flatMap_append, List.append_nil]
      simpa [none] using collected
  · exact begins

end Scanning

end Board

end TaskBoard
