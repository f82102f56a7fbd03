import Mathlib.Data.List.Forall2
import TaskBoard.Proofs.Collecting.Viewing
import TaskBoard.Proofs.Forwarding.Handling
import TaskBoard.Proofs.Recording

/-!
What is noted about the groups of a collection whose mappers give plain values. Whatever user code does, it notes
nothing about the groups of the board; so what is noted about a group is that its mapper was called with it, and that
the receiver was given what it gave.
-/

namespace TaskBoard

open Act World Board

variable {σ : Type} {code : UserCode σ} {s : Scope σ} {receiver : Option Nat}

namespace World

/-- Nothing is noted, though groups may be made. -/
structure Tacit (w after : World σ) : Prop where
  past : after.past = w.past
  grouped : w.groups.size ≤ after.groups.size

instance : Std.Refl (Tacit : World σ → World σ → Prop) := ⟨fun _ => ⟨rfl, Nat.le_refl _⟩⟩

instance : IsTrans (World σ) Tacit where
  trans _ _ _ early late := ⟨late.past.trans early.past, Nat.le_trans early.grouped late.grouped⟩

theorem Tacit.overlooks : Overlooks (Tacit : World σ → World σ → Prop) where
  heap _ _ := ⟨rfl, Nat.le_refl _⟩
  record w g _ := ⟨rfl, Nat.le_of_eq (size_groups_setGroup w g _).symm⟩
  group _ _ := ⟨rfl, by simp⟩

/-- Nothing is noted about the groups of the board, whatever is noted about others. -/
structure Unnoted (s : Scope σ) (w after : World σ) : Prop where
  grouped : w.groups.size ≤ after.groups.size
  past : ∃ news, after.past = news ++ w.past ∧
    ∀ deed ∈ news, deed.group < after.groups.size ∧ ¬Enrolled s w deed.group

/-- A quiet change that notes nothing about the groups of the board. -/
def Silent (s : Scope σ) (w after : World σ) : Prop := Quiet s w after ∧ (s.around w → Unnoted s w after)

section Unnoted

variable {but : Nat → Prop} {w mid after : World σ}

theorem Unnoted.of_tacit (tacit : Tacit w after) : Unnoted s w after :=
  ⟨tacit.grouped, [], tacit.past, fun _ none => absurd none List.not_mem_nil⟩

theorem Unnoted.trans (early : Unnoted s w mid) (leaves : Leaves s but w mid) (late : Unnoted s mid after) :
    Unnoted s w after := by
  obtain ⟨news, first, fresh⟩ := early.past
  obtain ⟨more, second, newer⟩ := late.past
  refine ⟨Nat.le_trans early.grouped late.grouped, more ++ news, by rw [second, first, List.append_assoc], ?_⟩
  intro deed member
  rcases List.mem_append.mp member with last | before
  · exact ⟨(newer deed last).1, fun enrolled => (newer deed last).2 (enrolled.leaves leaves)⟩
  · exact ⟨Nat.lt_of_lt_of_le (fresh deed before).1 late.grouped, (fresh deed before).2⟩

theorem Unnoted.suffix (unnoted : Unnoted s w after) : w.past <:+ after.past := by
  obtain ⟨news, past, -⟩ := unnoted.past
  exact ⟨news, past.symm⟩

instance : Std.Refl (Silent s) where
  refl w := ⟨refl_of (Quiet s) w, fun _ => .of_tacit (refl_of Tacit w)⟩

instance : IsTrans (World σ) (Silent s) where
  trans _ _ _ := fun ⟨early, first⟩ ⟨late, second⟩ => ⟨trans_of (Quiet s) early late, fun fits =>
    (first fits).trans (early fits).1 (second (early fits).2)⟩

theorem Silent.beside (discreet : code.Discreet s) (beside : World.Beside w after) (tacit : Tacit w after) :
    Silent s w after := ⟨discreet.drives.beside w after beside, fun _ => .of_tacit tacit⟩

end Unnoted

end World

/-- User code that notes nothing about the groups of a board. -/
def UserCode.Mute (code : UserCode σ) (s : Scope σ) : Prop :=
  ∀ id args w, s.around w → Unnoted s w ((code.call id args).run w).2

theorem UserCode.Mute.carries (mute : code.Mute s) (discreet : code.Discreet s) : Carries code (Silent s) where
  call id args w := ⟨discreet.call id args w, mute id args w⟩
  routine _ := Keeps.modifyGet fun _ => .beside discreet rfl ⟨rfl, Nat.le_refl _⟩
  context := by
    intro α current act kept w
    have entered : Silent s w { w with current := current } := .beside discreet rfl ⟨rfl, Nat.le_refl _⟩
    have inside := trans_of (Silent s) entered (kept { w with current := current })
    have left : Silent s (act.run { w with current := current }).2 ((inContext current act).run w).2 :=
      .beside discreet rfl ⟨rfl, Nat.le_refl _⟩
    exact trans_of (Silent s) inside left
  log _ _ _ := Keeps.modify fun _ => .beside discreet rfl ⟨rfl, Nat.le_refl _⟩

namespace World

/-- What was noted since a world, in which a group of the board was still to be made: these deeds of this group, and
nothing about the others. -/
structure Noted (s : Scope σ) (before : World σ) (g : Nat) (own : List GroupDeed) (w : World σ) : Prop where
  grouped : before.groups.size ≤ w.groups.size
  past : ∃ news, w.past = news ++ before.past ∧
    (∀ deed ∈ news, deed.group < w.groups.size ∧ ¬Enrolled s before deed.group) ∧
    (news.filter (·.group == g)).reverse = own

namespace Noted

variable {but : Nat → Prop} {before w after : World σ} {g : Nat} {own : List GroupDeed}

theorem begins (before : World σ) (g : Nat) : Noted s before g [] before :=
  ⟨Nat.le_refl _, [], rfl, fun _ none => absurd none List.not_mem_nil, rfl⟩

theorem tacit (noted : Noted s before g own w) (tacit : Tacit w after) : Noted s before g own after := by
  obtain ⟨news, past, fresh, deeds⟩ := noted.past
  refine ⟨Nat.le_trans noted.grouped tacit.grouped, news, tacit.past.trans past, fun deed member => ?_, deeds⟩
  exact ⟨Nat.lt_of_lt_of_le (fresh deed member).1 tacit.grouped, (fresh deed member).2⟩

theorem unnoted (noted : Noted s before g own w) (leaves : Leaves s but before w) (enrolled : Enrolled s w g)
    (unnoted : Unnoted s w after) : Noted s before g own after := by
  obtain ⟨news, past, fresh, deeds⟩ := noted.past
  obtain ⟨more, later, others⟩ := unnoted.past
  refine ⟨Nat.le_trans noted.grouped unnoted.grouped, more ++ news, by rw [later, past, List.append_assoc], ?_, ?_⟩
  · intro deed member
    rcases List.mem_append.mp member with last | early
    · exact ⟨(others deed last).1, fun old => (others deed last).2 (old.leaves leaves)⟩
    · exact ⟨Nat.lt_of_lt_of_le (fresh deed early).1 unnoted.grouped, (fresh deed early).2⟩
  · have silent : more.filter (·.group == g) = [] := by
      rw [List.filter_eq_nil_iff]
      intro deed member same
      exact (others deed member).2 (beq_iff_eq.mp same ▸ enrolled)
    rw [List.filter_append, silent, List.nil_append, deeds]

theorem note (noted : Noted s before g own w) (newer : before.groups.size ≤ g) (born : g < w.groups.size)
    {deed : GroupDeed} (about : deed.group = g) :
    Noted s before g (own ++ [deed]) { w with past := deed :: w.past } := by
  obtain ⟨news, past, fresh, deeds⟩ := noted.past
  refine ⟨noted.grouped, deed :: news, congrArg (deed :: ·) past, fun other member => ?_, by simp [about, deeds]⟩
  rcases List.mem_cons.mp member with rfl | early
  · rw [about]
    exact ⟨born, fun enrolled => absurd enrolled.born (Nat.not_lt.mpr newer)⟩
  · exact fresh other early

theorem suffix (noted : Noted s before g own w) : before.past <:+ w.past := by
  obtain ⟨news, past, -⟩ := noted.past
  exact ⟨news, past.symm⟩

end Noted

end World

/-- What is noted about a group between two worlds: nothing if there is no mapper to call, else that the mapper was
called with the group, and that the receiver was called with the plain value of this call. -/
inductive Forwards (code : UserCode σ) (b : Nat) (receiver : Option Nat) (w last : World σ) (g : Nat) :
    Option Value → List GroupDeed → Prop where
  | unmapped : Forwards code b receiver w last g none []
  | mapped {mapper v : Value} {early mid told : World σ} (since : w.past <:+ early.past)
    (called : Called code b g mapper v early mid) (plain : ∀ r, v ≠ .routine r)
    (handed : Receives code receiver g v mid told) (before : told.past <:+ last.past) :
    Forwards code b receiver w last g (some mapper)
      (.mapped g mapper :: (receiver.map fun id => GroupDeed.delivered g id v).toList)

theorem Forwards.mono {b g : Nat} {w last first after : World σ} {mapper : Option Value} {deeds : List GroupDeed}
    (forwards : Forwards code b receiver w last g mapper deeds) (early : first.past <:+ w.past)
    (late : last.past <:+ after.past) : Forwards code b receiver first after g mapper deeds := by
  cases forwards with
  | unmapped => exact .unmapped
  | mapped since called plain handed before =>
    exact .mapped (early.trans since) called plain handed (before.trans late)

namespace World

variable {but : Nat → Prop} {w mid after : World σ} {gs : List Nat}

/-- What has happened since a world to some groups that were made since, to one after another: each has been forwarded.
The groups of the board that there were are still there, and nothing has happened to them. -/
structure Round (code : UserCode σ) (s : Scope σ) (receiver : Option Nat) (w : World σ) (gs : List Nat)
    (last : World σ) : Prop where
  older : ∀ g, Enrolled s w g → Enrolled s last g
  past : ∃ news deeds, last.past = news ++ w.past ∧
    (∀ deed ∈ news, deed.group < last.groups.size ∧ ¬Enrolled s w deed.group) ∧
    (news.filter (·.group ∈ gs)).reverse = deeds.flatten ∧
    List.Forall₂ (fun g own => Forwards code s.board receiver w last g (last.view g).mapper? own) gs deeds

namespace Round

theorem begins (w : World σ) : Round code s receiver w [] w :=
  ⟨fun _ => id, [], [], rfl, fun _ none => absurd none List.not_mem_nil, rfl, .nil⟩

theorem further (round : Round code s receiver w gs mid) (enrolled : ∀ g ∈ gs, Enrolled s mid g)
    (leaves : Leaves s but mid after) {own : List GroupDeed} (noted : Noted s mid mid.groups.size own after)
    (forwards : Forwards code s.board receiver mid after mid.groups.size (after.view mid.groups.size).mapper? own) :
    Round code s receiver w (gs ++ [mid.groups.size]) after := by
  obtain ⟨news, deeds, past, known, order, each⟩ := round.past
  obtain ⟨more, later, fresh, ownDeeds⟩ := noted.past
  refine ⟨fun g old => (round.older g old).leaves leaves, more ++ news, deeds ++ [own], ?_, ?_, ?_, ?_⟩
  · rw [later, past, List.append_assoc]
  · intro deed member
    rcases List.mem_append.mp member with last | before
    · exact ⟨(fresh deed last).1, fun old => (fresh deed last).2 (round.older _ old)⟩
    · exact ⟨Nat.lt_of_lt_of_le (known deed before).1 noted.grouped, (known deed before).2⟩
  · -- the newest group has a number that no earlier deed is about, and later deeds are about no earlier group
    have last : more.filter (·.group ∈ gs ++ [mid.groups.size]) = more.filter (·.group == mid.groups.size) := by
      apply List.filter_congr
      intro deed member
      have other : deed.group ∉ gs := fun among => (fresh deed member).2 (enrolled _ among)
      rw [Bool.eq_iff_iff]
      simp [other]
    have before : news.filter (·.group ∈ gs ++ [mid.groups.size]) = news.filter (·.group ∈ gs) := by
      apply List.filter_congr
      intro deed member
      simp [Nat.ne_of_lt (known deed member).1]
    rw [List.filter_append, last, before, List.reverse_append, order, ownDeeds]
    simp
  · refine List.rel_append ?_ (.cons (forwards.mono ⟨news, past.symm⟩ (List.suffix_refl _)) .nil)
    obtain ⟨length, all⟩ := List.forall₂_iff_zip.mp each
    refine List.forall₂_iff_zip.mpr ⟨length, fun {g deeds} paired => ?_⟩
    rw [(enrolled g (List.of_mem_zip paired).1).view_eq leaves]
    exact (all paired).mono (List.suffix_refl _) noted.suffix

theorem regrouped (round : Round code s receiver w gs mid) (b : Nat) :
    Round code s receiver w gs (mid.regrouped b gs) := by
  obtain ⟨news, deeds, past, known, order, each⟩ := round.past
  refine ⟨fun g old => (round.older g old).regrouped b gs, news, deeds, past, known, order, ?_⟩
  exact each.imp fun _ _ forwards => forwards.mono (List.suffix_refl _) (List.suffix_refl _)

end Round

end World

namespace Board

variable {start before w : World σ} {cell g : Nat} {record : Group} {files : List Value} {content : Mapping}
  (discreet : code.Discreet s) (mute : code.Mute s) (mine : s.mine (.map cell))
  (during : During s start before cell g record files content w)
include discreet mute mine during

theorem yields_deliver_noted {own : List GroupDeed} (noted : Noted s before g own w) {v : Value}
    (receives : ∀ id, receiver = some id →
      Yields (callUser code id [v]) { w with past := .delivered g id v :: w.past } fun _ _ => True) :
    Yields (deliver code g receiver v) w fun _ after =>
      Noted s before g (own ++ (receiver.map fun id => GroupDeed.delivered g id v).toList) after ∧
        Receives code receiver g v w after := by
  cases receiver with
  | none => exact .pure ⟨by simpa using noted, rfl⟩
  | some id =>
    have told : Noted s before g (own ++ [.delivered g id v]) _ := noted.note during.newer during.born rfl
    have called := during.quiet mine (discreet.drives.note (.delivered g id v) w)
    unfold deliver
    apply Yields.run_bind (run_modify w _)
    obtain ⟨given, after, heard, -, -, unnoted⟩ := (receives id rfl).keeps (keeps_callUser (mute.carries discreet) id [v])
    apply Yields.run_bind heard
    exact .pure ⟨told.unnoted called.leaves (called.enrolled mine) (unnoted called.fits), given, heard⟩

theorem yields_runMapper_noted (noted : Noted s before g [] w)
    (gives : ∀ mapper, (w.view g).mapper? = some mapper →
      Yields (callBound code s.board mapper [.group g]) { w with past := .mapped g mapper :: w.past } fun v mid =>
        (∀ r, v ≠ .routine r) ∧ ∀ id, receiver = some id →
          Yields (callUser code id [v]) { mid with past := .delivered g id v :: mid.past } fun _ _ => True) :
    Yields (runMapper code s.board g receiver) w fun _ after =>
      ∃ own, Noted s before g own after ∧ Forwards code s.board receiver before after g (w.view g).mapper? own := by
  have unmapped : (w.view g).mapper? = none → ∃ own, Noted s before g own w ∧
      Forwards code s.board receiver before w g (w.view g).mapper? own := fun none => ⟨[], noted, none ▸ .unmapped⟩
  have view : (w.view g).destination = (w.group g).destination := rfl
  unfold runMapper
  apply Yields.run_bind (run_get w)
  cases destination : (w.group g).destination with
  | destination out mapper =>
    dsimp only
    by_cases callable : mapper.isCallable = true
    · have mapped : (w.view g).mapper? = some mapper := by simp [View.mapper?, view, destination, callable]
      rw [if_pos callable]
      have told : Noted s before g [.mapped g mapper] _ := noted.note during.newer during.born rfl
      have calling := during.quiet mine (discreet.drives.note (.mapped g mapper) w)
      apply Yields.run_bind (run_modify w _)
      obtain ⟨v, mid, called, ⟨plain, receives⟩, quiet, unnoted⟩ :=
        (gives mapper mapped).keeps (keeps_callBound (mute.carries discreet) s.board mapper _)
      apply Yields.run_bind called
      have sofar := told.unnoted calling.leaves (calling.enrolled mine) (unnoted calling.fits)
      have delivers : Yields (deliver code g receiver v) mid fun _ after => ∃ own, Noted s before g own after ∧
          Forwards code s.board receiver before after g (w.view g).mapper? own := by
        apply (yields_deliver_noted discreet mute mine (calling.quiet mine quiet) sofar receives).mono
        rintro _ after - ⟨delivered, handed⟩
        refine ⟨_, delivered, ?_⟩
        rw [mapped]
        exact .mapped told.suffix ⟨rfl, called⟩ plain handed (List.suffix_refl _)
      cases v with
      | routine r => exact absurd rfl (plain r)
      | _ => exact delivers
    · rw [if_neg callable]
      exact .pure (unmapped (by simp [View.mapper?, view, destination, callable]))
  | _ => exact .pure (unmapped (by simp [View.mapper?, view, destination]))

end Board

end TaskBoard
