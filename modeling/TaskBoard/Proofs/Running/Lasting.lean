import TaskBoard.Proofs.Collecting.Viewing

/-!
What values show. A value may be read in the world, as a list is that some user code has made; `shows` tells what
it reads as. It lasts if nobody writes to it: neither a collection, which writes files and destinations only, nor
user code. Whatever is shown in some world is then part of what holds around in all later ones.
-/

namespace TaskBoard

open Act

variable {σ ι : Type}

namespace World

/-- All that is shown in a world is shown in a later one. -/
def Lasts (shows : World σ → Value → ι → Prop) (w after : World σ) : Prop := ∀ v x, shows w v x → shows after v x

theorem Lasts.refl (shows : World σ → Value → ι → Prop) (w : World σ) : Lasts shows w w := fun _ _ shown => shown

theorem Lasts.trans {shows : World σ → Value → ι → Prop} {w mid after : World σ} (early : Lasts shows w mid)
    (late : Lasts shows mid after) : Lasts shows w after := fun v x shown => late v x (early v x shown)

end World

/-- User code that does not write to what values show, while a collection does not do so either. -/
structure UserCode.Preserves (code : UserCode σ) (s : Scope σ) (shows : World σ → Value → ι → Prop) : Prop where
  aside : ∀ w after, World.Aside s.own { w with loop := after.loop } after → World.Lasts shows w after
  call : ∀ id args w, s.around w → World.Lasts shows w ((code.call id args).run w).2
  resume : ∀ id args stretch result w, s.around w →
    World.Lasts shows w ((code.resume id args stretch result).run w).2

/-- The scope in which all that some world has shown holds around. -/
def Scope.since (s : Scope σ) (shows : World σ → Value → ι → Prop) (first : World σ) : Scope σ :=
  { s with around := fun w => s.around w ∧ World.Lasts shows first w }

variable {code : UserCode σ} {s : Scope σ} {shows : World σ → Value → ι → Prop} {first w after start : World σ}

namespace World

theorem Leaves.since {but : Nat → Prop} (leaves : Leaves s but w after) : Leaves (s.since shows first) but w after :=
  ⟨leaves.board, leaves.boards, leaves.lists, leaves.maps, leaves.groups, leaves.made, leaves.files, leaves.listed,
    leaves.grouped⟩

theorem Leaves.of_since {but : Nat → Prop} (leaves : Leaves (s.since shows first) but w after) : Leaves s but w after :=
  ⟨leaves.board, leaves.boards, leaves.lists, leaves.maps, leaves.groups, leaves.made, leaves.files, leaves.listed,
    leaves.grouped⟩

theorem Midway.since (midway : Midway s start w) (lasts : Lasts shows first w) :
    Midway (s.since shows first) start w :=
  ⟨⟨midway.boards, midway.lists, midway.maps, midway.rewritten, midway.groups, midway.listed, midway.grouped⟩,
    midway.board, midway.fits, lasts⟩

theorem Midway.of_since (midway : Midway (s.since shows first) start w) : Midway s start w :=
  ⟨⟨midway.boards, midway.lists, midway.maps, midway.rewritten, midway.groups, midway.listed, midway.grouped⟩,
    midway.board, midway.fits.1⟩

theorem Quiet.lasts (fits : s.around w) (quiet : Quiet (s.since shows w) w after) : Lasts shows w after :=
  (quiet ⟨fits, .refl shows w⟩).2.2

end World

namespace UserCode.Preserves

variable (preserves : code.Preserves s shows)
include preserves

theorem beside (beside : World.Beside w after) : World.Lasts shows w after := preserves.aside w after beside.aside

theorem discreet (discreet : code.Discreet s) (first : World σ) : code.Discreet (s.since shows first) where
  aside w after fits aside := ⟨discreet.aside w after fits.1 aside, fits.2.trans (preserves.aside w after aside)⟩
  call id args w fits := by
    obtain ⟨leaves, around⟩ := discreet.call id args w fits.1
    exact ⟨leaves.since, around, fits.2.trans (preserves.call id args w fits.1)⟩
  resume id args stretch result w fits := by
    obtain ⟨leaves, around⟩ := discreet.resume id args stretch result w fits.1
    exact ⟨leaves.since, around, fits.2.trans (preserves.resume id args stretch result w fits.1)⟩

end UserCode.Preserves

/-- What may happen to a board while the mapper of a group waits: groups look as they did, what has been shown lasts,
and what holds around still holds. -/
structure World.Undisturbed (s : Scope σ) (shows : World σ → Value → ι → Prop) (w after : World σ) : Prop where
  groups : ∀ g, Enrolled s w g → Enrolled s after g ∧ after.view g = w.view g
  fits : s.around after
  lasts : Lasts shows w after

namespace World.Undisturbed

theorem trans {mid : World σ} (early : Undisturbed s shows w mid) (late : Undisturbed s shows mid after) :
    Undisturbed s shows w after where
  groups g enrolled := by
    obtain ⟨still, same⟩ := early.groups g enrolled
    obtain ⟨last, also⟩ := late.groups g still
    exact ⟨last, also.trans same⟩
  fits := late.fits
  lasts := early.lasts.trans late.lasts

theorem of_leaves {but : Nat → Prop} (leaves : Leaves s but w after) (fits : s.around after)
    (lasts : Lasts shows w after) : Undisturbed s shows w after :=
  ⟨fun _ enrolled => ⟨enrolled.leaves leaves, enrolled.view_eq leaves⟩, fits, lasts⟩

theorem of_beside (discreet : code.Discreet s) (preserves : code.Preserves s shows) (fits : s.around w)
    (beside : World.Beside w after) : Undisturbed s shows w after :=
  .of_leaves (show Leaves s (fun _ => False) w after from .beside beside) (discreet.aside w after fits beside.aside)
    (preserves.beside beside)

end World.Undisturbed

end TaskBoard
