import Mathlib.Data.List.Sort
import TaskBoard.Files.Glob

/-!
The order in which paths are listed. Texts are ordered by their characters from left to right, which is a
total order, so a sorted list depends only on what is in it and how often.
-/

namespace TaskBoard

namespace Text

theorem atMost_total (s t : List Char) : (atMost s t || atMost t s) = true := by
  induction s generalizing t with
  | nil => cases t <;> rfl
  | cons a s ih =>
    cases t with
    | nil => rfl
    | cons b t =>
      by_cases same : a = b
      · subst same
        simpa [atMost] using ih t
      · have different : a.toNat ≠ b.toNat := fun equal => same (Char.toNat_inj.mp equal)
        simp only [atMost, if_neg same, if_neg (Ne.symm same), Bool.or_eq_true, decide_eq_true_eq]
        omega

theorem atMost_trans (s t u : List Char) (first : atMost s t = true) (second : atMost t u = true) :
    atMost s u = true := by
  induction s generalizing t u with
  | nil => cases u <;> rfl
  | cons a s ih =>
    cases t with
    | nil => cases first
    | cons b t =>
      cases u with
      | nil => cases second
      | cons c u =>
        simp only [atMost] at first second ⊢
        split at first
        next here =>
          subst here
          split at second
          next same =>
            subst same
            rw [if_pos rfl]
            exact ih t u first second
          next different => rwa [if_neg different]
        next different =>
          have less := of_decide_eq_true first
          split at second
          next same =>
            subst same
            rw [if_neg different]
            exact first
          next =>
            have more := of_decide_eq_true second
            have apart : a ≠ c := by
              rintro rfl
              omega
            rw [if_neg apart]
            exact decide_eq_true (less.trans more)

theorem atMost_antisymm (s t : List Char) (first : atMost s t = true) (second : atMost t s = true) : s = t := by
  induction s generalizing t with
  | nil =>
    cases t with
    | nil => rfl
    | cons b t => cases second
  | cons a s ih =>
    cases t with
    | nil => cases first
    | cons b t =>
      by_cases same : a = b
      · subst same
        rw [ih t (by simpa [atMost] using first) (by simpa [atMost] using second)]
      · simp only [atMost, if_neg same, if_neg (Ne.symm same), decide_eq_true_eq] at first second
        omega

end Text

namespace FileTree

variable {paths others : List (List Char)}

theorem pairwise_sorted (paths : List (List Char)) : (sorted paths).Pairwise fun s t => Text.atMost s t = true :=
  List.pairwise_mergeSort Text.atMost_trans Text.atMost_total paths

theorem sorted_perm (paths : List (List Char)) : (sorted paths).Perm paths := List.mergeSort_perm paths Text.atMost

theorem sorted_of_pairwise (ordered : paths.Pairwise fun s t => Text.atMost s t = true) : sorted paths = paths :=
  List.mergeSort_of_pairwise ordered

/-- A sorted list does not depend on the order in which it was found. -/
theorem sorted_eq_of_perm (same : paths.Perm others) : sorted paths = sorted others := by
  apply List.Perm.eq_of_pairwise _ (pairwise_sorted paths) (pairwise_sorted others)
  · exact (sorted_perm paths).trans (same.trans (sorted_perm others).symm)
  · exact fun s t _ _ => Text.atMost_antisymm s t

end FileTree

end TaskBoard
