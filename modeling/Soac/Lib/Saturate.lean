import Mathlib.Data.Finset.Card

/-!
# Saturation of a finite set

Elements that a set calls for are added to it, round by round, until its size no longer changes. If all that is ever called
for lies in a finite universe, the result calls for nothing it does not have.
-/

namespace Soac.Saturate

open Finset

variable {α : Type} [DecidableEq α]

def saturate (add : Finset α → Finset α) : Nat → Finset α → Finset α
  | 0, s => s
  | fuel + 1, s =>
    let s' := s ∪ add s
    if s.card = s'.card then s' else saturate add fuel s'

variable {add : Finset α → Finset α} {U : Finset α}

theorem subset_saturate (fuel : Nat) (s : Finset α) : s ⊆ saturate add fuel s := by
  induction fuel generalizing s with
  | zero => exact subset_rfl
  | succ fuel ih =>
    rw [saturate]
    split
    · exact subset_union_left
    · exact subset_union_left.trans (ih _)

variable {s : Finset α}

/-- A round that does not change the size has added nothing. -/
theorem add_subset_of_card (h : s.card = (s ∪ add s).card) : add s ⊆ s := by
  have heq : s = s ∪ add s := eq_of_subset_of_card_le subset_union_left (Nat.le_of_eq h.symm)
  intro x hx
  rw [heq]
  exact mem_union_right _ hx

theorem saturate_closed (hU : ∀ s, add s ⊆ U) {fuel : Nat} (hfuel : (U \ s).card < fuel) :
    add (saturate add fuel s) ⊆ saturate add fuel s := by
  induction fuel generalizing s with
  | zero => exact absurd hfuel (Nat.not_lt_zero _)
  | succ fuel ih =>
    rw [saturate]
    split
    · next hcard =>
      have hadd : add s ⊆ s := add_subset_of_card hcard
      rw [union_eq_left.mpr hadd]
      exact hadd
    · next hcard =>
      apply ih
      -- the round has taken an element out of what is missing
      have hnew : ¬add s ⊆ s := by
        intro hadd
        rw [union_eq_left.mpr hadd] at hcard
        exact hcard rfl
      obtain ⟨x, hx, hxs⟩ := not_subset.mp hnew
      have hlt : (U \ (s ∪ add s)).card < (U \ s).card := by
        refine card_lt_card ⟨sdiff_subset_sdiff subset_rfl subset_union_left, ?_⟩
        intro hsub
        have hmem := hsub (mem_sdiff.mpr ⟨hU s hx, hxs⟩)
        exact (mem_sdiff.mp hmem).2 (mem_union_right _ hx)
      omega

/-- What holds of the set at first, and of all that it calls for while it holds, holds of the result. -/
theorem saturate_sound {P : α → Prop} (hadd : ∀ s : Finset α, (∀ x ∈ s, P x) → ∀ x ∈ add s, P x) (fuel : Nat)
    (hs : ∀ x ∈ s, P x) : ∀ x ∈ saturate add fuel s, P x := by
  induction fuel generalizing s with
  | zero => exact hs
  | succ fuel ih =>
    have hround : ∀ x ∈ s ∪ add s, P x := by
      intro x hx
      rcases mem_union.mp hx with hx | hx
      · exact hs x hx
      · exact hadd s hs x hx
    rw [saturate]
    split
    · exact hround
    · exact ih hround

end Soac.Saturate
