import Soac.Semantics.Exec

/-!
# Runs that follow another one

A copy of a frame's code in another frame finds the values of the first frame in other slots, but a slot that is empty in
the first frame may hold anything in the second. The two do the same as long as the first reads no empty slot. Whether it
does is seen from outside: the outcome is then the error the runtime has for that slot, whatever that error is
(`EndsUnbound`). `Follows` says that the second outcome is the first, unless the first ends so.
-/

namespace Soac

open Outcome

variable {W α β : Type}

/-- An outcome, as a function of the errors for empty slots, that is such an error. -/
def EndsUnbound (r : (String → Value) → Outcome W α) : Prop :=
  ∃ id σ, ∀ u, r u = (.error (u id), σ)

/-- The second outcome is the first, in related states, unless the first ends on an empty slot. -/
inductive Follows (S : State W → State W → Prop) (r : (String → Value) → Outcome W α) (r' : Outcome W α) : Prop where
  | unbound : EndsUnbound r → Follows S r r'
  | same {e : Except Value α} {σ σ' : State W} : (∀ u, r u = (e, σ)) → r' = (e, σ') → S σ σ' → Follows S r r'

namespace Follows

variable {S : State W → State W → Prop} {r : (String → Value) → Outcome W α} {r' : Outcome W α}

/-- One piece after the other. -/
theorem andThen {k : (String → Value) → α → State W → Outcome W β} {k' : α → State W → Outcome W β} (h : Follows S r r')
    (hk : ∀ a σ σ', S σ σ' → Follows S (fun u => k u a σ) (k' a σ')) :
    Follows S (fun u => (r u).andThen (k u)) (r'.andThen k') := by
  cases h with
  | unbound h =>
    obtain ⟨id, σ, h⟩ := h
    exact unbound ⟨id, σ, fun u => by simp only [h u, andThen_error]⟩
  | @same e σ σ' h h' hS =>
    subst h'
    cases e with
    | error e => exact same (fun u => by simp only [h u, andThen_error]) rfl hS
    | ok a =>
      have hfun : (fun u => (r u).andThen (k u)) = fun u => k u a σ := funext fun u => by simp only [h u, andThen_ok]
      rw [hfun]
      exact hk a σ σ' hS

end Follows

end Soac
