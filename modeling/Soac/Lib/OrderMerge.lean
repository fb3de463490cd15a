import Mathlib.Algebra.Order.BigOperators.Group.List
import Mathlib.Algebra.Order.Group.Nat
import Mathlib.Data.Set.Finite.List

/-!
# Merging orders

Lists that each order their members, and the merge of C3: the first head that no list has behind its own head comes next.
A merge has every member once and extends every list. It exists exactly if the orders of the lists together have no cycle.
-/

namespace Soac.OrderMerge

open List Relation

variable {α : Type} {rests : List (List α)} {c : α}

/-- No list has the member behind its head. -/
def Ready (rests : List (List α)) (c : α) : Prop :=
  ∀ r ∈ rests, c ∉ r.tail

/-- `a` comes before `b` in one of the lists. -/
def Before (rests : List (List α)) (a b : α) : Prop :=
  ∃ r ∈ rests, [a, b] <+ r

def Acyclic (rests : List (List α)) : Prop :=
  ∀ a, ¬TransGen (Before rests) a a

/-- Without a cycle one of the heads is ready: there is one that comes first among the heads. -/
theorem Acyclic.exists_ready (h : Acyclic rests) (hne : ∃ r ∈ rests, r ≠ []) : ∃ c ∈ rests.filterMap head?, Ready rests c := by
  let Heads := {c // c ∈ rests.filterMap head?}
  let before : Heads → Heads → Prop := fun a b => TransGen (Before rests) a b
  have : Finite Heads := List.finite_toSet _
  have : Std.Irrefl before := ⟨fun a => h a⟩
  have hwf : WellFounded before := Finite.wellFounded_of_trans_of_irrefl before
  obtain ⟨r, hr, hne⟩ := hne
  obtain ⟨c, t, rfl⟩ := exists_cons_of_ne_nil hne
  obtain ⟨⟨c, hc⟩, -, hmin⟩ := hwf.has_min Set.univ ⟨⟨c, mem_filterMap.mpr ⟨_, hr, rfl⟩⟩, trivial⟩
  refine ⟨c, hc, fun r hr hbehind => ?_⟩
  cases r with
  | nil => cases hbehind
  | cons y t =>
    refine hmin ⟨y, mem_filterMap.mpr ⟨_, hr, rfl⟩⟩ trivial (.single ⟨_, hr, ?_⟩)
    exact (singleton_sublist.mpr hbehind).cons_cons y

variable [DecidableEq α]

theorem idxOf_lt_of_sublist {l : List α} {a b : α} (h : [a, b] <+ l) (hn : l.Nodup) : l.idxOf a < l.idxOf b := by
  have hpair : l.Pairwise fun a b => l.idxOf a < l.idxOf b := by
    rw [pairwise_iff_getElem]
    intro i j hi hj hij
    rwa [hn.idxOf_getElem, hn.idxOf_getElem]
  exact pairwise_iff_forall_sublist.mp hpair h

/-- Lists that one list without repetition extends have no cycle. -/
theorem acyclic_of_sublist {result : List α} (hn : result.Nodup) (hs : ∀ r ∈ rests, r <+ result) : Acyclic rests := by
  have hlt : ∀ a b, Before rests a b → result.idxOf a < result.idxOf b := by
    rintro a b ⟨r, hr, hab⟩
    exact idxOf_lt_of_sublist (hab.trans (hs r hr)) hn
  intro a h
  have hless : ∀ b, TransGen (Before rests) a b → result.idxOf a < result.idxOf b := by
    intro b h
    induction h with
    | single h => exact hlt _ _ h
    | tail _ h ih => exact ih.trans (hlt _ _ h)
  exact Nat.lt_irrefl _ (hless a h)

/-- The first head that is ready. -/
def firstReady (rests : List (List α)) : Option α :=
  (rests.filterMap head?).find? fun c => rests.all fun r => c ∉ r.tail

/-- What is left of the lists behind the member. -/
def advance (c : α) (rests : List (List α)) : List (List α) :=
  rests.map fun r => if r.head? = some c then r.tail else r

/-- The merge of C3. -/
inductive Merges : List (List α) → List α → Prop
  | done {rests : List (List α)} (h : ∀ r ∈ rests, r = []) : Merges rests []
  | next {rests : List (List α)} {c : α} {result : List α} (hc : firstReady rests = some c)
      (h : Merges (advance c rests) result) : Merges rests (c :: result)

theorem firstReady_eq_some (h : firstReady rests = some c) : (∃ t, c :: t ∈ rests) ∧ Ready rests c := by
  obtain ⟨r, hr, hhead⟩ := mem_filterMap.mp (mem_of_find?_eq_some h)
  obtain ⟨t, rfl⟩ := head?_eq_some_iff.mp hhead
  exact ⟨⟨t, hr⟩, by simpa [Ready] using find?_some h⟩

theorem Acyclic.firstReady_ne_none (h : Acyclic rests) (hne : ∃ r ∈ rests, r ≠ []) : firstReady rests ≠ none := by
  obtain ⟨c, hc, hready⟩ := h.exists_ready hne
  intro hnone
  refine find?_eq_none.mp hnone c hc ?_
  simpa [Ready] using hready

theorem advance_sublist {r : List α} (h : r ∈ advance c rests) : ∃ s ∈ rests, r <+ s := by
  obtain ⟨s, hs, rfl⟩ := mem_map.mp h
  split
  · exact ⟨s, hs, tail_sublist s⟩
  · exact ⟨s, hs, .refl s⟩

theorem Acyclic.advance (h : Acyclic rests) (c : α) : Acyclic (advance c rests) := by
  refine fun a hcycle => h a (TransGen.mono ?_ _ _ hcycle)
  rintro x y ⟨r, hr, hxy⟩
  obtain ⟨s, hs, hrs⟩ := advance_sublist hr
  exact ⟨s, hs, hxy.trans hrs⟩

theorem Ready.not_mem_advance (h : Ready rests c) : ∀ r ∈ advance c rests, c ∉ r := by
  refine forall_mem_map.mpr fun s hs => ?_
  split
  · exact h s hs
  · next hhead =>
    cases s with
    | nil => exact not_mem_nil
    | cons x t =>
      rw [mem_cons, not_or]
      exact ⟨fun hx => hhead (congrArg some hx.symm), h _ hs⟩

theorem length_advance_lt (h : firstReady rests = some c) : (advance c rests).flatten.length < rests.flatten.length := by
  obtain ⟨⟨t, ht⟩, -⟩ := firstReady_eq_some h
  rw [advance, length_flatten, length_flatten, List.map_map]
  refine sum_lt_sum _ _ (fun r _ => ?_) ⟨c :: t, ht, ?_⟩
  · rw [Function.comp_apply]
    split
    · exact (tail_sublist r).length_le
    · exact Nat.le_refl _
  · simp

/-- A merge has every member once and extends every list. -/
theorem Merges.extends {result : List α} (h : Merges rests result) :
    result.Nodup ∧ (∀ x, x ∈ result ↔ ∃ r ∈ rests, x ∈ r) ∧ ∀ r ∈ rests, r <+ result := by
  induction h with
  | done h =>
    refine ⟨nodup_nil, fun c => ⟨nofun, ?_⟩, fun r hr => ?_⟩
    · rintro ⟨r, hr, hc⟩
      cases h r hr ▸ hc
    · rw [h r hr]
  | @next rests c result hc h ih =>
    obtain ⟨hnodup, hmem, hsub⟩ := ih
    obtain ⟨⟨t, ht⟩, hready⟩ := firstReady_eq_some hc
    have hsub' : ∀ r ∈ rests, r <+ c :: result := by
      intro r hr
      have hrest := hsub _ (mem_map.mpr ⟨r, hr, rfl⟩)
      split at hrest
      · next hhead =>
        obtain ⟨t, rfl⟩ := head?_eq_some_iff.mp hhead
        exact hrest.cons_cons c
      · exact hrest.cons c
    refine ⟨nodup_cons.mpr ⟨fun hin => ?_, hnodup⟩, fun x => ⟨fun hx => ?_, ?_⟩, hsub'⟩
    · obtain ⟨r, hr, hcr⟩ := (hmem c).mp hin
      exact hready.not_mem_advance r hr hcr
    · rcases mem_cons.mp hx with rfl | hx
      · exact ⟨x :: t, ht, mem_cons_self⟩
      · obtain ⟨r, hr, hxr⟩ := (hmem x).mp hx
        obtain ⟨s, hs, hrs⟩ := advance_sublist hr
        exact ⟨s, hs, hrs.subset hxr⟩
    · rintro ⟨r, hr, hxr⟩
      exact (hsub' r hr).subset hxr

end Soac.OrderMerge
