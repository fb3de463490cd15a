import Mathlib.Algebra.Order.BigOperators.Group.List
import Mathlib.Algebra.Order.Group.Nat
import Mathlib.Algebra.GroupWithZero.Nat

/-!
# Round-robin iteration over a map

A `while changed` loop: every round visits the blocks in a fixed order, a visit computes contributions from the map as it
stands and joins them into it, and the loop ends with the first round that changes nothing. `loop_stable` is the rule the
analyses use: when an invariant is kept by every visit and a measure drops with every visit that changes the map, the loop
ends, and its result absorbs every contribution. `Recomputes.stable` is its form for analyses that recompute the entry of
the block they visit: the result is a fixed point.
-/

namespace Soac.RoundRobin

open List Function

variable {B N S : Type*} [DecidableEq N] [DecidableEq S] (join : S → S → S)

/-- Join one contribution into the map; the flag is raised when the entry of its node changes. -/
def absorb (acc : (N → S) × Bool) (c : N × S) : (N → S) × Bool :=
  if join (acc.1 c.1) c.2 = acc.1 c.1 then acc
  else (update acc.1 c.1 (join (acc.1 c.1) c.2), true)

variable (contrib : B → (N → S) → List (N × S))

/-- Visit one block: its contributions are computed from the map before the visit. -/
def visit (acc : (N → S) × Bool) (b : B) : (N → S) × Bool :=
  (contrib b acc.1).foldl (absorb join) acc

/-- One round: visit the blocks in order, with the flag lowered at the start. -/
def round (blocks : List B) (m : N → S) : (N → S) × Bool :=
  blocks.foldl (visit join contrib) (m, false)

/-- `while changed`: rounds until one of them changes nothing, at most `fuel` of them. -/
def loop (join : S → S → S) (contrib : B → (N → S) → List (N × S)) (blocks : List B) : Nat → (N → S) → (N → S)
  | 0, m => m
  | fuel + 1, m =>
    match round join contrib blocks m with
    | (m', true) => loop join contrib blocks fuel m'
    | (m', false) => m'

variable {join : S → S → S} {contrib : B → (N → S) → List (N × S)} {blocks : List B} (m : N → S)

/-! ## What the flag says -/

section

variable {M A : Type*}

/-- A step only carries the flag along: it raises the flag or leaves it, and the map does not depend on it. -/
def Carries (step : M × Bool → A → M × Bool) : Prop :=
  ∀ m f a, step (m, f) a = ((step (m, false) a).1, f || (step (m, false) a).2)

variable {step : M × Bool → A → M × Bool}

theorem Carries.foldl (hs : Carries step) (as : List A) (m : M) (f : Bool) :
    as.foldl step (m, f) = ((as.foldl step (m, false)).1, f || (as.foldl step (m, false)).2) := by
  induction as generalizing m f with
  | nil => simp
  | cons a as ih =>
    simp only [foldl_cons]
    rw [hs, ih, ih _ (step (m, false) a).2, Bool.or_assoc]

/-- A run of steps that leaves the flag lowered has only steps that do so, and changed nothing. -/
theorem Carries.foldl_quiet (hs : Carries step) {Q : M → A → Prop}
    (hq : ∀ m a, (step (m, false) a).2 = false → (step (m, false) a).1 = m ∧ Q m a) (as : List A) (m : M)
    (h : (as.foldl step (m, false)).2 = false) : (as.foldl step (m, false)).1 = m ∧ ∀ a ∈ as, Q m a := by
  induction as with
  | nil => exact ⟨rfl, nofun⟩
  | cons a as ih =>
    simp only [foldl_cons] at h ⊢
    rw [hs.foldl] at h ⊢
    simp only [Bool.or_eq_false_iff] at h
    obtain ⟨hm, ha⟩ := hq m a h.1
    rw [hm] at h ⊢
    obtain ⟨h1, h2⟩ := ih h.2
    exact ⟨h1, forall_mem_cons.mpr ⟨ha, h2⟩⟩

/-- A step keeps `inv`, does not let `rank` grow, and lowers it when the flag is raised. -/
def Lowers (inv : M → Prop) (rank : M → Nat) (m : M) (r : M × Bool) : Prop :=
  inv r.1 ∧ rank r.1 ≤ rank m ∧ (r.2 = true → rank r.1 < rank m)

theorem Carries.foldl_lowers (hs : Carries step) {inv : M → Prop} {rank : M → Nat} {ok : A → Prop}
    (hstep : ∀ m a, inv m → ok a → Lowers inv rank m (step (m, false) a)) (as : List A) (has : ∀ a ∈ as, ok a) (m : M)
    (hm : inv m) : Lowers inv rank m (as.foldl step (m, false)) := by
  induction as generalizing m with
  | nil => exact ⟨hm, Nat.le_refl _, nofun⟩
  | cons a as ih =>
    rw [forall_mem_cons] at has
    obtain ⟨hinv, hle, hlt⟩ := hstep m a hm has.1
    obtain ⟨h1, h2, h3⟩ := ih has.2 _ hinv
    rw [foldl_cons, hs.foldl]
    refine ⟨h1, h2.trans hle, fun hflag => ?_⟩
    rcases Bool.or_eq_true_iff.mp hflag with hf | hf
    · exact h2.trans_lt (hlt hf)
    · exact (h3 hf).trans_le hle

end

theorem absorb_carries : Carries (absorb (N := N) join) := by
  intro m f c
  unfold absorb
  split <;> simp

theorem visit_carries : Carries (visit join contrib) :=
  fun m f _ => absorb_carries.foldl _ m f

theorem visit_quiet (b : B) (h : (visit join contrib (m, false) b).2 = false) :
    (visit join contrib (m, false) b).1 = m ∧ ∀ c ∈ contrib b m, join (m c.1) c.2 = m c.1 := by
  refine absorb_carries.foldl_quiet (Q := fun m c => join (m c.1) c.2 = m c.1) (fun m c hc => ?_) _ m h
  unfold absorb at hc ⊢
  split at hc
  · next heq => exact ⟨by rw [if_pos heq], heq⟩
  · cases hc

/-! ## Convergence -/

/-- A visit keeps `inv`, and lowers `rank` whenever it changes the map. -/
structure Converges (join : S → S → S) (contrib : B → (N → S) → List (N × S)) (blocks : List B)
    (inv : (N → S) → Prop) (rank : (N → S) → Nat) : Prop where
  keeps : ∀ m, inv m → ∀ b ∈ blocks, inv (visit join contrib (m, false) b).1
  drops : ∀ m, inv m → ∀ b ∈ blocks, (visit join contrib (m, false) b).2 = true →
    rank (visit join contrib (m, false) b).1 < rank m

variable {inv : (N → S) → Prop} {rank : (N → S) → Nat}

/-- After a round the invariant holds, the rank has not grown, and it dropped if the flag is raised. -/
theorem Converges.round_spec (hc : Converges join contrib blocks inv rank) (m : N → S) (hm : inv m) :
    Lowers inv rank m (round join contrib blocks m) := by
  refine visit_carries.foldl_lowers (fun m b hm hb => ⟨hc.keeps m hm b hb, ?_, hc.drops m hm b hb⟩) blocks
    (fun _ h => h) m hm
  cases hf : (visit join contrib (m, false) b).2 with
  | true => exact (hc.drops m hm b hb hf).le
  | false => rw [(visit_quiet m b hf).1]

/-- The loop ends within its fuel, keeps the invariant, and its result absorbs every contribution of every block. -/
theorem Converges.loop_stable (hc : Converges join contrib blocks inv rank) (fuel : Nat) (m : N → S) (hm : inv m)
    (hfuel : rank m < fuel) :
    inv (loop join contrib blocks fuel m) ∧
      ∀ b ∈ blocks, ∀ c ∈ contrib b (loop join contrib blocks fuel m),
        join (loop join contrib blocks fuel m c.1) c.2 = loop join contrib blocks fuel m c.1 := by
  induction fuel generalizing m with
  | zero => exact absurd hfuel (Nat.not_lt_zero _)
  | succ fuel ih =>
    obtain ⟨h1, _, h3⟩ := hc.round_spec m hm
    have hq : (round join contrib blocks m).2 = false → (round join contrib blocks m).1 = m ∧ _ :=
      visit_carries.foldl_quiet visit_quiet blocks m
    unfold loop
    cases hr : round join contrib blocks m with
    | mk m' f =>
      rw [hr] at h1 h3 hq
      cases f with
      | true => exact ih m' h1 (by have := h3 rfl; simp only at this; omega)
      | false =>
        obtain ⟨rfl, hq⟩ := hq rfl
        exact ⟨hm, hq⟩

omit [DecidableEq N] [DecidableEq S] in
theorem sum_map_le {A : Type*} {l : List A} {g : A → Nat} {c : Nat} (h : ∀ a, g a ≤ c) : (l.map g).sum ≤ l.length * c := by
  simpa using sum_le_card_nsmul (l.map g) c (forall_mem_map.mpr fun a _ => h a)

omit [DecidableEq S] in
/-- A sum over the entries drops with one of them. -/
theorem sum_update_lt {label : B → N} {height : S → Nat} {n : N} {s : S} (hn : n ∈ blocks.map label)
    (h : height s < height (m n)) : (blocks.map fun b => height (update m n s (label b))).sum <
      (blocks.map fun b => height (m (label b))).sum := by
  obtain ⟨b, hb, rfl⟩ := mem_map.mp hn
  apply sum_lt_sum
  · intro c _
    exact (forall_update_iff m fun n s => height s ≤ height (m n)).mpr ⟨h.le, fun _ _ => Nat.le_refl _⟩ (label c)
  · exact ⟨b, hb, by simpa using h⟩

/-- It is enough to look at one contribution at a time: each that changes the map keeps the invariant and lowers the
rank. -/
theorem Converges.of_absorb {ok : N × S → Prop} (hok : ∀ m, inv m → ∀ b ∈ blocks, ∀ c ∈ contrib b m, ok c)
    (hstep : ∀ m c, inv m → ok c → join (m c.1) c.2 ≠ m c.1 →
      inv (update m c.1 (join (m c.1) c.2)) ∧ rank (update m c.1 (join (m c.1) c.2)) < rank m) :
    Converges join contrib blocks inv rank := by
  have habsorb : ∀ m c, inv m → ok c → Lowers inv rank m (absorb join (m, false) c) := by
    intro m c hm hc
    unfold absorb
    split
    · exact ⟨hm, Nat.le_refl _, nofun⟩
    · next hne =>
      obtain ⟨hinv, hlt⟩ := hstep m c hm hc hne
      exact ⟨hinv, hlt.le, fun _ => hlt⟩
  have hvisit := fun m hm b hb => absorb_carries.foldl_lowers habsorb (contrib b m) (hok m hm b hb) m hm
  exact ⟨fun m hm b hb => (hvisit m hm b hb).1, fun m hm b hb => (hvisit m hm b hb).2.2⟩

/-! ## Recomputed entries -/

/-- The only contribution of a block is its own entry, computed anew. -/
def recomputed (label : B → N) (recompute : B → (N → S) → S) (b : B) (m : N → S) : List (N × S) :=
  [(label b, recompute b m)]

/-- The loop of an analysis that replaces the entry of the block it visits. -/
def recomputeLoop (label : B → N) (recompute : B → (N → S) → S) (blocks : List B) (fuel : Nat) (m : N → S) : N → S :=
  loop (fun _ new => new) (recomputed label recompute) blocks fuel m

/-- Recomputation is monotone for an order `r` in which `height` drops along every change. -/
structure Recomputes (label : B → N) (recompute : B → (N → S) → S) (blocks : List B) (r : S → S → Prop)
    (height : S → Nat) : Prop where
  refl : ∀ s, r s s
  trans : ∀ s t u, r s t → r t u → r s u
  labels : ∀ b ∈ blocks, ∀ c ∈ blocks, label b = label c → b = c
  mono : ∀ b ∈ blocks, ∀ m m' : N → S, (∀ n, r (m n) (m' n)) → r (recompute b m) (recompute b m')
  drops : ∀ b ∈ blocks, ∀ m : N → S, r (m (label b)) (recompute b m) → recompute b m ≠ m (label b) →
    height (recompute b m) < height (m (label b))

variable {label : B → N} {recompute : B → (N → S) → S} {r : S → S → Prop} {height : S → Nat}

theorem visit_recomputed (b : B) : visit (fun _ new => new) (recomputed label recompute) (m, false) b =
      if recompute b m = m (label b) then (m, false)
      else (update m (label b) (recompute b m), true) := rfl

/-- Every entry is below what a visit would make of it. -/
def Below (label : B → N) (recompute : B → (N → S) → S) (blocks : List B) (r : S → S → Prop) (m : N → S) : Prop :=
  ∀ b ∈ blocks, r (m (label b)) (recompute b m)

omit [DecidableEq S] in
theorem Recomputes.below_update (hr : Recomputes label recompute blocks r height) {m : N → S}
    (hm : Below label recompute blocks r m) {b : B} (hb : b ∈ blocks) :
    Below label recompute blocks r (update m (label b) (recompute b m)) := by
  have hle : ∀ n, r (m n) (update m (label b) (recompute b m) n) :=
    (forall_update_iff m fun n s => r (m n) s).mpr ⟨hm b hb, fun n _ => hr.refl (m n)⟩
  intro c hc
  have hmono := hr.mono c hc _ _ hle
  by_cases h : label c = label b
  · obtain rfl := hr.labels c hc b hb h
    simpa using hmono
  · simpa [h] using hr.trans _ _ _ (hm c hc) hmono

theorem Recomputes.converges (hr : Recomputes label recompute blocks r height) :
    Converges (fun _ new => new) (recomputed label recompute) blocks (Below label recompute blocks r)
      (fun m => (blocks.map fun b => height (m (label b))).sum) where
  keeps m hm b hb := by
    rw [visit_recomputed]
    split
    · exact hm
    · exact hr.below_update hm hb
  drops m hm b hb hflag := by
    rw [visit_recomputed] at hflag ⊢
    split at hflag
    · cases hflag
    · rename_i hne
      rw [if_neg hne]
      exact sum_update_lt m (mem_map_of_mem hb) (hr.drops b hb m (hm b hb) hne)

/-- A recomputing loop ends in a fixed point. -/
theorem Recomputes.stable (hr : Recomputes label recompute blocks r height) (fuel : Nat) (m : N → S)
    (hm : Below label recompute blocks r m) (hfuel : (blocks.map fun b => height (m (label b))).sum < fuel) :
    ∀ b ∈ blocks, recompute b (recomputeLoop label recompute blocks fuel m) =
      recomputeLoop label recompute blocks fuel m (label b) := by
  intro b hb
  exact (hr.converges.loop_stable fuel m hm hfuel).2 b hb (label b, _) (by simp [recomputed, recomputeLoop])

end Soac.RoundRobin
