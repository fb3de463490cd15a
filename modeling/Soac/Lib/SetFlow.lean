import Mathlib.Data.Finset.Card
import Soac.Lib.RoundRobin

/-!
# Dataflow over finite sets

Two loops over maps from nodes to finite sets. The first recomputes the entry of a block from the entries of other nodes,
where an element enters because the block generates it or because it flows in from a node: it ends with exactly the elements
that reach the block. The second joins what a block sends into the entries of other nodes: it ends closed under sending.
-/

namespace Soac.RoundRobin

open List Function

variable {B N α : Type*} [DecidableEq N] [DecidableEq α]

/-- What every visit keeps, the loop keeps. -/
theorem loop_keeps {S : Type*} [DecidableEq S] {join : S → S → S} {contrib : B → (N → S) → List (N × S)} {blocks : List B}
    {P : (N → S) → Prop} (hvisit : ∀ m, P m → ∀ b ∈ blocks, P (visit join contrib (m, false) b).1) :
    ∀ (fuel : Nat) {m : N → S}, P m → P (loop join contrib blocks fuel m) := by
  have hround : ∀ m, P m → P (round join contrib blocks m).1 := by
    intro m hm
    refine foldlRecOn (motive := fun r : (N → S) × Bool => P r.1) blocks _ hm fun r hr b hb => ?_
    rw [visit_carries]
    exact hvisit r.1 hr b hb
  intro fuel
  induction fuel with
  | zero => exact fun hm => hm
  | succ fuel ih =>
    intro m hm
    have h := hround m hm
    unfold loop
    cases hr : round join contrib blocks m with
    | mk m' flag =>
      rw [hr] at h
      cases flag with
      | true => exact ih h
      | false => exact h

omit [DecidableEq N] in
theorem mem_foldl_union (ns : List N) (g : N → Finset α) (s : Finset α) (x : α) :
    x ∈ ns.foldl (fun out n => out ∪ g n) s ↔ x ∈ s ∨ ∃ n ∈ ns, x ∈ g n := by
  induction ns generalizing s with
  | nil => simp
  | cons n ns ih => simp [ih, or_assoc]

/-! ## Elements that flow backwards -/

/-- How an element gets into the recomputed entry of a block: the block generates it, or it is in the entry of a node it
flows in from. -/
structure Flows (label : B → N) (recompute : B → (N → Finset α) → Finset α) (blocks : List B) (gen : B → α → Prop)
    (flow : B → α → N → Prop) (U : Finset α) : Prop where
  labels : ∀ b ∈ blocks, ∀ c ∈ blocks, label b = label c → b = c
  mem : ∀ b ∈ blocks, ∀ m x, x ∈ recompute b m ↔ gen b x ∨ ∃ n, flow b x n ∧ x ∈ m n
  bounded : ∀ b ∈ blocks, ∀ x, gen b x → x ∈ U

/-- An element reaches a node: a block with that label generates it, or it flows in from a node it reaches. -/
inductive Arrives (label : B → N) (blocks : List B) (gen : B → α → Prop) (flow : B → α → N → Prop) (x : α) : N → Prop
  | gen {b : B} : b ∈ blocks → gen b x → Arrives label blocks gen flow x (label b)
  | flow {b : B} {n : N} : b ∈ blocks → flow b x n → Arrives label blocks gen flow x n →
      Arrives label blocks gen flow x (label b)

variable {label : B → N} {recompute : B → (N → Finset α) → Finset α} {blocks : List B} {gen : B → α → Prop}
  {flow : B → α → N → Prop} {U : Finset α}

/-- `t` is `s` with elements of the universe added. -/
def GrowsIn (U s t : Finset α) : Prop :=
  s ⊆ t ∧ ∀ x ∈ t, x ∈ s ∨ x ∈ U

theorem missing_lt {s t : Finset α} (h : GrowsIn U s t) (hne : t ≠ s) :
    (U \ t).card < (U \ s).card := by
  apply Finset.card_lt_card
  rw [Finset.ssubset_iff_of_subset (Finset.sdiff_subset_sdiff subset_rfl h.1)]
  obtain ⟨x, hxt, hxs⟩ := Finset.not_subset.mp fun hts => hne (Finset.Subset.antisymm hts h.1)
  have hx : x ∈ U := (h.2 x hxt).resolve_left hxs
  exact ⟨x, by simp [hx, hxs], by simp [hxt]⟩

omit [DecidableEq N] in
theorem sum_missing_le (nodes : List N) (m : N → Finset α) :
    (nodes.map fun n => (U \ m n).card).sum ≤ nodes.length * U.card :=
  sum_map_le fun _ => Finset.card_le_card Finset.sdiff_subset

omit [DecidableEq N] in
theorem Flows.recomputes (h : Flows label recompute blocks gen flow U) :
    Recomputes label recompute blocks (GrowsIn U) (fun s => (U \ s).card) where
  refl s := ⟨subset_rfl, fun _ => Or.inl⟩
  trans s t u hst htu := ⟨hst.1.trans htu.1, fun x hx => (htu.2 x hx).elim (fun h => hst.2 x h) Or.inr⟩
  labels := h.labels
  mono b hb m m' hm := by
    constructor
    · intro x hx
      rw [h.mem b hb] at hx ⊢
      exact hx.imp id fun ⟨n, hn, hxn⟩ => ⟨n, hn, (hm n).1 hxn⟩
    · intro x hx
      rw [h.mem b hb] at hx ⊢
      rcases hx with hx | ⟨n, hn, hxn⟩
      · exact .inl (.inl hx)
      · exact ((hm n).2 x hxn).imp (fun hxm => .inr ⟨n, hn, hxm⟩) id
  drops b _ m hgrows hne := missing_lt hgrows hne

/-- The loop ends in a fixed point. -/
theorem Flows.stable (h : Flows label recompute blocks gen flow U) {fuel : Nat} (hfuel : blocks.length * U.card < fuel)
    {b : B} (hb : b ∈ blocks) : recompute b (recomputeLoop label recompute blocks fuel (fun _ => ∅)) =
      recomputeLoop label recompute blocks fuel (fun _ => ∅) (label b) := by
  have hbelow : Below label recompute blocks (GrowsIn U) (fun _ => ∅) := by
    intro b hb
    refine ⟨Finset.empty_subset _, fun x hx => .inr ?_⟩
    rw [h.mem b hb] at hx
    rcases hx with hx | ⟨n, _, hxn⟩
    · exact h.bounded b hb x hx
    · exact absurd hxn (Finset.notMem_empty x)
  have hsum := sum_missing_le (U := U) (blocks.map label) (fun _ => ∅)
  rw [map_map, length_map] at hsum
  exact h.recomputes.stable fuel _ hbelow (Nat.lt_of_le_of_lt hsum hfuel) b hb

/-- The loop ends with exactly the elements that arrive. -/
theorem Flows.mem_loop_iff (h : Flows label recompute blocks gen flow U) {fuel : Nat}
    (hfuel : blocks.length * U.card < fuel) (n : N) (x : α) :
    x ∈ recomputeLoop label recompute blocks fuel (fun _ => ∅) n ↔ Arrives label blocks gen flow x n := by
  constructor
  · -- nothing enters an entry that does not arrive there
    have hkeeps : ∀ n x, x ∈ recomputeLoop label recompute blocks fuel (fun _ => ∅) n →
        Arrives label blocks gen flow x n := by
      refine loop_keeps (P := fun m => ∀ n x, x ∈ m n → Arrives label blocks gen flow x n) ?_ fuel
        (fun n x hx => absurd hx (Finset.notMem_empty x))
      intro m hm b hb
      rw [visit_recomputed]
      split
      · exact hm
      · refine (forall_update_iff m fun n s => ∀ x ∈ s, Arrives label blocks gen flow x n).mpr ⟨fun x hx => ?_, fun n _ => hm n⟩
        rw [h.mem b hb] at hx
        rcases hx with hx | ⟨n, hn, hxn⟩
        · exact .gen hb hx
        · exact .flow hb hn (hm n x hxn)
    exact hkeeps n x
  · intro harrives
    induction harrives with
    | gen hb hx =>
      rw [← h.stable hfuel hb, h.mem _ hb]
      exact .inl hx
    | flow hb hn _ ih =>
      rw [← h.stable hfuel hb, h.mem _ hb]
      exact .inr ⟨_, hn, ih⟩

/-! ## Elements sent forwards -/

variable {contrib : B → (N → Finset α) → List (N × Finset α)} {nodes : List N}

/-- Every block sends elements of the universe to nodes. -/
def Sends (contrib : B → (N → Finset α) → List (N × Finset α)) (blocks : List B) (nodes : List N)
    (U : Finset α) : Prop :=
  ∀ m, (∀ n, m n ⊆ U) → ∀ b ∈ blocks, ∀ c ∈ contrib b m, c.1 ∈ nodes ∧ c.2 ⊆ U

theorem Sends.converges (h : Sends contrib blocks nodes U) (init : N → Finset α) :
    Converges (· ∪ ·) contrib blocks (fun m => (∀ n, init n ⊆ m n) ∧ ∀ n, m n ⊆ U)
      (fun m => (nodes.map fun n => (U \ m n).card).sum) := by
  refine .of_absorb (fun m hm b hb c hc => h m hm.2 b hb c hc) ?_
  rintro m ⟨n, s⟩ ⟨hinit, hm⟩ ⟨hn, hs⟩ hne
  have hgrows : m n ⊆ m n ∪ s := Finset.subset_union_left
  have hsub : m n ∪ s ⊆ U := Finset.union_subset (hm n) hs
  have hlt : (U \ (m n ∪ s)).card < (U \ m n).card :=
    missing_lt ⟨hgrows, fun x hx => .inr (hsub hx)⟩ hne
  refine ⟨⟨?_, ?_⟩, ?_⟩
  · exact (forall_update_iff m fun k t => init k ⊆ t).mpr ⟨(hinit n).trans hgrows, fun k _ => hinit k⟩
  · exact (forall_update_iff m fun _ t => t ⊆ U).mpr ⟨hsub, fun k _ => hm k⟩
  · exact @sum_update_lt _ _ _ _ _ m id (fun s => (U \ s).card) _ _ (by simpa using hn) hlt

/-- The loop ends closed: above what it started with, and everything a block sends has arrived. -/
theorem Sends.loop_closed (h : Sends contrib blocks nodes U) {init : N → Finset α} (hinit : ∀ n, init n ⊆ U)
    {fuel : Nat} (hfuel : nodes.length * U.card < fuel) :
    (∀ n, init n ⊆ loop (· ∪ ·) contrib blocks fuel init n) ∧
      ∀ b ∈ blocks, ∀ c ∈ contrib b (loop (· ∪ ·) contrib blocks fuel init),
        c.2 ⊆ loop (· ∪ ·) contrib blocks fuel init c.1 := by
  obtain ⟨hkept, hstable⟩ := (h.converges init).loop_stable fuel init ⟨fun _ => subset_rfl, hinit⟩
    (Nat.lt_of_le_of_lt (sum_missing_le nodes init) hfuel)
  refine ⟨hkept.1, ?_⟩
  intro b hb c hc
  exact Finset.union_eq_left.1 (hstable b hb c hc)

end Soac.RoundRobin
