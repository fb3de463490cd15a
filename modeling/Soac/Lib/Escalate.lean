import Mathlib.Data.List.Find
import Soac.Lib.Rose

/-!
# Requests that are taken by the nearest free ancestor

The nodes of a tree are visited in preorder. A node that requests marks the nearest of its ancestors that can take a request
and has not taken one. A node takes at most one request of those that arrive from below it; the others go on outward
(`escapes`). So a node is marked in the end just when some request arrives at it (`run_label`).
-/

namespace Soac

open List Function

namespace Escalate

open Rose

section

variable {ι : Type}

/-- Two markings that differ only inside `inner`. -/
def SameOff (inner : List ι) (μ ν : ι → Bool) : Prop :=
  ∀ j, j ∉ inner → μ j = ν j

variable {inner : List ι} {μ ν : ι → Bool}

theorem SameOff.refl : SameOff inner μ μ := fun _ _ => rfl

theorem SameOff.trans {ξ : ι → Bool} (h : SameOff inner μ ν) (h' : SameOff inner ν ξ) : SameOff inner μ ξ :=
  fun j hj => (h j hj).trans (h' j hj)

theorem SameOff.mono {more : List ι} (h : SameOff inner μ ν) (hsub : ∀ j, j ∈ inner → j ∈ more) : SameOff more μ ν :=
  fun j hj => h j fun hin => hj (hsub j hin)

end

variable {ι : Type} [DecidableEq ι] (requests absorbs : ι → Bool)

/-- A request from below the nodes of `chain`, the nearest first. -/
def raise (chain : List ι) (marked : ι → Bool) : ι → Bool :=
  match chain.find? (fun j => absorbs j && !marked j) with
  | some j => Function.update marked j true
  | none => marked

/-- The visit of a node. A node that is marked requests as well. -/
def visit (marked : ι → Bool) (p : Rose ι × List ι) : ι → Bool :=
  if requests p.1.label || marked p.1.label then raise absorbs p.2 marked else marked

/-- The visits of a list of nodes. -/
def run (nodes : List (Rose ι × List ι)) (marked : ι → Bool) : ι → Bool :=
  nodes.foldl (visit requests absorbs) marked

mutual

/-- The requests that leave a tree. -/
def escapes : Rose ι → Nat
  | node i ts => (if requests i then 1 else 0) + (arrivals ts - if absorbs i then 1 else 0)

/-- The requests that leave the trees below a node. -/
def arrivals : List (Rose ι) → Nat
  | [] => 0
  | t :: ts => escapes t + arrivals ts

end

variable {requests absorbs} {chain inner : List ι} {μ ν : ι → Bool}

/-- A request does not look below the chain it goes along. -/
theorem SameOff.raise (h : SameOff inner μ ν) (hchain : ∀ j ∈ chain, j ∉ inner) :
    SameOff inner (raise absorbs chain μ) (raise absorbs chain ν) := by
  have hfind : chain.find? (fun j => absorbs j && !μ j) = chain.find? (fun j => absorbs j && !ν j) :=
    List.find?_congr fun j hj => by rw [h j (hchain j hj)]
  intro j hj
  unfold Escalate.raise
  rw [hfind]
  cases chain.find? fun j => absorbs j && !ν j with
  | none => exact h j hj
  | some i =>
    by_cases hji : j = i
    · subst hji
      simp
    · simp only [update_of_ne hji]
      exact h j hj

theorem SameOff.iterate_raise (h : SameOff inner μ ν) (hchain : ∀ j ∈ chain, j ∉ inner) (n : Nat) :
    SameOff inner ((Escalate.raise absorbs chain)^[n] μ) ((Escalate.raise absorbs chain)^[n] ν) := by
  induction n generalizing μ ν with
  | zero => exact h
  | succ n ih => exact ih (h.raise hchain)

theorem raise_of_notMem {j : ι} (hj : j ∉ chain) : raise absorbs chain μ j = μ j := by
  unfold raise
  cases hfind : chain.find? fun j => absorbs j && !μ j with
  | none => rfl
  | some i =>
    have hne : j ≠ i := fun heq => hj (heq ▸ mem_of_find?_eq_some hfind)
    exact update_of_ne hne _ _

theorem iterate_raise_of_notMem {j : ι} (hj : j ∉ chain) (n : Nat) : (raise absorbs chain)^[n] μ j = μ j := by
  induction n generalizing μ with
  | zero => rfl
  | succ n ih => exact ih.trans (raise_of_notMem hj)

/-- A node that takes no more requests is passed by. -/
theorem raise_cons_of_passed {i : ι} (h : (absorbs i && !μ i) = false) :
    raise absorbs (i :: chain) μ = raise absorbs chain μ := by
  unfold raise
  rw [List.find?_cons, h]

theorem raise_cons_of_free {i : ι} (h : (absorbs i && !μ i)) :
    raise absorbs (i :: chain) μ = Function.update μ i true := by
  unfold raise
  rw [List.find?_cons, h]

theorem iterate_raise_cons_of_passed {i : ι} (hi : i ∉ chain) (h : (absorbs i && !μ i) = false) (n : Nat) :
    (raise absorbs (i :: chain))^[n] μ = (raise absorbs chain)^[n] μ := by
  induction n generalizing μ with
  | zero => rfl
  | succ n ih =>
    rw [iterate_succ_apply, raise_cons_of_passed h]
    exact ih (by rw [raise_of_notMem hi]; exact h)

/-- A number of requests that arrive at a node: it takes the first if it can, and the others go on. -/
theorem iterate_raise_cons {i : ι} (hi : i ∉ chain) (hμ : μ i = false) (n : Nat) :
    SameOff [i] ((raise absorbs (i :: chain))^[n] μ)
        ((raise absorbs chain)^[n - if absorbs i then 1 else 0] μ) ∧
      (raise absorbs (i :: chain))^[n] μ i = (absorbs i && decide (0 < n)) := by
  by_cases ha : absorbs i
  · have hfree : (absorbs i && !μ i) := by rw [ha, hμ]; rfl
    cases n with
    | zero => exact ⟨by rw [Nat.zero_sub]; exact SameOff.refl, by simp [hμ]⟩
    | succ n =>
      have hpassed : (absorbs i && !Function.update μ i true i) = false := by simp
      rw [iterate_succ_apply, raise_cons_of_free hfree, iterate_raise_cons_of_passed hi hpassed]
      have hupdate : SameOff [i] (Function.update μ i true) μ :=
        fun j hj => update_of_ne (fun heq => hj (mem_singleton.mpr heq)) _ _
      refine ⟨?_, ?_⟩
      · rw [if_pos ha]
        exact hupdate.iterate_raise (fun j hj heq => hi (mem_singleton.mp heq ▸ hj)) n
      · rw [iterate_raise_of_notMem hi, ha]
        simp
  · have ha' : absorbs i = false := by simpa using ha
    have hpassed : (absorbs i && !μ i) = false := by rw [ha']; rfl
    rw [iterate_raise_cons_of_passed hi hpassed, if_neg ha]
    exact ⟨SameOff.refl, by rw [iterate_raise_of_notMem hi, hμ, ha']; rfl⟩

mutual

/-- What the visits of a tree do: outside it, the requests that leave it are raised; a node in it is marked when it can take a
request and one arrives. -/
theorem run_walk (t : Rose ι) {chain : List ι} {μ : ι → Bool} (hnodup : t.labels.Nodup)
    (hchain : ∀ j ∈ chain, j ∉ t.labels) (hμ : ∀ j ∈ t.labels, μ j = false) :
    SameOff t.labels (run requests absorbs (t.walk chain) μ) ((raise absorbs chain)^[escapes requests absorbs t] μ) ∧
      ∀ p ∈ t.walk chain, run requests absorbs (t.walk chain) μ p.1.label =
        (absorbs p.1.label && decide (0 < arrivals requests absorbs p.1.children)) := by
  cases t with
  | node i ts =>
    rw [labels, nodup_cons] at hnodup
    have hi : i ∉ chain := fun hmem => hchain i hmem mem_cons_self
    have hchainList : ∀ j ∈ i :: chain, j ∉ labelsList ts := by
      rintro j (_ | ⟨_, hj⟩) hin
      · exact hnodup.1 hin
      · exact hchain j hj (mem_cons_of_mem _ hin)
    let ν := visit requests absorbs μ (node i ts, chain)
    have hν : ν = (raise absorbs chain)^[if requests i then 1 else 0] μ := by
      change (if requests i || μ i then raise absorbs chain μ else μ) = _
      rw [hμ i mem_cons_self, Bool.or_false]
      cases requests i <;> rfl
    have hνi : ν i = false := by rw [hν, iterate_raise_of_notMem hi]; exact hμ i mem_cons_self
    have hνList : ∀ j ∈ labelsList ts, ν j = false := by
      intro j hj
      rw [hν, iterate_raise_of_notMem fun hmem => hchain j hmem (mem_cons_of_mem _ hj)]
      exact hμ j (mem_cons_of_mem _ hj)
    obtain ⟨hoff, hmarks⟩ := run_walkList ts hnodup.2 hchainList hνList
    obtain ⟨houter, hself⟩ : SameOff [i] ((raise absorbs (i :: chain))^[arrivals requests absorbs ts] ν) _ ∧ _ :=
      iterate_raise_cons hi hνi (arrivals requests absorbs ts)
    have hrun : run requests absorbs ((node i ts).walk chain) μ = run requests absorbs (walkList (i :: chain) ts) ν := rfl
    rw [hrun]
    refine ⟨?_, ?_⟩
    · refine (hoff.mono fun j hj => mem_cons_of_mem _ hj).trans ?_
      refine (houter.mono fun j hj => mem_singleton.mp hj ▸ mem_cons_self).trans ?_
      rw [hν, ← iterate_add_apply, Nat.add_comm, ← escapes]
      exact SameOff.refl
    · rintro p (_ | ⟨_, hp⟩)
      · exact (hoff i hnodup.1).trans hself
      · exact hmarks p hp

theorem run_walkList (ts : List (Rose ι)) {chain : List ι} {μ : ι → Bool} (hnodup : (labelsList ts).Nodup)
    (hchain : ∀ j ∈ chain, j ∉ labelsList ts) (hμ : ∀ j ∈ labelsList ts, μ j = false) :
    SameOff (labelsList ts) (run requests absorbs (walkList chain ts) μ)
        ((raise absorbs chain)^[arrivals requests absorbs ts] μ) ∧
      ∀ p ∈ walkList chain ts, run requests absorbs (walkList chain ts) μ p.1.label =
        (absorbs p.1.label && decide (0 < arrivals requests absorbs p.1.children)) := by
  cases ts with
  | nil => exact ⟨SameOff.refl, nofun⟩
  | cons t ts =>
    rw [labelsList, nodup_append] at hnodup
    obtain ⟨ht, hts, hdisjoint⟩ := hnodup
    obtain ⟨hoff, hmarks⟩ := run_walk t ht (fun j hj hin => hchain j hj (mem_append_left _ hin))
      fun j hj => hμ j (mem_append_left _ hj)
    have hνList : ∀ j ∈ labelsList ts, run requests absorbs (t.walk chain) μ j = false := by
      intro j hj
      rw [hoff j fun hin => hdisjoint j hin j hj rfl,
        iterate_raise_of_notMem fun hmem => hchain j hmem (mem_append_right _ hj)]
      exact hμ j (mem_append_right _ hj)
    obtain ⟨hoff', hmarks'⟩ := run_walkList ts hts (fun j hj hin => hchain j hj (mem_append_right _ hin)) hνList
    rw [walkList, run, foldl_append, ← run, ← run]
    refine ⟨?_, fun p hp => ?_⟩
    · refine (hoff'.mono fun j hj => mem_append_right _ hj).trans ?_
      refine ((hoff.iterate_raise (fun j hj hin => hchain j hj (mem_append_left _ hin)) _).mono
        fun j hj => mem_append_left _ hj).trans ?_
      rw [← iterate_add_apply, Nat.add_comm, ← arrivals]
      exact SameOff.refl
    · rcases mem_append.mp hp with hp | hp
      · -- the visits that follow do not reach back into the tree
        have hlabel : p.1.label ∈ t.labels := labels_walk _ t ▸ mem_map_of_mem hp
        rw [hoff' _ fun hin => hdisjoint _ hlabel _ hin rfl,
          iterate_raise_of_notMem fun hmem => hchain _ hmem (mem_append_left _ hlabel)]
        exact hmarks p hp
      · exact hmarks' p hp

end

end Escalate

end Soac
