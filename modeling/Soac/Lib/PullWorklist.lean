import Mathlib.Logic.Function.Basic
import Mathlib.Tactic.SplitIfs

/-!
# Worklist iteration by recomputation

A queue of nodes to visit. A visit takes the first node of the queue and recomputes its entry from what other nodes
sent out; when that changes what the node itself sends out, the nodes that read it are queued. Nothing here asks for an
order on the states, so the queue need not run empty: `loop` gives up when its fuel is spent. `loop_settled` is the rule
for a loop that does end: every node is then what the others make it.
-/

namespace Soac.PullWorklist

open Function Option

/-- How a node is recomputed: its entry from what the others sent out, what it sends out from its entry, and the nodes
that read what it sends out. -/
structure Flow (N S T : Type*) where
  gather : (N → Option T) → N → S
  transfer : N → S → T
  readers : N → List N

/-- The entry of every node, what each sent out, which nodes are queued, and the queue. -/
structure Table (N S T : Type*) where
  entry : N → S
  out : N → Option T
  queued : N → Bool
  pending : List N

variable {N S T : Type*} [DecidableEq N]

/-- Queue a node unless it is queued already. -/
def enqueue (t : Table N S T) (n : N) : Table N S T :=
  if t.queued n then t else { t with queued := Function.update t.queued n true, pending := t.pending ++ [n] }

/-- Take the first node off the queue. -/
def pop (t : Table N S T) (n : N) (rest : List N) : Table N S T :=
  { t with queued := Function.update t.queued n false, pending := rest }

variable [DecidableEq S] [DecidableEq T]

/-- Recompute a node. -/
def visit (F : Flow N S T) (t : Table N S T) (n : N) : Table N S T :=
  let newEntry := F.gather t.out n
  if t.entry n = newEntry ∧ (t.out n).isSome then t
  else
    let newOut := F.transfer n newEntry
    let t' := { t with entry := Function.update t.entry n newEntry }
    if t.out n = some newOut then t'
    else (F.readers n).foldl enqueue { t' with out := Function.update t.out n (some newOut) }

/-- Visit nodes until the queue is empty; `none` if `fuel` visits do not get there. -/
def loop (F : Flow N S T) : Nat → Table N S T → Option (Table N S T)
  | 0, t => if t.pending = [] then some t else none
  | fuel + 1, t =>
    match t.pending with
    | [] => some t
    | n :: rest => loop F fuel (visit F (pop t n rest) n)

/-- The entry of a node depends only on what the nodes that list it as a reader sent out. -/
def Flow.Reads (F : Flow N S T) : Prop :=
  ∀ (n : N) (out out' : N → Option T), (∀ m, n ∈ F.readers m → out m = out' m) → F.gather out n = F.gather out' n

/-- A queued node stands in the queue, what a node sent out comes from its entry, and a node that is not in the queue has
sent out and has the entry the others make it. -/
structure Inv (F : Flow N S T) (nodes : List N) (t : Table N S T) : Prop where
  queued : ∀ n, t.queued n = true → n ∈ t.pending
  sent : ∀ n o, t.out n = some o → o = F.transfer n (t.entry n)
  settled : ∀ n ∈ nodes, n ∉ t.pending → (t.out n).isSome ∧ t.entry n = F.gather t.out n

/-! ## Queueing -/

omit [DecidableEq S] [DecidableEq T] in
/-- Queueing nodes puts them in the queue and changes nothing else. -/
theorem foldl_enqueue_spec (ns : List N) (t : Table N S T) (hq : ∀ n, t.queued n → n ∈ t.pending) :
    let t' := ns.foldl enqueue t
    t'.entry = t.entry ∧ t'.out = t.out ∧ t.pending ⊆ t'.pending ∧ ns ⊆ t'.pending ∧
      ∀ n, t'.queued n → n ∈ t'.pending := by
  induction ns generalizing t with
  | nil => exact ⟨rfl, rfl, fun _ h => h, nofun, hq⟩
  | cons n ns ih =>
    have hstep : (enqueue t n).entry = t.entry ∧ (enqueue t n).out = t.out ∧ t.pending ⊆ (enqueue t n).pending ∧
        n ∈ (enqueue t n).pending ∧ ∀ m, (enqueue t n).queued m → m ∈ (enqueue t n).pending := by
      unfold enqueue
      split
      · rename_i hn
        exact ⟨rfl, rfl, fun _ h => h, hq n hn, hq⟩
      · refine ⟨rfl, rfl, List.subset_append_left _ _, by simp, fun m hm => ?_⟩
        by_cases hmn : m = n
        · simp [hmn]
        · simp only [update_of_ne hmn] at hm
          simp [hq m hm]
    obtain ⟨he, ho, hp, hn, hq'⟩ := hstep
    obtain ⟨he', ho', hp', hns, hq''⟩ := ih (enqueue t n) hq'
    exact ⟨he'.trans he, ho'.trans ho, List.Subset.trans hp hp', List.cons_subset.mpr ⟨hp' hn, hns⟩, hq''⟩

/-! ## Visits -/

section

variable {F : Flow N S T} {nodes : List N} {t : Table N S T} {n : N} {rest : List N}

omit [DecidableEq S] [DecidableEq T] in
/-- Taking a node off the queue unsettles at most that node. -/
theorem pop_inv (hi : Inv F nodes t) (hp : t.pending = n :: rest) :
    (∀ m, (pop t n rest).queued m → m ∈ rest) ∧
      ∀ m ∈ nodes, m ∉ rest → m ≠ n → (t.out m).isSome ∧ t.entry m = F.gather t.out m := by
  constructor
  · intro m hm
    by_cases hmn : m = n
    · subst hmn
      simp [pop] at hm
    · simp only [pop, update_of_ne hmn] at hm
      have := hi.queued m hm
      rw [hp] at this
      exact (List.mem_cons.mp this).resolve_left hmn
  · intro m hm hr hmn
    refine hi.settled m hm ?_
    rw [hp]
    simp [hmn, hr]

/-- A visit of the first node of the queue keeps the invariant. -/
theorem visit_inv (hF : F.Reads) (hi : Inv F nodes t) (hp : t.pending = n :: rest) :
    Inv F nodes (visit F (pop t n rest) n) := by
  obtain ⟨hq, hset⟩ := pop_inv hi hp
  unfold visit
  simp only [show (pop t n rest).out = t.out from rfl, show (pop t n rest).entry = t.entry from rfl]
  split_ifs with hsame hout
  · -- the entry is what it was, and the node has sent out
    refine ⟨hq, hi.sent, fun m hm hr => ?_⟩
    by_cases hmn : m = n
    · subst hmn
      exact ⟨hsame.2, hsame.1⟩
    · exact hset m hm hr hmn
  · -- a new entry with the same result: nobody else notices
    refine ⟨hq, fun m o ho => ?_, fun m hm hr => ?_⟩
    · by_cases hmn : m = n
      · subst hmn
        simp only [update_self]
        exact (some.inj (hout.symm.trans ho)).symm
      · simp only [update_of_ne hmn]
        exact hi.sent m o ho
    · by_cases hmn : m = n
      · subst hmn
        simp [hout]
      · simp only [update_of_ne hmn]
        exact hset m hm hr hmn
  · -- a new result: everyone who reads it is queued
    obtain ⟨he, ho, hpend, hread, hq'⟩ := foldl_enqueue_spec (F.readers n)
      { pop t n rest with
        entry := Function.update t.entry n (F.gather t.out n)
        out := Function.update t.out n (some (F.transfer n (F.gather t.out n))) } hq
    refine ⟨hq', fun m o hmo => ?_, fun m hm hr => ?_⟩
    · rw [he]
      rw [ho] at hmo
      by_cases hmn : m = n
      · subst hmn
        simp only [update_self, some.injEq] at hmo ⊢
        exact hmo.symm
      · simp only [update_of_ne hmn] at hmo ⊢
        exact hi.sent m o hmo
    · have hgather : F.gather (Function.update t.out n (some (F.transfer n (F.gather t.out n)))) m =
          F.gather t.out m := by
        refine hF m _ _ fun k hk => update_of_ne ?_ _ _
        rintro rfl
        exact hr (hread hk)
      rw [he, ho, hgather]
      by_cases hmn : m = n
      · subst hmn
        simp
      · simp only [update_of_ne hmn]
        exact hset m hm (fun h => hr (hpend h)) hmn

/-- When the loop ends, every node has sent out what its entry makes, and has the entry the others make it. -/
theorem loop_settled (hF : F.Reads) {fuel : Nat} {t' : Table N S T} (hi : Inv F nodes t) (h : loop F fuel t = some t') :
    ∀ n ∈ nodes, t'.out n = some (F.transfer n (t'.entry n)) ∧ t'.entry n = F.gather t'.out n := by
  have hdone : ∀ u : Table N S T, Inv F nodes u → u.pending = [] →
      ∀ n ∈ nodes, u.out n = some (F.transfer n (u.entry n)) ∧ u.entry n = F.gather u.out n := by
    intro u hu hp n hn
    obtain ⟨hs, he⟩ := hu.settled n hn (by simp [hp])
    obtain ⟨o, ho⟩ := isSome_iff_exists.mp hs
    exact ⟨by rw [ho, hu.sent n o ho], he⟩
  induction fuel generalizing t with
  | zero =>
    simp only [loop, ite_none_right_eq_some, some.injEq] at h
    obtain ⟨hp, rfl⟩ := h
    exact hdone t hi hp
  | succ fuel ih =>
    rw [loop] at h
    split at h
    · rename_i hp
      obtain rfl := some.inj h
      exact hdone t hi hp
    · rename_i m rest hp
      exact ih (visit_inv hF hi hp) h

end

end Soac.PullWorklist
