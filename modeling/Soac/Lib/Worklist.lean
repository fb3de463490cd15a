import Mathlib.Algebra.Order.BigOperators.Group.List
import Mathlib.Algebra.Order.Group.Nat
import Mathlib.Algebra.GroupWithZero.Nat

/-!
# Worklist iteration

A queue of nodes to visit. A visit takes the first node of the queue, computes what it sends to other nodes from its own
state, and joins that into theirs; a node that changes, or is reached for the first time, is queued unless it is queued
already. `loop_closed` is the rule the analyses use: with enough fuel the queue runs empty, and then every node that was
reached has nothing left to send.
-/

namespace Soac.Worklist

open List Function

/-- The state of every node, which nodes were reached, which are queued, and the queue. -/
structure Table (N S : Type*) where
  states : N → S
  reached : N → Bool
  queued : N → Bool
  pending : List N

variable {N S : Type*} [DecidableEq N] [DecidableEq S] (join : S → S → S)

/-- Whether a message changes its node, or reaches it first. -/
def changes (t : Table N S) (msg : N × S) : Bool :=
  !t.reached msg.1 || decide (join (t.states msg.1) msg.2 ≠ t.states msg.1)

/-- Join what is sent to a node into its state. -/
def push (t : Table N S) (msg : N × S) : Table N S :=
  let t' := { t with
    states := Function.update t.states msg.1 (join (t.states msg.1) msg.2)
    reached := Function.update t.reached msg.1 true }
  if changes join t msg && !t.queued msg.1 then
    { t' with queued := Function.update t.queued msg.1 true, pending := t.pending ++ [msg.1] }
  else t'

/-- Visit the first node of the queue. -/
def step (out : N → S → List (N × S)) (t : Table N S) : Table N S :=
  match t.pending with
  | [] => t
  | n :: rest =>
    (out n (t.states n)).foldl (push join) { t with queued := Function.update t.queued n false, pending := rest }

/-- Visit nodes until the queue is empty, at most `fuel` of them. -/
def loop (join : S → S → S) (out : N → S → List (N × S)) : Nat → Table N S → Table N S
  | 0, t => t
  | fuel + 1, t => if t.pending = [] then t else loop join out fuel (step join out t)

/-- A join goes up in `le`, keeps states `ok`, and lowers `rank` whenever an `ok` message changes a state. -/
structure Joins (join : S → S → S) (le : S → S → Prop) (ok : S → Prop) (rank : S → Nat) : Prop where
  refl : ∀ s, le s s
  trans : ∀ s t u, le s t → le t u → le s u
  left : ∀ s t, le s (join s t)
  right : ∀ s t, le t (join s t)
  keeps : ∀ s t, ok s → ok t → ok (join s t)
  drops : ∀ s t, ok t → join s t ≠ s → rank (join s t) < rank s

variable {join : S → S → S} {out : N → S → List (N × S)} {le : S → S → Prop} {ok : S → Prop}
  {rank : S → Nat}

/-! ## What pushing does -/

/-- A queued node stands in the queue. -/
def Queued (t : Table N S) : Prop :=
  ∀ n, t.queued n = true → n ∈ t.pending

/-- From `t` to `t'` states went up, and every node that changed stands in the queue. -/
structure Advances (le : S → S → Prop) (t t' : Table N S) : Prop where
  states_le : ∀ n, le (t.states n) (t'.states n)
  reached : ∀ n, t.reached n = true → t'.reached n = true
  moved : ∀ n, t'.states n ≠ t.states n ∨ (t'.reached n = true ∧ t.reached n = false) → n ∈ t'.pending
  pending : t.pending ⊆ t'.pending

omit [DecidableEq N] [DecidableEq S] in
theorem Advances.refl (hj : Joins join le ok rank) (t : Table N S) : Advances le t t :=
  ⟨fun _ => hj.refl _, fun _ h => h, fun n h => by simp_all, fun _ h => h⟩

variable {t : Table N S} {nodes : List N}

omit [DecidableEq N] [DecidableEq S] in
theorem Advances.trans (hj : Joins join le ok rank) {u v : Table N S} (h : Advances le t u) (k : Advances le u v) :
    Advances le t v where
  states_le n := hj.trans _ _ _ (h.states_le n) (k.states_le n)
  reached n hn := k.reached n (h.reached n hn)
  moved n hn := by
    by_cases hu : u.states n ≠ t.states n ∨ (u.reached n ∧ t.reached n = false)
    · exact k.pending (h.moved n hu)
    · simp only [not_or, not_not, not_and] at hu
      refine k.moved n ?_
      rcases hn with hn | ⟨hv, ht⟩
      · exact .inl (by rwa [hu.1])
      · refine .inr ⟨hv, ?_⟩
        cases hr : u.reached n with
        | false => rfl
        | true => exact absurd ht (by simpa using hu.2 hr)
  pending := List.Subset.trans h.pending k.pending

theorem push_states (t : Table N S) (msg : N × S) :
    (push join t msg).states = Function.update t.states msg.1 (join (t.states msg.1) msg.2) := by
  simp only [push]
  split <;> rfl

theorem push_reached (t : Table N S) (msg : N × S) :
    (push join t msg).reached = Function.update t.reached msg.1 true := by
  simp only [push]
  split <;> rfl

theorem push_pending_subset (t : Table N S) (msg : N × S) : t.pending ⊆ (push join t msg).pending := by
  simp only [push]
  split
  · exact subset_append_left _ _
  · exact fun _ h => h

theorem push_queued (ht : Queued t) (msg : N × S) : Queued (push join t msg) := by
  intro n hn
  simp only [push] at hn ⊢
  split at hn
  · rename_i hc
    rw [if_pos hc]
    by_cases h : n = msg.1
    · simp [h]
    · simp only [update_of_ne h] at hn
      exact mem_append_left _ (ht n hn)
  · rename_i hc
    rw [if_neg hc]
    exact ht n hn

/-- The node a message changes stands in the queue. -/
theorem mem_push_pending (ht : Queued t) (msg : N × S)
    (h : changes join t msg) : msg.1 ∈ (push join t msg).pending := by
  simp only [push, h, Bool.true_and]
  cases hq : t.queued msg.1 with
  | false => simp
  | true => simpa using ht _ hq

theorem push_advances (hj : Joins join le ok rank) (ht : Queued t) (msg : N × S) : Advances le t (push join t msg) where
  states_le n := by
    rw [push_states]
    exact (forall_update_iff _ fun n s => le (t.states n) s).mpr ⟨hj.left _ _, fun _ _ => hj.refl _⟩ n
  reached n hn := by
    rw [push_reached]
    exact (forall_update_iff _ fun n r => t.reached n = true → r = true).mpr ⟨fun _ => rfl, fun _ _ => id⟩ n hn
  moved n hn := by
    rw [push_states, push_reached] at hn
    by_cases h : n = msg.1
    · subst h
      refine mem_push_pending ht msg ?_
      simpa [changes, or_comm] using hn
    · simp [h] at hn
  pending := push_pending_subset t msg

/-- After a run of messages: the table has advanced, and every message has been joined in. -/
theorem foldl_push_spec (hj : Joins join le ok rank) (msgs : List (N × S)) (ht : Queued t) :
    Queued (msgs.foldl (push join) t) ∧ Advances le t (msgs.foldl (push join) t) ∧
      ∀ msg ∈ msgs, (msgs.foldl (push join) t).reached msg.1 ∧
        le msg.2 ((msgs.foldl (push join) t).states msg.1) := by
  induction msgs generalizing t with
  | nil => exact ⟨ht, Advances.refl hj t, nofun⟩
  | cons m ms ih =>
    have hq : Queued (push join t m) := push_queued ht m
    obtain ⟨h1, h2, h3⟩ := ih hq
    refine ⟨h1, (push_advances hj ht m).trans hj h2, forall_mem_cons.mpr ⟨?_, h3⟩⟩
    refine ⟨h2.reached _ (by simp [push_reached]), hj.trans _ _ _ ?_ (h2.states_le _)⟩
    rw [push_states, update_self]
    exact hj.right _ _

/-! ## The invariant -/

/-- Every state is `ok`, and every reached node stands in the queue or has nothing left to send. -/
structure Inv (out : N → S → List (N × S)) (le : S → S → Prop) (ok : S → Prop) (t : Table N S) : Prop where
  queued : Queued t
  ok : ∀ n, ok (t.states n)
  closed : ∀ n, t.reached n = true → n ∉ t.pending → ∀ msg ∈ out n (t.states n),
    t.reached msg.1 = true ∧ le msg.2 (t.states msg.1)

omit [DecidableEq S] in
/-- Taking the first node off the queue leaves the others queued. -/
theorem queued_pop (ht : Queued t) {n : N} {rest : List N} (hp : t.pending = n :: rest) :
    Queued { t with queued := Function.update t.queued n false, pending := rest } := by
  intro m hm
  by_cases h : m = n
  · simp [h] at hm
  · simp only [update_of_ne h] at hm
    simpa [hp, h] using ht m hm

theorem foldl_push_ok (hj : Joins join le ok rank) (msgs : List (N × S)) (ht : ∀ n, ok (t.states n))
    (hm : ∀ msg ∈ msgs, ok msg.2) (n : N) : ok ((msgs.foldl (push join) t).states n) := by
  refine foldlRecOn (motive := fun t : Table N S => ∀ n, ok (t.states n)) msgs _ ht (fun t ht msg hmsg => ?_) n
  rw [push_states]
  exact (forall_update_iff _ fun _ => ok).mpr ⟨hj.keeps _ _ (ht msg.1) (hm msg hmsg), fun k _ => ht k⟩

/-- The messages of a node with an `ok` state are `ok` and sent to known nodes. -/
def Sends (out : N → S → List (N × S)) (ok : S → Prop) (nodes : List N) : Prop :=
  ∀ n s, ok s → ∀ msg ∈ out n s, msg.1 ∈ nodes ∧ ok msg.2

theorem step_inv (hj : Joins join le ok rank) (hout : Sends out ok nodes)
    (ht : Inv out le ok t) : Inv out le ok (step join out t) := by
  unfold step
  split
  · exact ht
  · rename_i n rest hp
    obtain ⟨h1, h2, h3⟩ := foldl_push_spec hj (out n (t.states n)) (queued_pop ht.queued hp)
    refine ⟨h1, foldl_push_ok hj _ ht.ok fun msg h => (hout n _ (ht.ok n) msg h).2, fun m hr hm msg hmsg => ?_⟩
    -- a node that is not queued now has neither changed nor just been reached
    have hsame := mt (h2.moved m) hm
    simp only [not_or, not_not, not_and, Bool.not_eq_false] at hsame
    rw [hsame.1] at hmsg
    by_cases h : m = n
    · subst h
      exact h3 msg hmsg
    · have hm' : m ∉ t.pending := by
        rw [hp, mem_cons, not_or]
        exact ⟨h, fun hmem => hm (h2.pending hmem)⟩
      obtain ⟨hr', hle⟩ := ht.closed m (hsame.2 hr) hm' msg hmsg
      exact ⟨h2.reached _ hr', hj.trans _ _ _ hle (h2.states_le _)⟩

theorem step_advances (hj : Joins join le ok rank) (ht : Inv out le ok t) (n : N) :
    le (t.states n) ((step join out t).states n) ∧ (t.reached n → (step join out t).reached n) := by
  unfold step
  split
  · exact ⟨hj.refl _, id⟩
  · rename_i m rest hp
    have h2 := (foldl_push_spec hj (out m (t.states m)) (queued_pop ht.queued hp)).2.1
    exact ⟨h2.states_le n, h2.reached n⟩

/-! ## Termination -/

/-- What is left to do: every node may still be reached and changed, and every queued node be visited. -/
def work (rank : S → Nat) (nodes : List N) (t : Table N S) : Nat :=
  2 * (nodes.map fun n => (if t.reached n then 0 else 1) + rank (t.states n)).sum + t.pending.length

section

variable (hj : Joins join le ok rank)
include hj

theorem push_work (t : Table N S) {msg : N × S} (hm : msg.1 ∈ nodes) (hok : ok msg.2) :
    work rank nodes (push join t msg) ≤ work rank nodes t := by
  have hstep : ∀ n, (if (push join t msg).reached n then 0 else 1) + rank ((push join t msg).states n) ≤
      (if t.reached n then 0 else 1) + rank (t.states n) := by
    intro n
    rw [push_states, push_reached]
    by_cases h : n = msg.1
    · subst h
      simp only [update_self, if_true, Nat.zero_add]
      by_cases hc : join (t.states msg.1) msg.2 = t.states msg.1
      · rw [hc]; omega
      · have := hj.drops _ _ hok hc
        omega
    · simp [h]
  unfold work
  by_cases hc : changes join t msg && !t.queued msg.1
  · -- the node is queued, which its own change pays for
    have hlen : (push join t msg).pending.length = t.pending.length + 1 := by
      simp [push, hc]
    have hlt : (nodes.map fun n => (if (push join t msg).reached n then 0 else 1) + rank ((push join t msg).states n)).sum <
        (nodes.map fun n => (if t.reached n then 0 else 1) + rank (t.states n)).sum := by
      apply sum_lt_sum _ _ fun n _ => hstep n
      refine ⟨msg.1, hm, ?_⟩
      rw [push_states, push_reached]
      simp only [update_self, if_true, Nat.zero_add]
      by_cases hs : join (t.states msg.1) msg.2 = t.states msg.1
      · have hr : t.reached msg.1 = false := by simpa [changes, hs] using (Bool.and_eq_true_iff.mp hc).1
        rw [hs, hr]
        simp
      · have := hj.drops _ _ hok hs
        omega
    omega
  · have hlen : (push join t msg).pending = t.pending := by
      simp [push, hc]
    have hle := sum_le_sum fun n (_ : n ∈ nodes) => hstep n
    rw [hlen]
    omega

theorem foldl_push_work (msgs : List (N × S)) (t : Table N S)
    (hm : ∀ msg ∈ msgs, msg.1 ∈ nodes ∧ ok msg.2) : work rank nodes (msgs.foldl (push join) t) ≤ work rank nodes t :=
  foldlRecOn (motive := (work rank nodes · ≤ work rank nodes t)) msgs _ (Nat.le_refl _)
    fun u hu msg h => (push_work hj u (hm msg h).1 (hm msg h).2).trans hu

theorem step_work (hout : Sends out ok nodes)
    (ht : ∀ n, ok (t.states n)) (hp : t.pending ≠ []) : work rank nodes (step join out t) < work rank nodes t := by
  unfold step
  split
  · rename_i h
    exact absurd h hp
  · rename_i n rest h
    refine Nat.lt_of_le_of_lt (foldl_push_work hj _ _ (hout n _ (ht n))) ?_
    simp [work, h]

/-! ## The result -/

/-- With enough fuel the queue runs empty: every node that was reached has sent what it has to send, and states only went
up on the way. -/
theorem loop_closed (hout : Sends out ok nodes) (fuel : Nat) (ht : Inv out le ok t) (hfuel : work rank nodes t < fuel) :
    (∀ n, t.reached n → (loop join out fuel t).reached n) ∧
      (∀ n, le (t.states n) ((loop join out fuel t).states n)) ∧
      ∀ n, (loop join out fuel t).reached n → ∀ msg ∈ out n ((loop join out fuel t).states n),
        (loop join out fuel t).reached msg.1 ∧ le msg.2 ((loop join out fuel t).states msg.1) := by
  induction fuel generalizing t with
  | zero => exact absurd hfuel (Nat.not_lt_zero _)
  | succ fuel ih =>
    unfold loop
    split
    · rename_i hp
      refine ⟨fun _ h => h, fun n => hj.refl _, fun n hr => ht.closed n hr ?_⟩
      rw [hp]
      exact not_mem_nil
    · rename_i hp
      have hlt := step_work hj hout ht.ok hp
      obtain ⟨h1, h2, h3⟩ := ih (step_inv hj hout ht) (by omega)
      refine ⟨fun n hn => h1 n ((step_advances hj ht n).2 hn), fun n => ?_, h3⟩
      exact hj.trans _ _ _ (step_advances hj ht n).1 (h2 n)

end

end Soac.Worklist
