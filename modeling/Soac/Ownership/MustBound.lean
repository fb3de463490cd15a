import Mathlib.Data.Finset.Option
import Soac.Ownership.Liveness

/-!
# Locals that must be bound

`compute_local_must_bound`: a forward round-robin analysis that starts from everything bound and takes slots away. What is
bound at the entry of a block is bound at the end of all its predecessors, the exception edge being an edge like the
others; the entry block keeps the parameters of the function whatever its predecessors say.
-/

namespace Soac

open List Finset

variable {X K : Type}

/-! ## Transfer through a block -/

variable (f : BlockPyFunction (Instr X K))

/-- What the root of a statement does to the bound slots, after its operands have been taken. -/
def Head.mustBoundRoot (fresh : Bool) (bound : LocalBitSet) : Head K → LocalBitSet
  | .store n => bound ∪ fromLocations f.localCount (storeBindingLocation f.ownedCell n fresh).toFinset
  | .del n _ => bound \ n.localLocation.toFinset
  | .callArgumentOp kind _ buffer => if kind.replacesBuffer then bound \ buffer.localLocation.toFinset else bound
  | _ => bound

def transferMustBoundInstr (bound : LocalBitSet) (i : Instr X K) : LocalBitSet :=
  i.head.mustBoundRoot f (storesFreshCell i.operands) (bound \ i.operandTakes.toFinset)

def transferMustBoundThroughBlock (b : Block (Instr X K)) (bound : LocalBitSet) : LocalBitSet :=
  b.body.foldl (transferMustBoundInstr f) (bound ∪ fromLocations f.localCount (f.paramLocations b.params).toFinset) \
    b.term.operandTakes.toFinset

/-! ## The analysis -/

/-- The label of the entry block, the first one. -/
def BlockPyFunction.entryLabel {I : Type} (f : BlockPyFunction I) : BlockLabel :=
  (f.blocks.head?.map (·.label)).getD 0

/-- The slots bound on entry to the function: its parameters. -/
def BlockPyFunction.entryBound {I : Type} (f : BlockPyFunction I) : LocalBitSet :=
  fromLocations f.localCount (f.params.filterMap fun p => f.locationByName p.name).toFinset

def predecessors (l : BlockLabel) : List BlockLabel :=
  (f.blocks.filter fun b => b.successors.contains l).map (·.label)

/-- The intersection of the states of the predecessors, empty where there are none. -/
def meetAll : List LocalBitSet → LocalBitSet
  | [] => ∅
  | s :: ss => ss.foldl (· ∩ ·) s

/-- What must be bound at the entry and at the end of a block. -/
abbrev MustBoundState := LocalBitSet × LocalBitSet

def newMustBoundIn (l : BlockLabel) (m : BlockLabel → MustBoundState) : LocalBitSet :=
  if l = f.entryLabel then f.entryBound else meetAll ((predecessors f l).map fun p => (m p).2)

def newMustBound (b : Block (Instr X K)) (m : BlockLabel → MustBoundState) : MustBoundState :=
  (newMustBoundIn f b.label m, transferMustBoundThroughBlock f b (newMustBoundIn f b.label m))

/-- The state the loop starts from: everything bound, but for the entry block. -/
def initialMustBound (l : BlockLabel) : MustBoundState :=
  let bound := if l = f.entryLabel then f.entryBound else Finset.range f.localCount
  (bound, match f.block? l with
    | some b => transferMustBoundThroughBlock f b bound
    | none => bound)

/-- The loop: the blocks are visited first to last until nothing changes. Every change takes a slot away from the entry or
the end of a block, which bounds the number of rounds. -/
def mustBoundStates : BlockLabel → MustBoundState :=
  RoundRobin.recomputeLoop (·.label) (newMustBound f) f.blocks (f.blocks.length * (2 * f.localCount) + 1)
    (initialMustBound f)

def computeLocalMustBound (l : BlockLabel) : LocalBitSet :=
  (mustBoundStates f l).1

/-! ## The transfer is monotone -/

section

variable (f : BlockPyFunction (Instr X K)) {s : LocalBitSet} {t : LocalBitSet}

theorem Head.mustBoundRoot_mono (h : Head K) (fresh : Bool) (hst : s ⊆ t) :
    h.mustBoundRoot f fresh s ⊆ h.mustBoundRoot f fresh t := by
  cases h with
  | store n => exact union_subset_union_left hst
  | del n quietly => exact sdiff_subset_sdiff hst subset_rfl
  | callArgumentOp kind callable buffer =>
    simp only [Head.mustBoundRoot]
    split
    · exact sdiff_subset_sdiff hst subset_rfl
    · exact hst
  | _ => exact hst

theorem transferMustBound_mono (b : Block (Instr X K)) (hst : s ⊆ t) :
    transferMustBoundThroughBlock f b s ⊆ transferMustBoundThroughBlock f b t := by
  have hbody := foldl_monotone (f := transferMustBoundInstr f)
    (fun i _ _ h => i.head.mustBoundRoot_mono f _ (sdiff_subset_sdiff h subset_rfl)) b.body
  exact sdiff_subset_sdiff (hbody (union_subset_union_left hst)) subset_rfl

theorem fromLocations_subset_range (n : Nat) (xs : Finset LocalLocation) : fromLocations n xs ⊆ Finset.range n := by
  intro x hx
  rw [mem_fromLocations] at hx
  exact Finset.mem_range.mpr hx.2

/-- A statement binds slots of the frame only. -/
theorem transferMustBoundInstr_subset (i : Instr X K) (hs : s ⊆ Finset.range f.localCount) :
    transferMustBoundInstr f s i ⊆ Finset.range f.localCount := by
  have hs' : s \ i.operandTakes.toFinset ⊆ Finset.range f.localCount := sdiff_subset.trans hs
  unfold transferMustBoundInstr
  cases i.head with
  | store n => exact union_subset hs' (fromLocations_subset_range _ _)
  | del n quietly => exact sdiff_subset.trans hs'
  | callArgumentOp kind callable buffer =>
    simp only [Head.mustBoundRoot]
    split
    · exact sdiff_subset.trans hs'
    · exact hs'
  | _ => exact hs'

theorem transferMustBound_subset (b : Block (Instr X K)) (hs : s ⊆ Finset.range f.localCount) :
    transferMustBoundThroughBlock f b s ⊆ Finset.range f.localCount := by
  refine sdiff_subset.trans (foldlRecOn (motive := (· ⊆ Finset.range f.localCount)) b.body _ ?_ ?_)
  · exact union_subset hs (fromLocations_subset_range _ _)
  · exact fun _ h i _ => transferMustBoundInstr_subset f i h

theorem mem_foldl_inter (ss : List LocalBitSet) (s : LocalBitSet) (x : LocalLocation) :
    x ∈ ss.foldl (· ∩ ·) s ↔ x ∈ s ∧ ∀ t ∈ ss, x ∈ t := by
  induction ss generalizing s with
  | nil => simp
  | cons t ss ih => simp [ih, and_assoc]

theorem mem_meetAll {ss : List LocalBitSet} {x : LocalLocation} : x ∈ meetAll ss ↔ ss ≠ [] ∧ ∀ s ∈ ss, x ∈ s := by
  cases ss with
  | nil => simp [meetAll]
  | cons s ss => simp [meetAll, mem_foldl_inter]

/-- Smaller ends of the predecessors give a smaller entry. -/
theorem newMustBoundIn_mono (l : BlockLabel) {m m' : BlockLabel → MustBoundState} (h : ∀ p, (m' p).2 ⊆ (m p).2) :
    newMustBoundIn f l m' ⊆ newMustBoundIn f l m := by
  unfold newMustBoundIn
  split
  · exact subset_rfl
  · intro x hx
    rw [mem_meetAll] at hx ⊢
    refine ⟨by simpa using hx.1, forall_mem_map.mpr fun p hp => ?_⟩
    exact h p (hx.2 _ (mem_map_of_mem hp))

end

/-! ## The result is a fixed point -/

/-- The order the states descend in. -/
def Shrinks (s t : MustBoundState) : Prop :=
  t.1 ⊆ s.1 ∧ t.2 ⊆ s.2

def MustBoundState.height (s : MustBoundState) : Nat :=
  s.1.card + s.2.card

theorem height_lt_of_shrinks {s t : MustBoundState} (h : Shrinks s t) (hne : t ≠ s) : t.height < s.height := by
  have h1 := card_le_card h.1
  have h2 := card_le_card h.2
  by_contra hge
  simp only [MustBoundState.height] at hge
  have e1 : t.1 = s.1 := eq_of_subset_of_card_le h.1 (by omega)
  have e2 : t.2 = s.2 := eq_of_subset_of_card_le h.2 (by omega)
  exact hne (Prod.ext e1 e2)

theorem mustBound_recomputes (f : ValidFunction X K) :
    RoundRobin.Recomputes (fun b : Block (Instr X K) => b.label) (newMustBound f) f.blocks
      Shrinks MustBoundState.height where
  refl s := ⟨subset_rfl, subset_rfl⟩
  trans s t u hst htu := ⟨htu.1.trans hst.1, htu.2.trans hst.2⟩
  labels b hb c hc h := f.eq_of_label hb hc h
  mono b _ m m' h := by
    have hin := newMustBoundIn_mono f.toBlockPyFunction b.label fun p => (h p).2
    exact ⟨hin, transferMustBound_mono _ b hin⟩
  drops b _ m h hne := height_lt_of_shrinks h hne

section

variable (f : ValidFunction X K)

theorem entryLabel_eq : f.entryLabel = f.entryBlock.label := by
  rw [BlockPyFunction.entryLabel, List.head?_eq_some_head f.nonempty]
  rfl

theorem initialMustBound_subset (l : BlockLabel) :
    (initialMustBound f.toBlockPyFunction l).1 ⊆ Finset.range f.localCount ∧
      (initialMustBound f.toBlockPyFunction l).2 ⊆ Finset.range f.localCount := by
  have hin : (if l = f.entryLabel then f.entryBound else Finset.range f.localCount) ⊆ Finset.range f.localCount := by
    split
    · exact fromLocations_subset_range _ _
    · exact subset_rfl
  refine ⟨hin, ?_⟩
  simp only [initialMustBound]
  split
  · exact transferMustBound_subset _ _ hin
  · exact hin

/-- The first states are above everything a visit makes of them. -/
theorem initialMustBound_below :
    RoundRobin.Below (fun b : Block (Instr X K) => b.label) (newMustBound f) f.blocks Shrinks
      (initialMustBound f.toBlockPyFunction) := by
  intro b hb
  have hin : newMustBoundIn f.toBlockPyFunction b.label (initialMustBound f.toBlockPyFunction) ⊆
      (initialMustBound f.toBlockPyFunction b.label).1 := by
    unfold newMustBoundIn initialMustBound
    split
    · exact subset_rfl
    · intro x hx
      obtain ⟨hne, hall⟩ := mem_meetAll.mp hx
      obtain ⟨s, hs⟩ := exists_mem_of_ne_nil _ hne
      obtain ⟨p, _, rfl⟩ := mem_map.mp hs
      exact (initialMustBound_subset f p).2 (hall _ hs)
  refine ⟨hin, ?_⟩
  have hout : (initialMustBound f.toBlockPyFunction b.label).2 =
      transferMustBoundThroughBlock f.toBlockPyFunction b (initialMustBound f.toBlockPyFunction b.label).1 := by
    simp [initialMustBound, f.block?_eq hb]
  rw [hout]
  exact transferMustBound_mono _ b hin

theorem mustBound_rank_le :
    (f.blocks.map fun b => (initialMustBound f.toBlockPyFunction b.label).height).sum ≤
      f.blocks.length * (2 * f.localCount) := by
  refine RoundRobin.sum_map_le fun b => ?_
  have h1 := card_le_card (initialMustBound_subset f b.label).1
  have h2 := card_le_card (initialMustBound_subset f b.label).2
  rw [card_range] at h1 h2
  simp only [MustBoundState.height]
  omega

/-- The analysis ends in a fixed point. -/
theorem mustBoundStates_eq {b : Block (Instr X K)} (hb : b ∈ f.blocks) :
    mustBoundStates f.toBlockPyFunction b.label = newMustBound f.toBlockPyFunction b (mustBoundStates f.toBlockPyFunction) :=
  ((mustBound_recomputes f).stable _ _ (initialMustBound_below f) (Nat.lt_succ_of_le (mustBound_rank_le f)) b hb).symm

/-- The entry block keeps the parameters of the function. -/
theorem mustBound_entry : computeLocalMustBound f.toBlockPyFunction f.entryBlock.label = f.entryBound := by
  rw [computeLocalMustBound, mustBoundStates_eq f f.entryBlock_mem, newMustBound, newMustBoundIn, entryLabel_eq, if_pos rfl]

/-- What must be bound at a block other than the entry block is bound at the end of each of its predecessors. -/
theorem mustBound_subset_transfer {b p : Block (Instr X K)} (hb : b ∈ f.blocks) (hp : p ∈ f.blocks)
    (hs : b.label ∈ p.successors) (hne : b.label ≠ f.entryBlock.label) :
    computeLocalMustBound f.toBlockPyFunction b.label ⊆
      transferMustBoundThroughBlock f.toBlockPyFunction p (computeLocalMustBound f.toBlockPyFunction p.label) := by
  intro x hx
  rw [computeLocalMustBound, mustBoundStates_eq f hb, newMustBound, newMustBoundIn, entryLabel_eq, if_neg hne,
    mem_meetAll] at hx
  have hmem : p.label ∈ predecessors f b.label :=
    mem_map_of_mem (mem_filter.mpr ⟨hp, by simpa using hs⟩)
  have hx2 := hx.2 _ (mem_map_of_mem hmem)
  rw [mustBoundStates_eq f hp] at hx2
  rw [computeLocalMustBound, mustBoundStates_eq f hp]
  exact hx2

end

end Soac
