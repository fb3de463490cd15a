import Soac.Lib.Worklist
import Soac.Ownership.MustBound

/-!
# Locals that may be bound

`compute_local_may_bound_with_effects`: a forward worklist analysis over the binding effects of a block. A normal edge
carries the state after all effects, the exception edge the union of the states after every first part of them. The
parameters of a block are its own first effects.
-/

namespace Soac

open List Finset

variable {X K : Type}

/-- `LocalBindingEffect::Set`: a slot is bound or cleared. -/
structure LocalBindingEffect where
  target : LocalLocation
  bound : Bool
deriving DecidableEq, Repr

def LocalBindingEffect.apply (n : Nat) (s : LocalBitSet) (e : LocalBindingEffect) : LocalBitSet :=
  if e.bound then s ∪ fromLocations n {e.target} else s.erase e.target

/-- The binding effect of a statement, as `compute_local_may_bound` and its typed twin give it. -/
def Instr.bindingEffect (owned : Nat → Option LocalLocation) (i : Instr X K) : Option LocalBindingEffect :=
  match i.head with
  | .store n => (storeBindingLocation owned n (storesFreshCell i.operands)).map (⟨·, true⟩)
  | .del n _ => n.localLocation.map (⟨·, false⟩)
  | .callArgumentOp kind _ buffer => if kind.replacesBuffer then buffer.localLocation.map (⟨·, true⟩) else none
  | _ => none

section

variable (f : BlockPyFunction (Instr X K)) (bindingEffect : Instr X K → Option LocalBindingEffect)

/-- The effects of a statement: the operands it takes are cleared first. -/
def instrEffects (i : Instr X K) : List LocalBindingEffect :=
  i.operandTakes.map (⟨·, false⟩) ++ (bindingEffect i).toList

/-- The effects of a block, in order. -/
def blockEffects (b : Block (Instr X K)) : List LocalBindingEffect :=
  (f.paramLocations b.params).map (⟨·, true⟩) ++ b.body.flatMap (instrEffects bindingEffect) ++
    b.term.operandTakes.map (⟨·, false⟩)

/-- The states along an exception edge and along the normal edges: the union over all first parts, and the last one. -/
def applyEffects (n : Nat) (effects : List LocalBindingEffect) (s : LocalBitSet) : LocalBitSet × LocalBitSet :=
  effects.foldl (fun (exceptional, normal) e => (exceptional ∪ e.apply n normal, e.apply n normal)) (s, s)

/-- What a block sends along its edges. -/
def mayBoundOut (l : BlockLabel) (s : LocalBitSet) : List (BlockLabel × LocalBitSet) :=
  match f.block? l with
  | none => []
  | some b =>
    let (exceptional, normal) := applyEffects f.localCount (blockEffects f bindingEffect b) s
    (b.excEdge.map fun e => (e.target, exceptional)).toList ++ b.term.edges.map fun e => (e.target, normal)

/-- The slots of the parameters of the body. -/
def BlockPyFunction.bodyBound {I : Type} (f : BlockPyFunction I) : LocalBitSet :=
  fromLocations f.localCount (f.bodyParams.filterMap fun p => f.locationByName p.name).toFinset

/-- The table the loop starts from: the entry block is reached and queued. -/
def initialMayBound : Worklist.Table BlockLabel LocalBitSet where
  states l := if l = f.entryLabel then f.bodyBound else ∅
  reached l := l == f.entryLabel
  queued l := l == f.entryLabel
  pending := [f.entryLabel]

/-- The loop. A block is queued when it is reached first or its state grows, which bounds the number of visits. -/
def mayBoundTable : Worklist.Table BlockLabel LocalBitSet :=
  Worklist.loop (· ∪ ·) (mayBoundOut f bindingEffect) (2 * (f.blocks.length * (1 + f.localCount)) + 2) (initialMayBound f)

def computeLocalMayBoundWithEffects (l : BlockLabel) : LocalBitSet :=
  (mayBoundTable f bindingEffect).states l

end

def computeLocalMayBound (f : BlockPyFunction (Instr X K)) : BlockLabel → LocalBitSet :=
  computeLocalMayBoundWithEffects f (Instr.bindingEffect f.ownedCell)

/-! ## The states along the edges -/

theorem LocalBindingEffect.apply_subset {n : Nat} {s : LocalBitSet} (hs : s ⊆ Finset.range n) (e : LocalBindingEffect) :
    e.apply n s ⊆ Finset.range n := by
  unfold LocalBindingEffect.apply
  split
  · exact union_subset hs (fromLocations_subset_range _ _)
  · exact (erase_subset _ _).trans hs

theorem applyEffects_concat (n : Nat) (es : List LocalBindingEffect) (e : LocalBindingEffect) (s : LocalBitSet) :
    applyEffects n (es ++ [e]) s =
      ((applyEffects n es s).1 ∪ e.apply n (applyEffects n es s).2, e.apply n (applyEffects n es s).2) := by
  rw [applyEffects, foldl_append]
  rfl

/-- The normal edges carry the state after all effects. -/
theorem applyEffects_normal (n : Nat) (es : List LocalBindingEffect) (s : LocalBitSet) :
    (applyEffects n es s).2 = es.foldl (LocalBindingEffect.apply n) s := by
  induction es using reverseRecOn with
  | nil => rfl
  | append_singleton es e ih => rw [applyEffects_concat, ih, foldl_append, foldl_cons, foldl_nil]

/-- The exception edge covers the state after every first part of the effects. -/
theorem subset_applyEffects_exceptional (n : Nat) {es pre : List LocalBindingEffect} (hp : pre <+: es) (s : LocalBitSet) :
    pre.foldl (LocalBindingEffect.apply n) s ⊆ (applyEffects n es s).1 := by
  induction es using reverseRecOn with
  | nil =>
    rw [prefix_nil.mp hp]
    exact subset_rfl
  | append_singleton es e ih =>
    rw [applyEffects_concat]
    rcases prefix_concat_iff.mp hp with rfl | hp
    · rw [applyEffects_normal, foldl_append]
      exact subset_union_right
    · exact (ih hp).trans subset_union_left

theorem applyEffects_subset {n : Nat} (es : List LocalBindingEffect) {s : LocalBitSet} (hs : s ⊆ Finset.range n) :
    (applyEffects n es s).1 ⊆ Finset.range n ∧ (applyEffects n es s).2 ⊆ Finset.range n := by
  induction es using reverseRecOn with
  | nil => exact ⟨hs, hs⟩
  | append_singleton es e ih =>
    rw [applyEffects_concat]
    exact ⟨union_subset ih.1 (e.apply_subset ih.2), e.apply_subset ih.2⟩

/-! ## The result is closed -/

theorem mayBound_joins (n : Nat) :
    Worklist.Joins (fun s t : LocalBitSet => s ∪ t) (· ⊆ ·) (· ⊆ Finset.range n)
      (fun s => (Finset.range n \ s).card) where
  refl _ := subset_rfl
  trans _ _ _ := Finset.Subset.trans
  left _ _ := subset_union_left
  right _ _ := subset_union_right
  keeps _ _ := union_subset
  drops s t ht hne := by
    refine RoundRobin.missing_lt ⟨subset_union_left, fun x hx => ?_⟩ hne
    exact (mem_union.mp hx).imp id fun h => ht h

section

variable (f : ValidFunction X K) (bindingEffect : Instr X K → Option LocalBindingEffect)

theorem mayBound_sends :
    Worklist.Sends (mayBoundOut f bindingEffect) (· ⊆ Finset.range f.localCount)
      (f.blocks.map (·.label)) := by
  intro l s hs msg hmsg
  unfold mayBoundOut at hmsg
  split at hmsg
  · simp at hmsg
  · rename_i b hb
    obtain ⟨hsub1, hsub2⟩ := applyEffects_subset (blockEffects f bindingEffect b) hs
    have hknown := f.targetsKnown b (f.block?_mem hb).1
    rw [mem_append] at hmsg
    rcases hmsg with hmsg | hmsg
    · obtain ⟨e, he, rfl⟩ : ∃ e, b.excEdge = some e ∧ (e.target, _) = msg := by simpa using hmsg
      exact ⟨hknown _ (by simp [Block.successors, he]), hsub1⟩
    · obtain ⟨e, he, rfl⟩ := mem_map.mp hmsg
      exact ⟨hknown _ (mem_append_right _ (mem_map_of_mem he)), hsub2⟩

theorem initialMayBound_inv :
    Worklist.Inv (mayBoundOut f bindingEffect) (· ⊆ ·) (· ⊆ Finset.range f.localCount)
      (initialMayBound f.toBlockPyFunction) where
  queued l hl := by simpa [initialMayBound] using hl
  ok l := by
    simp only [initialMayBound]
    split
    · exact fromLocations_subset_range _ _
    · exact empty_subset _
  closed l hl hp := absurd (by simpa [initialMayBound] using hl) hp

theorem mayBound_work :
    Worklist.work (fun s => (Finset.range f.localCount \ s).card) (f.blocks.map (·.label))
      (initialMayBound f.toBlockPyFunction) < 2 * (f.blocks.length * (1 + f.localCount)) + 2 := by
  have h := RoundRobin.sum_map_le (l := f.blocks.map (·.label)) (c := 1 + f.localCount) (g := fun l =>
      (if (initialMayBound f.toBlockPyFunction).reached l then 0 else 1) +
        (Finset.range f.localCount \ (initialMayBound f.toBlockPyFunction).states l).card) (by
      intro l
      have := card_le_card (sdiff_subset (s := Finset.range f.localCount)
        (t := (initialMayBound f.toBlockPyFunction).states l))
      rw [card_range] at this
      split <;> omega)
  rw [length_map] at h
  unfold Worklist.work
  dsimp only
  have hlen : (initialMayBound f.toBlockPyFunction).pending.length = 1 := rfl
  omega

/-- The analysis ends in a closed table: the entry block is reached with the parameters of the body. -/
theorem mayBound_entry :
    (mayBoundTable f bindingEffect).reached f.entryBlock.label ∧
      f.bodyBound ⊆ computeLocalMayBoundWithEffects f bindingEffect f.entryBlock.label := by
  obtain ⟨h1, h2, _⟩ := Worklist.loop_closed (mayBound_joins f.localCount) (mayBound_sends f bindingEffect) _
    (initialMayBound_inv f bindingEffect) (mayBound_work f)
  have hstate : (initialMayBound f.toBlockPyFunction).states f.entryBlock.label = f.bodyBound := by
    simp [initialMayBound, entryLabel_eq]
  have h2' := h2 f.entryBlock.label
  rw [hstate] at h2'
  exact ⟨h1 _ (by simp [initialMayBound, entryLabel_eq]), h2'⟩

/-- A reached block has sent its states along its edges. -/
theorem mayBound_closed {l : BlockLabel}
    (hr : (mayBoundTable f bindingEffect).reached l) :
    ∀ msg ∈ mayBoundOut f bindingEffect l
        (computeLocalMayBoundWithEffects f bindingEffect l),
      (mayBoundTable f bindingEffect).reached msg.1 ∧
        msg.2 ⊆ computeLocalMayBoundWithEffects f bindingEffect msg.1 :=
  (Worklist.loop_closed (mayBound_joins f.localCount) (mayBound_sends f bindingEffect) _
    (initialMayBound_inv f bindingEffect) (mayBound_work f)).2.2 _ hr

end

end Soac
