import Soac.Ownership.MayBound
import Soac.Semantics.Run

/-!
# What the may-bound analysis covers

`mayBound_sound`: in every run, every local that holds a reference when control arrives at a block, before the edge binds
the parameters of the block, is in the may-bound set of the block; once they are bound, only they may be missing from it,
being the first effects of the block itself. `mayBound_false` is a parameter that is missing.
-/

namespace Soac

open List Instr

variable {X K : Type}

/-! ## Effects of one slot -/

section

variable {n : Nat} {s : LocalBitSet} {x : LocalLocation} (y : LocalLocation)

theorem mem_apply_true : x ∈ (LocalBindingEffect.mk y true).apply n s ↔ x ∈ s ∨ x = y ∧ x < n := by
  simp [LocalBindingEffect.apply]

theorem mem_apply_false : x ∈ (LocalBindingEffect.mk y false).apply n s ↔ x ∈ s ∧ x ≠ y := by
  simp [LocalBindingEffect.apply, and_comm]

variable (xs : List LocalLocation)

theorem mem_foldl_clears :
    x ∈ (xs.map fun y => LocalBindingEffect.mk y false).foldl (LocalBindingEffect.apply n) s ↔ x ∈ s ∧ x ∉ xs := by
  induction xs generalizing s with
  | nil => simp
  | cons y ys ih => simp [ih, mem_apply_false, and_assoc]

theorem mem_foldl_binds :
    x ∈ (xs.map fun y => LocalBindingEffect.mk y true).foldl (LocalBindingEffect.apply n) s ↔ x ∈ s ∨ x ∈ xs ∧ x < n := by
  induction xs generalizing s with
  | nil => simp
  | cons y ys ih =>
    simp only [map_cons, foldl_cons, ih, mem_apply_true, mem_cons]
    tauto

end

/-! ## The effects cover the accesses -/

section

variable (owned : Nat → Option LocalLocation) {n : Nat} {x : LocalLocation} {a : Access}

/-- The root of a statement binds the slot of its binding effect only. -/
theorem bindingEffect_of_root_binds (z : X) (h : Head K) (ops : List (Instr X K))
    (ha : a ∈ h.actAccesses owned (storesFreshCell ops)) (hb : a.Binds x) :
    (Instr.mk z h ops).bindingEffect owned = some ⟨x, true⟩ := by
  cases actAccess_of_mem ha with
  | store hy | publish hk hy => rcases hb with hb | hb <;> simp_all [bindingEffect]
  | _ => rcases hb with hb | hb <;> cases hb

variable (i : Instr X K)

/-- A statement binds the slot of its binding effect only. -/
theorem bindingEffect_of_binds (hw : writeFreeList i.operands)
    (ha : a ∈ i.accesses owned) (hb : a.Binds x) : i.bindingEffect owned = some ⟨x, true⟩ := by
  obtain ⟨z, h, ops⟩ := i
  rw [accesses_mk, mem_append, mem_append] at ha
  rcases ha with (ha | ha) | ha
  · exact absurd hb (not_binds_of_onlyClears (onlyClears_borrow h ha []) x)
  · exact absurd hb (not_binds_of_onlyClears (onlyClears_of_writeFreeList owned ops hw ha) x)
  · exact bindingEffect_of_root_binds owned z h ops ha hb

/-- A clearing effect is a delete, which clears the slot. -/
theorem unbind_mem_of_bindingEffect (h : i.bindingEffect owned = some ⟨x, false⟩) :
    Access.unbind x ∈ i.accesses owned := by
  obtain ⟨z, h', ops⟩ := i
  rw [accesses_mk, mem_append]
  right
  cases h' with
  | del name quietly =>
    obtain ⟨id, loc⟩ := name
    cases loc <;> simp_all [bindingEffect, ResolvedName.localLocation, Head.actAccesses]
  | store name =>
    simp [bindingEffect] at h
  | callArgumentOp kind callable buffer =>
    simp only [bindingEffect, head_mk] at h
    split at h <;> simp at h
  | _ => simp [bindingEffect] at h

variable {s : LocalBitSet}

/-- After a statement, what is bound is covered by its effects. -/
theorem mem_instrEffects (hw : writeFreeList i.operands)
    (hx : x < n) (hs : β x → x ∈ s) (h : applyAccesses (i.accesses owned) β x) :
    x ∈ (instrEffects (bindingEffect owned) i).foldl (LocalBindingEffect.apply n) s := by
  rw [instrEffects, foldl_append]
  rcases applyAccesses_cases h with ⟨a, ha, hb⟩ | ⟨hβ, hu⟩
  · rw [bindingEffect_of_binds owned i hw ha hb]
    exact (mem_apply_true x).mpr (.inr ⟨rfl, hx⟩)
  · have hkept : x ∈ (i.operandTakes.map fun y => LocalBindingEffect.mk y false).foldl (LocalBindingEffect.apply n) s :=
      (mem_foldl_clears _).mpr ⟨hs hβ, fun ht => hu (unbind_mem_accesses owned i ht)⟩
    cases he : i.bindingEffect owned with
    | none => exact hkept
    | some e =>
      obtain ⟨y, b⟩ := e
      simp only [Option.toList_some, foldl_cons, foldl_nil]
      cases b with
      | true => exact (mem_apply_true y).mpr (.inl hkept)
      | false =>
        refine (mem_apply_false y).mpr ⟨hkept, fun hxy => hu ?_⟩
        exact unbind_mem_of_bindingEffect owned i (hxy ▸ he)

variable (is : List (Instr X K))

/-- After the statements of a body, what is bound is covered by their effects. -/
theorem mem_bodyEffects (hw : ∀ i ∈ is, writeFreeList i.operands)
    (hs : ∀ y < n, β y → y ∈ s) (hx : x < n) (h : applyAccesses (accessesList owned is) β x) :
    x ∈ (is.flatMap (instrEffects (bindingEffect owned))).foldl (LocalBindingEffect.apply n) s := by
  induction is generalizing s β with
  | nil => exact hs x hx h
  | cons i is ih =>
    rw [flatMap_cons, foldl_append]
    rw [accessesList_cons, applyAccesses_append] at h
    refine ih (fun j hj => hw j (by simp [hj])) (fun y hy hβ => ?_) h
    exact mem_instrEffects owned i (hw i (by simp)) hy (hs y hy) hβ

/-- After a first part of the accesses of a body, what is bound is covered by a first part of its effects. -/
theorem exists_bodyEffects (hw : ∀ i ∈ is, writeFreeList i.operands)
    (hs : ∀ y < n, β y → y ∈ s) (hx : x < n) {pre : List Access}
    (hp : pre <+: accessesList owned is) (h : applyAccesses pre β x) :
    ∃ es, es <+: is.flatMap (instrEffects (bindingEffect owned)) ∧
      x ∈ es.foldl (LocalBindingEffect.apply n) s := by
  induction is generalizing s β pre with
  | nil =>
    rw [accessesList_nil, prefix_nil] at hp
    rw [hp] at h
    exact ⟨[], prefix_refl _, hs x hx h⟩
  | cons i is ih =>
    obtain ⟨rest, hp⟩ := hp
    rcases append_eq_append_iff.mp hp with ⟨mid, hmid, _⟩ | ⟨pre', rfl, hrest⟩
    · -- the accesses stop inside the first statement: they bound its slot, or nothing new
      rcases applyAccesses_cases h with ⟨a, ha, hb⟩ | ⟨hβ, _⟩
      · refine ⟨instrEffects (bindingEffect owned) i, prefix_append _ _, ?_⟩
        rw [instrEffects, bindingEffect_of_binds owned i (hw i (by simp)) (hmid ▸ mem_append_left _ ha) hb,
          foldl_append]
        exact (mem_apply_true x).mpr (.inr ⟨rfl, hx⟩)
      · exact ⟨[], nil_prefix, hs x hx hβ⟩
    · rw [applyAccesses_append] at h
      obtain ⟨es, hes, hmem⟩ := ih (fun j hj => hw j (by simp [hj]))
        (fun y hy hβ => mem_instrEffects owned i (hw i (by simp)) hy (hs y hy) hβ) ⟨rest, hrest.symm⟩ h
      refine ⟨instrEffects (bindingEffect owned) i ++ es, ?_, by rwa [foldl_append]⟩
      exact (prefix_append_right_inj _).mpr hes

end

/-! ## The states a block sends -/

section

variable (f : BlockPyFunction (Instr X K)) {b : Block (Instr X K)} (hw : b.StatementWrites) {s : LocalBitSet}
  {β : LocalLocation → Bool}

include hw

variable (hs : ∀ y < f.localCount, β y → y ∈ s ∨ y ∈ f.paramLocations b.params)
include hs

/-- After the whole block, what is bound is in the state of the normal edges. -/
theorem mem_normal_state
    {x : LocalLocation} (hx : x < f.localCount) (h : applyAccesses (b.accesses f.ownedCell) β x) :
    x ∈ (applyEffects f.localCount (blockEffects f (bindingEffect f.ownedCell) b) s).2 := by
  rw [applyEffects_normal, blockEffects, foldl_append, foldl_append]
  rw [Block.accesses, applyAccesses_append] at h
  obtain ⟨hbody, hu⟩ := applyAccesses_onlyClears
    (fun a ha => onlyClears_of_writeFreeList f.ownedCell b.term.operands hw.2 ha) h
  refine (mem_foldl_clears _).mpr ⟨?_, fun ht => hu (unbind_mem_accessesList f.ownedCell _ ht)⟩
  refine mem_bodyEffects f.ownedCell b.body hw.1 (fun y hy hβ => ?_) hx hbody
  exact (mem_foldl_binds _).mpr ((hs y hy hβ).imp id fun hp => ⟨hp, hy⟩)

/-- After a first part of the block, what is bound is in the state of the exception edge. -/
theorem mem_exceptional_state {x : LocalLocation} (hx : x < f.localCount) {pre rest : List Access}
    (hp : b.accesses f.ownedCell = pre ++ rest) (h : applyAccesses pre β x) :
    x ∈ (applyEffects f.localCount (blockEffects f (bindingEffect f.ownedCell) b) s).1 := by
  have hparams : ∀ y < f.localCount, β y → y ∈
      ((f.paramLocations b.params).map fun y => LocalBindingEffect.mk y true).foldl
        (LocalBindingEffect.apply f.localCount) s :=
    fun y hy hβ => (mem_foldl_binds _).mpr ((hs y hy hβ).imp id fun hp => ⟨hp, hy⟩)
  -- a first part of the accesses of the body, or all of them and a part of the terminator, which binds nothing
  have hbody : ∃ es, es <+: b.body.flatMap (instrEffects (bindingEffect f.ownedCell)) ∧
      x ∈ es.foldl (LocalBindingEffect.apply f.localCount)
        (((f.paramLocations b.params).map fun y => LocalBindingEffect.mk y true).foldl
          (LocalBindingEffect.apply f.localCount) s) := by
    rcases append_eq_append_iff.mp hp with ⟨mid, rfl, hmid⟩ | ⟨mid, hmid, _⟩
    · rw [applyAccesses_append] at h
      have hclear : ∀ a ∈ mid, a.OnlyClears (operandTakesList b.term.operands) := fun a ha =>
        onlyClears_of_writeFreeList f.ownedCell _ hw.2 (hmid ▸ mem_append_left _ ha)
      exact exists_bodyEffects f.ownedCell b.body hw.1 hparams hx (prefix_refl _)
        (applyAccesses_onlyClears hclear h).1
    · exact exists_bodyEffects f.ownedCell b.body hw.1 hparams hx ⟨mid, hmid.symm⟩ h
  obtain ⟨es, hes, hmem⟩ := hbody
  have hpre : (f.paramLocations b.params).map (fun y => LocalBindingEffect.mk y true) ++ es <+:
      blockEffects f (bindingEffect f.ownedCell) b := by
    rw [blockEffects, append_assoc]
    exact (prefix_append_right_inj _).mpr (hes.trans (prefix_append _ _))
  exact subset_applyEffects_exceptional f.localCount hpre s (by rwa [foldl_append])

end

/-! ## Soundness -/

section

variable {f : ValidFunction X K}

/-- The block is reached, and what is bound there is in its may-bound set or one of its parameters. -/
def MayBoundAt (f : ValidFunction X K) (l : BlockLabel) (β : LocalLocation → Bool) : Prop :=
  (mayBoundTable f.toBlockPyFunction (bindingEffect f.ownedCell)).reached l = true ∧
    ∀ b ∈ f.blocks, b.label = l → ∀ x < f.localCount, β x = true →
      x ∈ computeLocalMayBound f.toBlockPyFunction l ∨ x ∈ f.paramLocations b.params

/-- What is bound when control leaves by a departure is in the may-bound set of its target. -/
theorem Departs.mayBound_arrival {d : Departure X K} (h : Departs f d) (hi : MayBoundAt f d.source.label β) :
    (mayBoundTable f.toBlockPyFunction (bindingEffect f.ownedCell)).reached d.target.label ∧
      ∀ x < f.localCount, applyAccesses d.done β x → x ∈ computeLocalMayBound f.toBlockPyFunction d.target.label := by
  have hclosed := mayBound_closed f (bindingEffect f.ownedCell) hi.1
  have hs := hi.2 d.source h.source_mem rfl
  have hw := f.statementWrites _ h.source_mem
  cases h with
  | @normal b c edge hb hc hl he =>
    obtain ⟨hr, hsub⟩ := hclosed (edge.target, _) (by
      rw [mayBoundOut, f.block?_eq hb]
      exact mem_append_right _ (mem_map_of_mem he))
    simp only [hl]
    exact ⟨hr, fun x hx hβ => hsub (mem_normal_state f.toBlockPyFunction hw hs hx hβ)⟩
  | @exceptional b c edge done rest hb hc hl he hrest =>
    obtain ⟨hr, hsub⟩ := hclosed (edge.target, _) (by
      rw [mayBoundOut, f.block?_eq hb]
      dsimp only
      rw [he]
      exact mem_append_left _ mem_cons_self)
    simp only [hl]
    exact ⟨hr, fun x hx hβ => hsub (mem_exceptional_state f.toBlockPyFunction hw hs hx hrest hβ)⟩

/-- The edge binds parameters of its target only. -/
theorem mem_params_of_edgeBinds {params : List BlockParam} {args : List BlockArg} {x : LocalLocation}
    (h : x ∈ f.edgeBinds params args) : x ∈ f.paramLocations params := by
  obtain ⟨⟨p, a⟩, hpa, hx⟩ := mem_filterMap.mp h
  exact mem_filterMap.mpr ⟨p, mem_of_mem_drop (of_mem_zip hpa).1, hx⟩

/-- The invariant holds along every run. -/
theorem BoundRun.mayBoundAt {β₀ : LocalLocation → Bool} {l : BlockLabel}
    (h₀ : ∀ x < f.localCount, β₀ x → x ∈ f.bodyBound ∨ x ∈ f.paramLocations f.entryBlock.params)
    (h : BoundRun f (fun _ _ => True) β₀ l β) : MayBoundAt f l β := by
  induction h with
  | start =>
    obtain ⟨hr, hsub⟩ := mayBound_entry f (bindingEffect f.ownedCell)
    refine ⟨hr, fun b hb hl x hx hβ => ?_⟩
    rw [f.eq_of_label hb f.entryBlock_mem hl]
    exact (h₀ x hx hβ).imp (fun h => hsub h) id
  | @step d β _ hd _ ih =>
    obtain ⟨hr, harr⟩ := hd.mayBound_arrival ih
    refine ⟨hr, fun b hb hl x hx hβ => ?_⟩
    rw [f.eq_of_label hb hd.target_mem hl]
    simp only [Departure.boundAfter, bindAll, Bool.or_eq_true, decide_eq_true_eq] at hβ
    rcases hβ with hβ | hβ
    · exact .inr (mem_params_of_edgeBinds hβ)
    · exact .inl (harr x hx hβ)

/-- In every run from an entry state in which only parameters are bound: a local bound at the entry of a block is in the
may-bound set of the block or one of its own parameters, and a local bound when control leaves a block is in the may-bound
set of the block control goes to, before that block's parameters are bound. -/
theorem mayBound_sound {β₀ : LocalLocation → Bool}
    (h₀ : ∀ x < f.localCount, β₀ x = true → x ∈ f.bodyBound ∨ x ∈ f.paramLocations f.entryBlock.params) :
    (∀ b ∈ f.blocks, ∀ β, BoundRun f (fun _ _ => True) β₀ b.label β → ∀ x < f.localCount, β x = true →
      x ∈ computeLocalMayBound f.toBlockPyFunction b.label ∨ x ∈ f.paramLocations b.params) ∧
    ∀ d β, Departs f d → BoundRun f (fun _ _ => True) β₀ d.source.label β → ∀ x < f.localCount,
      applyAccesses d.done β x = true → x ∈ computeLocalMayBound f.toBlockPyFunction d.target.label := by
  refine ⟨fun b hb β h x hx hβ => (h.mayBoundAt h₀).2 b hb rfl x hx hβ, fun d β hd h x hx hβ => ?_⟩
  exact (hd.mayBound_arrival (h.mayBoundAt h₀)).2 x hx hβ

end

/-! ## A parameter bound by the edge that enters its block -/

namespace MayBoundExample

open InstrBlockPy

def target : Block InstrBlockPy :=
  { label := 1, params := [{ name := "x" }], body := [], term := .ret (load (localName "x" 0)) }

def start : Block InstrBlockPy :=
  { label := 0, body := [], term := .jump ⟨1, [.none]⟩ }

/-- A jump passes `None` to the parameter `x` of block 1, which returns it. -/
def passNone : ValidFunction Unit BlockPyOp where
  params := []
  stackSlots := ["x"]
  blocks := [start, target]
  nonempty := by decide
  labelsNodup := by decide
  targetsKnown := by decide
  slotsNodup := by decide
  statementWrites := by decide

def entryState : LocalLocation → Bool := fun _ => false

theorem run : BoundRun passNone (fun _ _ => True) entryState 1 (bindAll [0] entryState) := by
  have hs : start ∈ passNone.blocks := by simp [passNone]
  have hc : target ∈ passNone.blocks := by simp [passNone]
  have he : (⟨1, [.none]⟩ : BlockEdge) ∈ start.term.edges := by simp [start, BlockTerm.edges]
  exact BoundRun.step BoundRun.start (Departs.normal hs hc rfl he) trivial

end MayBoundExample

open MayBoundExample in
/-- Block 1 is entered with its parameter `x` bound, and `x` is not in its may-bound set. -/
theorem mayBound_false : (∀ x < passNone.localCount, entryState x = true → x ∈ passNone.bodyBound) ∧
    ∃ β, BoundRun passNone (fun _ _ => True) entryState 1 β ∧ 0 < passNone.localCount ∧ β 0 = true ∧
      0 ∉ computeLocalMayBound passNone.toBlockPyFunction 1 :=
  ⟨by decide, _, run, by decide, by decide, by decide +kernel⟩

/-! ## A handler entered after a part of its block -/

namespace MayBoundExample

open InstrBlockPy

def tryBlock : Block InstrBlockPy :=
  { label := 1
    body := [store (localName "x" 0) (call (load ⟨"g", .globalName⟩) []),
      store (localName "y" 1) (call (load ⟨"g", .globalName⟩) [])]
    term := .ret (load (localName "y" 1)), excEdge := some ⟨2, [.currentException]⟩ }

def handler : Block InstrBlockPy :=
  { label := 2, params := [{ name := "e" }], body := [], term := .ret (load (localName "x" 0)) }

/-- `try: x = g(); y = g(); return y; except e: return x`. -/
def tryStores : ValidFunction Unit BlockPyOp where
  params := []
  stackSlots := ["x", "y", "e"]
  blocks := [{ label := 0, body := [], term := .jump ⟨1, []⟩ }, tryBlock, handler]
  nonempty := by decide
  labelsNodup := by decide
  targetsKnown := by decide
  slotsNodup := by decide
  statementWrites := by decide

/-- The second call raises. -/
def toHandler : Departure Unit BlockPyOp :=
  ⟨tryBlock, handler, ⟨2, [.currentException]⟩, true, [.bind 0], [.bind 1, .read 1]⟩

theorem toHandler_departs : Departs tryStores toHandler :=
  .exceptional (by simp [tryStores]) (by simp [tryStores]) rfl rfl (by decide)

theorem runToTry : BoundRun tryStores (fun _ _ => True) entryState 1 entryState := by
  have he : (⟨1, []⟩ : BlockEdge) ∈ tryStores.entryBlock.term.edges := by decide
  have hb : tryBlock ∈ tryStores.blocks := by simp [tryStores]
  exact .step .start (.normal tryStores.entryBlock_mem hb rfl he) trivial

end MayBoundExample

open MayBoundExample in
/-- The handler is entered with `x` and its parameter `e` bound: `x`, which is no parameter, is in its may-bound set, and was
when control left the block. -/
theorem mayBound_sound_tryStores :
    ∃ β, BoundRun tryStores (fun _ _ => True) entryState 2 β ∧ β 0 = true ∧ β 2 = true ∧
      0 ∉ tryStores.paramLocations handler.params ∧
      (∀ x < tryStores.localCount, β x = true →
        x ∈ computeLocalMayBound tryStores.toBlockPyFunction 2 ∨ x ∈ tryStores.paramLocations handler.params) ∧
      0 ∈ computeLocalMayBound tryStores.toBlockPyFunction 2 := by
  have h₀ : ∀ x < tryStores.localCount, entryState x = true →
      x ∈ tryStores.bodyBound ∨ x ∈ tryStores.paramLocations tryStores.entryBlock.params := by decide
  obtain ⟨hentered, hleft⟩ := mayBound_sound (f := tryStores) h₀
  have hrun : BoundRun tryStores (fun _ _ => True) entryState 2 (toHandler.boundAfter tryStores.toBlockPyFunction entryState) :=
    .step runToTry toHandler_departs trivial
  refine ⟨_, hrun, by decide, by decide, by decide, hentered handler (by simp [tryStores]) _ hrun, ?_⟩
  exact hleft toHandler entryState toHandler_departs runToTry 0 (by decide) (by decide)

end Soac
