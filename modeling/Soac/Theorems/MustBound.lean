import Soac.Ownership.MustBound
import Soac.Semantics.Frame

/-!
# What the must-bound analysis covers

`mustBound_sound`: in every run whose departures are covered for a slot, the slot is bound whenever a block is entered that
has it in its must-bound set. A departure is covered when the slot is bound already if the rest of the block would have bound
it, if it is of a parameter that the edge leaves implicit, and, for an edge back to the entry block, if it is of a parameter
of the function. The analysis sends the state at the end of a block along its exception edge,
takes every parameter of a block as bound, and never weakens the entry block; `mustBound_false` is the first of the three.
-/

namespace Soac

open List Finset Access Head

variable {X K : Type}

/-! ## Accesses, as the analysis counts them -/

/-- Which slots are counted as bound after an access: a call-argument phase may fail before it publishes its buffer. -/
def Access.mustApply (β : LocalLocation → Bool) : Access → LocalLocation → Bool
  | .read _ => β
  | .bind x => Function.update β x true
  | .publish x | .unbind x => Function.update β x false

/-- Which slots are counted as bound after a list of accesses. -/
def mustAfter (as : List Access) (β : LocalLocation → Bool) : LocalLocation → Bool :=
  as.foldl mustApply β

/-- The slots a list of accesses leaves bound, whatever was bound before. -/
def leavesBound (as : List Access) : LocalLocation → Bool :=
  mustAfter as fun _ => false

@[simp] theorem mustAfter_nil (β : LocalLocation → Bool) : mustAfter [] β = β := rfl

variable (a : Access)

@[simp] theorem mustAfter_cons (as : List Access) (β : LocalLocation → Bool) :
    mustAfter (a :: as) β = mustAfter as (a.mustApply β) := rfl

@[simp] theorem mustAfter_append (as bs : List Access) (β : LocalLocation → Bool) :
    mustAfter (as ++ bs) β = mustAfter bs (mustAfter as β) :=
  foldl_append

variable {β γ : LocalLocation → Bool} {x : LocalLocation}

/-- An access of a slot decides about that slot only. -/
theorem mustApply_congr (h : β x = γ x) : a.mustApply β x = a.mustApply γ x := by
  cases a with
  | read y => exact h
  | bind y | publish y | unbind y =>
    by_cases hy : x = y
    · subst hy; simp [mustApply]
    · simp [mustApply, hy, h]

theorem mustAfter_congr (as : List Access) (h : β x = γ x) :
    mustAfter as β x = mustAfter as γ x := by
  induction as generalizing β γ with
  | nil => exact h
  | cons a as ih => exact ih (mustApply_congr a h)

variable {as : List Access}

/-- A slot counted as bound was counted before, or the accesses leave it bound by themselves. -/
theorem mustAfter_cases (h : mustAfter as β x) : β x ∨ leavesBound as x := by
  cases hb : β x with
  | true => exact .inl rfl
  | false =>
    rw [mustAfter_congr as (γ := fun _ => false) hb] at h
    exact .inr h

theorem mustApply_le_apply (h : β x → γ x) (hx : a.mustApply β x) : a.apply γ x := by
  cases a with
  | read y => exact h hx
  | bind y | publish y | unbind y =>
    by_cases hy : x = y
    · subst hy; simp [mustApply, apply] at hx ⊢
    · simp only [mustApply, apply, Function.update_of_ne hy] at hx ⊢
      exact h hx

/-- What is counted as bound is bound. -/
theorem mustAfter_le_apply (as : List Access)
    (h : β x → γ x) (hx : mustAfter as β x) : applyAccesses as γ x := by
  induction as generalizing β γ with
  | nil => exact h hx
  | cons a as ih => exact ih (mustApply_le_apply a h) hx

/-- Accesses that leave a slot alone keep its count. -/
theorem mustAfter_leavesAlone (h : ∀ a ∈ as, a.LeavesAlone x) : mustAfter as β x = β x := by
  induction as generalizing β with
  | nil => rfl
  | cons a as ih =>
    rw [mustAfter_cons, ih fun b hb => h b (mem_cons_of_mem _ hb)]
    have ha := h a mem_cons_self
    cases a with
    | read y => rfl
    | bind y | publish y | unbind y => exact Function.update_of_ne ha _ _

/-- Accesses that only clear leave the other slots alone. -/
theorem mustAfter_onlyClears {takes : List LocalLocation} (h : ∀ a ∈ as, a.OnlyClears takes)
    (hx : x ∉ takes) : mustAfter as β x = β x :=
  mustAfter_leavesAlone fun a ha => (h a ha).leavesAlone hx

/-! ## The transfer counts as the accesses do -/

section

variable (f : BlockPyFunction (Instr X K)) {s : LocalBitSet}

/-- A store binds its slot and leaves the others alone. -/
theorem mustAfter_store (n : ResolvedName) (fresh : Bool)
    (hx : β x ∨ storeBindingLocation f.ownedCell n fresh = some x) :
    mustAfter ((store n : Head K).actAccesses f.ownedCell fresh) β x := by
  obtain ⟨id, loc⟩ := n
  cases loc with
  | «local» y =>
    by_cases hy : x = y
    · subst hy; simp [actAccesses, mustApply]
    · have hb := hx.resolve_right fun e => hy (Option.some.inj e).symm
      simpa [actAccesses, mustApply, hy] using hb
  | cell c =>
    cases c with
    | owned slot =>
      simp only [actAccesses, storeBindingLocation] at hx ⊢
      cases ho : f.ownedCell slot with
      | none => simpa [ho, readsOf] using hx
      | some y =>
        cases fresh with
        | false => simpa [ho, readsOf, mustApply] using hx
        | true =>
          by_cases hy : x = y
          · subst hy; simp [mustApply]
          · have hb := hx.resolve_right fun e => hy (by simpa [ho] using e.symm)
            simpa [mustApply, hy] using hb
    | _ => simpa [actAccesses, storeBindingLocation] using hx
  | _ => simpa [actAccesses, storeBindingLocation] using hx

/-- The root of a statement, after its operands have run. -/
theorem mustAfter_root (z : X) (h : Head K) (ops : List (Instr X K))
    (hs : ∀ y ∈ s, β y) (ht : ∀ y ∈ s, y ∉ h.ownTake.toList)
    (hx : x ∈ h.mustBoundRoot f (storesFreshCell ops) s) :
    mustAfter (h.actAccesses f.ownedCell (storesFreshCell ops)) β x := by
  have hkeep (hs' : x ∈ s) (hr : (Instr.mk z h ops).rootWrite f.ownedCell ≠ some x) :
      mustAfter (h.actAccesses f.ownedCell (storesFreshCell ops)) β x :=
    (mustAfter_leavesAlone fun _ ha => leavesAlone_rootAct f.ownedCell x (ht x hs') hr ha).trans (hs x hs')
  cases h with
  | store n =>
    simp only [mustBoundRoot, mem_union, mem_fromLocations, Option.mem_toFinset] at hx
    exact mustAfter_store f n _ (hx.imp (hs x) And.left)
  | del n quietly =>
    simp only [mustBoundRoot, mem_sdiff, Option.mem_toFinset] at hx
    exact hkeep hx.1 hx.2
  | callArgumentOp kind callable buffer =>
    simp only [mustBoundRoot] at hx
    cases hk : kind.replacesBuffer with
    | true =>
      rw [if_pos hk, mem_sdiff] at hx
      exact hkeep hx.1 (by simpa [Instr.rootWrite, hk] using hx.2)
    | false =>
      rw [if_neg (by simp [hk])] at hx
      exact hkeep hx (by simp [Instr.rootWrite, hk])
  | load n | takeOperand n | cellRef location | comprehensionInsert kind container | iteratorStep n | makeCell | op k =>
    exact hkeep hx (by simp [Instr.rootWrite])

/-- A statement whose operands write no name leaves bound what the transfer says. -/
theorem mustAfter_instr (i : Instr X K) (hw : writeFreeList i.operands)
    (hs : ∀ y ∈ s, β y) (hx : x ∈ transferMustBoundInstr f s i) :
    mustAfter (i.accesses f.ownedCell) β x := by
  obtain ⟨z, h, ops⟩ := i
  rw [accesses_mk, mustAfter_append, mustAfter_append]
  refine mustAfter_root f z h ops ?_ ?_ hx
  · intro y hy
    simp only [operandTakes_mk, mem_sdiff, mem_toFinset, mem_append, not_or] at hy
    rw [mustAfter_onlyClears (fun a ha => onlyClears_of_writeFreeList f.ownedCell ops hw ha) hy.2.1,
      mustAfter_onlyClears (fun a ha => onlyClears_borrow h ha []) (not_mem_nil)]
    exact hs y hy.1
  · intro y hy
    simp only [operandTakes_mk, mem_sdiff, mem_toFinset, mem_append, not_or] at hy
    exact hy.2.2

theorem mustAfter_body (is : List (Instr X K)) (hw : ∀ i ∈ is, writeFreeList i.operands)
    (hs : ∀ y ∈ s, β y)
    (hx : x ∈ is.foldl (transferMustBoundInstr f) s) : mustAfter (accessesList f.ownedCell is) β x := by
  induction is generalizing s β with
  | nil => simpa using hs x hx
  | cons i is ih =>
    rw [accessesList_cons, mustAfter_append]
    exact ih (fun j hj => hw j (by simp [hj])) (fun y hy => mustAfter_instr f i (hw i (by simp)) hs hy) hx

/-- A block leaves a slot bound that the transfer says, if the slot is bound on entry where the transfer starts from it. -/
theorem mustAfter_block {b : Block (Instr X K)} (hw : b.StatementWrites)
    (hs : x ∈ s → β x) (hp : x ∈ f.paramLocations b.params → β x)
    (hx : x ∈ transferMustBoundThroughBlock f b s) : mustAfter (b.accesses f.ownedCell) β x := by
  simp only [transferMustBoundThroughBlock, mem_sdiff, mem_toFinset] at hx
  rw [Block.accesses, mustAfter_append,
    mustAfter_onlyClears (fun a ha => onlyClears_of_writeFreeList f.ownedCell _ hw.2 ha) hx.2]
  -- the other slots do not matter, so they may be taken as bound
  have hsame : β x = Function.update (fun _ => true) x (β x) x := by rw [Function.update_self]
  rw [mustAfter_congr _ hsame]
  refine mustAfter_body f b.body hw.1 (fun y hy => ?_) hx.1
  rw [mem_union, mem_fromLocations, mem_toFinset] at hy
  by_cases hyx : y = x
  · subst hyx
    rw [Function.update_self]
    exact hy.elim hs fun h => hp h.1
  · rw [Function.update_of_ne hyx]

end

/-! ## Soundness -/

/-- The departure is one the analysis accounts for, as far as slot `x` goes: `x` is bound already if the block would still
leave it bound, or if it is of a parameter the edge leaves implicit, and an edge to the entry block finds it bound if it is
of a parameter of the function. -/
def Departure.Covered (f : BlockPyFunction (Instr X K)) (x : LocalLocation) (d : Departure X K) (β : LocalLocation → Bool) :
    Prop :=
  (leavesBound d.rest x = true → applyAccesses d.done β x = true) ∧
  (x ∈ f.paramLocations (implicitParams d.target.params d.edge.args) → applyAccesses d.done β x = true) ∧
  (d.target.label = f.entryLabel → x ∈ f.entryBound → d.boundAfter f β x = true)

instance (f : BlockPyFunction (Instr X K)) (x : LocalLocation) (d : Departure X K) (β : LocalLocation → Bool) :
    Decidable (d.Covered f x β) :=
  inferInstanceAs (Decidable (_ ∧ _ ∧ _))

section

variable {f : ValidFunction X K} {β : LocalLocation → Bool} {x : LocalLocation} {d : Departure X K}

/-- A slot that is bound when control leaves stays bound along the edge. -/
theorem boundAfter_of_bound (h : applyAccesses d.done β x) : d.boundAfter f.toBlockPyFunction β x := by
  simp [Departure.boundAfter, bindAll, h]

/-- A parameter of the target is bound: with an argument, or because the edge leaves it as it is. -/
theorem boundAfter_params
    (hi : x ∈ f.paramLocations (implicitParams d.target.params d.edge.args) → applyAccesses d.done β x)
    (hx : x ∈ f.paramLocations d.target.params) : d.boundAfter f.toBlockPyFunction β x := by
  obtain ⟨p, hp, hpx⟩ := mem_filterMap.mp hx
  rcases mem_params_cases hp d.edge.args with hp | ⟨a, hpa⟩
  · exact boundAfter_of_bound (hi (mem_filterMap.mpr ⟨p, hp, hpx⟩))
  · have hb : x ∈ f.edgeBinds d.target.params d.edge.args := mem_filterMap.mpr ⟨(p, a), hpa, hpx⟩
    simp [Departure.boundAfter, bindAll, hb]

/-- A slot that must be bound at the target of a departure covered for it is bound there. -/
theorem Departs.mustBound_target (h : Departs f d) (hsafe : d.Covered f x β)
    (hs : x ∈ computeLocalMustBound f.toBlockPyFunction d.source.label → β x)
    (hp : x ∈ f.paramLocations d.source.params → β x)
    (hx : x ∈ computeLocalMustBound f.toBlockPyFunction d.target.label) :
    d.boundAfter f.toBlockPyFunction β x := by
  obtain ⟨hrest, _, hentry⟩ := hsafe
  by_cases he : d.target.label = f.entryBlock.label
  · rw [he, mustBound_entry] at hx
    exact hentry (he.trans (entryLabel_eq f).symm) hx
  · have hout := mustBound_subset_transfer f h.target_mem h.source_mem h.mem_successors he hx
    have hafter := mustAfter_block f.toBlockPyFunction (f.statementWrites _ h.source_mem) hs hp hout
    rw [h.accesses_eq, mustAfter_append] at hafter
    refine boundAfter_of_bound ?_
    rcases mustAfter_cases hafter with hdone | hleft
    · exact mustAfter_le_apply d.done id hdone
    · exact hrest hleft

/-- In a run whose departures are covered for a slot, the slot is bound whenever a block is entered at which it must be. -/
theorem mustBound_sound {β₀ : LocalLocation → Bool} {l : BlockLabel}
    (hparams : x ∈ f.entryBound → β₀ x = true) (hentry : x ∈ f.paramLocations f.entryBlock.params → β₀ x = true)
    (h : BoundRun f (Departure.Covered f x) β₀ l β)
    (hx : x ∈ computeLocalMustBound f.toBlockPyFunction l) : β x = true := by
  -- along the run the slot is bound too if it is of a parameter of the block entered
  have hinv : (∀ b ∈ f.blocks, b.label = l → x ∈ f.paramLocations b.params → β x = true) ∧
      (x ∈ computeLocalMustBound f.toBlockPyFunction l → β x = true) := by
    clear hx
    induction h with
    | start =>
      refine ⟨fun b hb hl => ?_, fun hx => ?_⟩
      · rw [f.eq_of_label hb f.entryBlock_mem hl]
        exact hentry
      · rw [mustBound_entry] at hx
        exact hparams hx
    | @step d β _ hd hsafe ih =>
      have hp := ih.1 _ hd.source_mem rfl
      refine ⟨fun b hb hl => ?_, fun hx => hd.mustBound_target hsafe ih.2 hp hx⟩
      rw [f.eq_of_label hb hd.target_mem hl]
      exact fun hx => boundAfter_params hsafe.2.1 hx
  exact hinv.2 hx

end

/-! ## A handler entered before the block it guards has bound its local -/

namespace MustBoundExample

open InstrBlockPy

def tryBlock : Block InstrBlockPy :=
  { label := 1, body := [store (localName "x" 1) (call (load ⟨"g", .globalName⟩) [])],
    term := .ret (load (localName "x" 1)), excEdge := some ⟨2, []⟩ }

def handler : Block InstrBlockPy :=
  { label := 2, body := [], term := .ret (load (localName "p" 0)) }

def start : Block InstrBlockPy :=
  { label := 0, body := [], term := .jump ⟨1, []⟩ }

/-- `def f(p): try: x = g(); return x; except: return p`. -/
def tryBind : ValidFunction Unit BlockPyOp where
  params := [{ name := "p", kind := .any }]
  stackSlots := ["p", "x"]
  blocks := [start, tryBlock, handler]
  nonempty := by decide
  labelsNodup := by decide
  targetsKnown := by decide
  slotsNodup := by decide
  statementWrites := by decide

/-- On entry `p` is bound and `x` is not. -/
def entryState : LocalLocation → Bool := fun y => y == 0

def toTry : Departure Unit BlockPyOp :=
  ⟨start, tryBlock, ⟨1, []⟩, false, [], []⟩

/-- An exception leaves block 1 before or after `x` is stored. -/
def toHandler (stored : Bool) : Departure Unit BlockPyOp :=
  if stored then ⟨tryBlock, handler, ⟨2, []⟩, true, [.bind 1], [.read 1]⟩
  else ⟨tryBlock, handler, ⟨2, []⟩, true, [], [.bind 1, .read 1]⟩

theorem run {safe : Departure Unit BlockPyOp → (LocalLocation → Bool) → Prop} (stored : Bool)
    (h1 : safe toTry entryState) (h2 : safe (toHandler stored) entryState) :
    BoundRun tryBind safe entryState 2 (applyAccesses (toHandler stored).done entryState) := by
  have hs : start ∈ tryBind.blocks := by simp [tryBind]
  have hb : tryBlock ∈ tryBind.blocks := by simp [tryBind]
  have hc : handler ∈ tryBind.blocks := by simp [tryBind]
  have d1 : Departs tryBind toTry := Departs.normal hs hb rfl (by simp [start, BlockTerm.edges])
  have d2 : Departs tryBind (toHandler stored) := by
    cases stored
    · exact .exceptional hb hc rfl rfl (by decide)
    · exact .exceptional hb hc rfl rfl (by decide)
  have r1 : BoundRun tryBind safe entryState 1 entryState := BoundRun.step BoundRun.start d1 h1
  cases stored
  · exact .step r1 d2 h2
  · exact .step r1 d2 h2

end MustBoundExample

open MustBoundExample in
/-- The exception leaves block 1 before its store of `x`: the handler is entered with `x` unbound, and `x` is in its
must-bound set, the state at the end of block 1. -/
theorem mustBound_false : (∀ y ∈ tryBind.entryBound, entryState y = true) ∧
    ∃ β, BoundRun tryBind (fun _ _ => True) entryState 2 β ∧
      1 ∈ computeLocalMustBound tryBind.toBlockPyFunction 2 ∧ β 1 = false :=
  ⟨by decide, _, run false trivial trivial, by decide +kernel, by decide⟩

open MustBoundExample in
/-- After the store the exception is covered, and `x` is bound in the handler. -/
theorem mustBound_sound_tryBind :
    BoundRun tryBind (Departure.Covered tryBind 1) entryState 2 (applyAccesses [.bind 1] entryState) ∧
      applyAccesses [.bind 1] entryState 1 = true := by
  have h1 : toTry.Covered tryBind 1 entryState := by decide
  have h2 : (toHandler true).Covered tryBind 1 entryState := by decide
  have hrun : BoundRun tryBind (Departure.Covered tryBind 1) entryState 2
      (applyAccesses [.bind 1] entryState) := run true h1 h2
  have hx : 1 ∈ computeLocalMustBound tryBind.toBlockPyFunction 2 := by decide +kernel
  have hb := mustBound_sound (f := tryBind) (by decide) (by decide) hrun hx
  exact ⟨hrun, hb⟩

end Soac
