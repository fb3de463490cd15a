import Soac.Ownership.Liveness
import Soac.Semantics.Run

/-!
# What liveness covers

An execution suffix from the entry of a block is the list of slot accesses it performs: the block binds its parameters,
runs, and is left by an edge, which reads its arguments and the parameters it leaves implicit. `liveness_sound` says when
a slot read on such a suffix before it is written is live at its start. The summary of a block by uses and definitions
does not see an exceptional exit before one of the definitions, nor the slots an exception edge passes on, nor a parameter
an edge leaves implicit; the hypothesis of the theorem names exactly these three.
-/

namespace Soac

open List Access Head ResolvedName BlockLocalEffects Block Departure

variable {X K : Type}

/-! ## Accesses of one slot -/

def Access.isWrite : Access → Bool
  | .read _ => false
  | _ => true

/-- Some access of the list is to the slot. -/
def touches (x : LocalLocation) (as : List Access) : Bool :=
  as.any fun a => a.slot == x

/-- Some access of the list binds or clears the slot. -/
def writesSlot (x : LocalLocation) (as : List Access) : Bool :=
  as.any fun a => a.isWrite && a.slot == x

/-- The first access of the list to the slot is a read. -/
def readsFirst (x : LocalLocation) : List Access → Bool
  | [] => false
  | a :: as => if a.slot = x then !a.isWrite else readsFirst x as

@[simp] theorem writesSlot_append (x : LocalLocation) (as bs : List Access) :
    writesSlot x (as ++ bs) = (writesSlot x as || writesSlot x bs) := by
  simp [writesSlot]

/-- The slot is read first in one list after the other: in the first, or in the second when the first leaves it alone. -/
theorem readsFirst_append (x : LocalLocation) (as bs : List Access) :
    readsFirst x (as ++ bs) = (readsFirst x as || (!touches x as && readsFirst x bs)) := by
  induction as with
  | nil => simp [readsFirst, touches]
  | cons a as ih =>
    by_cases h : a.slot = x
    · simp [readsFirst, touches, h]
    · have hb : (a.slot == x) = false := by simpa using h
      simpa [readsFirst, touches, h, hb] using ih

theorem writesSlot_eq_false_of_touches {x : LocalLocation} {as : List Access} (h : touches x as = false) :
    writesSlot x as = false := by
  simp only [writesSlot, touches, any_eq_false, Bool.and_eq_true, not_and] at h ⊢
  exact fun a ha _ => h a ha

/-- A slot read first is read. -/
theorem mem_of_readsFirst {x : LocalLocation} {as : List Access} (h : readsFirst x as) : read x ∈ as := by
  induction as with
  | nil => cases h
  | cons a as ih =>
    simp only [readsFirst] at h
    split at h
    · cases a <;> simp_all [slot, isWrite]
    · exact mem_cons_of_mem _ (ih h)

/-! ## Accesses against the summary of a block -/

section

variable (owned : Nat → Option LocalLocation) {x : LocalLocation}

theorem read_mem_readsOf {y : Option LocalLocation} : read x ∈ readsOf y ↔ y = some x := by
  cases y <;> simp [readsOf, eq_comm]

/-- The slots an operation reads are among its `localReads`. -/
theorem mem_localReads_of_own_read {h : Head K} {fresh : Bool}
    (hr : read x ∈ h.borrowAccesses ++ h.actAccesses owned fresh) : x ∈ h.localReads owned := by
  cases h with
  | load n | del n =>
    obtain ⟨id, loc⟩ := n
    cases loc with
    | cell c => cases c <;>
        simp_all [borrowAccesses, borrowedNames, actAccesses, localReads, cellUse,
          localLocation, cellLocation, read_mem_readsOf]
    | _ => simp_all [borrowAccesses, borrowedNames, actAccesses, localReads, cellUse,
        localLocation, cellLocation]
  | store n =>
    obtain ⟨id, loc⟩ := n
    cases loc with
    | cell c => cases c <;> cases fresh <;>
        simp_all [borrowAccesses, borrowedNames, actAccesses, localReads, cellUse,
          localLocation, cellLocation, read_mem_readsOf]
    | _ => simp_all [borrowAccesses, borrowedNames, actAccesses]
  | takeOperand n =>
    cases hn : n.localLocation <;> simp_all [borrowAccesses, borrowedNames, actAccesses, localReads]
  | callArgumentOp kind callable buffer =>
    simp only [borrowAccesses, borrowedNames, actAccesses, localReads] at hr ⊢
    cases hk : kind.consumesBufferBeforeHelper <;> cases hk2 : kind.replacesBuffer <;>
      simp_all [read_mem_readsOf]
  | comprehensionInsert kind n | iteratorStep n =>
    simp_all [borrowAccesses, borrowedNames, actAccesses, localReads, read_mem_readsOf]
  | cellRef location =>
    cases location <;> simp_all [borrowAccesses, borrowedNames, actAccesses, localReads, cellUse,
      read_mem_readsOf]
  | makeCell | op k => simp_all [borrowAccesses, borrowedNames, actAccesses]

/-- The slots an instruction reads are among its `localReads`. -/
theorem mem_localReads_of_read (i : Instr X K) (hr : read x ∈ i.accesses owned) : x ∈ i.localReads owned := by
  induction i using Instr.induct with
  | mk y h ops ih =>
    rw [accesses_mk, append_assoc, mem_append, mem_append] at hr
    rw [localReads_mk, mem_append]
    rcases hr with hr | hr | hr
    · exact .inl (mem_localReads_of_own_read owned (mem_append_left (h.actAccesses owned false) hr))
    · rw [accessesList_eq_flatMap, mem_flatMap] at hr
      obtain ⟨j, hj, hr⟩ := hr
      rw [localReadsList_eq_flatMap, mem_flatMap]
      exact .inr ⟨j, hj, ih j hj hr⟩
    · exact .inl (mem_localReads_of_own_read owned (mem_append_right _ hr))

theorem mem_localReadsList_of_read (is : List (Instr X K))
    (hr : read x ∈ accessesList owned is) : x ∈ localReadsList owned is := by
  rw [accessesList_eq_flatMap, mem_flatMap] at hr
  obtain ⟨j, hj, hr⟩ := hr
  rw [localReadsList_eq_flatMap, mem_flatMap]
  exact ⟨j, hj, mem_localReads_of_read owned j hr⟩

theorem writesSlot_of_unbind {as : List Access} (h : unbind x ∈ as) : writesSlot x as :=
  any_eq_true.mpr ⟨_, h, by simp [isWrite, slot]⟩

/-- A statement writes the slot at its root. -/
theorem writesSlot_of_rootDefs (i : Instr X K) (hx : x ∈ i.head.rootDefs) : writesSlot x (i.accesses owned) := by
  obtain ⟨y, h, ops⟩ := i
  simp only [accesses_mk, writesSlot_append, Bool.or_eq_true]
  right
  cases h with
  | store n | del n =>
    obtain ⟨id, loc⟩ := n
    cases loc <;> simp_all [rootDefs, localLocation, actAccesses, writesSlot, isWrite,
      slot]
  | callArgumentOp kind callable buffer =>
    simp only [Instr.head_mk, rootDefs] at hx
    split at hx
    · rename_i hk
      rw [Option.mem_toList] at hx
      simp [actAccesses, hk, hx, writesSlot, isWrite, slot]
    · simp at hx
  | _ => simp [rootDefs] at hx

/-! ## The fold over the body -/

/-- What a run of statements adds to the summary of a block: a slot it reads first, not defined before, is a use; a slot
it does not write is not newly defined; uses stay. -/
theorem effects_foldl (is : List (Instr X K)) (e : BlockLocalEffects) (x : LocalLocation) :
    (x ∈ e.uses → x ∈ (is.foldl (instr owned) e).uses) ∧
      (x ∉ e.defs → readsFirst x (accessesList owned is) →
        x ∈ (is.foldl (instr owned) e).uses) ∧
      (x ∉ e.defs → writesSlot x (accessesList owned is) = false →
        x ∉ (is.foldl (instr owned) e).defs) := by
  induction is generalizing e with
  | nil => exact ⟨id, fun _ h => by simp [readsFirst] at h, fun h _ => h⟩
  | cons i is ih =>
    obtain ⟨h1, h2, h3⟩ := ih (e.instr owned i)
    have huse : x ∈ e.uses → x ∈ (e.instr owned i).uses := fun h => Finset.mem_union_left _ h
    have hdef : x ∉ e.defs → writesSlot x (i.accesses owned) = false → x ∉ (e.instr owned i).defs := by
      intro hx hw hmem
      simp only [instr, Finset.mem_union, mem_toFinset] at hmem
      rcases hmem with (hmem | hmem) | hmem
      · exact hx hmem
      · rw [writesSlot_of_unbind (unbind_mem_accesses owned i hmem)] at hw; cases hw
      · rw [writesSlot_of_rootDefs owned i hmem] at hw; cases hw
    simp only [foldl_cons, accessesList_cons, readsFirst_append, writesSlot_append, Bool.or_eq_true,
      Bool.or_eq_false_iff, Bool.and_eq_true, Bool.not_eq_true']
    refine ⟨fun h => h1 (huse h), fun hx hr => ?_, fun hx hw => h3 (hdef hx hw.1) hw.2⟩
    rcases hr with hr | ⟨ht, hr⟩
    · apply h1
      have hread := mem_localReads_of_read owned i (mem_of_readsFirst hr)
      simp [instr, hread, hx]
    · exact h2 (hdef hx (writesSlot_eq_false_of_touches ht)) hr

end

/-! ## Visits of a block -/

/-- The accesses of a visit: the parameters are bound, then the block runs. -/
def Block.visitAccesses (f : BlockPyFunction (Instr X K)) (b : Block (Instr X K)) : List Access :=
  (f.paramLocations b.params).map bind ++ b.accesses f.ownedCell

section

variable {f : BlockPyFunction (Instr X K)} {b : Block (Instr X K)} {x : LocalLocation}

theorem writesSlot_map_bind (xs : List LocalLocation) : writesSlot x (xs.map bind) = decide (x ∈ xs) := by
  simp [writesSlot, any_map, Function.comp_def, isWrite, slot, any_beq']

theorem readsFirst_map_bind (xs : List LocalLocation) : readsFirst x (xs.map bind) = false := by
  induction xs with
  | nil => rfl
  | cons y ys ih =>
    simp [readsFirst, slot, isWrite, ih]

/-- A slot a visit does not write is not defined by the body. -/
theorem not_mem_bodyDefs (hw : writesSlot x (b.visitAccesses f) = false) :
    x ∉ (b.body.foldl (instr f.ownedCell) ⟨∅, (f.paramLocations b.params).toFinset⟩).defs := by
  simp only [visitAccesses, accesses, writesSlot_append, Bool.or_eq_false_iff, writesSlot_map_bind,
    decide_eq_false_iff_not] at hw
  exact (effects_foldl f.ownedCell b.body _ x).2.2 (by simpa using hw.1) hw.2.1

/-- A slot a visit does not write is not a definition of the block. -/
theorem not_mem_defs (hw : writesSlot x (b.visitAccesses f) = false) : x ∉ (blockLocalEffects f b).defs := by
  intro hmem
  simp only [blockLocalEffects, Finset.mem_union, mem_toFinset] at hmem
  rcases hmem with hmem | hmem
  · exact not_mem_bodyDefs hw hmem
  · have := writesSlot_of_unbind (unbind_mem_accessesList f.ownedCell b.term.operands hmem)
    simp [visitAccesses, accesses, this] at hw

/-- A slot the terminator reads, not written by the visit before, is a use of the block. -/
theorem mem_uses_of_termReads (hw : writesSlot x ((f.paramLocations b.params).map bind ++
    accessesList f.ownedCell b.body) = false) (hx : x ∈ f.termReads b.term) : x ∈ (blockLocalEffects f b).uses := by
  simp only [writesSlot_append, Bool.or_eq_false_iff, writesSlot_map_bind, decide_eq_false_iff_not] at hw
  have hd := (effects_foldl f.ownedCell b.body ⟨∅, (f.paramLocations b.params).toFinset⟩ x).2.2 (by simpa using hw.1) hw.2
  simp [blockLocalEffects, hx, hd]

/-- A slot a visit reads first is a use of the block. -/
theorem mem_uses_of_readsFirst (hr : readsFirst x (b.visitAccesses f)) : x ∈ (blockLocalEffects f b).uses := by
  rw [visitAccesses, accesses, ← append_assoc, readsFirst_append, readsFirst_append,
    readsFirst_map_bind, Bool.false_or] at hr
  simp only [Bool.or_eq_true, Bool.and_eq_true, Bool.not_eq_true'] at hr
  rcases hr with ⟨ht, hr⟩ | ⟨ht, hr⟩
  · have hp : x ∉ f.paramLocations b.params := by
      simpa [writesSlot_map_bind] using writesSlot_eq_false_of_touches ht
    have := (effects_foldl f.ownedCell b.body ⟨∅, (f.paramLocations b.params).toFinset⟩ x).2.1 (by simpa using hp) hr
    exact Finset.mem_union_left _ this
  · refine mem_uses_of_termReads (writesSlot_eq_false_of_touches ht) ?_
    exact mem_append_left _ (mem_localReadsList_of_read f.ownedCell _ (mem_of_readsFirst hr))

end

/-! ## Execution suffixes -/

namespace Departure

variable (f : BlockPyFunction (Instr X K)) (d : Departure X K)

/-- The accesses of the visit up to the departure. -/
def visitDone : List Access :=
  (f.paramLocations d.source.params).map bind ++ d.done

/-- The slots of the parameters the edge leaves implicit. -/
def implicitReads : List LocalLocation :=
  f.paramLocations (implicitParams d.target.params d.edge.args)

/-- The slots the edge reads: those its arguments name, and the parameters it leaves implicit. -/
def edgeReads : List LocalLocation :=
  f.argReads d.edge.args ++ d.implicitReads f

/-- The reads of an edge that the summary of the block it leaves does not count. -/
def uncountedReads : List LocalLocation :=
  (if d.exceptional then f.argReads d.edge.args else []) ++ d.implicitReads f

/-- The departure is one that the summary of the block accounts for, as far as slot `x` goes: the visit has accessed `x`,
or what it leaves undone would read `x` before writing it, or that does not write `x` and the edge does not pass `x` on in
a way the summary does not count. -/
def Safe (f : BlockPyFunction (Instr X K)) (x : LocalLocation) (d : Departure X K) : Prop :=
  touches x (d.visitDone f) = true ∨ readsFirst x d.rest = true ∨ (writesSlot x d.rest = false ∧ x ∉ d.uncountedReads f)

end Departure

/-- An execution suffix from the entry of a block, as the list of accesses it performs, all its departures being `safe`.
It is observed up to any point. -/
inductive Suffix (f : ValidFunction X K) (safe : Departure X K → Prop) : BlockLabel → List Access → Prop where
  | stop {b : Block (Instr X K)} {pre rest : List Access} :
      b ∈ f.blocks → b.visitAccesses f = pre ++ rest → Suffix f safe b.label pre
  | depart {d : Departure X K} {as : List Access} :
      Departs f d → safe d → Suffix f safe d.target.label as →
      Suffix f safe d.source.label
        (d.visitDone f ++ (d.edgeReads f).map read ++ as)

/-! ## Soundness -/

section

variable {f : ValidFunction X K} {x : LocalLocation} {d : Departure X K}

/-- What a departure has done and leaves undone is the visit. -/
theorem Departs.visit_eq (h : Departs f d) :
    d.source.visitAccesses f = d.visitDone f ++ d.rest := by
  rw [visitAccesses, h.accesses_eq, visitDone, append_assoc]

/-- What a departure adds to a suffix. -/
def Departure.trace (f : BlockPyFunction (Instr X K)) (d : Departure X K) : List Access :=
  d.visitDone f ++ (d.edgeReads f).map read

/-- The departure a move makes. -/
structure Move.DepartsBy {R : Runtime K} (f : ValidFunction X K) (m : Move X K R.World) (d : Departure X K) : Prop where
  departs : Departs f d
  source : d.source = m.source
  target : d.target = m.target
  edge : d.edge = m.edge
  done : m.left.bound = applyAccesses d.done m.before.bound

/-- The moves of a frame from the entry of a block on, up to the entry of another. -/
inductive MovesOn (f : ValidFunction X K) (R : Runtime K) :
    BlockLabel → State R.World → List (Move X K R.World) → BlockLabel → State R.World → Prop where
  | stay (l : BlockLabel) (σ : State R.World) : MovesOn f R l σ [] l σ
  | move {m : Move X K R.World} {ms : List (Move X K R.World)} {l : BlockLabel} {σ : State R.World} :
      Moves f R m → MovesOn f R m.target.label m.after ms l σ → MovesOn f R m.source.label m.before (m :: ms) l σ

/-- What a frame does from the entry of a block on is a suffix: each of its moves makes a departure, and if these are safe,
their accesses and any part of the visit to the last block are those of a suffix. -/
theorem MovesOn.suffix {R : Runtime K} {l l' : BlockLabel} {σ σ' : State R.World} {ms : List (Move X K R.World)}
    (h : MovesOn f R l σ ms l' σ') (safe : Departure X K → Prop) {b : Block (Instr X K)} (hb : b ∈ f.blocks)
    (hl : b.label = l') {pre rest : List Access} (hv : b.visitAccesses f = pre ++ rest) :
    ∃ ds, List.Forall₂ (Move.DepartsBy f) ms ds ∧
      ((∀ d ∈ ds, safe d) → Suffix f safe l (ds.flatMap (Departure.trace f.toBlockPyFunction) ++ pre)) := by
  induction h with
  | stay => exact ⟨[], .nil, fun _ => hl ▸ .stop hb hv⟩
  | @move m ms l' σ' hm _ ih =>
    obtain ⟨ds, hds, hsuffix⟩ := ih hl
    obtain ⟨d, hd, hsource, htarget, hedge, hdone, -⟩ := hm.departs
    refine ⟨d :: ds, .cons ⟨hd, hsource, htarget, hedge, hdone⟩ hds, fun hsafe => ?_⟩
    have hlast := hsuffix fun d' hd' => hsafe d' (mem_cons_of_mem _ hd')
    rw [← htarget] at hlast
    rw [← hsource, flatMap_cons, append_assoc]
    exact .depart hd (hsafe d mem_cons_self) hlast

theorem mem_liveIn_of_uses {b : Block (Instr X K)} (hb : b ∈ f.blocks) (hx : x < f.localCount)
    (hu : x ∈ (blockLocalEffects f b).uses) :
    x ∈ computeLocalLiveness f.toBlockPyFunction b.label := by
  rw [computeLocalLiveness_eq f hb, mem_newLiveIn]
  exact .inl ⟨hu, hx⟩

/-- A slot that the edge of a safe departure reads, the visit not having accessed it, is a use of the block. -/
theorem Departs.mem_uses_of_edgeReads (h : Departs f d)
    (ht : touches x (d.visitDone f) = false) (hx : x ∈ d.edgeReads f)
    (hu : x ∉ d.uncountedReads f) :
    x ∈ (blockLocalEffects f d.source).uses := by
  cases h with
  | normal hb _ _ he =>
    simp only [edgeReads, mem_append] at hx
    have harg := hx.resolve_right hu
    refine mem_uses_of_termReads ?_ (mem_append_right _ (mem_flatMap.mpr ⟨_, he, harg⟩))
    have hw := writesSlot_eq_false_of_touches ht
    simp only [visitDone, accesses, ← append_assoc] at hw
    rw [writesSlot_append, Bool.or_eq_false_iff] at hw
    exact hw.1
  | exceptional => exact absurd hx (by simpa [edgeReads, uncountedReads] using hu)

/-- A slot that a suffix with safe departures reads before it writes it is live at the entry the suffix starts from. -/
theorem liveness_sound (hx : x < f.localCount) {l : BlockLabel} {as : List Access}
    (h : Suffix f (Departure.Safe f x) l as) (hr : readsFirst x as = true) :
    x ∈ computeLocalLiveness f.toBlockPyFunction l := by
  induction h with
  | @stop b pre rest hb hv =>
    refine mem_liveIn_of_uses hb hx (mem_uses_of_readsFirst ?_)
    rw [hv, readsFirst_append, hr, Bool.true_or]
  | @depart d as hd hsafe _ ih =>
    have hb := hd.source_mem
    rw [append_assoc, readsFirst_append, Bool.or_eq_true, Bool.and_eq_true, Bool.not_eq_true'] at hr
    rcases hr with hr | ⟨ht, hr⟩
    · -- read by the visit itself
      refine mem_liveIn_of_uses hb hx (mem_uses_of_readsFirst ?_)
      rw [hd.visit_eq, readsFirst_append, hr, Bool.true_or]
    · rcases hsafe with hs | hs | ⟨hw, hu⟩
      · rw [ht] at hs; cases hs
      · -- the part left undone reads the slot first, so the block uses it
        refine mem_liveIn_of_uses hb hx (mem_uses_of_readsFirst ?_)
        rw [hd.visit_eq, readsFirst_append, ht, hs, Bool.not_false, Bool.true_and, Bool.or_true]
      · rw [readsFirst_append, Bool.or_eq_true, Bool.and_eq_true] at hr
        rcases hr with hr | ⟨_, hr⟩
        · refine mem_liveIn_of_uses hb hx (hd.mem_uses_of_edgeReads ht ?_ hu)
          simpa using mem_of_readsFirst hr
        · -- live where the departure leads, and not written by the visit
          rw [computeLocalLiveness_eq f hb, mem_newLiveIn]
          refine .inr ⟨⟨_, hd.mem_successors, ih hr⟩, fun hdefs => not_mem_defs ?_ hdefs.1⟩
          rw [hd.visit_eq, writesSlot_append, writesSlot_eq_false_of_touches ht, hw, Bool.or_false]

end

/-! ## A handler that reads a slot its block rebinds -/

namespace LivenessExample

open InstrBlockPy

def x : ResolvedName := localName "x" 0

def y : ResolvedName := localName "y" 1

def callG : InstrBlockPy := call (load ⟨"g", .globalName⟩) []

def tryBlock : Block InstrBlockPy :=
  { label := 1, body := [store x callG], term := .ret (load x), excEdge := some ⟨2, []⟩ }

def handler : Block InstrBlockPy :=
  { label := 2, body := [], term := .ret (op .tuple [load x, load y]) }

/-- `y = g(); x = g(); try: x = g(); return x; except: return (x, y)`. -/
def tryRebind : ValidFunction Unit BlockPyOp where
  params := []
  stackSlots := ["x", "y"]
  blocks := [
    { label := 0, body := [store y callG, store x callG], term := .jump ⟨1, []⟩ },
    tryBlock, handler]
  nonempty := by decide
  labelsNodup := by decide
  targetsKnown := by decide
  slotsNodup := by decide
  statementWrites := by decide

/-- The exception leaves block 1 before it rebinds `x`. -/
def departure : Departure Unit BlockPyOp :=
  ⟨tryBlock, handler, ⟨2, []⟩, true, [], [.bind 0, .read 0]⟩

theorem departs : Departs tryRebind departure := by
  have hb : tryBlock ∈ tryRebind.blocks := by simp [tryRebind, tryBlock]
  have hc : handler ∈ tryRebind.blocks := by simp [tryRebind, handler]
  have hacc : tryBlock.accesses tryRebind.ownedCell = [] ++ [.bind 0, .read 0] := by decide
  exact Departs.exceptional hb hc rfl rfl hacc

/-- The suffix that leaves block 1 by that exception and ends in the handler, which reads `x` and `y`. -/
theorem suffix {safe : Departure Unit BlockPyOp → Prop} (h : safe departure) :
    Suffix tryRebind safe 1 [.read 0, .read 1] := by
  have hc : handler ∈ tryRebind.blocks := by simp [tryRebind, handler]
  have hv : handler.visitAccesses tryRebind = [.read 0, .read 1] ++ [] := by decide
  exact Suffix.depart departs h (Suffix.stop hc hv)

end LivenessExample

open LivenessExample in
/-- The call in block 1 raises before `x` is rebound, the handler reads `x`, and `x` is not live at the entry of block 1:
the definition later in the block kills it. -/
theorem liveness_false : Suffix tryRebind (fun _ => True) 1 [.read 0, .read 1] ∧ readsFirst 0 [.read 0, .read 1] = true ∧
    0 < tryRebind.localCount ∧ 0 ∉ computeLocalLiveness tryRebind.toBlockPyFunction 1 :=
  ⟨suffix trivial, by decide, by decide, by decide +kernel⟩

open LivenessExample in
/-- On the same suffix `y`, which block 1 does not define, is live. -/
theorem liveness_sound_tryRebind : 1 ∈ computeLocalLiveness tryRebind.toBlockPyFunction 1 := by
  have hs : Suffix tryRebind (Departure.Safe tryRebind 1) 1 [.read 0, .read 1] :=
    suffix (.inr (.inr ⟨by decide, by decide⟩))
  have hx : 1 < tryRebind.localCount := by decide
  have hr : readsFirst 1 [.read 0, .read 1] = true := by decide
  exact liveness_sound hx hs hr

end Soac
