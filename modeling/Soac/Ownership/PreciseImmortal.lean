import Soac.Lib.PullWorklist
import Soac.Ir.Typed
import Soac.Ownership.MustBound

/-!
# Locals that hold immortal objects

`compute_typed_precise_immortal_entry_states_from_parts`: a forward analysis of a typed function that marks the slots
known to hold an immortal object at the entry of each block, so that the reference counting of these slots can be left
out. What a block is entered with is the intersection of what its predecessors send along their edges, the exception edge
being an edge like the others; a predecessor that was not visited yet is left out of the intersection. The liveness of the
function is an input.

Nothing makes the queue of the source run empty: an early visit, made before any predecessor was visited, starts from
nothing and may grow later. So the analysis is given a number of visits and returns nothing when they are not enough.
-/

namespace Soac

open List

variable {K : Type}

/-- The facts of the instructions of one function. -/
abbrev FactStore := InstrId → Option ValueFacts

variable (facts : FactStore)

/-- The facts say that the result of an expression is immortal: those of its sidecar if it has any about objects, those
of the store otherwise. -/
def factsImmortal (e : Instr TypedInstrExtra K) : Bool :=
  match e.extra.resultFacts with
  | some (.pyObj p) => p.isImmortal
  | _ => (((e.extra.instrId.bind facts).bind ValueFacts.asPyobj).map PyObjFacts.isImmortal).getD false

def typedExprIsPreciselyImmortal (state : LocalBitSet) (e : Instr TypedInstrExtra K) : Bool :=
  if e.extra.plannedPyobjectOwnership = some .immortal then true
  else
    match localLoadLocation e with
    | some x => decide (x ∈ state)
    | none => factsImmortal facts e

/-! ## Transfer through a block -/

/-- The value a store stores. -/
def Instr.storedValue {X : Type} : Instr X K → Option (Instr X K)
  | .mk _ (.store _) ops => ops.head?
  | _ => none

variable (owned : Nat → Option LocalLocation)

/-- What the root of a statement does to the marked slots, after its operands have been taken. -/
def Instr.immortalRoot (state : LocalBitSet) (i : Instr TypedInstrExtra K) : LocalBitSet :=
  match i.head with
  | .store n =>
    match storeBindingLocation owned n (storesFreshCell i.operands) with
    | none => state
    | some x =>
      if (i.storedValue.map (typedExprIsPreciselyImmortal facts state)).getD false then insert x state
      else state.erase x
  | .del n _ => state \ n.localLocation.toFinset
  | .callArgumentOp kind _ buffer => if kind.replacesBuffer then state \ buffer.localLocation.toFinset else state
  | _ => state

def transferImmortalInstr (state : LocalBitSet) (i : Instr TypedInstrExtra K) : LocalBitSet :=
  i.immortalRoot facts owned (state \ i.operandTakes.toFinset)

/-- `transfer_typed_precise_immortal_state_through_block`. -/
def transferImmortalThroughBlock (b : Block (Instr TypedInstrExtra K)) (state : LocalBitSet) : LocalBitSet :=
  b.body.foldl (transferImmortalInstr facts owned) state \ b.term.operandTakes.toFinset

/-! ## Along an edge -/

variable {I : Type} {liveIn states : BlockLabel → LocalBitSet} (f : BlockPyFunction I)

/-- Whether an edge passes an immortal object. -/
def BlockPyFunction.argImmortal (exit : LocalBitSet) : BlockArg → Bool
  | .name n => (f.locationByName n).any fun x => decide (x ∈ exit)
  | .none => true
  | .currentException | .abruptKind _ => false

/-- `typed_successor_precise_immortal_state`: the parameters that are passed an immortal object or keep one, and the live
slots that are not parameters. -/
def successorImmortalState (liveIn : LocalBitSet) (params : List BlockParam)
    (args : List BlockArg) (exit : LocalBitSet) : LocalBitSet :=
  ((explicitParams params args).filterMap fun pa =>
      if f.argImmortal exit pa.2 then f.locationByName pa.1.name else none).toFinset ∪
    ((f.paramLocations (implicitParams params args)).toFinset ∩ exit) ∪
    ((liveIn \ (f.paramLocations params).toFinset) ∩ exit)

/-! ## The analysis -/

/-- `typed_successor_edges`: the exception edge first, then the normal edges. -/
def Block.successorEdges (b : Block I) : List BlockEdge :=
  b.excEdge.toList ++ b.term.edges

/-- `predecessor_edges`: the edges into a block, each with the block it comes from. -/
def BlockPyFunction.predecessorEdges (l : BlockLabel) : List (BlockLabel × BlockEdge) :=
  f.blocks.flatMap fun b => (b.successorEdges.filter fun e => e.target == l).map fun e => (b.label, e)

variable (f : BlockPyFunction (Instr TypedInstrExtra K))

/-- How the analysis recomputes a block. -/
def immortalFlow (facts : FactStore) (liveIn : BlockLabel → LocalBitSet) :
    PullWorklist.Flow BlockLabel LocalBitSet LocalBitSet where
  gather out l :=
    let params := ((f.block? l).map (·.params)).getD []
    -- `merge_precise_immortal_incoming_states`
    meetAll ((f.predecessorEdges l).filterMap fun pe =>
      (out pe.1).map (successorImmortalState f (liveIn l) params pe.2.args))
  transfer l state :=
    match f.block? l with
    | some b => transferImmortalThroughBlock facts f.ownedCell b state
    | none => state
  readers l := ((f.block? l).map Block.successors).getD []

/-- Nothing is marked, and every block is queued, in order. -/
def immortalTable : PullWorklist.Table BlockLabel LocalBitSet LocalBitSet where
  entry _ := ∅
  out _ := none
  queued l := f.labels.contains l
  pending := f.labels

/-- `compute_typed_precise_immortal_entry_states_from_parts`, with at most `fuel` visits. -/
def computePreciseImmortalEntryStates (facts : FactStore)
    (liveIn : BlockLabel → LocalBitSet) (fuel : Nat) : Option (BlockLabel → LocalBitSet) :=
  (PullWorklist.loop (immortalFlow f facts liveIn) fuel (immortalTable f)).map (·.entry)

/-! ## Overrides -/

/-- What reference counting takes a slot to hold. -/
inductive LocalRefState where
  | unbound
  | borrowed
  | owned
  | immortal
deriving DecidableEq, Repr

/-- `apply_precise_immortal_overrides`: marked slots are taken for immortal. -/
def applyPreciseImmortalOverrides (env : LocalLocation → Option LocalRefState) (precise : LocalBitSet) :
    LocalLocation → Option LocalRefState :=
  fun x => if x ∈ precise then some .immortal else env x

/-! ## What the loop ends with -/

variable {e : BlockEdge}

theorem mem_predecessorEdges {f : BlockPyFunction I} {l p : BlockLabel} :
    (p, e) ∈ f.predecessorEdges l ↔ ∃ b ∈ f.blocks, b.label = p ∧ e ∈ b.successorEdges ∧ e.target = l := by
  simp only [BlockPyFunction.predecessorEdges, mem_flatMap, mem_map, mem_filter, beq_iff_eq,
    Prod.mk.injEq]
  constructor
  · rintro ⟨b, hb, e', ⟨he, ht⟩, hl, rfl⟩
    exact ⟨b, hb, hl, he, ht⟩
  · rintro ⟨b, hb, hl, he, ht⟩
    exact ⟨b, hb, e, ⟨he, ht⟩, hl, rfl⟩

theorem mem_successors_of_edge {b : Block I} (he : e ∈ b.successorEdges) : e.target ∈ b.successors := by
  simp only [Block.successorEdges, mem_append, Option.mem_toList] at he
  simp only [Block.successors, mem_append, mem_map]
  rcases he with he | he
  · exact .inl (by simp [he])
  · exact .inr ⟨e, he, rfl⟩

variable (f : ValidFunction TypedInstrExtra K)

/-- What a block is entered with depends on the predecessors that list it as a successor. -/
theorem immortalFlow_reads (facts : FactStore)
    (liveIn : BlockLabel → LocalBitSet) : (immortalFlow f.toBlockPyFunction facts liveIn).Reads := by
  intro l out out' h
  simp only [immortalFlow]
  congr 1
  apply filterMap_congr
  rintro ⟨p, e⟩ hpe
  obtain ⟨b, hb, rfl, he, ht⟩ := mem_predecessorEdges.mp hpe
  have hread : l ∈ (immortalFlow f.toBlockPyFunction facts liveIn).readers b.label := by
    simp only [immortalFlow, f.block?_eq hb, Option.map_some, Option.getD_some]
    rw [← ht]
    exact mem_successors_of_edge he
  rw [h b.label hread]

variable {facts : FactStore} {fuel : Nat}

section

variable (h : computePreciseImmortalEntryStates f.toBlockPyFunction facts liveIn fuel = some states)
include h

/-- When the analysis ends, every block has sent out what it makes of its entry, and is entered with what the others sent
out. -/
theorem preciseImmortal_settled :
    ∃ out : BlockLabel → Option LocalBitSet, ∀ b ∈ f.blocks,
      out b.label = some (transferImmortalThroughBlock facts f.ownedCell b (states b.label)) ∧
      states b.label = meetAll ((f.predecessorEdges b.label).filterMap fun pe =>
        (out pe.1).map (successorImmortalState f.toBlockPyFunction (liveIn b.label) b.params pe.2.args)) := by
  obtain ⟨t, hloop, rfl⟩ := Option.map_eq_some_iff.mp h
  have hinit : PullWorklist.Inv (immortalFlow f.toBlockPyFunction facts liveIn) f.labels
      (immortalTable f.toBlockPyFunction) := by
    refine ⟨fun l hl => ?_, fun l o ho => ?_, fun l hl hp => absurd hl hp⟩
    · simpa [immortalTable] using hl
    · cases ho
  refine ⟨t.out, fun b hb => ?_⟩
  obtain ⟨hout, hentry⟩ := PullWorklist.loop_settled (immortalFlow_reads f facts liveIn) hinit hloop b.label
    (mem_map_of_mem hb)
  simp only [immortalFlow, f.block?_eq hb, Option.map_some, Option.getD_some] at hout hentry
  exact ⟨hout, hentry⟩

/-- What a block is entered with is covered by every edge into it. -/
theorem preciseImmortal_subset_edge {b c : Block (Instr TypedInstrExtra K)} (hb : b ∈ f.blocks) (hc : c ∈ f.blocks)
    (he : e ∈ b.successorEdges) (ht : c.label = e.target) :
    states c.label ⊆ successorImmortalState f.toBlockPyFunction (liveIn c.label) c.params e.args
      (transferImmortalThroughBlock facts f.ownedCell b (states b.label)) := by
  obtain ⟨out, hset⟩ := preciseImmortal_settled f h
  intro x hx
  rw [(hset c hc).2, mem_meetAll] at hx
  refine hx.2 _ (mem_filterMap.mpr ⟨(b.label, e), mem_predecessorEdges.mpr ⟨b, hb, rfl, he, ht.symm⟩, ?_⟩)
  simp [(hset b hb).1]

/-- ... and a block without an edge into it is entered with nothing marked. -/
theorem preciseImmortal_exists_edge
    {c : Block (Instr TypedInstrExtra K)} (hc : c ∈ f.blocks) {x : LocalLocation} (hx : x ∈ states c.label) :
    ∃ b ∈ f.blocks, ∃ e ∈ b.successorEdges, c.label = e.target := by
  obtain ⟨out, hset⟩ := preciseImmortal_settled f h
  rw [(hset c hc).2, mem_meetAll] at hx
  obtain ⟨s, hs⟩ := exists_mem_of_ne_nil _ hx.1
  obtain ⟨⟨p, e⟩, hpe, _⟩ := mem_filterMap.mp hs
  obtain ⟨b, hb, rfl, he, ht⟩ := mem_predecessorEdges.mp hpe
  exact ⟨b, hb, e, he, ht.symm⟩

end

end Soac
