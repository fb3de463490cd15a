import Mathlib.Data.Finset.Lattice.Fold
import Soac.Lib.SetFlow
import Soac.Ir.BlockPy

/-!
# Liveness of locals

`compute_local_liveness`: a backward round-robin analysis. A block is summarised by the slots it uses before it defines
them and the slots it defines (`block_local_effects`); the slots live at its entry are its uses and what is live at the
entry of a successor and not defined by the block. The exception edge is a successor like the others.
-/

namespace Soac

/-- `LocalBitSet`: a set of slots. -/
abbrev LocalBitSet := Finset LocalLocation

/-- `LocalBitSet::from_locations`: locations past the last slot are dropped. -/
def fromLocations (localCount : Nat) (xs : Finset LocalLocation) : LocalBitSet :=
  xs.filter (· < localCount)

@[simp] theorem mem_fromLocations {n : Nat} {xs : Finset LocalLocation} {x : LocalLocation} :
    x ∈ fromLocations n xs ↔ x ∈ xs ∧ x < n := by
  simp [fromLocations]

variable {X K : Type}

/-! ## Reads and writes -/

/-- `mark_cell_use`: an owned cell is read through the slot that holds it. -/
def cellUse (owned : Nat → Option LocalLocation) : Option CellLocation → List LocalLocation
  | some (.owned slot) => (owned slot).toList
  | _ => []

/-- The slots an operation itself reads. -/
def Head.localReads (owned : Nat → Option LocalLocation) : Head K → List LocalLocation
  | .load n | .del n _ => n.localLocation.toList ++ cellUse owned n.cellLocation
  | .store n => cellUse owned n.cellLocation
  | .cellRef location => cellUse owned (some location)
  | .takeOperand n | .iteratorStep n => n.localLocation.toList
  | .comprehensionInsert _ container => container.localLocation.toList
  | .callArgumentOp _ callable buffer => callable.localLocation.toList ++ buffer.localLocation.toList
  | .makeCell | .op _ => []

mutual

/-- `collect_local_reads`: the slots an instruction reads. -/
def Instr.localReads (owned : Nat → Option LocalLocation) : Instr X K → List LocalLocation
  | .mk _ h ops => h.localReads owned ++ localReadsList owned ops

def localReadsList (owned : Nat → Option LocalLocation) : List (Instr X K) → List LocalLocation
  | [] => []
  | i :: is => i.localReads owned ++ localReadsList owned is

end

variable (owned : Nat → Option LocalLocation)

@[simp] theorem localReads_mk (x : X) (h : Head K) (ops : List (Instr X K)) :
    (Instr.mk x h ops).localReads owned = h.localReads owned ++ localReadsList owned ops := by
  simp [Instr.localReads]

@[simp] theorem localReadsList_nil : localReadsList owned ([] : List (Instr X K)) = [] := by
  simp [localReadsList]

@[simp] theorem localReadsList_cons (i : Instr X K) (is : List (Instr X K)) :
    localReadsList owned (i :: is) = i.localReads owned ++ localReadsList owned is := by
  simp [localReadsList]

theorem localReadsList_eq_flatMap (is : List (Instr X K)) :
    localReadsList owned is = is.flatMap (·.localReads owned) := by
  induction is with
  | nil => simp
  | cons i is ih => simp [ih]

/-- The slot a statement writes at its root. -/
def Head.rootDefs : Head K → List LocalLocation
  | .store n | .del n _ => n.localLocation.toList
  | .callArgumentOp kind _ buffer => if kind.replacesBuffer then buffer.localLocation.toList else []
  | _ => []

/-- The slots the arguments of a jump name. -/
def BlockPyFunction.argReads {I : Type} (f : BlockPyFunction I) (args : List BlockArg) : List LocalLocation :=
  args.filterMap fun
    | .name n => f.locationByName n
    | _ => none

variable (f : BlockPyFunction (Instr X K))

/-- `collect_term_local_reads`: the operands of the terminator, and the arguments of a jump. -/
def BlockPyFunction.termReads (t : BlockTerm (Instr X K)) : List LocalLocation :=
  localReadsList f.ownedCell t.operands ++ t.edges.flatMap (fun e => f.argReads e.args)

/-! ## Effects of a block -/

structure BlockLocalEffects where
  uses : Finset LocalLocation
  defs : Finset LocalLocation
deriving DecidableEq

/-- Reads of slots not yet defined are uses; takes and the write at the root are definitions. -/
def BlockLocalEffects.instr (owned : Nat → Option LocalLocation) (e : BlockLocalEffects) (i : Instr X K) :
    BlockLocalEffects where
  uses := e.uses ∪ ((i.localReads owned).toFinset \ e.defs)
  defs := e.defs ∪ i.operandTakes.toFinset ∪ i.head.rootDefs.toFinset

/-- `block_local_effects`: the parameters are defined on entry. -/
def blockLocalEffects (b : Block (Instr X K)) : BlockLocalEffects :=
  let e := b.body.foldl (BlockLocalEffects.instr f.ownedCell) ⟨∅, (f.paramLocations b.params).toFinset⟩
  { uses := e.uses ∪ ((f.termReads b.term).toFinset \ e.defs), defs := e.defs ∪ b.term.operandTakes.toFinset }

/-! ## The analysis -/

/-- The slots live at the entry of a block, from those live at the entries of its successors. -/
def newLiveIn (b : Block (Instr X K)) (liveIn : BlockLabel → LocalBitSet) : LocalBitSet :=
  let liveOut := b.successors.foldl (fun out l => out ∪ liveIn l) ∅
  fromLocations f.localCount (blockLocalEffects f b).uses ∪
    (liveOut \ fromLocations f.localCount (blockLocalEffects f b).defs)

/-- `compute_local_liveness`: the blocks are visited last to first until nothing changes. Every change adds a slot to the
entry of a block, which bounds the number of rounds. -/
def computeLocalLiveness : BlockLabel → LocalBitSet :=
  RoundRobin.recomputeLoop (·.label) (newLiveIn f) f.blocks.reverse (f.blocks.length * f.localCount + 1) (fun _ => ∅)

/-! ## The result is a fixed point -/

theorem mem_newLiveIn {f : BlockPyFunction (Instr X K)} {b : Block (Instr X K)} {m : BlockLabel → LocalBitSet}
    {x : LocalLocation} : x ∈ newLiveIn f b m ↔
      (x ∈ (blockLocalEffects f b).uses ∧ x < f.localCount) ∨
        ((∃ l ∈ b.successors, x ∈ m l) ∧ ¬(x ∈ (blockLocalEffects f b).defs ∧ x < f.localCount)) := by
  simp [newLiveIn, RoundRobin.mem_foldl_union]

variable (f : ValidFunction X K)

/-- The slots a block uses are live at its entry, and those live after it that it does not define. -/
theorem liveness_flows :
    RoundRobin.Flows (fun b : Block (Instr X K) => b.label) (newLiveIn f) f.blocks.reverse
      (fun b x => x ∈ (blockLocalEffects f b).uses ∧ x < f.localCount)
      (fun b x l => l ∈ b.successors ∧ ¬(x ∈ (blockLocalEffects f b).defs ∧ x < f.localCount))
      (Finset.range f.localCount) where
  labels b hb c hc h := f.eq_of_label (by simpa using hb) (by simpa using hc) h
  mem b _ m x := by
    rw [mem_newLiveIn]
    constructor
    · exact Or.imp id fun ⟨⟨l, hl, hxl⟩, hd⟩ => ⟨l, ⟨hl, hd⟩, hxl⟩
    · exact Or.imp id fun ⟨l, ⟨hl, hd⟩, hxl⟩ => ⟨⟨l, hl, hxl⟩, hd⟩
  bounded _ _ _ h := Finset.mem_range.mpr h.2

/-- The analysis ends in a fixed point: the entry of every block is what its successors make it. -/
theorem computeLocalLiveness_eq {b : Block (Instr X K)} (hb : b ∈ f.blocks) :
    computeLocalLiveness f.toBlockPyFunction b.label =
      newLiveIn f.toBlockPyFunction b (computeLocalLiveness f.toBlockPyFunction) := by
  refine ((liveness_flows f).stable ?_ (List.mem_reverse.mpr hb)).symm
  rw [List.length_reverse, Finset.card_range]
  exact Nat.lt_succ_self _

end Soac
