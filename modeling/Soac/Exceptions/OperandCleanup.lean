import Mathlib.Data.List.Sort
import Soac.Ir.Block
import Soac.Lib.SetFlow

/-!
# Operand unwinding

Expression lowering keeps the operands of an unfinished expression in slots of their own, each stored with an unwind order.
When an instruction raises, the operands acquired so far are released before the handler starts, the most recent first.
`materialize_operand_unwinds` puts the releases into the control-flow graph: an exception edge gets a block in front of its
target that deletes every operand which may have been acquired and which the handler does not read any more.
-/

namespace Soac

/-- An operand slot. -/
structure Operand where
  name : ResolvedName
  unwindOrder : Nat
deriving DecidableEq, Repr

def Operand.location (o : Operand) : NameLocation :=
  o.name.location

/-- The order in which operands are unwound. -/
def Operand.UnwindsBefore (o p : Operand) : Prop :=
  p.unwindOrder ≤ o.unwindOrder

instance (o p : Operand) : Decidable (o.UnwindsBefore p) :=
  inferInstanceAs (Decidable (p.unwindOrder ≤ o.unwindOrder))

abbrev LiveSet := Finset NameLocation

/-- Storage an operand may have. -/
def NameLocation.isOwningStorage : NameLocation → Bool
  | .local _ | .preserved _ => true
  | _ => false

def NameLocation.isPreserved : NameLocation → Bool
  | .preserved _ => true
  | _ => false

variable {K : Type}

/-- A resolved instruction carries the lifetime of its store. -/
abbrev InstrResolved (K : Type) := Instr StoreLifetime K

/-! ## Collecting the operands -/

/-- The operand an instruction itself stores. -/
def rootOperand : StoreLifetime → Head K → Option Operand
  | .operand unwindOrder, .store name => some { name, unwindOrder }
  | _, _ => none

mutual

/-- The operand stores of an instruction, the instruction before its operands. -/
def Instr.operandStores : InstrResolved K → List Operand
  | .mk lifetime h ops => (rootOperand lifetime h).toList ++ operandStoresList ops

def operandStoresList : List (InstrResolved K) → List Operand
  | [] => []
  | i :: is => i.operandStores ++ operandStoresList is

end

def Block.operandStores (b : Block (InstrResolved K)) : List Operand :=
  operandStoresList b.body ++ operandStoresList b.term.operands

/-- Enter a store into the table. The storage has to be a slot, and producers that share a slot have to agree on the
order. -/
def insertOperand (table : List Operand) (o : Operand) : Option (List Operand) :=
  if o.location.isOwningStorage then
    match table.find? fun p => p.location = o.location with
    | some previous =>
      if previous.unwindOrder = o.unwindOrder then some (table.map fun p => if p.location = o.location then o else p)
      else none
    | none => some (table ++ [o])
  else none

variable (blocks : List (Block (InstrResolved K)))

/-- The table of operands, in decreasing unwind order. -/
def collectOperands : Option (List Operand) :=
  ((blocks.flatMap Block.operandStores).foldlM insertOperand []).map
    fun table => table.insertionSort Operand.UnwindsBefore

variable (operands : List Operand)

def locations : LiveSet :=
  (operands.map Operand.location).toFinset

/-! ## The operands still read -/

/-- The operands an edge passes by name. -/
def passedOperands (edge : BlockEdge) : LiveSet :=
  ((operands.filter fun o => .name o.name.id ∈ edge.args).map Operand.location).toFinset

def edgeLive (live : BlockLabel → LiveSet) (edge : BlockEdge) : LiveSet :=
  live edge.target ∪ passedOperands operands edge

variable (locs : LiveSet)

/-- A read of a slot, if it is an operand. -/
def readSlot (n : ResolvedName) (live : LiveSet) : LiveSet :=
  if n.location ∈ locs then insert n.location live else live

mutual

/-- `transfer_backwards`. A delete ends a lifetime and is no read. Loads, deletes, takes and iterator steps have no
operands. -/
def transferBackwards (locs : LiveSet) : InstrResolved K → LiveSet → LiveSet
  | .mk _ (.load n) ops, live => transferOperands locs ops (readSlot locs n live)
  | .mk _ (.store n) ops, live => transferOperands locs ops (live.erase n.location)
  | .mk _ (.del n _) ops, live => transferOperands locs ops (live.erase n.location)
  | .mk _ (.takeOperand n) ops, live => transferOperands locs ops (readSlot locs n (live.erase n.location))
  | .mk _ (.iteratorStep n) ops, live => transferOperands locs ops (readSlot locs n live)
  | .mk _ (.callArgumentOp kind callable buffer) ops, live =>
    let live := if kind.replacesBuffer then live.erase buffer.location else live
    readSlot locs buffer (readSlot locs callable (transferOperands locs ops live))
  | .mk _ (.comprehensionInsert _ container) ops, live => transferOperands locs ops (readSlot locs container live)
  | .mk _ .makeCell ops, live => transferOperands locs ops live
  | .mk _ (.cellRef _) ops, live => transferOperands locs ops live
  | .mk _ (.op _) ops, live => transferOperands locs ops live

/-- The operands in the order the visitor walks them. -/
def transferOperands (locs : LiveSet) : List (InstrResolved K) → LiveSet → LiveSet
  | [], live => live
  | i :: is, live => transferOperands locs is (transferBackwards locs i live)

end

/-- What is live at the entry of a block, from what is live at the entries of its targets. -/
def liveInput (b : Block (InstrResolved K)) (live : BlockLabel → LiveSet) : LiveSet :=
  let locs := locations operands
  let out := b.term.edges.foldl (fun out edge => out ∪ edgeLive operands live edge) ∅
  let exceptional := (b.excEdge.map (edgeLive operands live)).getD ∅
  b.body.foldr (fun i live => transferBackwards locs i live ∪ exceptional)
    (transferOperands locs b.term.operands out ∪ exceptional)

/-- `live_inputs`: the blocks are visited last to first until nothing changes. -/
def liveInputs : BlockLabel → LiveSet :=
  RoundRobin.recomputeLoop (·.label) (liveInput operands) blocks.reverse (blocks.length * (locations operands).card + 1)
    (fun _ => ∅)

/-! ## The operands acquired -/

/-- The slots that hold an operand at a point, and those that did at some point of the block up to there. -/
structure AcquireState where
  active : LiveSet
  prefixes : LiveSet

/-- What an instruction itself acquires and gives up. -/
def Head.acquire (h : Head K) (st : AcquireState) : AcquireState :=
  match h with
  | .store n =>
    if n.location ∈ locs then
      { active := insert n.location st.active, prefixes := insert n.location st.prefixes }
    else st
  | .del n _ => { st with active := st.active.erase n.location }
  | .callArgumentOp kind _ buffer =>
    if kind.replacesBuffer ∧ buffer.location ∈ locs then { st with active := insert buffer.location st.active } else st
  | .takeOperand n => { st with active := st.active.erase n.location }
  | _ => st

mutual

/-- The operands of an instruction come before the instruction. -/
def Instr.acquire (locs : LiveSet) : InstrResolved K → AcquireState → AcquireState
  | .mk _ h ops, st => h.acquire locs (acquireList locs ops st)

def acquireList (locs : LiveSet) : List (InstrResolved K) → AcquireState → AcquireState
  | [], st => st
  | i :: is, st => acquireList locs is (i.acquire locs st)

end

def Block.acquire (b : Block (InstrResolved K)) (incoming : LiveSet) : AcquireState :=
  acquireList locs b.term.operands (acquireList locs b.body { active := incoming, prefixes := incoming })

/-- What a block sends to its successors. -/
def acquiredSends (b : Block (InstrResolved K)) (incoming : BlockLabel → LiveSet) : List (BlockLabel × LiveSet) :=
  let st := b.acquire locs (incoming b.label)
  b.term.edges.map (fun edge => (edge.target, st.active)) ++
    (b.excEdge.map fun edge => (edge.target, st.prefixes)).toList

/-- A resumed function starts with operands in the slots it preserved. -/
def resumedOperands (l : BlockLabel) : LiveSet :=
  if blocks.head?.map (·.label) = some l then locs.filter fun x => x.isPreserved else ∅

def acquiredIncoming : BlockLabel → LiveSet :=
  RoundRobin.loop (· ∪ ·) (acquiredSends locs) blocks (blocks.length * locs.card + 1) (resumedOperands blocks locs)

def acquiredPrefixes (blocks : List (Block (InstrResolved K))) (b : Block (InstrResolved K)) : LiveSet :=
  (b.acquire locs (acquiredIncoming blocks locs b.label)).prefixes

/-! ## The cleanup blocks -/

/-- The operands released between a block and its handler, in decreasing unwind order. -/
def releasedOperands (b : Block (InstrResolved K)) (edge : BlockEdge) : List Operand :=
  operands.filter fun o =>
    o.location ∈ acquiredPrefixes (locations operands) blocks b ∧
    o.location ∉ edgeLive operands (liveInputs blocks operands) edge

/-- The block that releases operands on the way to a handler. It takes the handler's parameters and passes them on. -/
def cleanupBlock (label : BlockLabel) (released : List Operand) (target : Block (InstrResolved K)) : Block (InstrResolved K) where
  label := label
  params := target.params
  body := released.map fun o => .mk .frame (.del o.name true) []
  term := .jump ⟨target.label, target.params.map fun p => .name p.name⟩
  handledException := .preserve

/-- One block: its exception edge is led through a cleanup block if there is something to release. -/
def unwindBlock (next : BlockLabel)
    (b : Block (InstrResolved K)) : Option (Block (InstrResolved K) × Option (Block (InstrResolved K))) :=
  match b.excEdge with
  | none => some (b, none)
  | some edge =>
    let released := releasedOperands blocks operands b edge
    if released = [] then some (b, none)
    else
      match blocks.find? fun t => t.label = edge.target with
      | none => some (b, none)
      | some target =>
        if edge.args.length = target.params.length then
          some ({ b with excEdge := some ⟨next, edge.args⟩ }, some (cleanupBlock next released target))
        else none

/-- All blocks; a label is used up for every cleanup block. -/
def unwindBlocks (blocks : List (Block (InstrResolved K))) (operands : List Operand) :
    BlockLabel → List (Block (InstrResolved K)) → Option (List (Block (InstrResolved K)) × List (Block (InstrResolved K)))
  | _, [] => some ([], [])
  | next, b :: bs =>
    (unwindBlock blocks operands next b).bind fun first =>
    (unwindBlocks blocks operands (next + first.2.toList.length) bs).map fun rest =>
    (first.1 :: rest.1, first.2.toList ++ rest.2)

/-- A function with resolved storage: a valid function, the next label its name generator would give out, and operand
slots that are private to expressions, so that an edge binds one to itself at most. -/
structure ResolvedFunction (K : Type) extends ValidFunction StoreLifetime K where
  nextBlockName : BlockLabel
  labelsBelow : ∀ b ∈ blocks, b.label < nextBlockName
  operandsPrivate : ∀ b ∈ blocks, ∀ edge ∈ b.excEdge.toList ++ b.term.edges, ∀ t ∈ blocks, t.label = edge.target →
    ∀ pa ∈ explicitParams t.params edge.args, ∀ o ∈ blocks.flatMap Block.operandStores, o.name.id = pa.1.name →
    pa.2 = .name pa.1.name

/-- `materialize_operand_unwinds`: the blocks it leaves, unless one of its assertions fails. -/
def materializeOperandUnwinds (f : ResolvedFunction K) : Option (List (Block (InstrResolved K))) :=
  (collectOperands f.blocks).bind fun operands =>
  if operands = [] then some f.blocks
  else (unwindBlocks f.blocks operands f.nextBlockName f.blocks).map fun r => r.1 ++ r.2

end Soac
