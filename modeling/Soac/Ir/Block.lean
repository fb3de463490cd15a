import Soac.Ir.Instr
import Soac.Lib.Fallible

/-!
# Blocks, edges and functions

The control-flow graph of a BlockPy function. `BlockPyFunction` holds what the source's record holds of it;
`ValidFunction` adds what `validate.rs` checks of a lowered function and what lowering promises of its layout and of its
statements.
-/

namespace Soac

open List

/-- How control left the protected part of a `finally`. -/
inductive AbruptKind where
  | fallthrough
  | return
  | exception
  | break
  | continue
deriving DecidableEq, Repr

inductive FunctionKind where
  | function
  | generator
  | coroutine
  | asyncGenerator
deriving DecidableEq, Repr

inductive BlockParamRole where
  | value
  | generatorResume
  | enclosingException
  | exception
  | abruptKind
  | abruptPayload
  | enclosingAbruptPayload
deriving DecidableEq, Repr

/-- A block parameter: the local the edge into the block binds. -/
structure BlockParam where
  name : String
  role : BlockParamRole := .value
deriving DecidableEq, Repr

/-- What an edge passes to a parameter. -/
inductive BlockArg where
  | name (name : String)
  | none
  | currentException
  | abruptKind (kind : AbruptKind)
deriving DecidableEq, Repr

structure BlockEdge where
  target : BlockLabel
  args : List BlockArg := []
deriving DecidableEq, Repr

inductive BlockTerm (I : Type) where
  | jump (edge : BlockEdge)
  | ifTerm (test : I) (thenLabel elseLabel : BlockLabel)
  | branchTable (index : I) (targets : List BlockLabel) (defaultLabel : BlockLabel)
  | raise (exc : Option I)
  | ret (value : I)
  | generatorReturn (value : I)
deriving Repr

/-- How a block stands to the exception being handled. -/
inductive HandledExceptionContext where
  | regions
  | preserve
  | unwind
  | terminal
deriving DecidableEq, Repr

structure Block (I : Type) where
  label : BlockLabel
  params : List BlockParam := []
  body : List I
  term : BlockTerm I
  excEdge : Option BlockEdge := none
  handledException : HandledExceptionContext := .regions
deriving Repr

inductive ParamKind where
  | any
  | posOnly
  | varArg
  | kwOnly
  | kwArg
deriving DecidableEq, Repr

structure Param where
  name : String
  kind : ParamKind := .any
deriving DecidableEq, Repr

/-- A function: its parameters, the names of its stack slots, the storage names of its owned cells, and its blocks, the
entry block first. A function without a storage layout has no stack slots. -/
structure BlockPyFunction (I : Type) where
  params : List Param
  bodyParamsOverride : Option (List Param) := none
  stackSlots : List String
  cellvars : List String := []
  blocks : List (Block I)
deriving Repr

variable {I X K : Type}

/-! ## Terminators and edges -/

/-- The operands a terminator evaluates. -/
def BlockTerm.operands : BlockTerm I → List I
  | .jump _ => []
  | .ifTerm test _ _ => [test]
  | .branchTable index _ _ => [index]
  | .raise exc => exc.toList
  | .ret value => [value]
  | .generatorReturn value => [value]

/-- The normal edges of a terminator. Only a jump passes arguments. -/
def BlockTerm.edges : BlockTerm I → List BlockEdge
  | .jump edge => [edge]
  | .ifTerm _ t e => [⟨t, []⟩, ⟨e, []⟩]
  | .branchTable _ targets d => targets.map (fun t => ⟨t, []⟩) ++ [⟨d, []⟩]
  | .raise _ | .ret _ | .generatorReturn _ => []

/-- `block_successors`: the exception edge first, then the normal edges. -/
def Block.successors (b : Block I) : List BlockLabel :=
  (b.excEdge.map (·.target)).toList ++ b.term.edges.map (·.target)

/-- `handled_exception_params`: the active handled regions, outermost first. -/
def Block.handledExceptionParams (b : Block I) : List BlockParam :=
  if b.handledException = .terminal then []
  else b.params.reverse.filter (fun p => p.role = .enclosingException) ++
    b.params.filter (fun p => p.role = .exception)

/-- `pending_abrupt_payload_params`: the pending `finally` payloads, outermost first. -/
def Block.pendingAbruptPayloadParams (b : Block I) : List BlockParam :=
  if b.handledException = .terminal then []
  else b.params.reverse.filter (fun p => p.role = .enclosingAbruptPayload) ++
    b.params.filter (fun p => p.role = .abruptPayload)

/-- `visit_term_operand_takes`, for local slots. -/
def BlockTerm.operandTakes (t : BlockTerm (Instr X K)) : List LocalLocation :=
  operandTakesList t.operands

variable (params : List BlockParam) (args : List BlockArg)

/-- The parameters an edge binds with its arguments: the arguments are aligned with the end of the parameter list. -/
def explicitParams : List (BlockParam × BlockArg) :=
  (params.drop (params.length - args.length)).zip args

/-- The parameters an edge leaves implicit: each keeps the value its local already has. -/
def implicitParams : List BlockParam :=
  params.take (params.length - args.length)

theorem explicitParams_map_fst :
    (explicitParams params args).map Prod.fst = params.drop (params.length - args.length) := by
  refine map_fst_zip ?_
  rw [length_drop]
  omega

variable {params : List BlockParam} {args : List BlockArg}

theorem mem_params_of_explicit {pa : BlockParam × BlockArg} (h : pa ∈ explicitParams params args) : pa.1 ∈ params := by
  have hfst : pa.1 ∈ params.drop (params.length - args.length) := by
    rw [← explicitParams_map_fst]
    exact mem_map_of_mem h
  exact mem_of_mem_drop hfst

/-- Every parameter is left implicit or bound with an argument. -/
theorem mem_params_cases {p : BlockParam} (hp : p ∈ params) (args : List BlockArg) :
    p ∈ implicitParams params args ∨ ∃ a, (p, a) ∈ explicitParams params args := by
  rw [← take_append_drop (params.length - args.length) params, mem_append] at hp
  refine hp.imp id fun hp => ?_
  rw [← explicitParams_map_fst, mem_map] at hp
  obtain ⟨⟨q, a⟩, hqa, rfl⟩ := hp
  exact ⟨a, hqa⟩

/-- Parameters with distinct names: a name is bound with one argument only. -/
theorem eq_of_explicit (hn : (params.map (·.name)).Nodup)
    {pa qb : BlockParam × BlockArg} (hp : pa ∈ explicitParams params args) (hq : qb ∈ explicitParams params args)
    (h : pa.1.name = qb.1.name) : pa = qb := by
  have hnd : ((explicitParams params args).map fun pa => pa.1.name).Nodup := by
    have hmap : ((explicitParams params args).map fun pa => pa.1.name) =
        (params.drop (params.length - args.length)).map (·.name) := by
      rw [← explicitParams_map_fst, map_map]
      rfl
    rw [hmap]
    exact hn.sublist ((drop_sublist _ _).map _)
  exact inj_on_of_nodup_map hnd hp hq h

/-- Parameters with distinct names: a name that is left implicit is not bound with an argument. -/
theorem implicit_ne_explicit (hn : (params.map (·.name)).Nodup)
    {p : BlockParam} {qb : BlockParam × BlockArg} (hp : p ∈ implicitParams params args)
    (hq : qb ∈ explicitParams params args) : p.name ≠ qb.1.name := by
  have hq' : qb.1 ∈ params.drop (params.length - args.length) := by
    rw [← explicitParams_map_fst]
    exact mem_map_of_mem hq
  rw [← take_append_drop (params.length - args.length) params, map_append, nodup_append] at hn
  exact hn.2.2 p.name (mem_map_of_mem hp) qb.1.name (mem_map_of_mem hq')

/-! ## Functions -/

namespace BlockPyFunction

variable (f : BlockPyFunction I)

/-- The parameters of the body: an override for generator bodies, the function's own otherwise. -/
def bodyParams : List Param :=
  f.bodyParamsOverride.getD f.params

def labels : List BlockLabel :=
  f.blocks.map (·.label)

/-- The block with a label. -/
def block? (l : BlockLabel) : Option (Block I) :=
  f.blocks.find? (fun b => b.label == l)

/-- With distinct labels a block is found under its label. -/
theorem block?_of_mem {f : BlockPyFunction I} (hn : (f.blocks.map (·.label)).Nodup) {b : Block I} (hb : b ∈ f.blocks) :
    f.block? b.label = some b :=
  (Fallible.find?_key_eq_some_iff hn).mpr ⟨hb, rfl⟩

/-- `location_by_name`: the slot a name is stored in. -/
def locationByName (n : String) : Option LocalLocation :=
  f.stackSlots.idxOf? n

/-- A slot has one name. -/
theorem locationByName_inj {f : BlockPyFunction I} {n m : String} {x : LocalLocation}
    (hn : f.locationByName n = some x) (hm : f.locationByName m = some x) : n = m := by
  obtain ⟨_, hn, _⟩ := List.idxOf?_eq_some_iff.mp hn
  obtain ⟨_, hm, _⟩ := List.idxOf?_eq_some_iff.mp hm
  exact hn.symm.trans hm

def localCount : Nat :=
  f.stackSlots.length

/-- `owned_cell_locations`: the stack slot that holds an owned cell. -/
def ownedCell (slot : Nat) : Option LocalLocation :=
  f.cellvars[slot]?.bind f.locationByName

/-- The slots of a list of block parameters. -/
def paramLocations (ps : List BlockParam) : List LocalLocation :=
  ps.filterMap (fun p => f.locationByName p.name)

end BlockPyFunction

/-! ## Statements -/

/-- The operations that bind or clear a name. -/
def Head.writes : Head K → Bool
  | .store _ | .del _ _ => true
  | .callArgumentOp kind _ _ => kind.replacesBuffer
  | _ => false

mutual

/-- No operation of the instruction tree binds or clears a name. -/
def Instr.writeFree : Instr X K → Bool
  | .mk _ h ops => !h.writes && writeFreeList ops

def writeFreeList : List (Instr X K) → Bool
  | [] => true
  | i :: is => i.writeFree && writeFreeList is

end

@[simp] theorem writeFree_mk (x : X) (h : Head K) (ops : List (Instr X K)) :
    (Instr.mk x h ops).writeFree = (!h.writes && writeFreeList ops) := by
  simp [Instr.writeFree]

theorem writeFreeList_iff (ops : List (Instr X K)) : writeFreeList ops ↔ ∀ i ∈ ops, i.writeFree := by
  induction ops with
  | nil => simp [writeFreeList]
  | cons i is ih => simp [writeFreeList, ih]

theorem writeFreeList_operands {is : List (Instr X K)} (hw : writeFreeList is) {i : Instr X K} (hi : i ∈ is) :
    writeFreeList i.operands := by
  obtain ⟨x, h, ops⟩ := i
  have hi' := (writeFreeList_iff is).mp hw _ hi
  rw [writeFree_mk, Bool.and_eq_true] at hi'
  exact hi'.2

/-- A block whose writes are statements: an instruction binds or clears a name only at its root. -/
def Block.StatementWrites (b : Block (Instr X K)) : Prop :=
  (∀ i ∈ b.body, writeFreeList i.operands = true) ∧ writeFreeList b.term.operands = true

instance (b : Block (Instr X K)) : Decidable b.StatementWrites :=
  inferInstanceAs (Decidable (_ ∧ _))

/-- A function as lowering leaves it: the labels are distinct and every edge has a target (`validate.rs`), the slots have
distinct names, and names are bound and cleared by statements, never inside an expression. -/
structure ValidFunction (X K : Type) extends BlockPyFunction (Instr X K) where
  nonempty : blocks ≠ []
  labelsNodup : (blocks.map (·.label)).Nodup
  targetsKnown : ∀ b ∈ blocks, ∀ l ∈ b.successors, l ∈ blocks.map (·.label)
  slotsNodup : stackSlots.Nodup
  statementWrites : ∀ b ∈ blocks, b.StatementWrites

instance : CoeOut (ValidFunction X K) (BlockPyFunction (Instr X K)) := ⟨ValidFunction.toBlockPyFunction⟩

namespace ValidFunction

variable (f : ValidFunction X K)

/-- The first block. -/
def entryBlock : Block (Instr X K) :=
  f.blocks.head f.nonempty

theorem entryBlock_mem : f.entryBlock ∈ f.blocks :=
  head_mem f.nonempty

variable {b : Block (Instr X K)}

theorem block?_mem {l : BlockLabel} (h : f.block? l = some b) : b ∈ f.blocks ∧ b.label = l := by
  exact (Fallible.find?_key_eq_some_iff f.labelsNodup).mp h

/-- A block is the only one with its label. -/
theorem eq_of_label {c : Block (Instr X K)} (hb : b ∈ f.blocks) (hc : c ∈ f.blocks) (h : b.label = c.label) : b = c :=
  inj_on_of_nodup_map f.labelsNodup hb hc h

theorem block?_eq (hb : b ∈ f.blocks) : f.block? b.label = some b :=
  BlockPyFunction.block?_of_mem f.labelsNodup hb

end ValidFunction

end Soac
