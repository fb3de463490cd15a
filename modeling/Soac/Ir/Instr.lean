import Mathlib.Data.List.Basic

/-!
# Names and instructions

The instruction trees of BlockPy and of its typed form. Both enumerations of the source share the operations that carry a
name (`Load`, `Store`, `Del`, `TakeOperand`, `ComprehensionInsert`, `CallArgumentOp`, `IteratorStep`, `MakeCell`,
`CellRef`); every other operation only evaluates its operands and then acts on their values. An instruction here is a
sidecar (`extra`), its own operation (`Head`) and its operands in the order `visit_children` walks them.
-/

namespace Soac

/-- A stack slot of the frame, by its index in the storage layout. -/
abbrev LocalLocation := Nat

/-- A slot of the state a generator keeps across suspensions. -/
abbrev PreservedLocation := Nat

/-- The label of a block. -/
abbrev BlockLabel := Nat

/-- The number of a function. -/
abbrev RuntimeFunctionId := Nat

/-- Where the cell of a captured variable is found. -/
inductive CellLocation where
  | owned (slot : Nat)
  | preserved (slot : Nat)
  | closure (slot : Nat)
  | capturedSource (slot : Nat)
  | privateCell (slot : Nat)
deriving DecidableEq, Repr

/-- The runtime names the passes tell apart; all others are `other`. -/
inductive RuntimeName where
  | none
  | true
  | false
  | globals
  | index
  | str
  | cellRef
  | tupleFromIter
  | makeFunction
  | createClass
  | importUnderscore
  | importAttr
  | classLookupGlobal
  | classLookupCell
  | unpackFixed
  | other (id : Nat)
deriving DecidableEq, Repr

/-- Compiler-owned operations, not lookups of replaceable helpers. -/
def RuntimeName.isLanguageIntrinsic : RuntimeName → Bool
  | .globals | .unpackFixed => Bool.true
  | _ => Bool.false

/-- Where name binding put a name. -/
inductive NameLocation where
  | local (location : LocalLocation)
  | preserved (location : PreservedLocation)
  | globalName
  | global (slot : Nat)
  | runtimeName (name : RuntimeName)
  | cell (location : CellLocation)
  | constant (index : Nat)
deriving DecidableEq, Repr

/-- A name with the location name binding resolved it to. -/
structure ResolvedName where
  id : String
  location : NameLocation
deriving DecidableEq, Repr

/-- The stack slot of a name, if it is a local. -/
def ResolvedName.localLocation (n : ResolvedName) : Option LocalLocation :=
  match n.location with
  | .local x => some x
  | _ => none

/-- The cell of a name, if it is captured. -/
def ResolvedName.cellLocation (n : ResolvedName) : Option CellLocation :=
  match n.location with
  | .cell c => some c
  | _ => none

/-- Who ends the life of a stored value: the frame, or the unwinding of an expression. -/
inductive StoreLifetime where
  | frame
  | operand (unwindOrder : Nat)
deriving DecidableEq, Repr

inductive ComprehensionInsertKind where
  | listAppend
  | setAdd
  | dictSetItem
deriving DecidableEq, Repr

/-- The phases of preparing the arguments of a call. -/
inductive CallArgumentOpKind where
  | extendPositional
  | mergeKeywords
  | finishPositionalList
  | normalizeSingletonStar
deriving DecidableEq, Repr

/-- The phases that publish a new value in the buffer's slot. -/
def CallArgumentOpKind.replacesBuffer : CallArgumentOpKind → Bool
  | .finishPositionalList | .normalizeSingletonStar => true
  | _ => false

/-- The phases that clear the buffer's slot before their helper runs. -/
def CallArgumentOpKind.consumesBufferBeforeHelper : CallArgumentOpKind → Bool
  | .finishPositionalList => true
  | _ => false

/-- A phase that leaves the buffer alone does not clear it either. -/
theorem consumesBuffer_of_replacesBuffer {kind : CallArgumentOpKind} (h : kind.replacesBuffer = false) :
    kind.consumesBufferBeforeHelper = false := by
  cases kind <;> first | rfl | cases h

/-- The operation of an instruction. `K` enumerates the operations that carry no name. -/
inductive Head (K : Type) where
  | load (name : ResolvedName)
  | store (name : ResolvedName)
  | del (name : ResolvedName) (quietly : Bool)
  | takeOperand (name : ResolvedName)
  | comprehensionInsert (kind : ComprehensionInsertKind) (container : ResolvedName)
  | callArgumentOp (kind : CallArgumentOpKind) (callable buffer : ResolvedName)
  | iteratorStep (name : ResolvedName)
  | makeCell
  | cellRef (location : CellLocation)
  | op (k : K)
deriving DecidableEq, Repr

/-- An instruction: its sidecar, its operation, and its operands in evaluation order. -/
inductive Instr (X K : Type) where
  | mk (extra : X) (head : Head K) (operands : List (Instr X K))
deriving Repr

variable {X K : Type}

namespace Instr

def extra : Instr X K → X
  | mk x _ _ => x

def head : Instr X K → Head K
  | mk _ h _ => h

def operands : Instr X K → List (Instr X K)
  | mk _ _ ops => ops

@[simp] theorem extra_mk (x : X) (h : Head K) (ops : List (Instr X K)) : (mk x h ops).extra = x := rfl
@[simp] theorem head_mk (x : X) (h : Head K) (ops : List (Instr X K)) : (mk x h ops).head = h := rfl
@[simp] theorem operands_mk (x : X) (h : Head K) (ops : List (Instr X K)) : (mk x h ops).operands = ops := rfl

/-- Induction over an instruction and its operands. -/
@[elab_as_elim]
theorem induct {motive : Instr X K → Prop}
    (mk : ∀ x h ops, (∀ i ∈ ops, motive i) → motive (Instr.mk x h ops)) (i : Instr X K) : motive i :=
  @Instr.rec X K motive (fun ops => ∀ i ∈ ops, motive i) mk nofun
    (fun _ _ ih ihs j hj => (List.mem_cons.mp hj).elim (fun h => h ▸ ih) (ihs j)) i

end Instr

/-! ## Operand takes -/

/-- The slot an instruction itself takes: `TakeOperand` of a local moves the value out of its slot. -/
def Head.ownTake : Head K → Option LocalLocation
  | .takeOperand n => n.localLocation
  | _ => none

mutual

/-- `visit_operand_takes`, for local slots: the slots an instruction takes from, operands first. -/
def Instr.operandTakes : Instr X K → List LocalLocation
  | .mk _ h ops => operandTakesList ops ++ h.ownTake.toList

/-- The slots a list of instructions takes from, in order. -/
def operandTakesList : List (Instr X K) → List LocalLocation
  | [] => []
  | i :: is => i.operandTakes ++ operandTakesList is

end

@[simp] theorem operandTakes_mk (x : X) (h : Head K) (ops : List (Instr X K)) :
    (Instr.mk x h ops).operandTakes = operandTakesList ops ++ h.ownTake.toList := by
  simp [Instr.operandTakes]

@[simp] theorem operandTakesList_nil : operandTakesList ([] : List (Instr X K)) = [] := by
  simp [operandTakesList]

@[simp] theorem operandTakesList_cons (i : Instr X K) (is : List (Instr X K)) :
    operandTakesList (i :: is) = i.operandTakes ++ operandTakesList is := by
  simp [operandTakesList]

theorem operandTakesList_eq_flatMap (ops : List (Instr X K)) :
    operandTakesList ops = ops.flatMap Instr.operandTakes := by
  induction ops with
  | nil => simp
  | cons i is ih => simp [ih]

/-- `local_load_location`, `typed_local_load_location`: the slot an instruction loads. -/
def localLoadLocation : Instr X K → Option LocalLocation
  | .mk _ (.load n) _ => n.localLocation
  | _ => none

/-- Whether the value stored is a fresh cell: a store of one to an owned cell fills the slot that holds the cell. -/
def storesFreshCell (ops : List (Instr X K)) : Bool :=
  match ops.head? with
  | some (.mk _ .makeCell _) => true
  | _ => false

/-- `store_binding_location`: the slot a store binds, a fresh cell going into the slot of an owned cell. -/
def storeBindingLocation (owned : Nat → Option LocalLocation) (name : ResolvedName) (fresh : Bool) :
    Option LocalLocation :=
  match name.location with
  | .local x => some x
  | .cell (.owned slot) => if fresh then owned slot else none
  | _ => none

end Soac
