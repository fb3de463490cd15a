import Soac.Facts.Infer
import Soac.Ir.Typed
import Soac.Lib.Fresh

/-!
# Copying instructions of a callee into a caller

What the two inliners share (`inline_transform.rs` and `typed/mod.rs`). A copied instruction names the caller's fresh
slots where it named the callee's, has the bound argument expression in place of every load of a parameter, and, when the
two functions are in different modules, the caller's index of every module constant. A parameter that is written, and an
operation that belongs to the callee's own activation, make the callee unsupported.
-/

namespace Soac

/-- Why a rewrite is not done: the reasons of both inliners and of the typed passes, and `brokenExpectation` where the
source would stop with a violated expectation. -/
inductive InlineUnsupportedReason where
  | unrepresentedHandledActivation
  | classConstructionExecutionContext
  | functionDefinitionExecutionContext
  | missingCallerStorageLayout
  | missingCalleeStorageLayout
  | missingCalleeLocal (location : LocalLocation)
  | missingCalleeConstant (index : Nat)
  | missingParameterLocal (name : String)
  | unsupportedValueBinding (location : LocalLocation)
  | nonLocalValueBinding (location : LocalLocation)
  | rebindsBoundLocal (location : LocalLocation)
  | arityMismatch
  | keywordArguments
  | starredArguments
  | defaultArguments
  | unsupportedParameterKind
  | tooManyBlocks
  | multipleBlocks
  | unknownLabel (label : BlockLabel)
  | blockParams
  | exceptionEdge
  | nonReturnTerm
  | nonStackStorage
  | crossModuleGlobalName (name : String)
  | unknownBlockName (name : String)
  | tooManyCallerConstants
  | unsupportedGeneratorClosureCapture
  | unsupportedPrivateCellEnvironment
  | missingCallee
  | generatorResume
  | invalidOperandCall
  | brokenExpectation
deriving DecidableEq, Repr

/-- Go on only under a condition. -/
def require (condition : Bool) (reason : InlineUnsupportedReason) : Except InlineUnsupportedReason Unit :=
  if condition then .ok () else .error reason

/-! ## Functions with their name generator -/

/-- A function in code generation: whether it has a storage layout, what its layout says of captured variables, and the
counters its labels and temporaries are drawn from. -/
structure CodegenFunction (I : Type) extends BlockPyFunction I where
  runtimeModuleId : Nat := 0
  functionId : RuntimeFunctionId := 0
  fnName : String := ""
  hasStorageLayout : Bool := true
  freevars : List String := []
  nextBlockId : Nat
  nextTmpId : Nat := 0
deriving Repr

instance {I : Type} : CoeOut (CodegenFunction I) (BlockPyFunction I) := ⟨CodegenFunction.toBlockPyFunction⟩

/-- `CONSTRUCTOR_ENTRY_FUNCTION_NAME`. -/
def constructorEntryFunctionName : String := "__soac_constructor_entry__"

namespace CodegenFunction

variable {I : Type} (f : CodegenFunction I)

def isConstructorEntryFunction : Bool :=
  f.fnName == constructorEntryFunctionName

/-- `next_block_name`, as many times as asked for. -/
def nextBlockNames (n : Nat) : List BlockLabel × CodegenFunction I :=
  (List.range' f.nextBlockId n, { f with nextBlockId := f.nextBlockId + n })

/-- `next_tmp_name`. -/
def tmpName (kind : String) : String :=
  "_dp_" ++ kind ++ "_" ++ toString f.runtimeModuleId ++ "_" ++ toString f.functionId ++ "_" ++ toString f.nextTmpId

end CodegenFunction

/-- A name generator gives different names at different counts. -/
theorem tmpName_inj {I : Type} {f : CodegenFunction I} {kind : String} {i j : Nat}
    (h : { f with nextTmpId := i }.tmpName kind = { f with nextTmpId := j }.tmpName kind) : i = j := by
  have hlist := congrArg String.toList h
  simp only [CodegenFunction.tmpName, String.toList_append] at hlist
  exact Fresh.toString_nat_inj (String.ext (List.append_cancel_left hlist))

/-- `InlineLocal`, `TypedTempLocal`: a slot of the caller made for the copy. -/
structure InlineLocal where
  name : String
  location : LocalLocation
deriving DecidableEq, Repr

def InlineLocal.resolvedName (temp : InlineLocal) : ResolvedName :=
  ⟨temp.name, .local temp.location⟩

def ensureStackSlot (slots : List String) (name : String) : List String :=
  if slots.contains name then slots else slots ++ [name]

/-- `try_allocate_codegen_stack_temp`, `try_allocate_typed_stack_temp`. -/
def CodegenFunction.tryAllocateStackTemp {I : Type} (f : CodegenFunction I) (kind : String) :
    Except InlineUnsupportedReason (InlineLocal × CodegenFunction I) :=
  if f.hasStorageLayout then
    let name := f.tmpName kind
    .ok (⟨name, f.stackSlots.length⟩,
      { f with stackSlots := ensureStackSlot f.stackSlots name, nextTmpId := f.nextTmpId + 1 })
  else .error .missingCallerStorageLayout

/-- Allocate one temporary after the other. -/
def CodegenFunction.tryAllocateStackTemps {I : Type} (f : CodegenFunction I) (kind : String) :
    Nat → Except InlineUnsupportedReason (List InlineLocal × CodegenFunction I)
  | 0 => .ok ([], f)
  | n + 1 => do
    let (temp, f) ← f.tryAllocateStackTemp kind
    let (temps, f) ← f.tryAllocateStackTemps kind n
    return (temp :: temps, f)

/-! ## Module constants -/

/-- `InlineConstantScope`: the callee's constants are the caller's, or are copied to the caller when they are first
used. -/
inductive ConstantScope where
  | sameModule
  | crossModule (callerConstants calleeConstants : List ConstantExpr) (mapped : List (Nat × Nat))
deriving DecidableEq, Repr

/-- What is kept from one copied instruction to the next: the constants, and the identities given to the copies. -/
structure RemapState where
  constants : ConstantScope
  assigned : List (InstrId × InstrId) := []
  nextInstrIndex : Nat := 0
deriving DecidableEq, Repr

/-- A step of the copying: its result and the state it leaves, which it leaves also when it fails. -/
structure RemapM (α : Type) where
  effect : RemapState → Except InlineUnsupportedReason α × RemapState

namespace RemapM

variable {α β : Type}

/-- The result with the state, where the state matters only if there is a result. -/
def run (x : RemapM α) (s : RemapState) : Except InlineUnsupportedReason (α × RemapState) :=
  (x.effect s).1.map fun a => (a, (x.effect s).2)

instance : CoeFun (RemapM α) fun _ => RemapState → Except InlineUnsupportedReason (α × RemapState) := ⟨run⟩

theorem run_eq_ok {x : RemapM α} {s s' : RemapState} {a : α} : x s = .ok (a, s') ↔ x.effect s = (.ok a, s') := by
  unfold run
  generalize x.effect s = r
  obtain ⟨e, s₁⟩ := r
  cases e with
  | error e | ok b => simp [Except.map]

def andThen (x : RemapM α) (k : α → RemapM β) : RemapM β where
  effect s :=
    match x.effect s with
    | (.ok a, s') => (k a).effect s'
    | (.error e, s') => (.error e, s')

theorem andThen_eq_ok {x : RemapM α} {k : α → RemapM β} {s : RemapState} {r : β × RemapState} :
    x.andThen k s = .ok r ↔ ∃ a s₁, x s = .ok (a, s₁) ∧ k a s₁ = .ok r := by
  obtain ⟨b, s'⟩ := r
  simp only [run_eq_ok, andThen]
  generalize x.effect s = r
  obtain ⟨e, s₁⟩ := r
  cases e with
  | error e | ok a => simp

def pure (a : α) : RemapM α := ⟨fun s => (.ok a, s)⟩

def throw (e : InlineUnsupportedReason) : RemapM α := ⟨fun s => (.error e, s)⟩

/-- A step that neither reads nor changes the state. -/
def lift (r : Except InlineUnsupportedReason α) : RemapM α := ⟨fun s => (r, s)⟩

theorem lift_eq_ok {r : Except InlineUnsupportedReason α} {s s' : RemapState} {a : α} (h : lift r s = .ok (a, s')) :
    r = .ok a ∧ s' = s := by
  have h' := run_eq_ok.mp h
  cases h'
  exact ⟨rfl, rfl⟩

/-- A step that depends on the state. -/
def read (k : RemapState → RemapM α) : RemapM α := ⟨fun s => (k s).effect s⟩

end RemapM

/-- Map a list from left to right. -/
def RemapM.mapList {α β : Type} (f : α → RemapM β) : List α → RemapM (List β)
  | [] => RemapM.pure []
  | a :: as => (f a).andThen fun b => (RemapM.mapList f as).andThen fun bs => RemapM.pure (b :: bs)

/-- `InlineConstantRemapper::remap`. -/
def remapConstant (index : Nat) : RemapM Nat where
  effect s :=
    match s.constants with
    | .sameModule => (.ok index, s)
    | .crossModule caller callee mapped =>
      match mapped.lookup index with
      | some i => (.ok i, s)
      | none =>
        match callee[index]? with
        | none => (.error (.missingCalleeConstant index), s)
        | some c =>
          (.ok caller.length,
            { s with constants := .crossModule (caller ++ [c]) callee ((index, caller.length) :: mapped) })

def remapLocation : NameLocation → RemapM NameLocation
  | .constant index => (remapConstant index).andThen fun i => RemapM.pure (.constant i)
  | location => RemapM.pure location

def ConstantScope.isCrossModule : ConstantScope → Bool
  | .sameModule => false
  | .crossModule _ _ _ => true

/-! ## Copying an instruction -/

/-- What the two inliners do differently: the operations they refuse, what they do to a copied operation and its operands,
how a bound argument loses its identities, and the identities of the copies. -/
structure RemapDialect (X K : Type) where
  checkOp : K → Except InlineUnsupportedReason Unit
  finishOp : X → K → List (Instr X K) → Instr X K
  clearInstrIds : Instr X K → Instr X K
  remapExtra : X → RemapM X
  returnExtra : X → RemapM X
  isIncrementCounter : K → Bool
  context : Block (Instr X K) → HandledExceptionContext

/-- The remapper of one copy: the callee's slots, the fresh slots, the bound parameters, and the cells. -/
structure RemapEnv (X K : Type) where
  stackSlots : List String
  locals : List (LocalLocation × InlineLocal)
  bindings : List (LocalLocation × Instr X K)
  cell : CellLocation → Except InlineUnsupportedReason CellLocation
  runtimeName : String → Option RuntimeName

variable {X K : Type}

namespace RemapEnv

variable (env : RemapEnv X K)

/-- The fresh slot of a callee local that is not a bound parameter. -/
def freshLocal (location : LocalLocation) : Except InlineUnsupportedReason InlineLocal :=
  match env.bindings.lookup location with
  | some _ => .error (.rebindsBoundLocal location)
  | none =>
    match env.locals.lookup location with
    | some fresh => .ok fresh
    | none => .error (.missingCalleeLocal location)

/-- The location of a name after its constant is copied: a global of another module must be a runtime name. -/
def crossModuleLocation (id : String) (location : NameLocation) (s : RemapState) :
    Except InlineUnsupportedReason NameLocation :=
  match location with
  | .globalName | .global _ =>
    if s.constants.isCrossModule then
      match env.runtimeName id with
      | some name => .ok (.runtimeName name)
      | none => .error (.crossModuleGlobalName id)
    else .ok location
  | _ => .ok location

/-- The name of a location in the caller. -/
def callerName (id : String) : NameLocation → Except InlineUnsupportedReason ResolvedName
  | .cell location => (env.cell location).map fun c => ⟨id, .cell c⟩
  | .local location => (env.freshLocal location).map InlineLocal.resolvedName
  | location => .ok ⟨id, location⟩

def tryMapName (name : ResolvedName) : RemapM ResolvedName :=
  (remapLocation name.location).andThen fun location => RemapM.read fun s =>
    RemapM.lift ((env.crossModuleLocation name.id location s).bind (env.callerName name.id))

/-- The names of an operation, in the order of its fields. `Store` and `Del` of a bound parameter are refused before
anything else is mapped, which is what mapping the name first does. -/
def tryMapHead : Head K → RemapM (Head K)
  | .load n => (env.tryMapName n).andThen fun n => RemapM.pure (.load n)
  | .store n => (env.tryMapName n).andThen fun n => RemapM.pure (.store n)
  | .del n quietly => (env.tryMapName n).andThen fun n => RemapM.pure (.del n quietly)
  | .takeOperand n => (env.tryMapName n).andThen fun n => RemapM.pure (.takeOperand n)
  | .comprehensionInsert kind n => (env.tryMapName n).andThen fun n => RemapM.pure (.comprehensionInsert kind n)
  | .callArgumentOp kind callable buffer =>
    (env.tryMapName callable).andThen fun callable =>
    (env.tryMapName buffer).andThen fun buffer => RemapM.pure (.callArgumentOp kind callable buffer)
  | .iteratorStep n => (env.tryMapName n).andThen fun n => RemapM.pure (.iteratorStep n)
  | .makeCell => RemapM.pure .makeCell
  | .cellRef location => (RemapM.lift (env.cell location)).andThen fun c => RemapM.pure (.cellRef c)
  | .op k => RemapM.pure (.op k)

/-- The argument a load of a bound parameter is replaced by. -/
def boundValue : Head K → Option (Instr X K)
  | .load n => n.localLocation.bind fun location => env.bindings.lookup location
  | _ => none

end RemapEnv

namespace RemapDialect

variable (D : RemapDialect X K) (env : RemapEnv X K)

/-- The operations that belong to the callee's own activation. -/
def checkHead : Head K → Except InlineUnsupportedReason Unit
  | .op k => D.checkOp k
  | _ => .ok ()

/-- The copied instruction, put together. -/
def finish (x : X) (ops : List (Instr X K)) : Head K → Instr X K
  | .op k => D.finishOp x k ops
  | h => .mk x h ops

mutual

def tryMapInstr : Instr X K → RemapM (Instr X K)
  | .mk x h ops =>
    match env.boundValue h with
    | some value => RemapM.pure (D.clearInstrIds value)
    | none =>
      (RemapM.lift (D.checkHead h)).andThen fun _ =>
      (env.tryMapHead h).andThen fun h =>
      (tryMapInstrs ops).andThen fun ops =>
      (D.remapExtra x).andThen fun x => RemapM.pure (D.finish x ops h)

/-- The operands of an instruction, in order. -/
def tryMapInstrs : List (Instr X K) → RemapM (List (Instr X K))
  | [] => RemapM.pure []
  | i :: is => (tryMapInstr i).andThen fun i => (tryMapInstrs is).andThen fun is => RemapM.pure (i :: is)

end

end RemapDialect

/-! ## Copying a block -/

namespace RemapEnv

variable (env : RemapEnv X K)

def calleeLocalLocationByName (name : String) : Except InlineUnsupportedReason LocalLocation :=
  match env.stackSlots.idxOf? name with
  | some location => .ok location
  | none => .error (.unknownBlockName name)

/-- The caller's name of a bound parameter: only a load of a caller's local has one. The BlockPy inliner reports both
failures as `RebindsBoundLocal`. -/
def boundLocalName (location : LocalLocation) : Instr X K → Except InlineUnsupportedReason String
  | .mk _ (.load n) _ =>
    match n.localLocation with
    | some _ => .ok n.id
    | none => .error (.nonLocalValueBinding location)
  | _ => .error (.unsupportedValueBinding location)

def tryMapBlockLocalName (name : String) : Except InlineUnsupportedReason String :=
  (env.calleeLocalLocationByName name).bind fun location =>
    match env.bindings.lookup location with
    | some value => boundLocalName location value
    | none =>
      match env.locals.lookup location with
      | some fresh => .ok fresh.name
      | none => .error (.missingCalleeLocal location)

def tryMapBlockParam (param : BlockParam) : Except InlineUnsupportedReason BlockParam :=
  (env.calleeLocalLocationByName param.name).bind fun location =>
    (env.freshLocal location).map fun fresh => { param with name := fresh.name }

def tryMapBlockArg : BlockArg → Except InlineUnsupportedReason BlockArg
  | .name name => (env.tryMapBlockLocalName name).map .name
  | arg => .ok arg

end RemapEnv

/-- The labels of the copies of the callee's blocks. -/
abbrev LabelMap := List (BlockLabel × BlockLabel)

/-- The label maps of a copy: one fresh label for each block of the callee. -/
def freshLabelMap {I J : Type} (caller : CodegenFunction I) (callee : BlockPyFunction J) : LabelMap :=
  callee.labels.zip (caller.nextBlockNames callee.blocks.length).1

/-- `remapped_label`, `typed_remapped_label`. -/
def remappedLabel (labelMap : LabelMap) (label : BlockLabel) : Except InlineUnsupportedReason BlockLabel :=
  match labelMap.lookup label with
  | some l => .ok l
  | none => .error (.unknownLabel label)

theorem remappedLabel_eq_ok {labelMap : LabelMap} {k l : BlockLabel} (h : remappedLabel labelMap k = .ok l) :
    labelMap.lookup k = some l := by
  unfold remappedLabel at h
  split at h
  · rename_i l' hl
    cases h
    exact hl
  · cases h

/-- `remap_inline_edge`, `typed_remap_inline_edge`. -/
def remapInlineEdge (env : RemapEnv X K) (labelMap : LabelMap) (edge : BlockEdge) :
    Except InlineUnsupportedReason BlockEdge :=
  (remappedLabel labelMap edge.target).bind fun target =>
    (edge.args.mapM env.tryMapBlockArg).map fun args => ⟨target, args⟩

namespace RemapDialect

variable (D : RemapDialect X K) (env : RemapEnv X K) (labelMap : LabelMap) (returnTarget : ResolvedName)
  (continuation : BlockLabel)

/-- The terminator of a copied block, with what it adds to the body: a return stores its value in the target and jumps to
the continuation; the labels of the others are mapped after their operands. -/
def remapInlineTerm : BlockTerm (Instr X K) → RemapM (List (Instr X K) × BlockTerm (Instr X K))
  | .ret value =>
    (D.tryMapInstr env value).andThen fun value =>
    (D.returnExtra value.extra).andThen fun x =>
    RemapM.pure ([.mk x (.store returnTarget) [value]], .jump ⟨continuation, []⟩)
  | .jump edge => (RemapM.lift (remapInlineEdge env labelMap edge)).andThen fun edge => RemapM.pure ([], .jump edge)
  | .ifTerm test t e =>
    (D.tryMapInstr env test).andThen fun test =>
    (RemapM.lift (remappedLabel labelMap t)).andThen fun t =>
    (RemapM.lift (remappedLabel labelMap e)).andThen fun e => RemapM.pure ([], .ifTerm test t e)
  | .branchTable index targets default =>
    (D.tryMapInstr env index).andThen fun index =>
    (RemapM.lift (targets.mapM (remappedLabel labelMap))).andThen fun targets =>
    (RemapM.lift (remappedLabel labelMap default)).andThen fun default =>
    RemapM.pure ([], .branchTable index targets default)
  | .raise none => RemapM.pure ([], .raise none)
  | .raise (some exc) => (D.tryMapInstr env exc).andThen fun exc => RemapM.pure ([], .raise (some exc))
  | .generatorReturn value => (D.tryMapInstr env value).andThen fun _ => RemapM.throw .nonReturnTerm

/-- The instructions of a body that are copied: profiling counters belong to the callee's own layout. -/
def copiedBody (body : List (Instr X K)) : List (Instr X K) :=
  body.filter fun i => match i.head with
    | .op k => !D.isIncrementCounter k
    | _ => true

/-- One turn of the loop over the callee's blocks. -/
def remapBlock (b : Block (Instr X K)) : RemapM (Block (Instr X K)) :=
  (RemapM.lift (remappedLabel labelMap b.label)).andThen fun label =>
  (D.tryMapInstrs env (D.copiedBody b.body)).andThen fun body =>
  (D.remapInlineTerm env labelMap returnTarget continuation b.term).andThen fun tail =>
  (RemapM.lift (b.params.mapM env.tryMapBlockParam)).andThen fun params =>
  (RemapM.lift (b.excEdge.mapM (remapInlineEdge env labelMap))).andThen fun excEdge =>
  RemapM.pure
    { label := label, body := body ++ tail.1, term := tail.2, params := params, excEdge := excEdge,
      handledException := D.context b }

end RemapDialect

/-- Fresh slots for the callee's locals that are not bound parameters, one after the other. -/
def CodegenFunction.allocateInlineLocals {I : Type} (kind : String) (bound : LocalLocation → Bool) :
    List LocalLocation → CodegenFunction I →
      Except InlineUnsupportedReason (List (LocalLocation × InlineLocal) × CodegenFunction I)
  | [], f => .ok ([], f)
  | location :: rest, f =>
    if bound location then allocateInlineLocals kind bound rest f
    else do
      let (fresh, f) ← f.tryAllocateStackTemp kind
      let (locals, f) ← allocateInlineLocals kind bound rest f
      return ((location, fresh) :: locals, f)

end Soac
