import Soac.Inline.Remap

/-!
# The typed inline rewrite of one call

`try_build_typed_direct_call_inline_rewrite_for_candidate`: the block of the call is cut at the call. Its first part
evaluates the callee and the arguments into temporaries and tests the guards, each guard leads to a copy of its callee,
the last one to a generic call, and all of them lead to the second part. A candidate that cannot be rewritten leaves the
block as it is; here that is an error.

What the rewrite only reports (statistics, maps from the callee's instructions, constants and slots to the copies) is left
out, and so are the plans for generator resumes, which are refused at the start.
-/

namespace Soac

/-! ## The handled exception of a call site -/

def inlineCalleePreservesActivation {I : Type} (callee : BlockPyFunction I) : Bool :=
  !callee.blocks.any fun b => b.handledException = .terminal

/-- The active handler regions of a call site. -/
structure InlineHandledContext where
  context : HandledExceptionContext
  regions : List BlockParam
  pendingPayloads : List BlockParam
deriving DecidableEq, Repr

namespace InlineHandledContext

variable {I : Type} (context : InlineHandledContext) (b : Block I)

def forCallSite : InlineHandledContext :=
  ⟨b.handledException, b.handledExceptionParams, b.pendingAbruptPayloadParams⟩

def canInline (callee : BlockPyFunction I) : Bool :=
  inlineCalleePreservesActivation callee &&
    (context.context = .regions || callee.blocks.all fun b => b.handledExceptionParams.isEmpty)

/-- `preserve_caller`: a new block of the caller keeps the regions of the call site. -/
def preserveCaller : Block I :=
  { b with
    handledException := context.context
    params := b.params ++ context.regions.reverse ++
      context.pendingPayloads.reverse.map fun p => { p with role := .enclosingAbruptPayload } }

/-- `compose_callee`: the regions of the call site enclose those of the callee. -/
def composeCallee : Block I :=
  { b with
    handledException := if context.context = .regions then b.handledException else .preserve
    params := b.params ++ (context.regions.reverse.map fun p => { p with role := .enclosingException }) ++
      context.pendingPayloads.reverse.map fun p => { p with role := .enclosingAbruptPayload } }

end InlineHandledContext

/-! ## Candidates -/

/-- The call of a candidate: the parts the rewrite reads. -/
structure TypedInlineCallParts where
  instrId : Option InstrId := none
  func : InstrTyped
  args : List (CallArgPositional × InstrTyped)
  keywords : List (CallArgKeyword × InstrTyped) := []
  runtimeProtocolAccess : Bool := false
deriving Repr

inductive TypedInlineCall where
  | directCallable (call : TypedInlineCallParts)
  | callable (call : TypedInlineCallParts)
  | builtinImplementation (call : TypedInlineCallParts)
  | method (call : TypedInlineCallParts) (receiver attr : InstrTyped)
  | directMethod (call : TypedInlineCallParts) (receiver : InstrTyped) (linearizedFuncTemp : Option ResolvedName)
  | runtimeProtocolMethod (call : TypedInlineCallParts) (receiver : InstrTyped)
  | directRuntimeProtocolMethod (call : TypedInlineCallParts) (receiver : InstrTyped)
  | generatorResume (call : TypedInlineCallParts)
deriving Repr

namespace TypedInlineCall

def parts : TypedInlineCall → TypedInlineCallParts
  | directCallable call | callable call | builtinImplementation call | method call _ _ | directMethod call _ _
  | runtimeProtocolMethod call _ | directRuntimeProtocolMethod call _ | generatorResume call => call

def isGeneratorResume : TypedInlineCall → Bool
  | generatorResume _ => true
  | _ => false

/-- The receiver of a method call. -/
def receiver? : TypedInlineCall → Option InstrTyped
  | method _ receiver _ | directMethod _ receiver _ | runtimeProtocolMethod _ receiver
  | directRuntimeProtocolMethod _ receiver => some receiver
  | _ => none

/-- The callee expression a callable temporary is made for. -/
def callable? : TypedInlineCall → Option InstrTyped
  | directCallable call | callable call => some call.func
  | _ => none

/-- `args`: a call by a runtime protocol passes its receiver as the first argument. -/
def args : TypedInlineCall → List (CallArgPositional × InstrTyped)
  | runtimeProtocolMethod call _ | directRuntimeProtocolMethod call _ =>
    if call.runtimeProtocolAccess then call.args.tail else []
  | call => call.parts.args

/-- `keywords`: a direct callable call has none. -/
def keywords : TypedInlineCall → List (CallArgKeyword × InstrTyped)
  | directCallable _ => []
  | call => call.parts.keywords

/-- The calls whose target is known without a guard. -/
def isUnguarded : TypedInlineCall → Bool
  | builtinImplementation _ | directMethod _ _ _ | directRuntimeProtocolMethod _ _ | generatorResume _ => true
  | _ => false

end TypedInlineCall

inductive TypedInlineResult where
  | storeTo (target : ResolvedName)
  | effectOnly
  | return
deriving DecidableEq, Repr

inductive TypedDirectCallArgSource where
  | provided (index : Nat)
  | packedRest (start : Nat)
  | defaultSentinel
deriving DecidableEq, Repr

inductive TypedInlineGuardPlan where
  | direct
  | trustedRuntime
  | callable
  | method (typeVersion : Nat)
deriving DecidableEq, Repr

structure TypedInlineDirectCallPlan where
  target : RuntimeFunctionId
  argPlan : List TypedDirectCallArgSource
  guard : TypedInlineGuardPlan
deriving DecidableEq, Repr

structure TypedInlineStoreCandidate where
  instrIndex : Nat
  result : TypedInlineResult
  call : TypedInlineCall
  inlinePlans : List TypedInlineDirectCallPlan
deriving Repr

/-! ## Callees -/

/-- A callee as lowering leaves it: it has an entry block, and its labels are distinct. -/
structure TypedInlineCallee extends CodegenFunction InstrTyped where
  nonempty : blocks ≠ []
  labelsNodup : (blocks.map (·.label)).Nodup

instance : CoeOut TypedInlineCallee (CodegenFunction InstrTyped) := ⟨TypedInlineCallee.toCodegenFunction⟩

/-- The callees of other modules, with their constants when the caller's module can take them over. -/
inductive TypedInlineExternalCallees where
  | plain (callees : List TypedInlineCallee)
  | contextual (callees : List (TypedInlineCallee × List ConstantExpr))

/-- What the rewrite knows about callees: the functions of the module, those of other modules, the runtime's names. -/
structure TypedInlineModule where
  callableDefs : List TypedInlineCallee
  external : TypedInlineExternalCallees
  runtimeName : String → Option RuntimeName

variable (m : TypedInlineModule)

def typedInlineCallee (target : RuntimeFunctionId) : Option (TypedInlineCallee × Option (List ConstantExpr)) :=
  match m.callableDefs.find? fun f => f.functionId == target with
  | some f => some (f, none)
  | none =>
    match m.external with
    | .plain callees => (callees.find? fun f => f.functionId == target).map fun f => (f, none)
    | .contextual callees => (callees.find? fun c => c.1.functionId == target).map fun c => (c.1, some c.2)

/-! ## The typed remapper -/

/-- `expand_synthetic_typed_starred_tuple_args`: a starred tuple the inliner made is passed as its elements. -/
def expandSyntheticTypedStarredTupleArgs :
    List CallArgPositional → List InstrTyped → List CallArgPositional × List InstrTyped
  | .starred :: shape, .mk x (.op .tuple) values :: args =>
    let (shape', args') := expandSyntheticTypedStarredTupleArgs shape args
    if x.instrId = none then (values.map (fun _ => .positional) ++ shape', values ++ args')
    else (.starred :: shape', .mk x (.op .tuple) values :: args')
  | kind :: shape, arg :: args =>
    let (shape', args') := expandSyntheticTypedStarredTupleArgs shape args
    (kind :: shape', arg :: args')
  | shape, args => (shape, args)

variable (x : TypedInstrExtra)

/-- The arguments of a call expanded; its first operand is the callee or the receiver. -/
def expandCall (call : CallShape → TypedOp) (shape : CallShape) : List InstrTyped → InstrTyped
  | [] => .mk x (.op (call shape)) []
  | func :: args =>
    let (shape', args') := expandSyntheticTypedStarredTupleArgs shape.args args
    .mk x (.op (call { shape with args := shape' })) (func :: args')

mutual

def clearTypedInstrIds : InstrTyped → InstrTyped
  | .mk x h ops => .mk { x with instrId := none } h (clearTypedInstrIdsList ops)

def clearTypedInstrIdsList : List InstrTyped → List InstrTyped
  | [] => []
  | i :: is => clearTypedInstrIds i :: clearTypedInstrIdsList is

end

/-- `alloc`: the identity after all used ones. -/
def allocInstrId : RemapM InstrId where
  effect s := (.ok s.nextInstrIndex, { s with nextInstrIndex := s.nextInstrIndex + 1 })

def remapInstrId : RemapM TypedInstrExtra where
  effect s :=
    match x.instrId with
    | none => (.ok x, s)
    | some id =>
      match s.assigned.lookup id with
      | some id' => (.ok { x with instrId := some id' }, s)
      | none =>
        (.ok { x with instrId := some s.nextInstrIndex },
          { s with assigned := (id, s.nextInstrIndex) :: s.assigned, nextInstrIndex := s.nextInstrIndex + 1 })

/-- The operations the typed inliner refuses. -/
def checkTypedOp : TypedOp → Except InlineUnsupportedReason Unit
  | .callTyped shape => if shape.frameNamespace.isSome then .error .classConstructionExecutionContext else .ok ()
  | .constructClass | .prepareClassDecorator | .discardClassDecorator | .discardClassConstructionCaptures
  | .applyClassDecorator => .error .classConstructionExecutionContext
  | .completeFunctionDefinition | .applyFunctionDescriptor => .error .functionDefinitionExecutionContext
  | _ => .ok ()

/-- The plans of a call that belong to the callee's own activation are dropped. -/
def TypedInstrExtra.forInlinedCall : TypedInstrExtra :=
  { x with
    sourceCall := false
    callAccess := if x.callAccess = .guardedSealedMethod then .generic else x.callAccess }

/-- What the typed inliner does to a copied operation. -/
def finishTypedOp (k : TypedOp) (ops : List InstrTyped) : InstrTyped :=
  match k with
  | .callTyped shape => expandCall x.forInlinedCall .callTyped shape ops
  | .guardedCallableCallTyped shape => expandCall x .guardedCallableCallTyped shape ops
  | .guardedMethodCallTyped shape name guards => expandCall x (.guardedMethodCallTyped · name guards) shape ops
  | .directCallableCallTyped shape target => expandCall x (.directCallableCallTyped · target) shape ops
  | .directMethodCallTyped shape name target => expandCall x (.directMethodCallTyped · name target) shape ops
  | .callDirect shape target => expandCall x (.callDirect · target) shape ops
  | k => .mk x (.op k) ops

/-- `TypedInlineLocalRemapper`. -/
def typedDialect : RemapDialect TypedInstrExtra TypedOp where
  checkOp := checkTypedOp
  finishOp := finishTypedOp
  clearInstrIds := clearTypedInstrIds
  remapExtra := remapInstrId
  returnExtra _ := allocInstrId.andThen fun id => RemapM.pure { instrId := some id }
  isIncrementCounter k := k == .incrementCounter
  context b := b.handledException

/-- `try_map_cell_location`, without the bindings only a generator resume has. -/
def typedCellLocation : CellLocation → Except InlineUnsupportedReason CellLocation
  | .closure _ | .capturedSource _ => .error .unsupportedGeneratorClosureCapture
  | .privateCell _ => .error .unsupportedPrivateCellEnvironment
  | location => .ok location

/-! ## Fragments -/

def ResolvedName.isPreserved (n : ResolvedName) : Bool :=
  match n.location with
  | .preserved _ => true
  | _ => false

def CellLocation.isPreserved : CellLocation → Bool
  | .preserved _ => true
  | _ => false

/-- The uses of the generator state that `PreservedStorageFinder` looks for. -/
def Head.usesPreserved {K : Type} : Head K → Bool
  | .load n | .store n | .del n _ => n.isPreserved || n.cellLocation.any CellLocation.isPreserved
  | .takeOperand n | .iteratorStep n | .comprehensionInsert _ n => n.isPreserved
  | .callArgumentOp _ callable buffer => callable.isPreserved || buffer.isPreserved
  | .cellRef location => location.isPreserved
  | _ => false

mutual

def Instr.usesPreserved {X K : Type} : Instr X K → Bool
  | .mk _ h ops => h.usesPreserved || usesPreservedList ops

def usesPreservedList {X K : Type} : List (Instr X K) → Bool
  | [] => false
  | i :: is => i.usesPreserved || usesPreservedList is

end

variable (callee : CodegenFunction InstrTyped)

def typedInlineCalleeHasNonstackStorage : Bool :=
  !callee.freevars.isEmpty || !callee.cellvars.isEmpty ||
    callee.blocks.any fun b => usesPreservedList b.body || usesPreservedList b.term.operands

/-- What a rewrite changes besides the block: the caller's layout and counters, its constants, the identities in use. -/
structure TypedInlineState where
  caller : CodegenFunction InstrTyped
  callerConstants : Option (List ConstantExpr)
  nextInstrIndex : Nat

def typedInlineConstantScope (callerConstants calleeConstants : Option (List ConstantExpr)) :
    Except InlineUnsupportedReason ConstantScope :=
  match calleeConstants with
  | none => .ok .sameModule
  | some callee =>
    match callerConstants with
    | some caller => .ok (.crossModule caller callee [])
    | none => .error .tooManyCallerConstants

/-- The caller's constants after a copy. -/
def ConstantScope.callerConstants (original : Option (List ConstantExpr)) : ConstantScope → Option (List ConstantExpr)
  | .sameModule => original
  | .crossModule caller _ _ => some caller

/-- The checks both builders start with. -/
def checkTypedInlineCallee (bindings : List (LocalLocation × InstrTyped)) : Except InlineUnsupportedReason Unit :=
  if callee.hasStorageLayout = false then .error .missingCalleeStorageLayout
  else if typedInlineCalleeHasNonstackStorage callee then .error .nonStackStorage
  else match bindings.find? fun b => callee.stackSlots.length ≤ b.1 with
    | some b => .error (.missingCalleeLocal b.1)
    | none => .ok ()

/-- The remapper of a copy of a callee. -/
def typedRemapEnv (locals : List (LocalLocation × InlineLocal)) (bindings : List (LocalLocation × InstrTyped)) :
    RemapEnv TypedInstrExtra TypedOp :=
  { stackSlots := callee.stackSlots, locals := locals, bindings := bindings, cell := typedCellLocation,
    runtimeName := m.runtimeName }

variable (st : TypedInlineState)

/-- `build_single_block_typed_inline_fragment_to_target`. -/
def buildSingleBlockTypedInlineFragment
    (callee : CodegenFunction InstrTyped) (calleeConstants : Option (List ConstantExpr)) (continuation : BlockLabel)
    (bindings : List (LocalLocation × InstrTyped)) (returnTarget : ResolvedName) :
    Except InlineUnsupportedReason (List (Block InstrTyped) × TypedInlineState) := do
  checkTypedInlineCallee callee bindings
  match callee.blocks with
  | [b] =>
    require b.params.isEmpty .blockParams
    require b.excEdge.isNone .exceptionEdge
    match b.term with
    | .ret _ =>
      let (locals, caller) ← st.caller.allocateInlineLocals "typed_inline" (fun x => (bindings.lookup x).isSome)
        (List.range callee.stackSlots.length)
      let scope ← typedInlineConstantScope st.callerConstants calleeConstants
      let (b, s) ← typedDialect.remapBlock (typedRemapEnv m callee locals bindings) (freshLabelMap caller callee.toBlockPyFunction)
        returnTarget continuation b { constants := scope, nextInstrIndex := st.nextInstrIndex }
      return ([b], { caller := (caller.nextBlockNames 1).2,
                     callerConstants := s.constants.callerConstants st.callerConstants,
                     nextInstrIndex := s.nextInstrIndex })
    | _ => throw .nonReturnTerm
  | _ => throw .multipleBlocks

/-- `build_multi_block_typed_inline_fragment_to_target`. -/
def buildMultiBlockTypedInlineFragment
    (callee : CodegenFunction InstrTyped) (calleeConstants : Option (List ConstantExpr)) (continuation : BlockLabel)
    (bindings : List (LocalLocation × InstrTyped)) (returnTarget : ResolvedName) :
    Except InlineUnsupportedReason (List (Block InstrTyped) × TypedInlineState) := do
  checkTypedInlineCallee callee bindings
  let (locals, caller) ← st.caller.allocateInlineLocals "typed_inline" (fun x => (bindings.lookup x).isSome)
    (List.range callee.stackSlots.length)
  let scope ← typedInlineConstantScope st.callerConstants calleeConstants
  let (blocks, s) ← RemapM.mapList
    (typedDialect.remapBlock (typedRemapEnv m callee locals bindings) (freshLabelMap caller callee.toBlockPyFunction)
      returnTarget continuation)
    callee.blocks { constants := scope, nextInstrIndex := st.nextInstrIndex }
  return (blocks, { caller := (caller.nextBlockNames callee.blocks.length).2,
                    callerConstants := s.constants.callerConstants st.callerConstants,
                    nextInstrIndex := s.nextInstrIndex })

/-- `build_typed_direct_call_inline_fragment_to_target`. -/
def buildTypedDirectCallInlineFragment
    (callee : CodegenFunction InstrTyped) (calleeConstants : Option (List ConstantExpr))
    (context : InlineHandledContext) (continuation : BlockLabel) (bindings : List (LocalLocation × InstrTyped))
    (returnTarget : ResolvedName) : Except InlineUnsupportedReason (List (Block InstrTyped) × TypedInlineState) := do
  require (context.canInline callee.toBlockPyFunction) .unrepresentedHandledActivation
  let build :=
    if callee.blocks.length = 1 then buildSingleBlockTypedInlineFragment else buildMultiBlockTypedInlineFragment
  let (blocks, st) ← build m st callee calleeConstants continuation bindings returnTarget
  return (blocks.map context.composeCallee, st)

/-! ## Temporaries -/

def typedLoadTemp (n : ResolvedName) : InstrTyped := .load n

def typedStoreTemp (n : ResolvedName) (value : InstrTyped) : InstrTyped := .store n value

/-- `append_typed_cleanup_del_to_body`: temporaries are deleted quietly. -/
def typedCleanupDel (n : ResolvedName) : InstrTyped := .mk {} (.del n true) []

/-- `append_typed_cleanup_dels_to_body`: the last temporary first. -/
def typedCleanupDels (temps : List InlineLocal) : List InstrTyped :=
  temps.reverse.map fun t => typedCleanupDel t.resolvedName

/-- The temporaries of a rewrite, and where the callee's result goes. -/
structure TypedInlineTemps where
  receiver : Option InlineLocal
  callable : Option InlineLocal
  args : List InlineLocal
  returnTarget : ResolvedName
  discardResult : Option ResolvedName
  resultHandoff : Option ResolvedName

/-- A temporary for an expression, if there is one. -/
def CodegenFunction.tryAllocateOptional {I : Type} (f : CodegenFunction I) (kind : String) (needed : Bool) :
    Except InlineUnsupportedReason (Option InlineLocal × CodegenFunction I) :=
  if needed then (f.tryAllocateStackTemp kind).map fun r => (some r.1, r.2) else .ok (none, f)

/-- Whether a plan's callee handles exceptions: its result then crosses its handlers in a temporary. -/
def calleeHandlesExceptions (plan : TypedInlineDirectCallPlan) : Bool :=
  match typedInlineCallee m plan.target with
  | some callee => callee.1.blocks.any fun b => !b.handledExceptionParams.isEmpty
  | none => false

variable (candidate : TypedInlineStoreCandidate) (f : CodegenFunction InstrTyped)

/-- The slot of the result: the target of a store, a temporary otherwise. -/
def allocateResult : Except InlineUnsupportedReason
      ((ResolvedName × Option ResolvedName × Option ResolvedName) × CodegenFunction InstrTyped) :=
  match candidate.result with
  | .storeTo target =>
    if candidate.inlinePlans.any (calleeHandlesExceptions m) then
      (f.tryAllocateStackTemp "typed_inline_result").map fun r => ((r.1.resolvedName, none, some target), r.2)
    else .ok ((target, none, none), f)
  | .effectOnly =>
    (f.tryAllocateStackTemp "typed_inline_result").map fun r =>
      ((r.1.resolvedName, some r.1.resolvedName, none), r.2)
  | .return =>
    (f.tryAllocateStackTemp "typed_inline_return").map fun r => ((r.1.resolvedName, none, none), r.2)

def allocateTypedInlineTemps : Except InlineUnsupportedReason (TypedInlineTemps × CodegenFunction InstrTyped) := do
  let (receiver, f) ← f.tryAllocateOptional "typed_inline_receiver" candidate.call.receiver?.isSome
  let (callable, f) ← f.tryAllocateOptional "typed_inline_callable" candidate.call.callable?.isSome
  let (args, f) ← f.tryAllocateStackTemps "typed_inline_arg" candidate.call.args.length
  let (result, f) ← allocateResult m candidate f
  return (⟨receiver, callable, args, result.1, result.2.1, result.2.2⟩, f)

/-! ## Labels -/

/-- The labels of the caller's new blocks. -/
structure TypedInlineLabels where
  continuation : BlockLabel
  generic : Option BlockLabel
  cleanup : BlockLabel
  guards : List BlockLabel
  hot : List BlockLabel
deriving DecidableEq, Repr

namespace TypedInlineStoreCandidate

variable (candidate : TypedInlineStoreCandidate)

def hasTrustedRuntimeTarget : Bool :=
  match candidate.call with
  | .directCallable _ => candidate.inlinePlans.all fun plan => plan.guard == .trustedRuntime
  | _ => false

def hasGenericFallback : Bool :=
  !candidate.hasTrustedRuntimeTarget && !candidate.call.isUnguarded

/-- How many guards follow the first one. -/
def guardCount : Nat :=
  if candidate.hasGenericFallback then candidate.inlinePlans.length - 1 else 0

/-- The labels in the order they are drawn. -/
def labels (n : Nat) : TypedInlineLabels × Nat :=
  let g := if candidate.hasGenericFallback then 1 else 0
  ({ continuation := n
     generic := if candidate.hasGenericFallback then some (n + 1) else none
     cleanup := n + 1 + g
     guards := List.range' (n + 2 + g) candidate.guardCount
     hot := List.range' (n + 2 + g + candidate.guardCount) candidate.inlinePlans.length },
   n + 2 + g + candidate.guardCount + candidate.inlinePlans.length)

end TypedInlineStoreCandidate

/-! ## Guards and the caller's own blocks -/

/-- `typed_direct_call_guard_term`, and the guard of a method. -/
def typedGuardTerm (temp : Option InlineLocal) (kind : TypedDirectCallGuardTestKind) (source : Option InstrId)
    (thenLabel elseLabel : BlockLabel) : Except InlineUnsupportedReason (BlockTerm InstrTyped) :=
  match temp with
  | some temp =>
    .ok (.ifTerm (.mk { instrId := source } (.op (.directCallGuardTest kind)) [typedLoadTemp temp.resolvedName])
      thenLabel elseLabel)
  | none => .error .brokenExpectation

variable (call : TypedInlineCall)

def typedInlineGuardTerm (plan : TypedInlineDirectCallPlan) (temps : TypedInlineTemps)
    (thenLabel elseLabel : BlockLabel) : Except InlineUnsupportedReason (BlockTerm InstrTyped) :=
  match plan.guard, call with
  | .direct, .directCallable _ | .callable, .callable _ =>
    typedGuardTerm temps.callable (.runtimeFunctionId plan.target) call.parts.instrId thenLabel elseLabel
  | .direct, .builtinImplementation _ | .direct, .directMethod _ _ _ | .direct, .directRuntimeProtocolMethod _ _
  | .direct, .generatorResume _ => .ok (.jump ⟨thenLabel, []⟩)
  | .method typeVersion, .method _ _ _ | .method typeVersion, .runtimeProtocolMethod _ _ =>
    typedGuardTerm temps.receiver (.exactTypeVersion plan.target typeVersion) call.parts.instrId thenLabel elseLabel
  | _, _ => .error .brokenExpectation

/-- The terminator of the entry. -/
def typedInlineEntryTerm (labels : TypedInlineLabels)
    (temps : TypedInlineTemps) : Except InlineUnsupportedReason (BlockTerm InstrTyped) :=
  match labels.hot, candidate.inlinePlans with
  | hot :: _, plan :: _ =>
    if candidate.hasTrustedRuntimeTarget || candidate.call.isUnguarded then .ok (.jump ⟨hot, []⟩)
    else
      match labels.guards.head?.or labels.generic with
      | some elseLabel => typedInlineGuardTerm candidate.call plan temps hot elseLabel
      | none => .error .brokenExpectation
  | _, _ => .error .brokenExpectation

variable (context : InlineHandledContext) (excEdge : Option BlockEdge)

/-- A new block of the caller: it keeps the exception edge and the regions of the call site. -/
def callerBlock (label : BlockLabel) (body : List InstrTyped) (term : BlockTerm InstrTyped) : Block InstrTyped :=
  context.preserveCaller { label := label, body := body, term := term, excEdge := excEdge }

/-- The guards after the first one: each falls through to the next, the last one to the generic call. -/
def typedInlineGuards (context : InlineHandledContext) (excEdge : Option BlockEdge) (call : TypedInlineCall)
    (temps : TypedInlineTemps) (generic : Option BlockLabel) :
    List BlockLabel → List (TypedInlineDirectCallPlan × BlockLabel) →
      Except InlineUnsupportedReason (List (Block InstrTyped))
  | [], _ => .ok []
  | label :: rest, (plan, hot) :: plans =>
    match rest.head?.or generic with
    | some elseLabel => do
      let term ← typedInlineGuardTerm call plan temps hot elseLabel
      let guards ← typedInlineGuards context excEdge call temps generic rest plans
      return callerBlock context excEdge label [] term :: guards
    | none => .error .brokenExpectation
  | _ :: _, [] => .error .brokenExpectation

variable (temps : TypedInlineTemps)

def typedInlineGenericFallbackBody : Except InlineUnsupportedReason (List InstrTyped) :=
  let loads := temps.args.map fun t => typedLoadTemp t.resolvedName
  let genericCall (instrId : Option InstrId) (func : InstrTyped) (args : List InstrTyped) : InstrTyped :=
    .mk { instrId := instrId } (.op (.callTyped { args := args.map fun _ => .positional })) (func :: args)
  let body (value : InstrTyped) (temp : InlineLocal) : List InstrTyped :=
    [typedStoreTemp temps.returnTarget value] ++ (temps.discardResult.map typedCleanupDel).toList ++
      typedCleanupDels temps.args ++ [typedCleanupDel temp.resolvedName]
  match call with
  | .directCallable _ | .callable _ =>
    match temps.callable with
    | some temp => .ok (body (genericCall none (typedLoadTemp temp.resolvedName) loads) temp)
    | none => .error .brokenExpectation
  | .method _ _ attr =>
    match temps.receiver with
    | some temp =>
      .ok (body (genericCall none (.mk {} (.op .getAttrTyped) [typedLoadTemp temp.resolvedName, attr]) loads) temp)
    | none => .error .brokenExpectation
  | .runtimeProtocolMethod call _ =>
    match temps.receiver with
    | some temp => .ok (body (genericCall call.instrId call.func (typedLoadTemp temp.resolvedName :: loads)) temp)
    | none => .error .brokenExpectation
  | _ => .error .brokenExpectation

/-- The first part of the block, without the load of the method a direct method call does not need. -/
def dropLinearizedFunc (before : List InstrTyped) : List InstrTyped :=
  match call with
  | .directMethod _ _ (some temp) =>
    (before.reverse.eraseP fun i => match i with
      | .mk _ (.store n) [.mk _ (.op .getAttrTyped) _] => n == temp
      | _ => false).reverse
  | _ => before

/-- The stores of the callee or the receiver, and of the arguments, in evaluation order. -/
def typedInlineArgStores : List InstrTyped :=
  (call.callable?.bind fun func => temps.callable.map fun t => typedStoreTemp t.resolvedName func).toList ++
  (call.receiver?.bind fun receiver => temps.receiver.map fun t => typedStoreTemp t.resolvedName receiver).toList ++
  (temps.args.zip call.args).map fun ta => typedStoreTemp ta.1.resolvedName ta.2.2

/-- The two parts of the block, and the terminator of the second. -/
def splitAtCandidate (block : Block InstrTyped) (candidate : TypedInlineStoreCandidate) (returnTarget : ResolvedName) :
    Except InlineUnsupportedReason (List InstrTyped × List InstrTyped × BlockTerm InstrTyped) :=
  match candidate.result with
  | .return => .ok (block.body, [], .ret (typedLoadTemp returnTarget))
  | _ =>
    if candidate.instrIndex < block.body.length then
      .ok (block.body.take candidate.instrIndex, block.body.drop (candidate.instrIndex + 1), block.term)
    else .error .brokenExpectation

/-! ## The copies -/

def typedParameterLocalLocation (name : String) : Except InlineUnsupportedReason LocalLocation :=
  if callee.hasStorageLayout = false then .error .missingCalleeStorageLayout
  else match callee.stackSlots.idxOf? name with
    | some location => .ok location
    | none => .error (.missingParameterLocal name)

/-- The value of a parameter. -/
def typedInlineArgument (values : List InstrTyped) :
    ParamKind → TypedDirectCallArgSource → Except InlineUnsupportedReason InstrTyped
  | .posOnly, .provided i | .any, .provided i =>
    match values[i]? with
    | some value => .ok value
    | none => .error .arityMismatch
  | .varArg, .packedRest start =>
    if start ≤ values.length then .ok (.mk {} (.op .tuple) (values.drop start)) else .error .arityMismatch
  | _, .defaultSentinel => .error .defaultArguments
  | _, _ => .error .unsupportedParameterKind

/-- The bindings of the parameters; a later parameter of the same slot replaces an earlier one. -/
def bindTypedParameters (callee : CodegenFunction InstrTyped) (values : List InstrTyped) :
    List (Param × TypedDirectCallArgSource) → List (LocalLocation × InstrTyped) →
      Except InlineUnsupportedReason (List (LocalLocation × InstrTyped))
  | [], bindings => .ok bindings
  | (param, source) :: rest, bindings => do
    let value ← typedInlineArgument values param.kind source
    let location ← typedParameterLocalLocation callee param.name
    bindTypedParameters callee values rest ((location, value) :: bindings)

def bindTypedDirectCallInlineValues (argPlan : List TypedDirectCallArgSource)
    (values : List InstrTyped) : Except InlineUnsupportedReason (List (LocalLocation × InstrTyped)) :=
  if argPlan.length ≠ callee.params.length then .error .arityMismatch
  else bindTypedParameters callee values (callee.params.zip argPlan) []

/-- `typed_inline_provided_values`; the entry of a constructor also takes the class. -/
def typedInlineProvidedValues : Except InlineUnsupportedReason (List InstrTyped) :=
  let values := (temps.receiver.toList ++ temps.args).map fun t => typedLoadTemp t.resolvedName
  if callee.isConstructorEntryFunction then
    match temps.callable with
    | some temp => .ok (typedLoadTemp temp.resolvedName :: values)
    | none => .error .brokenExpectation
  else .ok values

/-- The copies keep the exception edge of the call site where the callee has none. -/
def inheritExcEdge (b : Block InstrTyped) : Block InstrTyped :=
  { b with excEdge := b.excEdge.or excEdge }

/-- The entry of a copy gets the label its guard leads to. -/
def relabelEntry (hot : BlockLabel) : List (Block InstrTyped) → List (Block InstrTyped)
  | [] => []
  | b :: bs => { b with label := hot } :: bs

/-- One copy for each plan, in order. -/
def typedInlineFragments (m : TypedInlineModule) (context : InlineHandledContext) (excEdge : Option BlockEdge)
    (temps : TypedInlineTemps) (cleanup : BlockLabel) :
    List (TypedInlineDirectCallPlan × BlockLabel) → TypedInlineState →
      Except InlineUnsupportedReason (List (Block InstrTyped) × TypedInlineState)
  | [], st => .ok ([], st)
  | (plan, hot) :: plans, st =>
    match typedInlineCallee m plan.target with
    | none => .error .missingCallee
    | some (callee, constants) => do
      let values ← typedInlineProvidedValues callee.toCodegenFunction temps
      let bindings ← bindTypedDirectCallInlineValues callee.toCodegenFunction plan.argPlan values
      let (blocks, st) ← buildTypedDirectCallInlineFragment m st callee.toCodegenFunction constants context cleanup
        bindings temps.returnTarget
      let (rest, st) ← typedInlineFragments m context excEdge temps cleanup plans st
      return (relabelEntry hot (blocks.map (inheritExcEdge excEdge)) ++ rest, st)

/-! ## The rewrite -/

/-- The reasons to leave a candidate alone before anything is allocated. -/
def checkTypedInlineCandidate (candidate : TypedInlineStoreCandidate) : Except InlineUnsupportedReason Unit :=
  if candidate.call.isGeneratorResume then .error .generatorResume
  else if candidate.inlinePlans.any fun plan =>
      (typedInlineCallee m plan.target).any fun callee => !context.canInline callee.1.toBlockPyFunction then
    .error .unrepresentedHandledActivation
  else if !candidate.call.keywords.isEmpty then .error .keywordArguments
  else if candidate.call.args.any fun arg => arg.1 == .starred then .error .starredArguments
  else .ok ()

/-- The generic call, when a guard can fail. -/
def typedInlineFallback (call : TypedInlineCall) (temps : TypedInlineTemps) (labels : TypedInlineLabels) :
    Except InlineUnsupportedReason (List (Block InstrTyped)) :=
  match labels.generic with
  | none => .ok []
  | some generic => do
    let body ← typedInlineGenericFallbackBody call temps
    return [callerBlock context excEdge generic body (.jump ⟨labels.continuation, []⟩)]

/-- The end of the copies: the temporaries are deleted. -/
def typedInlineCleanup (labels : TypedInlineLabels) : Block InstrTyped :=
  callerBlock context excEdge labels.cleanup
    ((temps.discardResult.map typedCleanupDel).toList ++ typedCleanupDels temps.args ++
      (temps.receiver.map fun t => typedCleanupDel t.resolvedName).toList ++
      (temps.callable.map fun t => typedCleanupDel t.resolvedName).toList)
    (.jump ⟨labels.continuation, []⟩)

/-- The second part of the block; a result in a temporary is stored first. -/
def typedInlineContinuation
    (labels : TypedInlineLabels) (after : List InstrTyped) (term : BlockTerm InstrTyped) : Block InstrTyped :=
  let handoff := match temps.resultHandoff with
    | some target => [typedStoreTemp target (typedLoadTemp temps.returnTarget), typedCleanupDel temps.returnTarget]
    | none => []
  callerBlock context excEdge labels.continuation (handoff ++ after) term

def tryBuildTypedDirectCallInlineRewriteForCandidate (st : TypedInlineState)
    (block : Block InstrTyped) (candidate : TypedInlineStoreCandidate) :
    Except InlineUnsupportedReason (List (Block InstrTyped) × TypedInlineState) := do
  let context := InlineHandledContext.forCallSite block
  checkTypedInlineCandidate m context candidate
  let (temps, caller) ← allocateTypedInlineTemps m candidate st.caller
  let labels := (candidate.labels caller.nextBlockId).1
  let (before, after, term) ← splitAtCandidate block candidate temps.returnTarget
  let entryTerm ← typedInlineEntryTerm candidate labels temps
  let entry : Block InstrTyped :=
    { block with
      body := dropLinearizedFunc candidate.call before ++ typedInlineArgStores candidate.call temps
      term := entryTerm }
  let guards ← typedInlineGuards context block.excEdge candidate.call temps labels.generic labels.guards
    (candidate.inlinePlans.zip labels.hot).tail
  let (copies, st) ← typedInlineFragments m context block.excEdge temps labels.cleanup
    (candidate.inlinePlans.zip labels.hot)
    { st with caller := { caller with nextBlockId := (candidate.labels caller.nextBlockId).2 } }
  let fallback ← typedInlineFallback context block.excEdge candidate.call temps labels
  return (entry :: guards ++ copies ++ fallback ++
    [typedInlineCleanup context block.excEdge temps labels,
     typedInlineContinuation context block.excEdge temps labels after term], st)

end Soac
