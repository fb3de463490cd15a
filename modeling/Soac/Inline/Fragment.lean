import Soac.Inline.Remap

/-!
# Inline fragments of BlockPy

`inline_transform.rs`: the blocks of a callee copied into a caller, as a fragment that is entered at its own label and
leaves to a continuation, its result stored in a target. The arguments are bound to the callee's parameters as expressions
(`bind_simple_direct_call_inline_values`), and stand wherever the callee reads the parameter.
-/

namespace Soac

/-- The operations `InlineLocalRemapper` refuses: they belong to the execution context of the callee's definitions. -/
def checkBlockPyOp : BlockPyOp → Except InlineUnsupportedReason Unit
  | .call shape => if shape.frameNamespace.isSome then .error .classConstructionExecutionContext else .ok ()
  | .constructClass | .prepareClassDecorator | .discardClassDecorator | .discardClassConstructionCaptures
  | .applyClassDecorator => .error .classConstructionExecutionContext
  | .completeFunctionDefinition | .applyFunctionDescriptor => .error .functionDefinitionExecutionContext
  | _ => .ok ()

/-- `InlineLocalRemapper`. A copied block has the context a new block has. -/
def blockPyDialect : RemapDialect Unit BlockPyOp where
  checkOp := checkBlockPyOp
  finishOp x k ops := .mk x (.op k) ops
  clearInstrIds i := i
  remapExtra := RemapM.pure
  returnExtra := RemapM.pure
  isIncrementCounter k := k == .incrementCounter
  context _ := .regions

/-! ## Arguments -/

/-- The arguments by the slot of their parameter, the last one first. -/
abbrev InlineValueBindings := List (LocalLocation × InstrBlockPy)

/-- The parameters that a positional argument binds. -/
def ParamKind.isPositional : ParamKind → Bool
  | .posOnly | .any => true
  | _ => false

/-- The loop that binds each parameter to its argument. -/
def bindInlineValues (callee : CodegenFunction InstrBlockPy) :
    List Param → List InstrBlockPy → InlineValueBindings → Except InlineUnsupportedReason InlineValueBindings
  | param :: params, value :: values, bindings =>
    match callee.locationByName param.name with
    | some location => bindInlineValues callee params values ((location, value) :: bindings)
    | none => .error (.missingParameterLocal param.name)
  | _, _, bindings => .ok bindings

variable (callee : CodegenFunction InstrBlockPy)

def bindSimpleDirectCallInlineValues (values : List InstrBlockPy) : Except InlineUnsupportedReason InlineValueBindings :=
  if callee.params.any fun param => !param.kind.isPositional then .error .unsupportedParameterKind
  else if callee.params.length ≠ values.length then .error .arityMismatch
  else if callee.params ≠ [] ∧ callee.hasStorageLayout = false then .error .missingCalleeStorageLayout
  else bindInlineValues callee callee.params values []

/-- `bind_simple_direct_call_inline_args`: a call without keyword and starred arguments. -/
def bindSimpleDirectCallInlineArgs (shape : CallShape)
    (args : List InstrBlockPy) : Except InlineUnsupportedReason InlineValueBindings :=
  if !shape.keywords.isEmpty then .error .keywordArguments
  else if shape.args.contains .starred then .error .starredArguments
  else bindSimpleDirectCallInlineValues callee args

/-! ## The fragment -/

structure InlineFragment where
  entryLabel : BlockLabel
  blocks : List (Block InstrBlockPy)
  locals : List (LocalLocation × InlineLocal)
deriving Repr

/-- `MAX_INLINE_DIRECT_CALL_BLOCKS`. -/
def maxInlineDirectCallBlocks : Nat := 16

variable (runtimeName : String → Option RuntimeName)

/-- The remapper of a copy: cells are not looked at. -/
def blockPyRemapEnv (callee : CodegenFunction InstrBlockPy)
    (locals : List (LocalLocation × InlineLocal)) (bindings : InlineValueBindings) : RemapEnv Unit BlockPyOp where
  stackSlots := callee.stackSlots
  locals := locals
  bindings := bindings
  cell := .ok
  runtimeName := runtimeName

/-- The checks on the callee and on the slots the bindings name. -/
def checkInlineCallee (bindings : InlineValueBindings) : Except InlineUnsupportedReason Unit :=
  if callee.hasStorageLayout = false then .error .missingCalleeStorageLayout
  else match bindings.find? fun b => callee.stackSlots.length ≤ b.1 with
    | some b => .error (.missingCalleeLocal b.1)
    | none => if maxInlineDirectCallBlocks < callee.blocks.length then .error .tooManyBlocks else .ok ()

/-- `build_multi_block_inline_fragment_to_target_impl`. A callee without blocks breaks an expectation. -/
def buildMultiBlockInlineFragmentToTarget
    (caller callee : CodegenFunction InstrBlockPy) (continuation : BlockLabel) (bindings : InlineValueBindings)
    (returnTarget : ResolvedName) (scope : ConstantScope) :
    Except InlineUnsupportedReason (InlineFragment × CodegenFunction InstrBlockPy × ConstantScope) := do
  checkInlineCallee callee bindings
  let (locals, caller) ← caller.allocateInlineLocals "inline" (fun x => (bindings.lookup x).isSome)
    (List.range callee.stackSlots.length)
  let labelMap := freshLabelMap caller callee.toBlockPyFunction
  let entry ← match callee.blocks.head? with
    | some b => .ok b.label
    | none => .error .brokenExpectation
  let entryLabel ← remappedLabel labelMap entry
  let (blocks, s) ← RemapM.mapList
    (blockPyDialect.remapBlock (blockPyRemapEnv runtimeName callee locals bindings) labelMap returnTarget continuation)
    callee.blocks { constants := scope }
  return (⟨entryLabel, blocks, locals⟩, (caller.nextBlockNames callee.blocks.length).2, s.constants)

end Soac
