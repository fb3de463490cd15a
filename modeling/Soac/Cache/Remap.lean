import Soac.Ir.Block
import Soac.Ir.FunctionId
import Soac.Lib.Rose

/-!
# The function ids of a cached module

A BlockPy module is stored with the function ids of the process that lowered it. A process that loads it gives the module
a new module id and moves every function id of the module there. Function ids stand in the table of functions, in the
scopes of class construction helpers, in the sites of counters and in the instructions, at any depth.
-/

namespace Soac.Cache

/-- The operations that name no function. -/
inductive PlainOp where
  | binOp
  | unaryOp
  | tuple
  | call
  | getAttr
  | setAttr
  | getItem
  | setItem
  | delItem
  | load
  | store
  | del
  | takeOperand
  | comprehensionInsert
  | buildCollection
  | callArgumentOp
  | preparedCall
  | iteratorStep
  | makeCell
  | newAnnotationSet
  | setupAnnotations
  | subscriptGeneric
  | checkAnnotationFormat
  | recordAnnotation
  | incrementCounter
  | cellRef
  | discardClassDecorator
  | discardClassConstructionCaptures
deriving DecidableEq, Repr

/-- The operations of BlockPy, with the function ids they hold. -/
inductive Op where
  | plain (op : PlainOp)
  | makeFunctionWithClosure (functionId : PackedFunctionId)
  | completeFunctionDefinition (functionId : PackedFunctionId)
  | applyFunctionDescriptor (functionId : PackedFunctionId)
  | prepareClassDecorator (constructionFunction : PackedFunctionId)
  | applyClassDecorator (constructionFunction : PackedFunctionId)
  | constructClass (constructionFunction : PackedFunctionId)
  | constructTypeParameterScope (scopeFunctionId : PackedFunctionId)
  | setFunctionTypeParameters (functionId : PackedFunctionId)
  | createTypeAlias (evaluatorFunction : PackedFunctionId)
  | createTypeParameter (evaluatorFunction : Option PackedFunctionId)
  | setTypeParameterDefault (evaluatorFunction : PackedFunctionId)
deriving DecidableEq, Repr

/-- An instruction: an operation over its operands, in the order the visitors walk them. -/
abbrev InstrBlockPy := Rose Op

structure ClassConstructionScope where
  namespaceFunction : PackedFunctionId
deriving DecidableEq, Repr

structure CallableScopeInfo where
  classConstruction : Option ClassConstructionScope := none
deriving DecidableEq, Repr

structure FunctionNameGen where
  functionId : PackedFunctionId
  nextBlockId : Nat
  nextTmpId : Nat
deriving DecidableEq, Repr

structure ModuleNameGen where
  moduleId : UInt32
  nextFunctionId : Nat
deriving DecidableEq, Repr

/-- `next_function_name_gen`. -/
def ModuleNameGen.nextFunctionNameGen (gen : ModuleNameGen) : FunctionNameGen × ModuleNameGen :=
  (⟨.new gen.moduleId (.ofNat gen.nextFunctionId), 0, 0⟩,
    { gen with nextFunctionId := (gen.nextFunctionId + 1) % 2 ^ 32 })

/-- `next_block_name`, which panics on an index beyond `u32`. -/
def FunctionNameGen.nextBlockName (gen : FunctionNameGen) : Option BlockLabel × FunctionNameGen :=
  (if gen.nextBlockId < 2 ^ 32 then some gen.nextBlockId else none, { gen with nextBlockId := gen.nextBlockId + 1 })

structure BlockPyFunction where
  functionId : PackedFunctionId
  nameGen : FunctionNameGen
  scope : CallableScopeInfo := {}
  publicScope : Option CallableScopeInfo := none
  blocks : List (Block InstrBlockPy)

inductive DeoptEntrySource where
  | blockEntry (blockLabel : BlockLabel)
  | beforeInstr (instrId : Nat)
  | beforeTerm (blockLabel : BlockLabel)
deriving DecidableEq, Repr

inductive CounterSite where
  | blockEntry (functionId : PackedFunctionId) (blockLabel : BlockLabel)
  | deoptEntry (functionId : PackedFunctionId) (source : DeoptEntrySource)
  | runtime (functionId : Option PackedFunctionId) (instrId : Option Nat)
deriving DecidableEq, Repr

structure BlockPyModule where
  moduleNameGen : ModuleNameGen
  callableDefs : List BlockPyFunction
  counterDefs : List CounterSite

/-! ## The remapper -/

def fallthroughIndex : BlockLabel := 2 ^ 32 - 1

/-- One more, within `u32`. -/
def saturatingSucc (n : Nat) : Nat := min (n + 1) (2 ^ 32 - 1)

def recoveredFunctionNameGen (function : BlockPyFunction) : FunctionNameGen where
  functionId := function.functionId
  nextBlockId := (((function.blocks.map (·.label)).filter (· ≠ fallthroughIndex)).map saturatingSucc).foldl max 0
  nextTmpId := 0

variable (module : BlockPyModule)

def recoveredModuleNameGen : ModuleNameGen :=
  let ids := module.callableDefs.map (·.functionId)
  let moduleId := (ids.head?.map (·.moduleId)).getD 0
  { moduleId
    nextFunctionId :=
      ((ids.filter (·.moduleId = moduleId)).map fun id => saturatingSucc id.localFunctionId.toNat).foldl max 1 }

/-- `FunctionIdRemapper`, for the new module id. -/
structure FunctionIdRemapper where
  newModuleId : UInt32

namespace FunctionIdRemapper

variable (r : FunctionIdRemapper)

def remap (functionId : PackedFunctionId) : PackedFunctionId :=
  if functionId = .global then functionId else .new r.newModuleId functionId.localFunctionId

/-- What `visit_instr_mut` does to an instruction before it walks the operands. -/
def visitOp : Op → Op
  | .makeFunctionWithClosure functionId => .makeFunctionWithClosure (r.remap functionId)
  | .constructClass constructionFunction => .constructClass (r.remap constructionFunction)
  | .prepareClassDecorator constructionFunction => .prepareClassDecorator (r.remap constructionFunction)
  | .applyClassDecorator constructionFunction => .applyClassDecorator (r.remap constructionFunction)
  | .completeFunctionDefinition functionId => .completeFunctionDefinition (r.remap functionId)
  | .applyFunctionDescriptor functionId => .applyFunctionDescriptor (r.remap functionId)
  | .plain op => .plain op
  | .constructTypeParameterScope scopeFunctionId => .constructTypeParameterScope scopeFunctionId
  | .setFunctionTypeParameters functionId => .setFunctionTypeParameters functionId
  | .createTypeAlias evaluatorFunction => .createTypeAlias evaluatorFunction
  | .createTypeParameter evaluatorFunction => .createTypeParameter evaluatorFunction
  | .setTypeParameterDefault evaluatorFunction => .setTypeParameterDefault evaluatorFunction

def visitInstr (instr : InstrBlockPy) : InstrBlockPy :=
  instr.map r.visitOp

def visitTerm : BlockTerm InstrBlockPy → BlockTerm InstrBlockPy
  | .jump edge => .jump edge
  | .ifTerm test thenLabel elseLabel => .ifTerm (r.visitInstr test) thenLabel elseLabel
  | .branchTable index targets defaultLabel => .branchTable (r.visitInstr index) targets defaultLabel
  | .raise exc => .raise (exc.map r.visitInstr)
  | .ret value => .ret (r.visitInstr value)
  | .generatorReturn value => .generatorReturn (r.visitInstr value)

def visitBlock (block : Block InstrBlockPy) : Block InstrBlockPy :=
  { block with body := block.body.map r.visitInstr, term := r.visitTerm block.term }

/-- `walk_module_mut`. -/
def walkModule (module : BlockPyModule) : BlockPyModule :=
  { module with
    callableDefs := module.callableDefs.map fun function =>
      { function with blocks := function.blocks.map r.visitBlock } }

def remapScope (scope : CallableScopeInfo) : CallableScopeInfo :=
  { scope with
    classConstruction := scope.classConstruction.map fun construction =>
      { construction with namespaceFunction := r.remap construction.namespaceFunction } }

/-- What the loop over the function table does to a function. -/
def remapFunction (function : BlockPyFunction) : BlockPyFunction :=
  let function := { function with
    functionId := r.remap function.functionId
    scope := r.remapScope function.scope
    publicScope := function.publicScope.map r.remapScope }
  { function with nameGen := recoveredFunctionNameGen function }

def remapCounterSite : CounterSite → CounterSite
  | .blockEntry functionId blockLabel => .blockEntry (r.remap functionId) blockLabel
  | .deoptEntry functionId source => .deoptEntry (r.remap functionId) source
  | .runtime functionId instrId => .runtime (functionId.map r.remap) instrId

end FunctionIdRemapper

def remapBlockpyModuleFunctionIdsWithRemapper (r : FunctionIdRemapper) : BlockPyModule :=
  let module := r.walkModule module
  let module := { module with
    callableDefs := module.callableDefs.map r.remapFunction
    counterDefs := module.counterDefs.map r.remapCounterSite }
  { module with moduleNameGen := recoveredModuleNameGen module }

def remapBlockpyModuleFunctionIds (moduleNameGen : ModuleNameGen) : BlockPyModule :=
  remapBlockpyModuleFunctionIdsWithRemapper module ⟨moduleNameGen.moduleId⟩

/-! ## Where function ids stand -/

/-- The fields that hold function ids. -/
inductive IdField where
  | functionTable
  | namespaceFunction
  | counterSite
  | makeFunctionWithClosure
  | completeFunctionDefinition
  | applyFunctionDescriptor
  | prepareClassDecorator
  | applyClassDecorator
  | constructClass
  | constructTypeParameterScope
  | setFunctionTypeParameters
  | createTypeAlias
  | createTypeParameter
  | setTypeParameterDefault
deriving DecidableEq, Repr

/-- A function id where it stands. -/
structure IdOccurrence where
  field : IdField
  id : PackedFunctionId
deriving DecidableEq, Repr

def Op.ids : Op → List IdOccurrence
  | .plain _ => []
  | .makeFunctionWithClosure id => [⟨.makeFunctionWithClosure, id⟩]
  | .completeFunctionDefinition id => [⟨.completeFunctionDefinition, id⟩]
  | .applyFunctionDescriptor id => [⟨.applyFunctionDescriptor, id⟩]
  | .prepareClassDecorator id => [⟨.prepareClassDecorator, id⟩]
  | .applyClassDecorator id => [⟨.applyClassDecorator, id⟩]
  | .constructClass id => [⟨.constructClass, id⟩]
  | .constructTypeParameterScope id => [⟨.constructTypeParameterScope, id⟩]
  | .setFunctionTypeParameters id => [⟨.setFunctionTypeParameters, id⟩]
  | .createTypeAlias id => [⟨.createTypeAlias, id⟩]
  | .createTypeParameter id => id.toList.map fun id => ⟨.createTypeParameter, id⟩
  | .setTypeParameterDefault id => [⟨.setTypeParameterDefault, id⟩]

/-- The ids of an instruction and of everything below it. -/
def instrIds (instr : InstrBlockPy) : List IdOccurrence :=
  instr.labels.flatMap Op.ids

def blockIds (block : Block InstrBlockPy) : List IdOccurrence :=
  (block.body ++ block.term.operands).flatMap instrIds

def CallableScopeInfo.ids (scope : CallableScopeInfo) : List IdOccurrence :=
  scope.classConstruction.toList.map fun construction => ⟨.namespaceFunction, construction.namespaceFunction⟩

def BlockPyFunction.ids (function : BlockPyFunction) : List IdOccurrence :=
  ⟨.functionTable, function.functionId⟩ ::
    (function.scope.ids ++ function.publicScope.toList.flatMap CallableScopeInfo.ids ++ function.blocks.flatMap blockIds)

def CounterSite.ids : CounterSite → List IdOccurrence
  | .blockEntry id _ => [⟨.counterSite, id⟩]
  | .deoptEntry id _ => [⟨.counterSite, id⟩]
  | .runtime id _ => id.toList.map fun id => ⟨.counterSite, id⟩

/-- Every function id of a module. -/
def BlockPyModule.ids (module : BlockPyModule) : List IdOccurrence :=
  module.callableDefs.flatMap BlockPyFunction.ids ++ module.counterDefs.flatMap CounterSite.ids

end Soac.Cache
