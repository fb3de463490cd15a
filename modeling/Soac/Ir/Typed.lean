import Soac.Ir.BlockPy
import Soac.Facts.ValueFacts

/-!
# The typed form

`InstrTyped`: the instructions of BlockPy with a sidecar that later passes write their plans into, and with calls and
attribute accesses split by how they are planned. Of the sidecar only what the modelled passes read is kept.
-/

namespace Soac

/-- The identity of an instruction of the source, kept across passes. -/
abbrev InstrId := Nat

/-- The facts about the result of an instruction. Only those about objects are looked into. -/
inductive ValueFacts where
  | pyObj (facts : PyObjFacts)
  | i32
  | i64
  | bool
deriving DecidableEq, Repr

def ValueFacts.asPyobj : ValueFacts → Option PyObjFacts
  | .pyObj facts => some facts
  | _ => none

/-- Who owns the object an expression leaves. -/
inductive TypedPyObjectOwnershipPlan where
  | owned
  | borrowedLocal (location : LocalLocation)
  | immortal
deriving DecidableEq, Repr

inductive TypedPlannedResult where
  | effectOnly
  | pyObject (ownership : TypedPyObjectOwnershipPlan)
  | i32Bool01
  | i64
deriving DecidableEq, Repr

/-- The representation of a planned value. -/
inductive Rep where
  | pyObjectOwned
  | pyObjectBorrowed
  | pyObjectImmortal
  | i32Bool01
  | i64
deriving DecidableEq, Repr

/-- How a planned region ends; of a returned value only its representation is kept. -/
inductive MechanicalExitKind where
  | branch
  | return (rep : Rep)
  | jump
deriving DecidableEq, Repr

/-- The type an indexed field belongs to. -/
structure IndexedFieldOwnerType where
  moduleName : String
  qualname : String
deriving DecidableEq, Repr

/-- Where a planned region reads an input from; only indexed fields are told apart. -/
inductive RegionInputSource where
  | indexedField (source : InstrId) (ownerType : IndexedFieldOwnerType) (attrName : String) (expectedIndex : Nat)
  | other
deriving DecidableEq, Repr

structure RegionInput where
  rep : Rep
  source : RegionInputSource
deriving DecidableEq, Repr

/-- A planned region: its inputs and its exits. -/
structure RegionPlan where
  inputs : List RegionInput := []
  exits : List MechanicalExitKind := []
deriving DecidableEq, Repr

inductive TypedAttrOwnerRef where
  | cpythonTypeSymbol (name : String)
  | typeKey (moduleName qualname : String)
deriving DecidableEq, Repr

/-- How an attribute access is planned; of a guard its owner and its index are kept. -/
inductive TypedAttrAccessPlan where
  | generic
  | guardedSealedField
  | indexedField (guards : List (TypedAttrOwnerRef × Nat))
  | lateBoundOwnerField (moduleId : Nat) (ownerType : IndexedFieldOwnerType) (attrName : String)
      (splitDictIndex : Option Nat)
  | polymorphicLateBoundOwnerFields
deriving DecidableEq, Repr

/-- How a call is planned. -/
inductive TypedCallAccessPlan where
  | generic
  | guardedSealedMethod
  | guardedCallable
  | guardedMethod
  | guardedRuntimeProtocolMethod
deriving DecidableEq, Repr

/-- The sidecar of a typed instruction, with the access plans the source keeps in calls and attribute accesses. Of a plan
whose content no modelled pass reads only its presence is kept. -/
structure TypedInstrExtra where
  instrId : Option InstrId := none
  plannedResult : Option TypedPlannedResult := none
  exactIntBranchPlan : Option RegionPlan := none
  exactIntReturnPlan : Option RegionPlan := none
  exactFloatExpressionPlan : Bool := false
  nativeIteratorPipelinePlan : Bool := false
  sourceCall : Bool := false
  callAccess : TypedCallAccessPlan := .generic
  attrAccess : TypedAttrAccessPlan := .generic
  resultFacts : Option ValueFacts := none
deriving DecidableEq, Repr

/-- `typed_expr_exact_int_return_is_immortal_pyobject`: the hot region has one exit, which returns an immortal object. -/
def TypedInstrExtra.exactIntReturnIsImmortalPyobject (extra : TypedInstrExtra) : Bool :=
  match extra.exactIntReturnPlan with
  | some plan =>
    match plan.exits with
    | [.return rep] => rep == .pyObjectImmortal
    | _ => false
  | none => false

/-- `typed_expr_planned_pyobject_ownership`. -/
def TypedInstrExtra.plannedPyobjectOwnership (extra : TypedInstrExtra) : Option TypedPyObjectOwnershipPlan :=
  match extra.plannedResult with
  | some (.pyObject ownership) => some ownership
  | _ => if extra.exactIntReturnIsImmortalPyobject then some .immortal else none

/-! ## Operations -/

/-- What a guard in front of a planned call tests: the identity of the callee, or the type of the receiver. -/
inductive TypedDirectCallGuardTestKind where
  | runtimeFunctionId (functionId : RuntimeFunctionId)
  | exactTypeVersion (functionId : RuntimeFunctionId) (typeVersion : Nat)
deriving DecidableEq, Repr

/-- The operations of `InstrTyped` that carry no name. -/
inductive TypedOp where
  | truthy
  | binOp (kind : BinOpKind)
  | tuple
  | unaryOp (kind : UnaryOpKind)
  | calleeFunctionId
  | callTyped (shape : CallShape)
  | guardedCallableCallTyped (shape : CallShape)
  | guardedMethodCallTyped (shape : CallShape) (methodName : String) (guards : List (RuntimeFunctionId × Nat))
  | directCallableCallTyped (shape : CallShape) (functionId : RuntimeFunctionId)
  | directMethodCallTyped (shape : CallShape) (methodName : String) (functionId : RuntimeFunctionId)
  | directCallGuardTest (kind : TypedDirectCallGuardTestKind)
  | callDirect (shape : CallShape) (functionId : RuntimeFunctionId)
  | getAttrTyped
  | setAttrTyped
  | getItem
  | setItem
  | delItem
  | buildCollection (kind : BuildCollectionKind)
  | preparedCall
  | newAnnotationSet
  | setupAnnotations
  | constructTypeParameterScope
  | subscriptGeneric
  | setFunctionTypeParameters
  | createTypeAlias
  | createTypeParameter
  | setTypeParameterDefault
  | checkAnnotationFormat
  | recordAnnotation
  | incrementCounter
  | makeFunctionWithClosure
  | completeFunctionDefinition
  | applyFunctionDescriptor
  | prepareClassDecorator
  | applyClassDecorator
  | discardClassDecorator
  | discardClassConstructionCaptures
  | constructClass
deriving DecidableEq, Repr

abbrev InstrTyped := Instr TypedInstrExtra TypedOp

namespace InstrTyped

def load (n : ResolvedName) : InstrTyped := .mk {} (.load n) []

def store (n : ResolvedName) (value : InstrTyped) : InstrTyped := .mk {} (.store n) [value]

end InstrTyped

end Soac
