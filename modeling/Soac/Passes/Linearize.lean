import Soac.Inline.Rewrite

/-!
# Linearization of typed expressions

`typed/linearize.rs`: a nested expression is computed into a temporary by a statement in front of the one it stands in, so
that no operation has another operation as its operand. Operands are walked from left to right, and a name that is read
before an operand something is lifted out of is captured in a temporary as well. Operations that own the evaluation of
their operands are left as they are, and so are operations that are no values (`typed_nested_expr_requires_temp`).

The checks of the storage layout on an operand that is moved are a parameter, `OperandOwner`.
-/

namespace Soac

open Instr

/-- `TakeOperand::validate_resolved`: the storage an operand is moved out of, if the layout allows it. -/
abbrev OperandOwner := ResolvedName → Option NameLocation

/-- `typed_nested_expr_requires_temp`, by operation. -/
def Head.requiresTemp : Head TypedOp → Bool
  | .op k =>
    match k with
    | .setAttrTyped | .setItem | .delItem | .buildCollection _ | .preparedCall | .incrementCounter => false
    | _ => true
  | _ => false

/-- `typed_nested_expr_requires_temp`. -/
def InstrTyped.requiresTemp (i : InstrTyped) : Bool :=
  Head.requiresTemp (head i)

mutual

/-- `NestedExpressionFinder`: something in an expression is computed into a temporary. -/
def containsLifted : InstrTyped → Bool
  | .mk _ h ops => h.requiresTemp || containsLiftedList ops

/-- Some operand contains one: `last_child_with_lifted_expression` for the operands from here on. -/
def containsLiftedList : List InstrTyped → Bool
  | [] => false
  | i :: is => containsLifted i || containsLiftedList is

end

/-! ## Operations that keep their operands -/

/-- The operands of `call_has_owned_operand_inputs` after the callable: moved operands and results of calls. -/
def ownedInputs (owner : OperandOwner) :
    List NameLocation → List (CallArgPositional × InstrTyped) → Except InlineUnsupportedReason Bool
  | _, [] => .ok true
  | _, (.starred, _) :: _ => .ok false
  | moved, (.positional, .mk _ (.takeOperand n) _) :: args =>
    match owner n with
    | none => .error .invalidOperandCall
    | some location =>
      if moved.contains location then .error .invalidOperandCall else ownedInputs owner (location :: moved) args
  | moved, (.positional, .mk _ (.op (.callTyped _)) _) :: args => ownedInputs owner moved args
  | _, (.positional, _) :: _ => .ok false

def callHasOwnedOperandInputs (owner : OperandOwner) (shape : CallShape) (ops : List InstrTyped) :
    Except InlineUnsupportedReason Bool :=
  if !shape.keywords.isEmpty || shape.frameNamespace.isSome then .ok false
  else
    match ops with
    | .mk _ (.takeOperand n) _ :: args =>
      match owner n with
      | none => .error .invalidOperandCall
      | some location => ownedInputs owner [location] (shape.args.zip args)
    | _ => .ok false

/-- `has_owned_operand_inputs`, for the calls that have a generic plan; a call needs a layout to look at. -/
def hasOwnedOperandInputs (owner : OperandOwner) (hasStorageLayout : Bool) :
    InstrTyped → Except InlineUnsupportedReason Bool
  | .mk x (.op (.callTyped shape)) ops =>
    if hasStorageLayout = false then .error .missingCallerStorageLayout
    else if x.callAccess = .generic then callHasOwnedOperandInputs owner shape ops
    else .ok false
  | _ => .ok false

variable (moduleId : Nat)

/-- Whether the access plan of an attribute load is the indexed field a region reads. -/
def TypedAttrAccessPlan.matchesField (ownerType : IndexedFieldOwnerType) (attrName : String)
    (expectedIndex : Nat) : TypedAttrAccessPlan → Bool
  | .indexedField guards =>
    guards.any fun guard =>
      guard.2 == expectedIndex && guard.1 == .typeKey ownerType.moduleName ownerType.qualname
  | .lateBoundOwnerField planModule planOwner planAttr splitDictIndex =>
    planModule == moduleId && planOwner == ownerType && planAttr == attrName && splitDictIndex == some expectedIndex
  | _ => false

mutual

/-- `MatchingField`: an attribute load of the expression reads the field. -/
def readsField (moduleId : Nat) (source : InstrId) (ownerType : IndexedFieldOwnerType) (attrName : String)
    (expectedIndex : Nat) : InstrTyped → Bool
  | .mk x h ops =>
    (h == .op .getAttrTyped && x.instrId == some source &&
      x.attrAccess.matchesField moduleId ownerType attrName expectedIndex) ||
    readsFieldList moduleId source ownerType attrName expectedIndex ops

def readsFieldList (moduleId : Nat) (source : InstrId) (ownerType : IndexedFieldOwnerType) (attrName : String)
    (expectedIndex : Nat) : List InstrTyped → Bool
  | [] => false
  | i :: is =>
    readsField moduleId source ownerType attrName expectedIndex i ||
    readsFieldList moduleId source ownerType attrName expectedIndex is

end

/-- `typed_exact_int_region_matches_field_expression`. -/
def regionMatchesField (i : InstrTyped) (plan : RegionPlan) : Bool :=
  plan.inputs.any fun input =>
    input.rep == .pyObjectBorrowed &&
      match input.source with
      | .indexedField source ownerType attrName expectedIndex =>
        readsField moduleId source ownerType attrName expectedIndex i
      | .other => false

/-- `typed_exact_int_field_scalar_expression_is_atomic`. -/
def fieldScalarExpressionIsAtomic (i : InstrTyped) : Bool :=
  (extra i).exactIntBranchPlan.any (regionMatchesField moduleId i) ||
    (extra i).exactIntReturnPlan.any (regionMatchesField moduleId i)

def RegionInputSource.isIndexedField : RegionInputSource → Bool
  | .indexedField _ _ _ _ => true
  | .other => false

/-- The operations that keep their operands whatever their plan is, or because of the plan of the call. -/
def Head.keepsOperands (x : TypedInstrExtra) : Head TypedOp → Bool
  | .comprehensionInsert _ _ | .callArgumentOp _ _ _ | .takeOperand _ | .iteratorStep _ | .cellRef _ => true
  | .op k =>
    match k with
    | .buildCollection _ | .preparedCall | .incrementCounter => true
    | .callTyped _ => x.sourceCall || x.callAccess == .guardedSealedMethod
    | .guardedMethodCallTyped _ _ guards => guards.isEmpty
    | .binOp _ => x.exactFloatExpressionPlan
    | _ => false
  | _ => false

/-- An operation that owns the evaluation of its operands, apart from owned calls. -/
def keepsOperands (moduleId : Nat) (i : InstrTyped) : Bool :=
  (extra i).nativeIteratorPipelinePlan || Head.keepsOperands (extra i) (head i) ||
    (extra i).exactIntBranchPlan.any (fun plan => !plan.inputs.any fun input => input.source.isIndexedField) ||
    fieldScalarExpressionIsAtomic moduleId i

/-! ## The linearizer -/

/-- The linearizer of one statement or terminator: the statements put in front of it, and the temporaries that are still
to be deleted. -/
structure LinearizerState where
  function : CodegenFunction InstrTyped
  hoisted : List InstrTyped := []
  temps : List InlineLocal := []

/-- What stands for a lifted expression: a moved operand stays a move. -/
def linearizedTemp (temp : InlineLocal) (expr : InstrTyped) : InstrTyped :=
  match head expr with
  | .takeOperand _ => .mk { resultFacts := (extra expr).resultFacts } (.takeOperand temp.resolvedName) []
  | _ => .mk { resultFacts := (extra expr).resultFacts } (.load temp.resolvedName) []

/-- `lift_nested_expr`: compute the expression into a temporary, and delete the temporaries of its operands. -/
def liftNestedExpr (expr : InstrTyped) (operandTemps : List InlineLocal) (st : LinearizerState) :
    Except InlineUnsupportedReason (InstrTyped × LinearizerState) := do
  let (temp, function) ← st.function.tryAllocateStackTemp "typed_linearized_expr"
  return (linearizedTemp temp expr,
    { function := function
      hoisted := st.hoisted ++ typedStoreTemp temp.resolvedName expr :: typedCleanupDels operandTemps
      temps := st.temps ++ [temp] })

/-- Reads that depend on when they happen: neither constants nor the compiler's own operations. -/
def capturesRead (i : InstrTyped) : Bool :=
  match head i with
  | .load n =>
    match n.location with
    | .constant _ => false
    | .runtimeName name => !name.isLanguageIntrinsic
    | _ => true
  | .takeOperand _ => true
  | _ => false

def InstrTyped.isGetAttr (i : InstrTyped) : Bool :=
  head i == .op .getAttrTyped

/-- The operation over its linearized operands: the plan of a method call needs the attribute load it was made for. -/
def rebuild (x : TypedInstrExtra) (h : Head TypedOp) (ops : List InstrTyped) : InstrTyped :=
  match h with
  | .op (.callTyped shape) =>
    if x.callAccess = .guardedMethod ∧ !(ops.head?.any InstrTyped.isGetAttr) then
      .mk { x with callAccess := .generic } (.op (.callTyped shape)) ops
    else .mk x h ops
  | .op (.guardedMethodCallTyped shape _ _) =>
    if ops.head?.any InstrTyped.isGetAttr then .mk x h ops
    else .mk { x with callAccess := .generic } (.op (.callTyped shape)) ops
  | h => .mk x h ops

section

variable (owner : OperandOwner)

/-- The end of `try_map_instr`: a value that is nested, or whose operands went into temporaries, is lifted. -/
def finishInstr (isRoot : Bool) (firstOperandTemp : Nat) (rewritten : InstrTyped) (st : LinearizerState) :
    Except InlineUnsupportedReason (InstrTyped × LinearizerState) :=
  if InstrTyped.requiresTemp rewritten && (!isRoot || st.temps.length != firstOperandTemp) then
    liftNestedExpr rewritten (st.temps.drop firstOperandTemp) { st with temps := st.temps.take firstOperandTemp }
  else .ok (rewritten, st)

mutual

/-- `TypedExpressionLinearizer::try_map_instr`. -/
def linearizeInstr (isRoot : Bool) :
    InstrTyped → LinearizerState → Except InlineUnsupportedReason (InstrTyped × LinearizerState)
  | .mk x h ops, st => do
    let owned ← hasOwnedOperandInputs owner st.function.hasStorageLayout (.mk x h ops)
    if owned || keepsOperands st.function.runtimeModuleId (.mk x h ops) then
      finishInstr isRoot st.temps.length (.mk x h ops) st
    else
      let (ops', st') ← linearizeOperands ops st
      finishInstr isRoot st.temps.length (rebuild x h ops') st'

/-- `OrderedChildLinearizer`: the operands from left to right. -/
def linearizeOperands :
    List InstrTyped → LinearizerState → Except InlineUnsupportedReason (List InstrTyped × LinearizerState)
  | [], st => .ok ([], st)
  | i :: is, st => do
    let (i', st) ← linearizeInstr false i st
    if capturesRead i && containsLiftedList is then
      let (i'', st) ← liftNestedExpr i' [] st
      let (is', st) ← linearizeOperands is st
      return (i'' :: is', st)
    else
      let (is', st) ← linearizeOperands is st
      return (i' :: is', st)

end

variable (f : CodegenFunction InstrTyped)

/-- A statement of a body: the value of a store is the root. -/
def linearizeStatement : InstrTyped → Except InlineUnsupportedReason (List InstrTyped × CodegenFunction InstrTyped)
  | .mk x (.store n) [value] => do
    let (value, st) ← linearizeInstr owner true value { function := f }
    return (st.hoisted ++ .mk x (.store n) [value] :: typedCleanupDels st.temps, st.function)
  | i => do
    let (i, st) ← linearizeInstr owner true i { function := f }
    return (st.hoisted ++ i :: typedCleanupDels st.temps, st.function)

def linearizeBody (f : CodegenFunction InstrTyped) :
    List InstrTyped → Except InlineUnsupportedReason (List InstrTyped × CodegenFunction InstrTyped)
  | [] => .ok ([], f)
  | i :: is => do
    let (body, f) ← linearizeStatement owner f i
    let (rest, f) ← linearizeBody f is
    return (body ++ rest, f)

/-- The operand of a terminator is a root; its temporaries are not deleted. -/
def linearizeTermOperand (i : InstrTyped) (term : InstrTyped → BlockTerm InstrTyped) :
    Except InlineUnsupportedReason ((List InstrTyped × BlockTerm InstrTyped) × CodegenFunction InstrTyped) := do
  let (i, st) ← linearizeInstr owner true i { function := f }
  return ((st.hoisted, term i), st.function)

def linearizeTerm : BlockTerm InstrTyped →
      Except InlineUnsupportedReason ((List InstrTyped × BlockTerm InstrTyped) × CodegenFunction InstrTyped)
  | .jump edge => .ok (([], .jump edge), f)
  | .ifTerm test t e => linearizeTermOperand owner f test (.ifTerm · t e)
  | .branchTable index targets default => linearizeTermOperand owner f index (.branchTable · targets default)
  | .raise none => .ok (([], .raise none), f)
  | .raise (some exc) => linearizeTermOperand owner f exc (fun exc => .raise (some exc))
  | .ret value => linearizeTermOperand owner f value .ret
  | .generatorReturn value => linearizeTermOperand owner f value .generatorReturn

def linearizeBlock (b : Block InstrTyped) :
    Except InlineUnsupportedReason (Block InstrTyped × CodegenFunction InstrTyped) := do
  let (body, f) ← linearizeBody owner f b.body
  let (term, f) ← linearizeTerm owner f b.term
  return ({ b with body := body ++ term.1, term := term.2 }, f)

def linearizeBlocks (f : CodegenFunction InstrTyped) :
    List (Block InstrTyped) → Except InlineUnsupportedReason (List (Block InstrTyped) × CodegenFunction InstrTyped)
  | [] => .ok ([], f)
  | b :: bs => do
    let (b, f) ← linearizeBlock owner f b
    let (bs, f) ← linearizeBlocks f bs
    return (b :: bs, f)

def linearizeTypedFunctionExpressions : Except InlineUnsupportedReason (CodegenFunction InstrTyped) := do
  let (blocks, f) ← linearizeBlocks owner f f.blocks
  return { f with blocks := blocks }

end

end Soac
