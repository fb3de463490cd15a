import Soac.Facts.ValueFacts
import Soac.Ir.BlockPy
import Soac.Lib.RoundRobin

/-!
# Inference of value facts

`FunctionFactInferer`: the facts of an expression, with or without facts of the locals it loads, the transfer of facts
through a block, and `infer_block_entry_facts`, a round-robin loop that intersects what the normal edges bring to a block.
Exception edges bring nothing, and an edge argument leaves the facts of its parameter as they are.
-/

namespace Soac

/-! ## Module constants -/

/-- The value of a number literal; a float is its bit pattern. -/
inductive NumberLiteralValue where
  | int (value : Int)
  | float (bits : UInt64)
deriving DecidableEq, Repr

inductive Literal where
  | stringLiteral (value : String)
  | bytesLiteral (value : List UInt8)
  | numberLiteral (value : NumberLiteralValue)
deriving DecidableEq, Repr

inductive ConstantExpr where
  | runtimeName (name : RuntimeName)
  | literal (value : Literal)
deriving DecidableEq, Repr

/-- The builtin type of a literal. -/
def Literal.exactType : Literal → PyExactType
  | .stringLiteral _ => .str
  | .bytesLiteral _ => .bytes
  | .numberLiteral (.int _) => .int
  | .numberLiteral (.float _) => .float

/-- Whether a literal is true: text that is not empty, a number other than zero, of either sign. -/
def Literal.isTruthy : Literal → Bool
  | .stringLiteral value => value ≠ ""
  | .bytesLiteral value => !value.isEmpty
  | .numberLiteral (.int value) => value ≠ 0
  | .numberLiteral (.float bits) => bits ≠ 0 && bits ≠ 0x8000000000000000

def inferLiteralFacts (l : Literal) : PyObjFacts :=
  .exactTypeWithTruthiness l.exactType (truthiness l.isTruthy)

/-- `infer_runtime_name_facts`, and `infer_runtime_name_load_facts` for a name that is a runtime name. -/
def inferRuntimeNameFacts : RuntimeName → Option PyObjFacts
  | .none => some .noneSingleton
  | .true => some (.ofBool Bool.true)
  | .false => some (.ofBool Bool.false)
  | name => name.helper?.map PyObjFacts.runtimeHelper

def inferModuleConstantFacts : ConstantExpr → PyObjFacts
  | .runtimeName name => (inferRuntimeNameFacts name).getD .unknown
  | .literal l => inferLiteralFacts l

def moduleConstantLoadFact (index : Nat) (constants : List ConstantExpr) : PyObjFacts :=
  match constants[index]? with
  | some c => ((inferModuleConstantFacts c).withModuleConstant index).withImmortalRefcount
  | none => (PyObjFacts.moduleConstant index).withImmortalRefcount

/-! ## Expressions -/

/-- `infer_binop_result_facts`: the operations on two exact ints. -/
def inferBinopResultFacts (kind : BinOpKind) (left right : PyObjFacts) : Option PyObjFacts :=
  if left.isExactType .int && right.isExactType .int then
    match kind with
    | .eq | .ne | .lt | .le | .gt | .ge => some .boolObject
    | .trueDiv | .inplaceTrueDiv => some (.exactType .float)
    | .pow | .inplacePow | .matMul | .inplaceMatMul | .contains | .is => none
    | _ => some (.exactType .int)
  else none

def inferUnaryResultFacts (kind : UnaryOpKind) (operand : PyObjFacts) : Option PyObjFacts :=
  if operand.isExactType .int then
    match kind with
    | .pos | .neg | .invert => some (.exactType .int)
    | .not | .truth => some .boolObject
  else none

/-- A call that passes positional arguments only. -/
def CallShape.isPlain (shape : CallShape) : Bool :=
  shape.keywords.isEmpty && shape.args.all (· == .positional)

/-- The facts of a load that is not of a local with facts. -/
def inferLoadFacts (constants : List ConstantExpr) (n : ResolvedName) : PyObjFacts :=
  match n.location with
  | .runtimeName name => (inferRuntimeNameFacts name).getD .unknown
  | .constant index => moduleConstantLoadFact index constants
  | _ => .unknown

/-- The facts of what a plain call of a value returns: those a helper declares. -/
def inferCallFacts (func : PyObjFacts) : PyObjFacts :=
  match func.callable with
  | .runtimeHelper helper => helper.result
  | .unknown => .unknown

/-- `infer_expr_facts`: the facts of an expression, whatever its locals hold. -/
def inferExprFacts (constants : List ConstantExpr) : InstrBlockPy → PyObjFacts
  | .mk _ (.load n) _ => inferLoadFacts constants n
  | .mk _ (.op (.call shape)) (func :: _) =>
    if shape.isPlain then inferCallFacts (inferExprFacts constants func) else .unknown
  | .mk _ (.op (.binOp kind)) [left, right] =>
    (inferBinopResultFacts kind (inferExprFacts constants left) (inferExprFacts constants right)).getD .unknown
  | .mk _ (.op (.unaryOp kind)) [operand] =>
    (inferUnaryResultFacts kind (inferExprFacts constants operand)).getD .unknown
  | .mk _ (.op .setAttr) _ | .mk _ (.op .setItem) _ | .mk _ (.op .delItem) _ | .mk _ (.del _ _) _ => .noneSingleton
  | .mk _ (.op .tuple) _ => .knownNotNone
  | _ => .unknown

/-- `infer_expr_facts_in_env`: loads, and the operands of arithmetic, may use facts of locals. -/
def inferExprFactsInEnv (constants : List ConstantExpr) (env : EnvFacts) : InstrBlockPy → PyObjFacts
  | .mk x (.load n) ops =>
    (n.localLocation.bind env.get?).getD (inferExprFacts constants (.mk x (.load n) ops))
  | .mk _ (.op (.binOp kind)) [left, right] =>
    (inferBinopResultFacts kind (inferExprFactsInEnv constants env left)
      (inferExprFactsInEnv constants env right)).getD .unknown
  | .mk _ (.op (.unaryOp kind)) [operand] =>
    (inferUnaryResultFacts kind (inferExprFactsInEnv constants env operand)).getD .unknown
  | expr => inferExprFacts constants expr

/-! ## Blocks -/

section

variable (constants : List ConstantExpr)

/-- What the root of a statement does to the facts, after the operands it takes have lost theirs. -/
def transferRootEnv (env : EnvFacts) : InstrBlockPy → EnvFacts
  | .mk _ (.store n) ops =>
    match n.localLocation with
    | some x => env.set x ((ops.head?.map (inferExprFactsInEnv constants env)).getD .unknown)
    | none => env
  | .mk _ (.del n _) _ =>
    match n.localLocation with
    | some x => env.remove x
    | none => env
  | .mk _ (.callArgumentOp kind _ buffer) _ =>
    match kind.replacesBuffer, buffer.localLocation with
    | true, some x => env.remove x
    | _, _ => env
  | _ => env

def transferInstrEnv (env : EnvFacts) (i : InstrBlockPy) : EnvFacts :=
  transferRootEnv constants (i.operandTakes.foldl EnvFacts.remove env) i

variable (b : Block InstrBlockPy)

def transferBlockEnv (entry : EnvFacts) : EnvFacts :=
  b.term.operandTakes.foldl EnvFacts.remove (b.body.foldl (transferInstrEnv constants) entry)

/-- `expr_singleton_branch_facts`: what a comparison by identity with the expression says on its two branches. -/
def exprSingletonBranchFacts (expr : InstrBlockPy) : Option (Option PyObjFacts × Option PyObjFacts) :=
  let facts := inferExprFacts constants expr
  if facts.isNone then some (some .noneSingleton, some .knownNotNone)
  else if facts.isTrueSingleton then some (some (.ofBool true), none)
  else if facts.isFalseSingleton then some (some (.ofBool false), none)
  else none

def inferLocalIsSingletonComparison (left right : InstrBlockPy) :
    Option (LocalLocation × Option PyObjFacts × Option PyObjFacts) :=
  match exprSingletonBranchFacts constants right with
  | some facts => (localLoadLocation left).map fun x => (x, facts)
  | none =>
    match exprSingletonBranchFacts constants left with
    | some facts => (localLoadLocation right).map fun x => (x, facts)
    | none => none

/-- `infer_branch_local_fact`: the local a test is about, and its facts on the two branches. -/
def inferBranchLocalFact : InstrBlockPy → Option (LocalLocation × Option PyObjFacts × Option PyObjFacts)
  | .mk _ (.op (.binOp .is)) [left, right] => inferLocalIsSingletonComparison constants left right
  | .mk _ (.op (.unaryOp .not)) [operand] =>
    (inferBranchLocalFact operand).map fun (x, thenFact, elseFact) => (x, elseFact, thenFact)
  | _ => none

/-- The facts of a branch: those of the exit, and what the test says of its local. -/
def narrow (exit : EnvFacts) (x : LocalLocation) : Option PyObjFacts → EnvFacts
  | some facts => exit.set x facts
  | none => exit

def inferIfEdgeFacts (test : InstrBlockPy) (exit : EnvFacts) : EnvFacts × EnvFacts :=
  match inferBranchLocalFact constants test with
  | none => (exit, exit)
  | some (x, thenFact, elseFact) => (narrow exit x thenFact, narrow exit x elseFact)

/-- `successor_envs`: what the normal edges bring to their targets. -/
def successorEnvs (exit : EnvFacts) : List (BlockLabel × EnvFacts) :=
  match b.term with
  | .jump edge => [(edge.target, exit)]
  | .ifTerm test t e => [(t, (inferIfEdgeFacts constants test exit).1), (e, (inferIfEdgeFacts constants test exit).2)]
  | .branchTable _ targets default => targets.map (·, exit) ++ [(default, exit)]
  | .raise _ | .ret _ | .generatorReturn _ => []

/-! ## The loop -/

/-- The facts at the entry of a block that has not been reached are not known yet. -/
def joinEntry : Option EnvFacts → Option EnvFacts → Option EnvFacts
  | some existing, some incoming => some (existing.intersectWith incoming)
  | none, incoming => incoming
  | existing, none => existing

/-- What a block that has been reached brings to its successors. -/
def entryContributions (entries : BlockLabel → Option EnvFacts) : List (BlockLabel × Option EnvFacts) :=
  match entries b.label with
  | none => []
  | some entry => (successorEnvs constants b (transferBlockEnv constants b entry)).map fun (l, env) => (l, some env)

/-- The slot a statement stores to, when it is the slot of a local. -/
def storedSlot : InstrBlockPy → Option LocalLocation
  | .mk _ (.store n) _ => n.localLocation
  | _ => none

/-- The slot the test of a block narrows. -/
def narrowedSlot : Option LocalLocation :=
  match b.term with
  | .ifTerm test _ _ => (inferBranchLocalFact constants test).map (·.1)
  | _ => none

/-- The slots that can have facts: those a statement stores to and those a test narrows. -/
def factSlots (f : BlockPyFunction InstrBlockPy) : List LocalLocation :=
  f.blocks.flatMap fun b => b.body.filterMap storedSlot ++ (narrowedSlot constants b).toList

/-- `infer_block_entry_facts`: the blocks are visited first to last until nothing changes. A change reaches a block first
or makes one of the facts of an entry unknown, which bounds the number of rounds. -/
def inferBlockEntryFacts (f : BlockPyFunction InstrBlockPy) : BlockLabel → Option EnvFacts :=
  RoundRobin.loop joinEntry (entryContributions constants) f.blocks
    (f.blocks.length * (9 * (factSlots constants f).length + 1) + 1)
    (fun l => if f.blocks.head?.map (·.label) = some l then some .empty else none)

end

end Soac
