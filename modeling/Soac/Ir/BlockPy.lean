import Soac.Ir.Block

/-!
# The operations of BlockPy

The operations of `InstrBlockPy` that carry no name. The operands of an instruction stand in the order of the source's
`visit_children`; an operation keeps what is not an operand (the kind of a binary operation, the shape of a call).
-/

namespace Soac

inductive BinOpKind where
  | add | sub | mul | matMul | trueDiv | floorDiv | mod | pow | lShift | rShift | or | xor | and
  | eq | ne | lt | le | gt | ge | contains | is
  | inplaceAdd | inplaceSub | inplaceMul | inplaceMatMul | inplaceTrueDiv | inplaceFloorDiv | inplaceMod | inplacePow
  | inplaceLShift | inplaceRShift | inplaceOr | inplaceXor | inplaceAnd
deriving DecidableEq, Repr

inductive UnaryOpKind where
  | pos | neg | invert | not | truth
deriving DecidableEq, Repr

inductive BuildCollectionKind where
  | list | set | dict
deriving DecidableEq, Repr

/-- A positional argument, or a starred one. -/
inductive CallArgPositional where
  | positional | starred
deriving DecidableEq, Repr

/-- A keyword argument, or a double-starred one. -/
inductive CallArgKeyword where
  | named (arg : String) | starred
deriving DecidableEq, Repr

inductive FrameNamespace where
  | moduleGlobals | mapping
deriving DecidableEq, Repr

/-- How the operands of a call after the callee are passed: positional arguments, keyword arguments, the namespace. -/
structure CallShape where
  args : List CallArgPositional
  keywords : List CallArgKeyword := []
  frameNamespace : Option FrameNamespace := none
deriving DecidableEq, Repr

inductive BlockPyOp where
  | binOp (kind : BinOpKind)
  | unaryOp (kind : UnaryOpKind)
  | tuple
  | call (shape : CallShape)
  | getAttr
  | setAttr
  | getItem
  | setItem
  | delItem
  | buildCollection (kind : BuildCollectionKind)
  | preparedCall
  | newAnnotationSet
  | setupAnnotations
  | constructTypeParameterScope
  | subscriptGeneric
  | setFunctionTypeParameters
  | createTypeAlias
  | createTypeParameter
  | setTypeParameterDefault
  | checkAnnotationFormat
  | recordAnnotation
  | incrementCounter
  | makeFunctionWithClosure
  | completeFunctionDefinition
  | applyFunctionDescriptor
  | prepareClassDecorator
  | applyClassDecorator
  | discardClassDecorator
  | discardClassConstructionCaptures
  | constructClass
deriving DecidableEq, Repr

/-- The instructions of BlockPy carry no sidecar. -/
abbrev InstrBlockPy := Instr Unit BlockPyOp

namespace InstrBlockPy

/-- The name of a stack slot. -/
def localName (id : String) (x : LocalLocation) : ResolvedName := ⟨id, .local x⟩

def load (n : ResolvedName) : InstrBlockPy := .mk () (.load n) []

def store (n : ResolvedName) (value : InstrBlockPy) : InstrBlockPy := .mk () (.store n) [value]

def op (k : BlockPyOp) (ops : List InstrBlockPy) : InstrBlockPy := .mk () (.op k) ops

def constantNone : InstrBlockPy := load ⟨"NONE", .runtimeName .none⟩

/-- A call with positional arguments only. -/
def call (func : InstrBlockPy) (args : List InstrBlockPy) : InstrBlockPy :=
  op (.call { args := args.map fun _ => .positional }) (func :: args)

end InstrBlockPy

end Soac
