import Soac.Exceptions.OperandCleanup

/-!
# Pending payloads of finally blocks

A `finally` body runs with the value that is to be returned or raised after it still pending. The payload owns that value
until control leaves the body, and control can leave it in other ways than the pending one: by a jump, a `return` or another
exception. `materialize_pending_payload_unwinds` leads every such edge through blocks that clear the payloads left, the
innermost first, and then go on to the original target.
-/

namespace Soac

variable {K : Type}

/-- A function with resolved storage as this pass finds it. `transportOwners` are the storages of a control parameter
(`TransportStorage`), which the function names already, and `tmpName` the names its generator gives out. -/
structure TransportFunction (K : Type) extends ValidFunction StoreLifetime K where
  kind : FunctionKind
  transportOwners : String → List ResolvedName
  ownersInFrame : ∀ name, ∀ value ∈ transportOwners name, ∀ x, value.location = .local x → x < stackSlots.length
  nextBlockName : BlockLabel
  labelsBelow : ∀ b ∈ blocks, b.label < nextBlockName
  tmpName : Nat → String
  tmpFresh : ∀ k, tmpName k ∉ stackSlots
  tmpDistinct : Function.Injective tmpName
  paramsNodup : ∀ b ∈ blocks, (b.params.map (·.name)).Nodup

/-- The slots of a pending payload, and the handlers active where it is declared. -/
structure PendingOwner where
  values : List ResolvedName
  handlers : List BlockParam
deriving DecidableEq, Repr

abbrev PendingOwners := List (String × PendingOwner)

variable (f : TransportFunction K)

/-- Enter a declared payload. It has to have storage, and its declarations have to agree on the handlers. -/
def insertOwner (b : Block (InstrResolved K)) (owners : PendingOwners) (param : BlockParam) : Option PendingOwners :=
  let values := f.transportOwners param.name
  let handlers := b.handledExceptionParams
  if values = [] then none
  else
    match owners.lookup param.name with
    | some previous => if previous.handlers = handlers then some owners else none
    | none => some (owners ++ [(param.name, { values, handlers })])

/-- `owners`. -/
def pendingOwners : Option PendingOwners :=
  f.blocks.foldlM (fun owners b =>
    if b.handledException = .regions ∧ b.params.any (·.role = .abruptKind) then
      (b.params.filter (·.role = .abruptPayload)).foldlM (insertOwner f b) owners
    else some owners) []

variable (owners : PendingOwners)

def PendingOwners.owner (name : String) : PendingOwner :=
  (owners.lookup name).getD ⟨[], []⟩

/-- `stack`: the payloads pending in a block, outermost first. -/
def pendingStack (b : Block (InstrResolved K)) : List String :=
  (b.pendingAbruptPayloadParams.filter fun param => (owners.lookup param.name).isSome).map (·.name)

/-- The payloads left on the way to a target, innermost first: those after the common part of the two stacks. -/
def leavingPayloads (pending targetPending : List String) : List String :=
  (pending.drop ((pending.zip targetPending).takeWhile fun pair => pair.1 = pair.2).length).reverse

variable (params : List BlockParam)

def keepParam (name : String) (role : BlockParamRole) : List BlockParam :=
  if params.any (·.name = name) then params else params ++ [⟨name, role⟩]

/-- The parameters of the cleanup: the target's, the payloads left, and their handlers. -/
def cleanupParams (targetParams : List BlockParam) (leaving : List String) : List BlockParam :=
  leaving.foldl (fun params name =>
    (owners.owner name).handlers.foldl (fun params handler => keepParam params handler.name .value)
      (keepParam params name .value)) targetParams

def resolvedNone : InstrResolved K :=
  .mk .frame (.load ⟨"NONE", .runtimeName .none⟩) []

/-- The arguments that bind parameters to themselves. -/
def namedArgs : List BlockArg :=
  params.map fun param => .name param.name

/-- The block that trims to the handlers of a payload and clears it. -/
def dropBlock (owner : PendingOwner) (label : BlockLabel) (next : BlockEdge) : Block (InstrResolved K) where
  label := label
  params := (params.filter fun param => ¬owner.handlers.any (·.name = param.name)).map (fun param => ⟨param.name, .value⟩) ++
    owner.handlers.reverse
  body := owner.values.map fun value => .mk .frame (.store value) [resolvedNone]
  term := .jump next
  handledException := .unwind

/-- The blocks that clear payloads, the last one first. A payload has to be declared within the handlers of the source. -/
def dropChain (owners : PendingOwners) (source : Block (InstrResolved K)) (params : List BlockParam) :
    List String → BlockEdge → BlockLabel → Option (BlockEdge × List (Block (InstrResolved K)) × BlockLabel)
  | [], next, label => some (next, [], label)
  | name :: names, next, label =>
    if (owners.owner name).handlers.map (·.name) <+: source.handledExceptionParams.map (·.name) then
      let block := dropBlock params (owners.owner name) label next
      (dropChain owners source params names ⟨label, namedArgs block.params⟩ (label + 1)).map
        fun chain => (chain.1, block :: chain.2.1, chain.2.2)
    else none

/-- What the first block of the cleanup is given: the arguments of the original edge for the parameters of the target, by
their position, and the other parameters by name. -/
def carrierArgs (target : BlockEdge) (targetParams params : List BlockParam) : List BlockArg :=
  params.map fun param =>
    ((targetParams.findIdx? (·.name = param.name)).bind fun index => target.args[index]?).getD (.name param.name)

/-- The entry of a cleanup. It leaves the handlers of the source as they are. -/
def carrierBlock (label : BlockLabel) (next : BlockEdge) : Block (InstrResolved K) where
  label := label
  params := params
  body := []
  term := .jump next
  handledException := .preserve

variable (source : Block (InstrResolved K))

def cleanupChain (target : BlockEdge) (targetParams : List BlockParam) (leaving : List String) (label : BlockLabel) :
    Option (BlockEdge × List (Block (InstrResolved K)) × BlockLabel) :=
  let params := cleanupParams owners targetParams leaving
  (dropChain owners source params leaving.reverse ⟨target.target, namedArgs targetParams⟩ label).map fun chain =>
    (⟨chain.2.2, carrierArgs target targetParams params⟩,
     chain.2.1 ++ [carrierBlock params chain.2.2 chain.1],
     chain.2.2 + 1)

/-- What the pass has made so far, apart from the blocks it has been through. -/
structure PendingState (K : Type) where
  nextBlockName : BlockLabel
  nextTmp : Nat := 0
  stackSlots : List String
  order : Nat
  targetParams : List (BlockLabel × List BlockParam)
  generated : List (Block (InstrResolved K)) := []
  escaping : Option BlockLabel := none

def freshLocal (st : PendingState K) : ResolvedName × PendingState K :=
  (⟨f.tmpName st.nextTmp, .local st.stackSlots.length⟩,
   { st with nextTmp := st.nextTmp + 1, stackSlots := st.stackSlots ++ [f.tmpName st.nextTmp] })

/-- The payloads pending in the block of a label. -/
def targetStack (label : BlockLabel) : List String :=
  ((f.block? label).map (pendingStack owners)).getD []

/-- The payloads an edge leaves. -/
def edgeLeaving (edge : BlockEdge) : List String :=
  leavingPayloads (pendingStack owners source) (targetStack f owners edge.target)

/-- Lead one edge through a cleanup, if it leaves a payload. -/
def routeEdge (edge : BlockEdge) (st : PendingState K) : Option (BlockEdge × PendingState K) :=
  if edgeLeaving f owners source edge = [] then some (edge, st)
  else
    (st.targetParams.lookup edge.target).bind fun targetParams =>
    (cleanupChain owners source edge targetParams (edgeLeaving f owners source edge) st.nextBlockName).map fun chain =>
      (chain.1, { st with nextBlockName := chain.2.2, generated := st.generated ++ chain.2.1 })

def BlockTerm.replaceTarget {I : Type} (source target : BlockLabel) : BlockTerm I → BlockTerm I
  | .jump edge => .jump (if edge.target = source then { edge with target } else edge)
  | .ifTerm test thenLabel elseLabel =>
    .ifTerm test (if thenLabel = source then target else thenLabel) (if elseLabel = source then target else elseLabel)
  | .branchTable index targets defaultLabel =>
    .branchTable index (targets.map fun label => if label = source then target else label)
      (if defaultLabel = source then target else defaultLabel)
  | term => term

/-- A jump gets the new edge, another terminator the new label. -/
def BlockTerm.replaceEdge {I : Type} (edge replacement : BlockEdge) : BlockTerm I → BlockTerm I
  | .jump _ => .jump replacement
  | term => term.replaceTarget edge.target replacement.target

/-- The normal edges one after the other. -/
def routeNormalEdges (f : TransportFunction K) (owners : PendingOwners) :
    List BlockEdge → Block (InstrResolved K) → PendingState K → Option (Block (InstrResolved K) × PendingState K)
  | [], b, st => some (b, st)
  | edge :: edges, b, st =>
    (routeEdge f owners b edge st).bind fun routed =>
    routeNormalEdges f owners edges
      (if edgeLeaving f owners b edge = [] then b else { b with term := b.term.replaceEdge edge routed.1 }) routed.2

/-- A plain function evaluates and owns what it returns before it drops a payload. -/
def ownReturn (b : Block (InstrResolved K)) (st : PendingState K) : Block (InstrResolved K) × PendingState K :=
  match f.kind, b.term with
  | .function, .ret value =>
    let (result, st) := freshLocal f st
    let params : List BlockParam := [⟨result.id, .value⟩]
    ({ b with
       body := b.body ++ [.mk (.operand st.order) (.store result) [value]]
       term := .jump ⟨st.nextBlockName, []⟩ },
     { st with
       nextBlockName := st.nextBlockName + 1
       order := st.order + 1
       targetParams := (st.nextBlockName, params) :: st.targetParams
       generated := st.generated ++
         [{ label := st.nextBlockName, params, body := [], term := .ret (.mk .frame (.load result) []) }] })
  | _, _ => (b, st)

/-- The block an exception escapes through when the function does not handle it. It is made once. -/
def escapeEdge (st : PendingState K) : BlockEdge × PendingState K :=
  match st.escaping with
  | some label => (⟨label, [.currentException]⟩, st)
  | none =>
    let (error, st) := freshLocal f st
    let params : List BlockParam := [⟨error.id, .exception⟩]
    (⟨st.nextBlockName, [.currentException]⟩,
     { st with
       nextBlockName := st.nextBlockName + 1
       targetParams := (st.nextBlockName, params) :: st.targetParams
       generated := st.generated ++
         [{ label := st.nextBlockName, params, body := [], term := .raise (some (.mk .frame (.load error) []))
            handledException := if f.kind = .function then .unwind else .terminal }]
       escaping := some st.nextBlockName })

/-- The exception edge, or the way out of the function. -/
def routeException (b : Block (InstrResolved K)) (st : PendingState K) :
    Option (Block (InstrResolved K) × PendingState K) :=
  let (edge, st) :=
    match b.excEdge with
    | some edge => (edge, st)
    | none => escapeEdge f st
  (routeEdge f owners b edge st).map fun routed =>
    (if edgeLeaving f owners b edge = [] then b else { b with excEdge := some routed.1 }, routed.2)

/-- One block. -/
def unwindPending (b : Block (InstrResolved K)) (st : PendingState K) :
    Option (Block (InstrResolved K) × PendingState K) :=
  if pendingStack owners b = [] ∨ b.handledException ≠ .regions then some (b, st)
  else
    let owned := ownReturn f b st
    (routeNormalEdges f owners owned.1.term.edges owned.1 owned.2).bind fun routed =>
    routeException f owners routed.1 routed.2

def unwindPendingAll (f : TransportFunction K) (owners : PendingOwners) :
    List (Block (InstrResolved K)) → PendingState K → Option (List (Block (InstrResolved K)) × PendingState K)
  | [], st => some ([], st)
  | b :: bs, st =>
    (unwindPending f owners b st).bind fun first =>
    (unwindPendingAll f owners bs first.2).map fun rest => (first.1 :: rest.1, rest.2)

def nextOperandOrder (blocks : List (Block (InstrResolved K))) : Nat :=
  ((blocks.flatMap Block.operandStores).map (·.unwindOrder)).foldl max 0 + 1

/-- `materialize_pending_payload_unwinds`: the blocks and the stack slots it leaves, unless one of its assertions fails. -/
def materializePendingPayloadUnwinds : Option (List (Block (InstrResolved K)) × List String) :=
  (pendingOwners f).bind fun owners =>
  if owners = [] then some (f.blocks, f.stackSlots)
  else
    (unwindPendingAll f owners f.blocks
      { nextBlockName := f.nextBlockName
        stackSlots := f.stackSlots
        order := nextOperandOrder f.blocks
        targetParams := f.blocks.map fun b => (b.label, b.params) }).map
    fun result => (result.1 ++ result.2.generated, result.2.stackSlots)

end Soac
