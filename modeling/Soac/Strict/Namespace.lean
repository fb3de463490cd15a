import Mathlib.Logic.Function.Basic

/-!
# The namespace of a strict module

`strict_module.rs`. A strict module owns a policy on its dictionary. The policy goes through the phases of the module's
life; native code asks it before every write to the dictionary; functions and classes that are still to be finished wait
in two queues. Every entry point runs under the interpreter lock, so a module sees them one after the other; what native
code answers them is part of the call.
-/

namespace Soac.Strict

/-- An object, by its address. -/
abbrev ObjId := Nat

inductive Phase where
  | discovered
  | initializing
  | sealing
  | sealed
  | failed
  | terminal
deriving DecidableEq, Repr

/-- `Phase as u8`. -/
def Phase.toNat : Phase → Nat
  | .discovered => 0
  | .initializing => 1
  | .sealing => 2
  | .sealed => 3
  | .failed => 4
  | .terminal => 5

/-- The operations native code reports. -/
inductive Operation where
  | validateInitial
  | set
  | delete
  | clear
  | terminalTeardown
  | setExisting
  | cacheInsert
  | cacheReplace
  | clone
  | other (code : Int)
deriving DecidableEq, Repr

inductive StrictError where
  | runtimeUnavailable (message : String)
  | mutation (message : String)
  | native
deriving DecidableEq, Repr

/-! ## The policy -/

inductive GlobalMutability where
  | finalAfterSeal
  | lateAppendOnly
  | explicitlyMutable
  | unknown
deriving DecidableEq, Repr

structure GlobalBinding where
  name : String
  mutability : GlobalMutability
deriving DecidableEq, Repr

/-- What the policy reads of the facts about a module. -/
structure ModuleFacts where
  moduleName : String
  strictSource : Bool
  policySelected : Bool
  strictAssign : Bool
  globalBindings : List GlobalBinding
deriving DecidableEq, Repr

/-- The part of `NamespacePolicy` that never changes. -/
structure NamespacePolicy where
  interpreterId : Int
  dictionaryIdentity : ObjId
  moduleName : String
  strictAssign : Bool
  mutableNames : List String := []
  reservedNames : List String := []
deriving DecidableEq, Repr

/-- One round of the loop of `from_facts`. -/
def NamespacePolicy.addBinding (policy : NamespacePolicy) (binding : GlobalBinding) : Except String NamespacePolicy :=
  if binding.name ∈ policy.reservedNames then .error "duplicate authenticated global binding"
  else
    let policy := { policy with reservedNames := binding.name :: policy.reservedNames }
    match binding.mutability with
    | .explicitlyMutable => .ok { policy with mutableNames := binding.name :: policy.mutableNames }
    | .finalAfterSeal | .lateAppendOnly => .ok policy
    | .unknown =>
      if policy.strictAssign then .error "strict source has an unresolved global mutation policy" else .ok policy

def NamespacePolicy.fromFacts (interpreterId : Int) (dictionaryIdentity : ObjId) (facts : ModuleFacts) :
    Except String NamespacePolicy :=
  if !facts.strictSource || !facts.policySelected then .error "strict namespace requires authenticated strict source"
  else
    facts.globalBindings.foldlM NamespacePolicy.addBinding
      { interpreterId, dictionaryIdentity, moduleName := facts.moduleName, strictAssign := facts.strictAssign }

/-! ## Pending work -/

inductive StrictPendingKind where
  | function (functionId : Nat)
  | interpreterFunction (nativeCodeOrdinal : Nat)
  | classOf (source : String)
deriving DecidableEq, Repr

/-- A pending function or class: its weak reference is an edge of the owner. -/
structure PendingRecord where
  kind : StrictPendingKind
  edge : Nat
  interpreterInvocation : Option Nat
deriving DecidableEq, Repr

inductive PendingPhase where
  | finalize
  | publishCapabilities
deriving DecidableEq, Repr

/-- The queues and the edges that are free for use; `references` are the weak edges of the owner, `none` for an edge that
is reserved. -/
structure PendingRegistry where
  records : List PendingRecord := []
  capabilities : List PendingRecord := []
  freeEdges : List Nat := []
  references : List (Option ObjId) := []
deriving DecidableEq, Repr

namespace PendingRegistry

variable (registry : PendingRegistry)

def queue : PendingPhase → List PendingRecord
  | .finalize => registry.records
  | .publishCapabilities => registry.capabilities

def withQueue (phase : PendingPhase) (records : List PendingRecord) : PendingRegistry :=
  match phase with
  | .finalize => { registry with records }
  | .publishCapabilities => { registry with capabilities := records }

/-- A free edge is used again before a new one is added. -/
def takeEdge (object : ObjId) : Nat × PendingRegistry :=
  match registry.freeEdges with
  | edge :: freeEdges => (edge, { registry with freeEdges, references := registry.references.set edge (some object) })
  | [] => (registry.references.length, { registry with references := registry.references ++ [some object] })

/-- The edge of a record that was taken out of its queue. -/
def releaseEdge (edge : Nat) : PendingRegistry :=
  { registry with references := registry.references.set edge none, freeEdges := edge :: registry.freeEdges }

/-- `register_pending_at_phase`: at the end of the queue, or before the record with an edge. -/
def register (phase : PendingPhase) (kind : StrictPendingKind) (object : ObjId)
    (beforeEdge : Option Nat) (invocation : Option Nat) : Except StrictError PendingRegistry :=
  let records := registry.queue phase
  let position := match beforeEdge with
    | none => some records.length
    | some before => records.findIdx? fun record => record.edge == before
  match position with
  | none => .error (.runtimeUnavailable "pending original changed")
  | some position =>
    let (edge, registry) := registry.takeEdge object
    .ok (registry.withQueue phase (records.insertIdx position ⟨kind, edge, invocation⟩))

/-- Whether a record belongs to an invocation, if one is asked for. -/
def matchesInvocation (invocation : Option Nat) (record : PendingRecord) : Bool :=
  invocation.isNone || record.interpreterInvocation == invocation

variable (alive : ObjId → Bool)

/-- The live target of an edge. -/
def target (registry : PendingRegistry) (edge : Nat) : Option ObjId :=
  (registry.references[edge]?).join.filter alive

/-- `register_pending_before`: before the first record of the kind whose target is the original, in its invocation. -/
def registerBefore (registry : PendingRegistry) (kind : StrictPendingKind) (object before : ObjId) :
    Except StrictError PendingRegistry :=
  match registry.records.find? fun record => record.kind == kind && registry.target alive record.edge == some before with
  | none => .error (.runtimeUnavailable "replacement class has no matching pending original")
  | some record => registry.register .finalize kind object (some record.edge) record.interpreterInvocation

/-- `next_pending_matching`: the first selected record that still has a target. The selected records before it are
dropped, and every record taken out frees its edge. -/
def next (alive : ObjId → Bool) (selected : PendingRecord → Bool) (phase : PendingPhase) :
    Nat → PendingRegistry → Option (StrictPendingKind × ObjId) × PendingRegistry
  | 0, registry => (none, registry)
  | fuel + 1, registry =>
    match (registry.queue phase).find? selected with
    | none => (none, registry)
    | some record =>
      let object := registry.target alive record.edge
      let registry := (registry.withQueue phase ((registry.queue phase).erase record)).releaseEdge record.edge
      match object with
      | some object => (some (record.kind, object), registry)
      | none => next alive selected phase fuel registry

variable (isMatch : PendingRecord → Bool) (selected : ObjId → Bool)

/-- One round of `remove_pending_matching`: the record of an edge, if it is still there and its target is selected. -/
def removeEdge (registry : PendingRegistry) (edge : Nat) : PendingRegistry :=
  match registry.records.find? fun record => record.edge == edge && isMatch record with
  | none => registry
  | some record =>
    match registry.target alive edge with
    | none => registry
    | some object =>
      if selected object then { registry with records := registry.records.erase record }.releaseEdge edge else registry

/-- `remove_pending_matching`. -/
def remove (registry : PendingRegistry) : PendingRegistry :=
  ((registry.records.filter isMatch).map (·.edge)).foldl (removeEdge alive isMatch selected) registry

end PendingRegistry

/-! ## The namespace -/

/-- What a key stands for in the dictionary: a name, a string with lone surrogates, or another object. -/
inductive Slot where
  | name (name : String)
  | surrogates (id : Nat)
  | object (id : ObjId)
deriving DecidableEq, Repr

/-- The key object of a write: an exact string, or an object that is equal to the key of some slot. -/
inductive Key where
  | str (name : String)
  | surrogateStr (id : Nat)
  | other (slot : Slot)
deriving DecidableEq, Repr

def Key.slot : Key → Slot
  | .str name => .name name
  | .surrogateStr id => .surrogates id
  | .other slot => slot

structure Namespace where
  policy : NamespacePolicy
  phase : Phase := .discovered
  executionStarted : Bool := false
  ownerTerminal : Bool := false
  pending : PendingRegistry := {}
  dictionary : Slot → Option ObjId

/-- Where a write comes from: the dictionary, the running interpreter, and whether it claims a private cache. -/
structure Provenance where
  dictionary : ObjId
  interpreter : Int
  privateCache : Bool
deriving DecidableEq, Repr

namespace Namespace

variable (ns : Namespace)

def transition (source target : Phase) : Option Namespace :=
  if ns.phase = source then some { ns with phase := target } else none

def terminal (ns : Namespace) : Namespace :=
  { ns with phase := .terminal }

def permits (operation : Operation) (name : Option String) : Bool :=
  if operation = .terminalTeardown then true
  else
    match ns.phase with
    | .discovered => operation == .validateInitial
    | .initializing =>
      (operation == .set || operation == .setExisting || operation == .delete || operation == .clear) ||
        (!ns.policy.strictAssign && operation == .clone)
    | .sealing | .sealed =>
      if !ns.policy.strictAssign then
        operation == .set || operation == .setExisting || operation == .delete || operation == .clear || operation == .clone
      else
        match operation with
        | .set => true
        | .setExisting | .delete => name.any fun name => ns.policy.mutableNames.contains name
        | _ => false
    | .failed | .terminal => false

/-- The end of `validate_namespace` for a strict-assign module: only exact strings are names. -/
def admitsKey (key : Option Key) (operation : Operation) : Bool :=
  if operation = .clear then ns.permits operation none
  else
    match key with
    | some (.str name) => ns.permits operation (some name)
    | some (.surrogateStr _) => ns.permits operation none
    | some (.other _) | none => false

/-- `validate_namespace`, for all operations but the teardown. -/
def validateNamespace (provenance : Provenance) (key : Option Key) (operation : Operation) : Except StrictError Unit :=
  if ns.ownerTerminal then .error (.runtimeUnavailable "native strict owner is terminal")
  else if provenance.dictionary ≠ ns.policy.dictionaryIdentity ∨ provenance.interpreter ≠ ns.policy.interpreterId then
    .error (.runtimeUnavailable "strict namespace owner identity mismatch")
  else if provenance.privateCache ∨ operation = .cacheInsert ∨ operation = .cacheReplace then
    .error (.mutation "module globals have no private cache mutation permit")
  else if ns.phase = .failed ∨ ns.phase = .terminal then
    .error (.runtimeUnavailable "strict module is failed or terminal")
  else if !ns.policy.strictAssign && ns.permits operation none then .ok ()
  else if ns.admitsKey key operation then .ok ()
  else .error (.mutation ("cannot mutate a final binding in strict module " ++ ns.policy.moduleName))

/-! ## The entry points -/

/-- The handles that reach a namespace: that of the module, and that of a running body. -/
inductive Handle where
  | moduleState
  | executionRef
deriving DecidableEq, Repr

/-- `check_owner` and `acquire_live_owner`: `identity` is what the checks of the dictionary, its owner and its source say. -/
def checkOwner (handle : Handle) (identity : Except StrictError Unit) : Except StrictError Unit :=
  match identity with
  | .error e => .error e
  | .ok () =>
    match handle with
    | .moduleState =>
      if ns.phase = .failed ∨ ns.phase = .terminal then
        .error (.runtimeUnavailable "strict module is failed or terminal")
      else .ok ()
    | .executionRef =>
      if ns.phase = .initializing ∨ ns.phase = .sealing ∨ ns.phase = .sealed then .ok ()
      else .error (.runtimeUnavailable "strict execution reference has no matching live module namespace")

def startExecution : Except StrictError Unit × Namespace :=
  if ns.phase = .initializing ∧ ns.executionStarted = false then (.ok (), { ns with executionStarted := true })
  else (.error (.runtimeUnavailable "strict module body execution is single-use"), ns)

/-- `begin_namespace_sealing`: `sealsNatively` is the answer of the native dictionary. -/
def beginNamespaceSealing (sealsNatively : Bool) : Except StrictError Unit × Namespace :=
  if ns.executionStarted = false then (.error (.runtimeUnavailable "strict module body has not started"), ns)
  else
    match ns.transition .initializing .sealing with
    | none => (.error (.runtimeUnavailable "strict module is not initializing"), ns)
    | some ns =>
      if ns.policy.strictAssign && !sealsNatively then (.error .native, { ns with phase := .failed }) else (.ok (), ns)

def finishNamespaceSealing : Except StrictError Unit × Namespace :=
  if ns.ownerTerminal then (.error (.runtimeUnavailable "native strict owner is terminal"), ns)
  else if !ns.pending.records.isEmpty || !ns.pending.capabilities.isEmpty then
    (.error (.runtimeUnavailable "strict module still has pending callable/class finalization"), ns)
  else
    match ns.transition .sealing .sealed with
    | none => (.error (.runtimeUnavailable "strict module is not sealing"), ns)
    | some ns => (.ok (), ns)

def fail (ns : Namespace) : Except StrictError Unit × Namespace :=
  match ns.phase with
  | .discovered | .initializing | .sealing => (.ok (), { ns with phase := .failed })
  | _ => (.error (.runtimeUnavailable "cannot fail or reopen a published strict module"), ns)

def failUnfinished : Namespace :=
  match ns.phase with
  | .discovered | .initializing | .sealing => { ns with phase := .failed }
  | _ => ns

/-- The end of the handle of the module: a published policy belongs to the dictionary and stays. -/
def release : Namespace :=
  if ns.phase = .sealed then ns else ns.terminal

/-- `install_policy`: without the native policy, or once the phase has moved on, the handle is dropped. -/
def install (native : Bool) : Except StrictError Unit × Namespace :=
  if !native then (.error .native, ns.release)
  else
    match ns.transition .discovered .initializing with
    | none => (.error (.runtimeUnavailable "strict module became terminal during installation"), ns.release)
    | some ns => (.ok (), ns)

end Namespace

/-- A write to the dictionary. -/
inductive Write where
  | validateInitial (key : Key)
  | assign (key : Key) (value : ObjId)
  | delete (key : Key)
  | clear
  | clone
  | cacheInsert (key : Key) (value : ObjId)
  | cacheReplace (key : Key) (value : ObjId)
  | other (code : Int) (key : Option Key)
deriving DecidableEq, Repr

namespace Write

def key : Write → Option Key
  | .validateInitial key | .assign key _ | .delete key | .cacheInsert key _ | .cacheReplace key _ => some key
  | .clear | .clone => none
  | .other _ key => key

variable (dictionary : Slot → Option ObjId)

/-- What the native dictionary reports: an assignment to a present key is an update, to an absent one a set. -/
def operation : Write → Operation
  | .validateInitial _ => .validateInitial
  | .assign key _ => if (dictionary key.slot).isSome then .setExisting else .set
  | .delete _ => .delete
  | .clear => .clear
  | .clone => .clone
  | .cacheInsert _ _ => .cacheInsert
  | .cacheReplace _ _ => .cacheReplace
  | .other code _ => .other code

/-- The dictionary once a write is done. -/
def apply : Write → Slot → Option ObjId
  | .assign key value | .cacheInsert key value | .cacheReplace key value =>
    Function.update dictionary key.slot (some value)
  | .delete key => Function.update dictionary key.slot none
  | .clear => fun _ => none
  | .validateInitial _ | .clone | .other _ _ => dictionary

end Write

/-- What can happen to a namespace, with the answers of native code. -/
inductive Op where
  | install (native : Bool)
  | startExecution (handle : Namespace.Handle) (identity : Except StrictError Unit)
  | beginSealing (handle : Namespace.Handle) (identity : Except StrictError Unit) (sealsNatively : Bool)
  | finishSealing (handle : Namespace.Handle) (identity : Except StrictError Unit)
  | fail (identity : Except StrictError Unit)
  | failUnfinished
  | release
  | ownerCleared
  | teardown
  | register (phase : PendingPhase) (kind : StrictPendingKind) (object : ObjId) (beforeEdge invocation : Option Nat)
  | next (alive : ObjId → Bool) (selected : PendingRecord → Bool) (phase : PendingPhase)
  | remove (alive : ObjId → Bool) (isMatch : PendingRecord → Bool) (selected : ObjId → Bool)
  | write (provenance : Provenance) (write : Write) (commits : Bool)

namespace Namespace

variable (ns : Namespace)

/-- A call that first checks the handle. -/
def guarded (handle : Handle) (identity : Except StrictError Unit)
    (call : Except StrictError Unit × Namespace) : Except StrictError Unit × Namespace :=
  match ns.checkOwner handle identity with
  | .error e => (.error e, ns)
  | .ok () => call

/-- A change of the queues, on an owner that is not cleared. -/
def changePending (change : PendingRegistry → Except StrictError PendingRegistry) : Except StrictError Unit × Namespace :=
  if ns.ownerTerminal then (.error (.runtimeUnavailable "native strict owner is terminal"), ns)
  else
    match change ns.pending with
    | .error e => (.error e, ns)
    | .ok pending => (.ok (), { ns with pending })

/-- A write is done if it is admitted, and if native code gets to commit it. -/
def attempt (provenance : Provenance) (write : Write) (commits : Bool) : Except StrictError Unit × Namespace :=
  match ns.validateNamespace provenance write.key (write.operation ns.dictionary) with
  | .error e => (.error e, ns)
  | .ok () => (.ok (), if commits then { ns with dictionary := write.apply ns.dictionary } else ns)

def step : Op → Except StrictError Unit × Namespace
  | .install native => ns.install native
  | .startExecution handle identity => ns.guarded handle identity ns.startExecution
  | .beginSealing handle identity sealsNatively => ns.guarded handle identity (ns.beginNamespaceSealing sealsNatively)
  | .finishSealing handle identity => ns.guarded handle identity ns.finishNamespaceSealing
  | .fail identity => ns.guarded .moduleState identity ns.fail
  | .failUnfinished => (.ok (), ns.failUnfinished)
  | .release => (.ok (), ns.release)
  -- `on_terminal`
  | .ownerCleared => (.ok (), { ns.terminal with ownerTerminal := true })
  -- the dictionary tells its owner before it is cleared
  | .teardown => (.ok (), { ns.terminal with dictionary := fun _ => none })
  | .register phase kind object beforeEdge invocation =>
    ns.changePending fun registry => registry.register phase kind object beforeEdge invocation
  | .next alive selected phase =>
    ns.changePending fun registry => .ok (registry.next alive selected phase (registry.queue phase).length).2
  | .remove alive isMatch selected => ns.changePending fun registry => .ok (registry.remove alive isMatch selected)
  | .write provenance write commits => ns.attempt provenance write commits

end Namespace

/-- One call of a run: the namespace before it, what was called, what it answered, and the namespace after it. -/
structure Call where
  before : Namespace
  op : Op
  result : Except StrictError Unit
  after : Namespace

/-- The calls of a run, in order. -/
def calls : Namespace → List Op → List Call
  | _, [] => []
  | ns, op :: ops => ⟨ns, op, (ns.step op).1, (ns.step op).2⟩ :: calls (ns.step op).2 ops

end Soac.Strict
