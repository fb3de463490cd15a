import Soac.Exceptions.HandledState
import Soac.Ir.Block

/-!
# The deopt interpreter

`execute_from_cursor` runs the blocks of a function from a cursor: the instructions of the block one after the other, then
its terminator. How an instruction is evaluated is a parameter; what the interpreter does with the exception an
instruction raises is modelled in full: the exception edge, its arguments, and the handled exceptions of the blocks that
are left and entered.
-/

namespace Soac.Interp

open Handled

/-- The frame of an activation: its materialized locals, each bound or not, the state of its handled exceptions in its
thread, and all else that an instruction can change. A function that handles no exception has no state: then only the
thread is used. -/
structure Frame (σ : Type) where
  locals : List (String × Option ObjId)
  hasState : Bool
  world : World
  heap : σ

/-- The internal errors of the interpreter. They are no Python exceptions. -/
inductive InterpError where
  | missingBlock (label : BlockLabel)
  | bodyIndexOutside (index : Nat) (label : BlockLabel)
  | missingHandledTarget (label : BlockLabel)
  | missingJumpTarget (label : BlockLabel)
  | tooManyArgs (target : BlockLabel) (args params : Nat)
  | paramNotMaterialized (target : BlockLabel) (param : String)
  | localNotMaterialized (name : String)
  | missingRegionOperand (region : String) (block : BlockLabel)
  | instruction (message : String)
deriving DecidableEq, Repr

/-- Whether the error indicator of the thread is set. -/
def Frame.raising {σ : Type} (f : Frame σ) : Prop :=
  f.world.thread.raised ≠ none

/-- What the interpreter calls on: the evaluation of an instruction, the truth value and the integer value of an object,
the raising of an object, and a few objects. A result `none` stands for a null pointer or an error status. What comes back
without a result leaves an exception in the indicator. -/
structure Semantics (I σ : Type) where
  executeExpr : I → Frame σ → Except String (Option ObjId × Frame σ)
  isTrue : ObjId → Frame σ → Option Bool × Frame σ
  asLongLong : ObjId → Frame σ → Option Int × Frame σ
  setRaiseException : ObjId → Frame σ → Frame σ
  exceptionObject : Raised → ObjId
  unboundLocalError : String → ObjId
  abruptKindTag : AbruptKind → ObjId
  notifyTerminal : σ → σ
  finalizer : List (RefEvent ObjId) → Option ObjId
  executeExpr_raising : ∀ i f f', executeExpr i f = .ok (none, f') → f'.raising
  isTrue_raising : ∀ o f f', isTrue o f = (none, f') → f'.raising
  asLongLong_raising : ∀ o f f', asLongLong o f = (none, f') → f'.raising
  setRaiseException_raising : ∀ o f, (setRaiseException o f).raising

namespace Frame

variable {σ : Type}

def getByName (f : Frame σ) (name : String) : Option (Option ObjId) :=
  f.locals.lookup name

def withRaised (f : Frame σ) (raised : Option Raised) : Frame σ :=
  { f with world := { f.world with thread := f.world.thread.setRaised raised } }

/-- The indicator is emptied; what was in it goes to the caller. -/
def takeRaised (f : Frame σ) : Frame σ :=
  { f with world := f.world.takeRaised }

/-- `mark_raised` of the state, if there is one. -/
def markRaised (f : Frame σ) (scope : Nat) : Frame σ :=
  if f.hasState then { f with world := f.world.markRaised scope } else f

end Frame

/-- `replace_with_owned_value` on the local with the name. -/
def replaceLocal (name : String) (value : Option ObjId) : List (String × Option ObjId) → List (String × Option ObjId)
  | [] => []
  | (n, v) :: locals => if n = name then (n, value) :: locals else (n, v) :: replaceLocal name value locals

section

variable {I σ : Type} (sem : Semantics I σ) (fn : BlockPyFunction I)

def blockForLabel (label : BlockLabel) : Option (Block I) :=
  match fn.blocks[label]? with
  | some b => if b.label = label then some b else fn.block? label
  | none => fn.block? label

/-- `HandledExceptionPlan::for_function`: the regions of the blocks, each once, in the order they are met in. -/
def sourceLayout : List String :=
  (fn.blocks.flatMap fun b => b.handledExceptionParams.map (·.name)).eraseDups

/-- The scope of a region is its place in the layout, counted from one. -/
def scope (name : String) : Nat :=
  (sourceLayout fn).idxOf name + 1

/-! ## Handled exceptions -/

variable (f : Frame σ)

/-- `HandledExceptionState::select` on the state, if there is one: whether it succeeded. -/
def selectRegions (regions : List HandledExceptionRegion) (transition : HandledExceptionTransition) : Bool × Frame σ :=
  if f.hasState then
    ((f.world.select sem.finalizer regions transition).1 == 0,
      { f with world := (f.world.select sem.finalizer regions transition).2 })
  else (true, f)

/-- `notify_terminal`, then `retire_scopes_and_detach`. -/
def retire : Frame σ :=
  { f with
    heap := sem.notifyTerminal f.heap
    world := if f.hasState then f.world.retireScopesAndDetach sem.finalizer false else f.world }

/-- The operand of a region: the incoming argument of its parameter, or the value of its local. -/
def regionOperand (incoming : List (String × Option ObjId)) (b : Block I) (param : BlockParam) :
    Except InterpError HandledExceptionRegion :=
  match (incoming.lookup param.name).or (f.getByName param.name) with
  | some value => .ok ⟨scope fn param.name, value⟩
  | none => .error (.missingRegionOperand param.name b.label)

def transitionHandledState (b : Block I) (incoming : List (String × Option ObjId)) (enter : Bool) :
    Except InterpError (Bool × Frame σ) :=
  match b.handledException with
  | .preserve => .ok (true, f)
  | .terminal => .ok (true, retire sem f)
  | .unwind => do
    let regions ← b.handledExceptionParams.mapM (regionOperand fn f incoming b)
    return selectRegions sem f regions .unwind
  | .regions => do
    let regions ← b.handledExceptionParams.mapM (regionOperand fn f incoming b)
    return selectRegions sem f regions (if enter then .enter else .leave)

/-! ## Edges -/

/-- The value of an edge argument, with the exception the edge carries: an unbound local raises, and an edge that carries
no exception takes the one that is in the indicator. -/
def edgeArg (raised : Option Raised) (f : Frame σ) :
    BlockArg → Except InterpError (Option ObjId × Option Raised × Frame σ)
  | .name name =>
    match f.getByName name with
    | none => .error (.localNotMaterialized name)
    | some none => .ok (none, raised, f.withRaised (some (.object (sem.unboundLocalError name))))
    | some (some value) => .ok (some value, raised, f)
  | .none => .ok (some pyNone, raised, f)
  | .abruptKind kind => .ok (some (sem.abruptKindTag kind), raised, f)
  | .currentException =>
    match raised with
    | some r => .ok (some (sem.exceptionObject r), some r, f)
    | none =>
      match f.world.thread.raised with
      | some r => .ok (some (sem.exceptionObject r), some r, f.takeRaised)
      | none => .ok (none, none, f.withRaised (some (.runtimeError "No active exception to reraise")))

/-- The loop over the arguments: the locals they are for and their values, or `none` once one has raised. -/
def edgeArgs : Option Raised → Frame σ → List (BlockParam × BlockArg) →
    Except InterpError (Option (List (String × Option ObjId)) × Frame σ)
  | _, f, [] => .ok (some [], f)
  | raised, f, (param, arg) :: rest =>
    match edgeArg sem raised f arg with
    | .error e => .error e
    | .ok (none, _, f) => .ok (none, f)
    | .ok (some value, raised, f) =>
      match edgeArgs raised f rest with
      | .error e => .error e
      | .ok (none, f) => .ok (none, f)
      | .ok (some values, f) => .ok (some ((param.name, some value) :: values), f)

/-- The end of `execute_jump_edge`: the handled exceptions of the target, then its parameters. -/
def enterTarget (target : Block I) (incoming : List (String × Option ObjId)) (f : Frame σ) :
    Except InterpError (Bool × Frame σ) :=
  match transitionHandledState sem fn f target incoming false with
  | .error e => .error e
  | .ok (false, f) => .ok (false, f)
  | .ok (true, f) => .ok (true, { f with locals := incoming.foldl (fun ls p => replaceLocal p.1 p.2 ls) f.locals })

variable (edge : BlockEdge)

/-- The checks that `execute_jump_edge` starts with. -/
def edgeTarget (f : Frame σ) : Except InterpError (Block I) :=
  match blockForLabel fn edge.target with
  | none => .error (.missingJumpTarget edge.target)
  | some target =>
    if target.params.length < edge.args.length then
      .error (.tooManyArgs edge.target edge.args.length target.params.length)
    else
      match target.params.find? fun p => (f.getByName p.name).isNone with
      | some p => .error (.paramNotMaterialized edge.target p.name)
      | none => .ok target

/-- `execute_jump_edge`: whether the target is reached. The arguments are for the first parameters of the target. -/
def executeJumpEdge (raised : Option Raised) (f : Frame σ) : Except InterpError (Bool × Frame σ) :=
  match edgeTarget fn edge f with
  | .error e => .error e
  | .ok target =>
    match edgeArgs sem raised f (target.params.zip edge.args) with
    | .error e => .error e
    | .ok (none, f) => .ok (false, f)
    | .ok (some incoming, f) => enterTarget sem fn target incoming f

/-- The innermost region of the target is the one the exception is raised into. -/
def markTarget (f : Frame σ) : Frame σ :=
  match (blockForLabel fn edge.target).bind (·.handledExceptionParams.getLast?) with
  | some param => f.markRaised (scope fn param.name)
  | none => f

/-- `try_dispatch_exception_edge`: whether the exception in the indicator reached the target of the edge. -/
def tryDispatchExceptionEdge (edge : Option BlockEdge) (f : Frame σ) : Except InterpError (Bool × Frame σ) :=
  match edge, f.world.thread.raised with
  | some edge, some raised => executeJumpEdge sem fn edge (some raised) (markTarget fn edge f.takeRaised)
  | _, _ => .ok (false, f)

end

/-! ## The loop -/

/-- Where a run stands: at the head of a block, to start at an instruction of its body; in the body; at the terminator. -/
inductive Point (I : Type) where
  | head (label : BlockLabel) (bodyIndex : Nat)
  | body (block : Block I) (rest : List I)
  | term (block : Block I)

/-- How a run of the frame ends. A return without a value has an exception in the indicator. -/
inductive FrameExecutionOutcome where
  | ret (value : Option ObjId)
  | generatorReturn (value : ObjId)
deriving DecidableEq, Repr

inductive Config (I σ : Type) where
  | running (point : Point I) (frame : Frame σ)
  | finished (outcome : FrameExecutionOutcome) (frame : Frame σ)
  | failed (error : InterpError)

section

variable {I σ : Type} (sem : Semantics I σ) (fn : BlockPyFunction I) (target : BlockLabel)

/-- The run goes on at the target if it is reached, and leaves the function otherwise. -/
def goTo : Except InterpError (Bool × Frame σ) → Config I σ
  | .error e => .failed e
  | .ok (true, f) => .running (.head target 0) f
  | .ok (false, f) => .finished (.ret none) f

/-- What follows a failed evaluation in a block: its exception edge, or the end of the run. -/
def dispatch (b : Block I) (f : Frame σ) : Config I σ :=
  match b.excEdge with
  | none => .finished (.ret none) f
  | some edge => goTo edge.target (tryDispatchExceptionEdge sem fn (some edge) f)

/-- Evaluates an instruction of a block and goes on with its value. -/
def evaluate (b : Block I) (e : I) (f : Frame σ) (next : ObjId → Frame σ → Config I σ) : Config I σ :=
  match sem.executeExpr e f with
  | .error message => .failed (.instruction message)
  | .ok (none, f) => dispatch sem fn b f
  | .ok (some value, f) => next value f

/-- `leave_handled_for_target`, then the target. -/
def leaveFor (f : Frame σ) : Config I σ :=
  match blockForLabel fn target with
  | none => .failed (.missingHandledTarget target)
  | some b => goTo target (transitionHandledState sem fn f b [] false)

def enterBlock (label : BlockLabel) (bodyIndex : Nat) (f : Frame σ) : Config I σ :=
  match blockForLabel fn label with
  | none => .failed (.missingBlock label)
  | some b =>
    if b.body.length < bodyIndex then .failed (.bodyIndexOutside bodyIndex label)
    else
      match transitionHandledState sem fn f b [] true with
      | .error e => .failed e
      | .ok (false, f) => .finished (.ret none) f
      | .ok (true, f) => .running (.body b (b.body.drop bodyIndex)) f

/-- `reraise_current`: the handled exception goes into the indicator. -/
def reraiseCurrent (f : Frame σ) : Frame σ :=
  match f.world.handled with
  | none => f.withRaised (some (.runtimeError "No active exception to reraise"))
  | some exception => f.withRaised (some (.object exception))

/-- The target of a branch table: the default one for an index out of range. -/
def branchTarget (targets : List BlockLabel) (defaultLabel : BlockLabel) (index : Int) : BlockLabel :=
  if index < 0 then defaultLabel else (targets[index.toNat]?).getD defaultLabel

def executeTerm (b : Block I) (f : Frame σ) : Config I σ :=
  match b.term with
  | .ret value => evaluate sem fn b value f fun v f => .finished (.ret (some v)) f
  | .generatorReturn value => evaluate sem fn b value f fun v f => .finished (.generatorReturn v) f
  | .jump edge => goTo edge.target (executeJumpEdge sem fn edge none f)
  | .ifTerm test thenLabel elseLabel => evaluate sem fn b test f fun v f =>
    match sem.isTrue v f with
    | (none, f) => dispatch sem fn b f
    | (some truth, f) => leaveFor sem fn (if truth then thenLabel else elseLabel) f
  | .branchTable index targets defaultLabel =>
    match sem.executeExpr index f with
    | .error message => .failed (.instruction message)
    | .ok (none, f) => .finished (.ret none) f
    | .ok (some v, f) =>
      match sem.asLongLong v f with
      | (none, f) => dispatch sem fn b f
      | (some n, f) => leaveFor sem fn (branchTarget targets defaultLabel n) f
  | .raise none => dispatch sem fn b (reraiseCurrent f)
  | .raise (some exc) => evaluate sem fn b exc f fun v f => dispatch sem fn b (sem.setRaiseException v f)

/-- One step of `execute_from_cursor`. -/
def step : Config I σ → Config I σ
  | .running (.head label bodyIndex) f => enterBlock sem fn label bodyIndex f
  | .running (.body b []) f => .running (.term b) f
  | .running (.body b (i :: rest)) f => evaluate sem fn b i f fun _ f => .running (.body b rest) f
  | .running (.term b) f => executeTerm sem fn b f
  | .finished outcome f => .finished outcome f
  | .failed e => .failed e

def run : Nat → Config I σ → Config I σ
  | 0, c => c
  | n + 1, c => run n (step sem fn c)

end

end Soac.Interp
