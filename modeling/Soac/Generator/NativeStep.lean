import Soac.Generator.Binding

/-!
# Native steps of a managed generator

`step_impl` and `run_body` of `managed_generator.rs`, `resume_generator` and `resume_async_generator` of `lib.rs`, and
`PreservedState::clear`. Each of them runs Python code on its way: a delegate is closed or thrown into, a finalizer runs
when a reference is given up, the body itself runs. That code may call any operation on the same generator, so the
operations that are on their way form a stack. A frame of the stack stands at a point where Python code may run; a move
lets the topmost frame go on to its next such point, or calls another operation on top of it.
-/

namespace Soac.Generator

/-! ## Frames -/

/-- `OP_SEND`, `OP_THROW`, `OP_CLOSE`, or a code that native code does not use. -/
inductive Operation where
  | send
  | throw
  | close
  | other (code : Int)
deriving DecidableEq, Repr

/-- What native code asks for. -/
structure Input where
  operation : Operation
  closeOnGenexit : Bool
  arg : ObjId
deriving DecidableEq, Repr

inductive NativeState where
  | unchanged
  | suspended
  | closed
deriving DecidableEq, Repr

inductive NativeSuspension where
  | none
  | direct
  | delegating
  | asyncYield
deriving DecidableEq, Repr

/-- The result of a step: a `StepValue` or a `StepFailure`. -/
inductive StepOutcome where
  | yield (value : ObjId) (suspension : NativeSuspension)
  | return (value : ObjId)
  | failure (error : Raised) (state : NativeState)
deriving DecidableEq, Repr

/-- Where an admitted step stands. Its guard is dropped between `leaving` and `settled`. -/
inductive StepPoint where
  | begin
  | closingDelegate (delivery : GeneratorResumeDelivery)
  | throwingDelegate (delivery : GeneratorResumeDelivery)
  /-- The exception is being made; without a delivery it goes straight to the caller. -/
  | normalizing (delivery : Option GeneratorResumeDelivery)
  | admitting (exception : ObjId) (delivery : GeneratorResumeDelivery)
  | resuming
  | resumed (result : Except Raised ObjId)
  | leaving (outcome : StepOutcome)
  | settled (outcome : StepOutcome)

structure StepFrame where
  id : Nat
  generator : ObjId
  input : Input
  started : Bool
  function : Option ObjId
  noDefault : Option ObjId
  point : StepPoint

/-- What `FunctionCallMetadata::for_function` reads about the resume function. -/
structure Metadata where
  loweredKind : FunctionKind
  bodyParams : Nat
deriving DecidableEq, Repr

/-- Where a call of a resume helper stands. `permit` is the step whose permit the call has consumed; there is none when the
capsule has no managed binding. -/
inductive ResumePoint where
  | start
  | admitted (permit : Option Nat) (metadata : Metadata)
  | compiled (permit : Option Nat)
  | activated (permit : Option Nat)
  | body (permit : Option Nat)
  | finishing (result : Except Raised ObjId)
  | returning (result : Except Raised ObjId)

structure ResumeFrame where
  asyncGenerator : Bool
  function : Option ObjId
  generator : Option ObjId
  sendValue : ObjId
  resumeExc : Option ObjId
  point : ResumePoint

/-- Where `PreservedState::clear` stands: the operands are being released, or the values after the binding was taken. -/
inductive ClearPoint where
  | operands
  | payload (managed : Option Binding)

inductive Frame where
  | step (frame : StepFrame)
  | resume (frame : ResumeFrame)
  | clear (point : ClearPoint)

/-! ## States -/

/-- What the statements speak of: a step issues a permit, a call consumes it, a body is entered with it; a step takes an
exception to inject, which is delivered to the body or released. -/
inductive Event where
  | permitted (step : Nat)
  | consumed (step : Nat)
  | entered (step : Nat)
  | acquired (step : Nat)
  | delivered (step : Nat)
  | released (step : Nat)
deriving DecidableEq, Repr

/-- The capsule, the operations that are on their way with the topmost first, and what happened so far. `permit` is the step
that issued the latest permit; steps are numbered as they are admitted. -/
structure State where
  preserved : PreservedState
  frames : List Frame
  permit : Nat
  nextStep : Nat
  log : List Event

namespace State

/-- A generator as `new_generator` prepares it. -/
def new (function : ObjId) (kind : FunctionKind) (noDefault sourceCode : ObjId) (yieldfromSlot : Nat) : State where
  preserved :=
    { strictResume := true, closed := false, managed := some (.new function kind noDefault sourceCode yieldfromSlot),
      terminal := false, clearing := false }
  frames := []
  permit := 0
  nextStep := 0
  log := []

def record (s : State) (event : Event) : State :=
  { s with log := s.log ++ [event] }

/-- A reference to a pending exception is given up, if there is one. -/
def releasePending (s : State) (exception : Option ExceptionRef) : State :=
  match exception with
  | none => s
  | some ref => s.record (.released ref.step)

/-- The guard of a step is dropped, and the exception that is still pending released. -/
def dropProtocolGuard (s : State) : State :=
  { s with preserved := s.preserved.dropProtocolGuard }.releasePending (s.preserved.managed.bind (·.pendingException))

/-- The state with other frames on its stack. -/
def on (s : State) (frames : List Frame) : State :=
  { s with frames }

end State

/-! ## Steps -/

/-- The step goes on to another point. -/
def StepFrame.at (f : StepFrame) (point : StepPoint) : Frame :=
  .step { f with point }

variable (s : State)

/-- The binding is checked and the step gets its number; a step that is refused leaves everything as it was. -/
def stepImpl (generator : ObjId) (input : Input) (live : Live) : Except Raised State := do
  let b ← s.preserved.binding
  matchLive live
  if b.generator ≠ some generator ∨ b.phase ≠ .idle then
    throw (.runtime "managed generator protocol is already active or retired")
  return { s with
    preserved := s.preserved.setBinding { b with phase := .protocol }
    nextStep := s.nextStep + 1
    frames := .step
      { id := s.nextStep, generator, input, started := b.started, function := b.function, noDefault := b.noDefault,
        point := .begin } :: s.frames }

/-- The object that a body is sent when there is nothing to send. -/
def pyNone : ObjId := 0

/-- The permit is issued and the resume helper is called. -/
def runBody (f : StepFrame) (below : List Frame) (sendValue : ObjId) (exception : Option ExceptionRef)
    (delivery : GeneratorResumeDelivery) : State :=
  match s.preserved.binding with
  | .error e => (s.releasePending exception).on (f.at (.leaving (.failure e .unchanged)) :: below)
  | .ok b =>
    if b.phase ≠ .protocol ∨ b.pendingException ≠ none then
      (s.releasePending exception).on (f.at (.leaving (.failure
        (.runtime "managed generator protocol changed before body admission") .closed)) :: below)
    else
      { s.record (.permitted f.id) with
        preserved := s.preserved.setBinding { b with delivery, phase := .permitted, pendingException := exception }
        permit := f.id
        frames := .resume
          { asyncGenerator := b.kind = .asyncGenerator, function := f.function, generator := some f.generator, sendValue,
            resumeExc := (exception.map (·.object)).or f.noDefault, point := .start } :: f.at .resuming :: below }

/-- The exception the step is going to inject. -/
def acquire (f : StepFrame) (below : List Frame) (exception : ObjId) (delivery : GeneratorResumeDelivery) : State :=
  (s.record (.acquired f.id)).on (f.at (.admitting exception delivery) :: below)

/-- What the delegate's slot holds: nothing, an object that is not `None`, or an error. -/
abbrev Delegate := Except Raised (Option ObjId)

/-- The first point of a throw or a close: the delegate decides who gets the exception. -/
def beginThrow (f : StepFrame) (below : List Frame) (delegate : Delegate) (genexit : Bool) : State :=
  match s.preserved.binding, delegate with
  | .error e, _ | _, .error e => s.on (f.at (.leaving (.failure e .unchanged)) :: below)
  | .ok _, .ok delegate =>
    let delivery : GeneratorResumeDelivery := if delegate.isSome then .yieldFromException else .directRaise
    let closing := f.input.operation = .close ∨ f.input.closeOnGenexit ∧ genexit
    s.on (f.at (if delegate = none then .normalizing (some delivery)
      else if closing then .closingDelegate delivery
      else .throwingDelegate delivery) :: below)

/-- What `PyGen_ThrowSoacDelegate` answers. -/
inductive Thrown where
  | failed (exception : ObjId)
  | yielded (value : ObjId)
  | raised (exception : ObjId)
  | unhandled
  | invalid
deriving DecidableEq, Repr

def throwDelegate (f : StepFrame) (below : List Frame) (delivery : GeneratorResumeDelivery) : Thrown → State
  | .failed exception => s.on (f.at (.leaving (.failure (.object exception) .unchanged)) :: below)
  | .yielded value => s.on (f.at (.leaving (.yield value .delegating)) :: below)
  | .raised exception => acquire s f below exception delivery
  | .unhandled => s.on (f.at (.normalizing (some delivery)) :: below)
  | .invalid =>
    s.on (f.at (.leaving (.failure (.runtime "native generator delegate returned an invalid outcome") .closed)) :: below)

/-- The suspension that goes with a yielded value. -/
def suspension (kind : FunctionKind) (delegate : Option ObjId) : NativeSuspension :=
  if delegate.isSome then .delegating
  else if kind = .asyncGenerator then .asyncYield
  else .direct

/-- The result of a body that returned a value. -/
def yielded (s : PreservedState) (value : ObjId) (closed : Bool) (delegate : Delegate) : StepOutcome :=
  if closed then
    .failure (.runtime "managed generator yielded after closing its preserved state") .closed
  else
    match s.requireConsumedException, s.binding, delegate with
    | .error e, _, _ | _, .error e, _ | _, _, .error e => .failure e .closed
    | .ok _, .ok b, .ok delegate => .yield value (suspension b.kind delegate)

/-- The result of a body that raised, or was not entered. -/
def raisedOutcome (s : PreservedState) (error : Raised) (closed stopIteration : Bool) (returned : Except Raised ObjId) :
    StepOutcome :=
  if closed ∧ stopIteration then
    match s.requireConsumedException, returned with
    | .error e, _ | _, .error e => .failure e .closed
    | .ok _, .ok value => .return value
  else
    let entered : Bool := match s.binding with
      | .ok b => b.phase = .body
      | .error _ => true
    .failure error (if entered ∨ closed then .closed else .unchanged)

/-- The rest of `run_body` once the resume helper is back. -/
def bodyOutcome (s : PreservedState) (result : Except Raised ObjId) (delegate : Delegate) (stopIteration : Bool)
    (returned : Except Raised ObjId) : StepOutcome :=
  match s.strictStateIsClosed, result with
  | .error inspection, .ok _ => .failure inspection .closed
  | .error _, .error e => .failure e .closed
  | .ok closed, .ok value => yielded s value closed delegate
  | .ok closed, .error e => raisedOutcome s e closed stopIteration returned

/-! ## What Python code and native code answer -/

inductive Answer where
  | go
  | delegate (loaded : Delegate) (genexit : Bool)
  | closedDelegate (failure : Option ObjId)
  | thrownDelegate (thrown : Thrown)
  | generatorExit (exception : ObjId)
  | normalized (exception : Except Raised ObjId)
  | inspected (delegate : Delegate) (stopIteration : Bool) (returned : Except Raised ObjId)
  | metadata (read : Except Raised Metadata) (live : Live)
  | done (result : Except Raised Unit)
  | result (result : Except Raised ObjId)

/-- An admitted step goes on. -/
def StepFrame.next (f : StepFrame) (s : State) (below : List Frame) : Answer → Option State := fun answer =>
  match f.point, answer with
  | .begin, .go =>
    if f.input.operation = .send then some (runBody s f below f.input.arg none .ordinary)
    else if f.input.operation = .throw ∧ f.started = false then some (s.on (f.at (.normalizing none) :: below))
    else if f.input.operation ≠ .throw ∧ f.input.operation ≠ .close then
      some (s.on (f.at (.leaving (.failure (.runtime "unknown managed generator operation") .unchanged)) :: below))
    else none
  | .begin, .delegate loaded genexit =>
    if f.input.operation = .close ∨ f.input.operation = .throw ∧ f.started then
      some (beginThrow s f below loaded genexit)
    else none
  | .closingDelegate delivery, .closedDelegate (some failure) => some (acquire s f below failure delivery)
  | .closingDelegate delivery, .closedDelegate none => some (s.on (f.at (.normalizing (some delivery)) :: below))
  | .throwingDelegate delivery, .thrownDelegate thrown => some (throwDelegate s f below delivery thrown)
  | .normalizing delivery, .generatorExit exception =>
    match delivery with
    | some delivery => if f.input.operation = .close then some (acquire s f below exception delivery) else none
    | none => none
  | .normalizing delivery, .normalized normalized =>
    if f.input.operation = .close then none
    else
      match delivery, normalized with
      | _, .error e => some (s.on (f.at (.leaving (.failure e .unchanged)) :: below))
      | none, .ok exception => some (s.on (f.at (.leaving (.failure (.object exception) .closed)) :: below))
      | some delivery, .ok exception => some (acquire s f below exception delivery)
  | .admitting exception delivery, .go =>
    some (runBody s f below pyNone (some { object := exception, step := f.id }) delivery)
  | .resumed result, .inspected delegate stopIteration returned =>
    some (s.on (f.at (.leaving (bodyOutcome s.preserved result delegate stopIteration returned)) :: below))
  | .leaving outcome, .go => some (s.dropProtocolGuard.on (f.at (.settled outcome) :: below))
  | .settled _, .go => some (s.on below)
  | _, _ => none

/-! ## Resume helpers -/

/-- The result of a resume helper goes to the step that called it, or to Python code. -/
def returnResult (result : Except Raised ObjId) : List Frame → List Frame
  | .step f :: below =>
    match f.point with
    | .resuming => f.at (.resumed result) :: below
    | _ => .step f :: below
  | below => below

variable (f : ResumeFrame)

def ResumeFrame.at (point : ResumePoint) : Frame :=
  .resume { f with point }

/-- The function is one that the helper may resume. -/
def checkResumable (asyncGenerator : Bool) (m : Metadata) : Except Raised Unit :=
  if asyncGenerator then
    if m.loweredKind ≠ .asyncGenerator then
      .error (.unavailable "strict async resume entry requires an authenticated async-generator body")
    else if m.bodyParams ≠ 5 then
      .error (.runtime "async-generator resume function expected a 5-argument resume body")
    else .ok ()
  else if m.loweredKind ≠ .generator ∧ m.loweredKind ≠ .coroutine then
    .error (.unavailable "strict resume entry requires an authenticated generator or coroutine body")
  else if m.bodyParams ≠ 4 then
    .error (.runtime "generator resume function expected a 4-argument resume body")
  else .ok ()

/-- The metadata is read and the permit consumed. -/
def ResumeFrame.consume (s : State) (below : List Frame) (read : Except Raised Metadata) (live : Live) : State :=
  match read with
  | .error e => s.on (returnResult (.error e) below)
  | .ok metadata =>
    match s.preserved.managed with
    | none => s.on (f.at (.admitted none metadata) :: below)
    | some _ =>
      match s.preserved.consumeResumePermit f.function f.generator live with
      | .error e => s.on (returnResult (.error e) below)
      | .ok preserved =>
        { s.record (.consumed s.permit) with preserved, frames := f.at (.admitted (some s.permit) metadata) :: below }

/-- The body is entered. -/
def ResumeFrame.enter (s : State) (below : List Frame) (permit : Option Nat) : State :=
  match permit with
  | none => s.on (f.at (.body none) :: below)
  | some step =>
    match s.preserved.markBodyEntry with
    | .error e => s.on (returnResult (.error e) below)
    | .ok preserved => { s.record (.entered step) with preserved, frames := f.at (.body permit) :: below }

/-- A resume helper goes on. -/
def ResumeFrame.next (s : State) (below : List Frame) : Answer → Option State := fun answer =>
  match f.point, answer with
  | .start, .metadata read live => some (f.consume s below read live)
  | .admitted permit metadata, .done compiled =>
    match checkResumable f.asyncGenerator metadata, compiled with
    | .error e, _ | _, .error e => some (s.on (returnResult (.error e) below))
    | .ok _, .ok _ => some (s.on (f.at (.compiled permit) :: below))
  | .compiled permit, .done metadata =>
    match metadata, s.preserved.strictResumeSnapshot with
    | .error e, _ | _, .error e => some (s.on (returnResult (.error e) below))
    | .ok _, .ok _ => some (s.on (f.at (.activated permit) :: below))
  | .activated _, .done (.error e) => some (s.on (returnResult (.error e) below))
  | .activated permit, .done (.ok _) => some (f.enter s below permit)
  | .body permit, .result result =>
    match permit with
    | none => some (s.on (f.at (.finishing result) :: below))
    | some _ =>
      let finished := s.preserved.finishBodyResult result
      some { s with preserved := finished.1, frames := f.at (.finishing finished.2) :: below }
  | .finishing result, .go =>
    some { s with preserved := s.preserved.finishStrictResume, frames := f.at (.returning result) :: below }
  | .returning result, .go => some (s.on (returnResult result below))
  | _, _ => none

/-! ## Clearing -/

/-- `PreservedState::clear` is called. -/
def startClear (s : State) : State :=
  if s.preserved.clearing then s
  else { s with preserved := s.preserved.startClear, frames := .clear .operands :: s.frames }

/-- `PreservedState::clear` goes on. -/
def ClearPoint.next (point : ClearPoint) (s : State) (below : List Frame) : Answer → Option State
  | .go =>
    match point with
    | .operands =>
      some { s with preserved := s.preserved.unpublish, frames := .clear (.payload s.preserved.managed) :: below }
    | .payload managed => some ((s.releasePending (managed.bind (·.pendingException))).on below)
  | _ => none

/-! ## Runs -/

/-- The operations that native code, the body and any other Python code can call. -/
inductive Call where
  | bind (generator function sourceCode : ObjId) (live : Live)
  | step (generator : ObjId) (input : Input) (live : Live)
  | resume (asyncGenerator : Bool) (function generator : Option ObjId) (sendValue : ObjId) (resumeExc : Option ObjId)
  | injectResumeException (exception : Option ObjId) (handled : Except Raised Unit)
  | notifyTerminal (mark : Except Raised Unit) (failure : ObjId)
  | retireTerminalProtocolRoots
  | storeClosed
  | clear (generator : ObjId)
  | clearCapsule
  | abortManagedPreparation

/-- The pending exception is taken out of the binding, and delivered or released. -/
def injectResumeException (exception : Option ObjId) (handled : Except Raised Unit) : State :=
  match s.preserved.takeInjected exception with
  | .error _ => s
  | .ok (ref, preserved) =>
    match preserved.injectManagedExceptionOwned handled with
    | .ok _ => { s.record (.delivered ref.step) with preserved }
    | .error _ => { s.record (.released ref.step) with preserved }

/-- An operation is called on top of those that are on their way. One that fails leaves everything as it was. -/
def State.call : Call → State
  | .bind generator function sourceCode live =>
    match s.preserved.bind generator function sourceCode live with
    | .ok preserved => { s with preserved }
    | .error _ => s
  | .step generator input live =>
    match stepImpl s generator input live with
    | .ok s' => s'
    | .error _ => s
  | .resume asyncGenerator function generator sendValue resumeExc =>
    s.on (.resume { asyncGenerator, function, generator, sendValue, resumeExc, point := .start } :: s.frames)
  | .injectResumeException exception handled => injectResumeException s exception handled
  | .notifyTerminal mark failure => { s with preserved := s.preserved.notifyTerminal mark failure }
  | .retireTerminalProtocolRoots => { s with preserved := s.preserved.retireTerminalProtocolRoots }
  | .storeClosed => { s with preserved := { s.preserved with closed := true } }
  | .clear generator =>
    match s.preserved.managed with
    | some b => if b.matchesClear generator then startClear s else s
    | none => s
  | .clearCapsule => startClear s
  | .abortManagedPreparation =>
    match s.preserved.managed with
    | some b => if b.isPreparedUnbound then startClear s else s
    | none => s

/-- The topmost operation goes on with the answer to what it asked. -/
def State.next (s : State) (answer : Answer) : Option State :=
  match s.frames with
  | [] => none
  | .step f :: below => f.next s below answer
  | .resume f :: below => f.next s below answer
  | .clear point :: below => point.next s below answer

inductive Move where
  | call (call : Call)
  | next (answer : Answer)

def State.move : Move → Option State
  | .call call => some (s.call call)
  | .next answer => s.next answer

/-- A sequence of moves. -/
def State.run (s : State) : List Move → Option State
  | [] => some s
  | m :: moves => (s.move m).bind (·.run moves)

end Soac.Generator
