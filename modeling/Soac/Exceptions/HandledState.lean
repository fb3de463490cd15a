import Mathlib.Data.List.Basic
import Soac.Lib.Ledger

/-!
# The handled exceptions of an activation

While a handler runs, the exception it handles is the value of the thread's current exception item. A normal call shares
the item of its caller; a generator has an item of its own, linked into the thread while its body runs. Entering a handled
scope puts the exception into the item and keeps the value it replaces in a record; leaving the scope puts that value
back. At every block entry and exit the code selects the scopes that are to be active there.
-/

namespace Soac.Handled

/-- An object, by its address. -/
abbrev ObjId := Nat

/-- The object `None`. -/
def pyNone : ObjId := 0

structure HandledExceptionRecord where
  scope : Nat
  previous : Option ObjId
deriving DecidableEq, Repr

/-- A scope a block is in, and the operand that holds its exception: nothing, `None` or an exception. -/
structure HandledExceptionRegion where
  scope : Nat
  exception : Option ObjId
deriving DecidableEq, Repr

def HandledExceptionRegion.hasValue (region : HandledExceptionRegion) : Bool :=
  region.exception ≠ none ∧ region.exception ≠ some pyNone

inductive HandledExceptionTransition where
  | leave
  | enter
  | unwind
deriving DecidableEq, Repr

/-- The scopes of a function: those of its source, and further ones of its native code. -/
structure HandledExceptionPlan where
  sourceLayout : List String
  nativeScopes : Nat := 0
deriving DecidableEq, Repr

def HandledExceptionPlan.len (plan : HandledExceptionPlan) : Nat :=
  plan.sourceLayout.length + plan.nativeScopes

def HandledExceptionPlan.sourceScopes (plan : HandledExceptionPlan) : Nat :=
  plan.sourceLayout.length

/-- The error indicator of a thread. -/
inductive Raised where
  | object (o : ObjId)
  | runtimeError (message : String)
deriving DecidableEq, Repr

/-- What an activation sees of its thread: the value of the caller's item, the items further out, the error indicator, and
the references taken and given up so far. -/
structure Thread where
  caller : Option ObjId
  outer : List (Option ObjId)
  raised : Option Raised := none
  events : List (RefEvent ObjId) := []
deriving DecidableEq, Repr

/-- `OwnedHandledExceptionState`. The records are listed from the outermost scope inwards; `item` is the value of the
private item of a suspended activation. -/
structure HandledExceptionState where
  item : Option ObjId := none
  records : List HandledExceptionRecord := []
  capacity : Nat
  pendingScope : Nat := 0
  suspended : Bool
  active : Bool := false
  terminal : Bool := false
  sourceLayout : List String
deriving DecidableEq, Repr

/-- An activation in its thread, and the scopes it has left so far, in order. -/
structure World where
  state : HandledExceptionState
  thread : Thread
  left : List Nat := []
deriving DecidableEq, Repr

/-! ## The error indicator -/

namespace Thread

/-- The indicator is emptied and its reference given up. -/
def dropRaised (t : Thread) : Thread :=
  match t.raised with
  | some (.object o) => { t with raised := none, events := t.events ++ [.release o] }
  | _ => { t with raised := none }

/-- `PyErr_SetRaisedException`: takes over the reference it is given. -/
def setRaised (t : Thread) (raised : Option Raised) : Thread :=
  { t.dropRaised with raised := raised }

/-- The indicator is set to an exception that others hold as well. -/
def raiseObject (t : Thread) (o : ObjId) : Thread :=
  { t.dropRaised with raised := some (.object o), events := t.dropRaised.events ++ [.acquire o] }

def incref (t : Thread) (o : ObjId) : Thread :=
  { t with events := t.events ++ [.acquire o] }

section

/- Giving up a reference may run a finalizer, which may leave an exception in the indicator. -/
variable (finalizer : List (RefEvent ObjId) → Option ObjId)

def decref (t : Thread) (o : ObjId) : Thread :=
  let t := { t with events := t.events ++ [.release o] }
  match finalizer t.events with
  | none => t
  | some error => t.raiseObject error

def xdecref (t : Thread) (o : Option ObjId) : Thread :=
  match o with
  | none => t
  | some o => t.decref finalizer o

/-- Gives up a reference that was taken out of the indicator. -/
def xdecrefRaised (t : Thread) (raised : Option Raised) : Thread :=
  match raised with
  | some (.object o) => t.decref finalizer o
  | _ => t

end

end Thread

namespace World

variable (w : World)

def stateError (message : String) : World :=
  { w with thread := w.thread.setRaised (some (.runtimeError message)) }

/-- `PyErr_GetRaisedException`: the indicator is emptied, its reference goes to the caller. -/
def takeRaised : World :=
  { w with thread := { w.thread with raised := none } }

/-- The value of the item the activation works on. -/
def item (w : World) : Option ObjId :=
  if w.state.suspended then w.state.item else w.thread.caller

def setItem (value : Option ObjId) : World :=
  if w.state.suspended then { w with state := { w.state with item := value } }
  else { w with thread := { w.thread with caller := value } }

/-- The scopes that are active, from the outermost inwards. -/
def scopes : List Nat :=
  w.state.records.map (·.scope)

/-- The values of the thread's exception items, the current one first. -/
def items : List (Option ObjId) :=
  let callers := w.thread.caller :: w.thread.outer
  if w.state.suspended && w.state.active then w.state.item :: callers else callers

end World

/-- The topmost exception of a chain of items. -/
def topmost : List (Option ObjId) → Option ObjId
  | [] => none
  | none :: items => topmost items
  | some o :: items => if o = pyNone then topmost items else some o

/-- `PyErr_GetHandledException`. -/
def World.handled (w : World) : Option ObjId :=
  topmost w.items

/-! ## Selection -/

/-- The loop of `select` over the regions: how many of the active scopes continue, and the regions from the first one on
that is entered afresh. -/
def scanRegions (transition : HandledExceptionTransition) (pendingScope : Nat) (records : List HandledExceptionRecord) :
    List HandledExceptionRegion → Nat → Nat × List HandledExceptionRegion
  | [], common => (common, [])
  | region :: regions, common =>
    if (transition = .unwind ∨ region.scope ≠ pendingScope) ∧
        (records[common]?).map (·.scope) = some region.scope then
      scanRegions transition pendingScope records regions (common + 1)
    else if transition = .unwind then
      scanRegions transition pendingScope records regions common
    else if region.hasValue ∨ region.scope = pendingScope then
      (common, region :: regions)
    else
      scanRegions transition pendingScope records regions common

namespace World

variable (finalizer : List (RefEvent ObjId) → Option ObjId) (w : World)

/-- One round of `pop_to`. -/
def popRecord : World :=
  match w.state.records.getLast? with
  | none => w
  | some record =>
    let old := w.item
    let w := { w with state := { w.state with records := w.state.records.dropLast }, left := w.left ++ [record.scope] }
    let w := w.setItem record.previous
    { w with thread := w.thread.xdecref finalizer old }

def popRecords : Nat → World → World
  | 0, w => w
  | n + 1, w => popRecords n (w.popRecord finalizer)

def popTo (depth : Nat) : World :=
  w.popRecords finalizer (w.state.records.length - depth)

/-- Enters a scope. -/
def pushRecord (region : HandledExceptionRegion) : World :=
  let previous := w.item
  let w := match region.exception with
    | none => w
    | some o => { w with thread := w.thread.incref o }
  let w := w.setItem region.exception
  { w with state := { w.state with records := w.state.records ++ [⟨region.scope, previous⟩] } }

/-- The loop of `select` that enters the fresh regions. -/
def pushRegions : List HandledExceptionRegion → World → Int × World
  | [], w => (0, w)
  | region :: regions, w =>
    if w.state.terminal ∨ w.state.records.length = w.state.capacity then
      (-1, w.stateError "invalid handled-exception region transition")
    else pushRegions regions (w.pushRecord region)

variable (regions : List HandledExceptionRegion)

/-- Takes a reference to the operand of every region. -/
def pinRegions : World :=
  { w with thread := (regions.filterMap (·.exception)).foldl Thread.incref w.thread }

def unpinRegions : World :=
  { w with thread := (regions.filterMap (·.exception)).foldl (Thread.decref finalizer) w.thread }

/-- The end of `select`: the operands are released, and the error indicator is what it was before, or the error of a
failed selection. -/
def finishSelect (status : Int) (fresh : List HandledExceptionRegion) (savedError : Option Raised) : World :=
  let error := w.thread.raised
  let w := w.takeRaised
  let w := w.unpinRegions finalizer fresh
  if status < 0 then { w with thread := (w.thread.xdecrefRaised finalizer savedError).setRaised error }
  else { w with thread := (w.thread.xdecrefRaised finalizer error).setRaised savedError }

def select (transition : HandledExceptionTransition) : Int × World :=
  if !w.state.active || w.state.terminal then
    (-1, w.stateError "handled-exception activation is no longer live")
  else
    let savedError := w.thread.raised
    let w := w.takeRaised
    let (common, rest) := scanRegions transition w.state.pendingScope w.state.records regions 0
    let fresh := rest.filter (·.hasValue)
    let w := w.pinRegions fresh
    let w := w.popTo finalizer common
    if transition = .enter then
      let (status, w) := pushRegions fresh w
      let w := { w with state := { w.state with pendingScope := 0 } }
      (status, w.finishSelect finalizer status fresh savedError)
    else (0, w.finishSelect finalizer 0 fresh savedError)

/-! ## The life of an activation -/

def markTerminal : World :=
  { w with state := { w.state with terminal := true } }

def markRaised (scope : Nat) : World :=
  { w with state := { w.state with pendingScope := scope } }

/-- Every scope is left. -/
def leaveScopes : World :=
  let w := w.popTo finalizer 0
  { w with state := { w.state with pendingScope := 0 } }

/-- The scopes at the end of a run of the body: a yield keeps those of an activation that is not closed. -/
def retireScopes (yielded : Bool) : World :=
  if w.state.suspended then
    if !yielded || w.state.terminal then leaveScopes finalizer w.markTerminal else w
  else w.leaveScopes finalizer

/-- The activation no longer runs, and the error indicator is what it was. -/
def detach (error : Option Raised) : World :=
  { w with state := { w.state with active := false }, thread := w.thread.setRaised error }

def retireScopesAndDetach (yielded : Bool) : World :=
  if !w.state.active then w
  else (w.takeRaised.retireScopes finalizer yielded).detach w.thread.raised

/-- One round of the loop of `release_residual`: the saved value of the innermost record is given up. -/
def releaseRecord : World :=
  match w.state.records.getLast? with
  | none => w
  | some record =>
    let w := { w with state := { w.state with records := w.state.records.dropLast } }
    { w with thread := w.thread.xdecref finalizer record.previous }

def releaseRecords : Nat → World → World
  | 0, w => w
  | n + 1, w => releaseRecords n (w.releaseRecord finalizer)

def releaseResidual : World :=
  if !w.state.suspended || w.state.active || !w.state.terminal then w
  else
    let error := w.thread.raised
    let w := w.takeRaised
    let w := w.releaseRecords finalizer w.state.records.length
    let value := w.state.item
    let w := { w with state := { w.state with item := none } }
    let w := { w with thread := w.thread.xdecref finalizer value }
    let w := { w with state := { w.state with pendingScope := 0 } }
    { w with thread := w.thread.setRaised error }

variable (plan : HandledExceptionPlan)

/-- `prepare_plan`: the error it stops with, or the state with room for the plan. -/
def preparePlan : Bool × World :=
  if w.state.active || w.state.sourceLayout ≠ plan.sourceLayout ||
      w.state.records.any (fun record => plan.sourceScopes < record.scope) then
    (false, w.stateError "suspended frame changed its source handled-region plan")
  else if w.state.capacity < plan.len then
    (true, { w with state := { w.state with capacity := plan.len } })
  else (true, w)

/-- `OwnedHandledExceptionState::enter` on a thread whose items hold the given values. -/
def enter (caller : Option ObjId) (outer : List (Option ObjId)) : World :=
  if w.state.active || w.state.terminal then
    w.stateError "suspended handled-exception state is running or closed"
  else if w.state.suspended then
    { w with state := { w.state with active := true }, thread := { w.thread with caller, outer } }
  else
    -- `initialize_normal`
    { w with
      state := { w.state with records := [], pendingScope := 0, active := true, terminal := false }
      thread := { w.thread with caller, outer } }

/-- The start of a run of the body: a suspended activation first takes over the plan it is resumed with. -/
def resume (caller : Option ObjId) (outer : List (Option ObjId)) : World :=
  if w.state.suspended then
    match w.preparePlan plan with
    | (false, w) => w
    | (true, w) => w.enter caller outer
  else w.enter caller outer

def clear : World :=
  let w := w.markTerminal
  if w.state.active then w else w.releaseResidual finalizer

/-- `OwnedHandledExceptionState::new`, before the first run of the body. -/
def new (suspended : Bool) (caller : Option ObjId) (outer : List (Option ObjId)) : World where
  state := { capacity := plan.len, suspended, sourceLayout := plan.sourceLayout }
  thread := { caller, outer }

end World

/-- What can happen to an activation. `raises` is the body or the interpreter setting or clearing the error indicator. -/
inductive Op where
  | resume (plan : HandledExceptionPlan) (caller : Option ObjId) (outer : List (Option ObjId))
  | raises (raised : Option ObjId)
  | markRaised (scope : Nat)
  | select (regions : List HandledExceptionRegion) (transition : HandledExceptionTransition)
  | retire (yielded : Bool)
  | releaseResidual
  | clear
deriving DecidableEq, Repr

variable (finalizer : List (RefEvent ObjId) → Option ObjId)

def World.step (w : World) : Op → World
  | .resume plan caller outer => w.resume plan caller outer
  | .raises none => { w with thread := w.thread.dropRaised }
  | .raises (some o) => { w with thread := w.thread.raiseObject o }
  | .markRaised scope => w.markRaised scope
  | .select regions transition => (w.select finalizer regions transition).2
  | .retire yielded => w.retireScopesAndDetach finalizer yielded
  | .releaseResidual => w.releaseResidual finalizer
  | .clear => w.clear finalizer

def World.run (w : World) (ops : List Op) : World :=
  ops.foldl (World.step finalizer) w

end Soac.Handled
