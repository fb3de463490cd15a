import Soac.Exceptions.HandledState

/-!
# The handled exceptions as a stack

What the handled exceptions of an activation are for: a stack of scopes, each with the exception it handles, above what the
caller handles. Here every scope has its own exception, so leaving scopes is taking a part of the stack, and nothing has to
be put back.
-/

namespace Soac.Handled

/-- An active scope and the exception it handles. -/
structure Entry where
  scope : Nat
  exception : ObjId
deriving DecidableEq, Repr

/-- The entry of a region that is entered with a value. -/
def HandledExceptionRegion.entry (region : HandledExceptionRegion) : Option Entry :=
  match region.exception with
  | none => none
  | some o => if o = pyNone then none else some ⟨region.scope, o⟩

/-- Regions against the active scopes, from the outermost inwards: the scopes that continue, and the regions from the first
one on that is entered afresh. A region that is the next active scope continues, unless it has just been raised into. Any
other region is entered afresh if it has a value or has been raised into, and is passed over if not; an unwinding enters
no region and goes by the active scopes alone. -/
def continuing (transition : HandledExceptionTransition) (pendingScope : Nat) :
    List Nat → List HandledExceptionRegion → List Nat × List HandledExceptionRegion
  | _, [] => ([], [])
  | [], region :: regions =>
    if transition ≠ .unwind ∧ (region.hasValue ∨ region.scope = pendingScope) then ([], region :: regions)
    else continuing transition pendingScope [] regions
  | scope :: scopes, region :: regions =>
    if (transition = .unwind ∨ region.scope ≠ pendingScope) ∧ scope = region.scope then
      let (kept, fresh) := continuing transition pendingScope scopes regions
      (scope :: kept, fresh)
    else if transition ≠ .unwind ∧ (region.hasValue ∨ region.scope = pendingScope) then ([], region :: regions)
    else continuing transition pendingScope (scope :: scopes) regions

/-- The stack of an activation, what its callers handle, and the error indicator. -/
structure StackWorld where
  entries : List Entry := []
  caller : Option ObjId
  outer : List (Option ObjId)
  raised : Option Raised := none
  capacity : Nat
  pendingScope : Nat := 0
  suspended : Bool
  active : Bool := false
  terminal : Bool := false
  sourceLayout : List String
  left : List Nat := []
deriving DecidableEq, Repr

namespace StackWorld

variable (a : StackWorld)

/-- Selections are possible. -/
def live : Bool :=
  a.active && !a.terminal

def fail (message : String) : StackWorld :=
  { a with raised := some (.runtimeError message) }

/-- Leaves the scopes above the first `depth`, the innermost first. -/
def leaveTo (depth : Nat) : StackWorld :=
  { a with
    entries := a.entries.take depth
    left := a.left ++ ((a.entries.drop depth).map (·.scope)).reverse }

/-- Enters scopes, as many as there is room for. -/
def enterAll (entries : List Entry) : StackWorld :=
  let all := { a with entries := (a.entries ++ entries).take a.capacity }
  if (a.entries ++ entries).length ≤ a.capacity then all
  else all.fail "invalid handled-exception region transition"

def select (regions : List HandledExceptionRegion) (transition : HandledExceptionTransition) : StackWorld :=
  if !a.live then a.fail "handled-exception activation is no longer live"
  else
    let (kept, fresh) := continuing transition a.pendingScope (a.entries.map (·.scope)) regions
    let a := a.leaveTo kept.length
    if transition = .enter then { a.enterAll (fresh.filterMap (·.entry)) with pendingScope := 0 } else a

/-- The end of a run of the body. -/
def retire (yielded : Bool) : StackWorld :=
  if !a.active then a
  else if a.suspended && (yielded && !a.terminal) then { a with active := false }
  else { a.leaveTo 0 with pendingScope := 0, active := false, terminal := a.terminal || a.suspended }

/-- An activation that will not run again gives up what it still holds. -/
def release : StackWorld :=
  if !a.suspended || a.active || !a.terminal then a else { a with entries := [], pendingScope := 0 }

def enter (caller : Option ObjId) (outer : List (Option ObjId)) : StackWorld :=
  if a.active || a.terminal then a.fail "suspended handled-exception state is running or closed"
  else if a.suspended then { a with caller, outer, active := true }
  else { a with caller, outer, entries := [], pendingScope := 0, active := true }

def resume (plan : HandledExceptionPlan) (caller : Option ObjId) (outer : List (Option ObjId)) : StackWorld :=
  if a.suspended then
    if a.active || a.sourceLayout ≠ plan.sourceLayout || a.entries.any (fun e => plan.sourceScopes < e.scope) then
      a.fail "suspended frame changed its source handled-region plan"
    else { a with capacity := max a.capacity plan.len }.enter caller outer
  else a.enter caller outer

def step : Op → StackWorld
  | .resume plan caller outer => a.resume plan caller outer
  | .raises raised => { a with raised := raised.map .object }
  | .markRaised scope => { a with pendingScope := scope }
  | .select regions transition => a.select regions transition
  | .retire yielded => a.retire yielded
  | .releaseResidual => a.release
  | .clear =>
    let a := { a with terminal := true }
    if a.active then a else a.release

def run (ops : List Op) : StackWorld :=
  ops.foldl step a

def new (plan : HandledExceptionPlan) (suspended : Bool) (caller : Option ObjId) (outer : List (Option ObjId)) :
    StackWorld where
  caller
  outer
  capacity := plan.len
  suspended
  sourceLayout := plan.sourceLayout

/-- What is handled: the exception of the innermost scope while the body runs, otherwise what the callers handle. -/
def handled : Option ObjId :=
  match a.active, a.entries.getLast? with
  | true, some e => some e.exception
  | _, _ => topmost (a.caller :: a.outer)

end StackWorld

end Soac.Handled
