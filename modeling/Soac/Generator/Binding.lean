import Soac.Ir.Block

/-!
# The binding of a managed generator

`managed_generator.rs`, and the part of `preserved_state.rs` that owns the binding. A native generator owns a capsule with
the preserved state of its body, and the capsule owns one binding. The phase of the binding says how far the step that is
running has come; each operation below checks it before it does anything else. What a native function answers is an
argument.
-/

namespace Soac.Generator

/-- An object, by its address. -/
abbrev ObjId := Nat

/-- The Python exception an operation leaves behind: one that the runtime makes itself, or one that a callback raised. -/
inductive Raised where
  | runtime (message : String)
  | unavailable (message : String)
  | object (exception : ObjId)
deriving DecidableEq, Repr

inductive GeneratorResumeDelivery where
  | ordinary
  | directRaise
  | yieldFromException
deriving DecidableEq, Repr

inductive Phase where
  | prepared
  | idle
  | protocol
  | permitted
  | admitting
  | body
  | retired
deriving DecidableEq, Repr

/-- An owned reference to an exception. The step that took the reference is recorded with it, for the statements only. -/
structure ExceptionRef where
  object : ObjId
  step : Nat
deriving DecidableEq, Repr

structure Binding where
  function : Option ObjId
  kind : FunctionKind
  noDefault : Option ObjId
  sourceCodeIdentity : Option ObjId
  generator : Option ObjId
  yieldfromSlot : Nat
  phase : Phase
  started : Bool
  delivery : GeneratorResumeDelivery
  pendingException : Option ExceptionRef
  terminalProtocolError : Option ObjId
deriving DecidableEq, Repr

namespace Binding

/-- The binding that `new_generator` prepares. -/
def new (function : ObjId) (kind : FunctionKind) (noDefault sourceCode : ObjId) (yieldfromSlot : Nat) : Binding where
  function := some function
  kind := kind
  noDefault := some noDefault
  sourceCodeIdentity := some sourceCode
  generator := none
  yieldfromSlot := yieldfromSlot
  phase := .prepared
  started := false
  delivery := .ordinary
  pendingException := none
  terminalProtocolError := none

def isPreparedUnbound (b : Binding) : Bool :=
  b.phase = .prepared ∧ b.generator = none

/-- Native code clears only the generator that the binding is for. -/
def matchesClear (b : Binding) (generator : ObjId) : Bool :=
  b.generator = some generator

/-- What is left of a binding that has given up its references. -/
def clear (b : Binding) : Binding :=
  { b with
    function := none
    noDefault := none
    pendingException := none
    terminalProtocolError := none
    phase := .retired
    generator := none
    sourceCodeIdentity := none
    delivery := .ordinary }

end Binding

/-- The preserved state in the capsule. `strictResume` says whether the snapshot of the activation is still there, and
`closed` whether the slot for it has been set. -/
structure PreservedState where
  strictResume : Bool
  closed : Bool
  managed : Option Binding
  terminal : Bool
  clearing : Bool
deriving DecidableEq, Repr

/-- What `PyGen_MatchesSoacOwner` answers. -/
inductive Live where
  | owner
  | other
  | failed (exception : ObjId)
deriving DecidableEq, Repr

def matchLive : Live → Except Raised Unit
  | .owner => .ok ()
  | .other => .error (.runtime "generator does not own this preserved state")
  | .failed exception => .error (.object exception)

namespace PreservedState

variable (s : PreservedState)

def binding : Except Raised Binding :=
  match s.managed with
  | some b => .ok b
  | none => .error (.runtime "generator does not own a managed suspended execution")

/-- The state with another binding in the place of its own. -/
def setBinding (b : Binding) : PreservedState :=
  { s with managed := some b }

def strictStateIsClosed : Except Raised Bool :=
  if s.terminal then .ok true
  else if s.strictResume then .ok s.closed
  else .error (.unavailable "strict suspended state lost its closed-slot layout")

/-- The check of `strict_resume_snapshot`. -/
def strictResumeSnapshot : Except Raised Unit :=
  if s.terminal ∨ s.strictResume = false then
    .error (.unavailable "strict suspended state is absent or terminal")
  else .ok ()

/-- `bind`: native code takes over the generator that was prepared. -/
def bind (generator function sourceCode : ObjId) (live : Live) : Except Raised PreservedState := do
  let b ← s.binding
  let lost : Raised := .runtime "managed generator construction lost its prepared source snapshot"
  if b.phase ≠ .prepared ∨ b.generator ≠ none ∨ b.function ≠ some function ∨ b.sourceCodeIdentity ≠ some sourceCode then
    throw lost
  if ← s.strictStateIsClosed then
    throw lost
  matchLive live
  return s.setBinding { b with generator := some generator, phase := .idle }

def consumeResumePermit (function generator : Option ObjId) (live : Live) : Except Raised PreservedState := do
  let b ← s.binding
  if b.phase ≠ .permitted ∨ b.generator ≠ generator ∨ b.function ≠ function then
    throw (.runtime "managed generator resume requires its active native step")
  matchLive live
  return s.setBinding { b with phase := .admitting }

def markBodyEntry : Except Raised PreservedState := do
  let b ← s.binding
  if b.phase ≠ .admitting then
    throw (.runtime "managed generator entered without consuming its resume permit")
  return s.setBinding { b with phase := .body, started := true }

/-- The state without the pending exception, which is handed to the caller, when it is the caller's to inject. -/
def takeInjected (exception : Option ObjId) : Except Raised (ExceptionRef × PreservedState) := do
  let b ← s.binding
  match b.pendingException with
  | some ref =>
    if exception ≠ some ref.object ∨ b.phase ≠ .body ∨ b.delivery = .ordinary then
      throw (.runtime "managed exception injection lost its owned resume operand")
    return (ref, s.setBinding { b with pendingException := none })
  | none => throw (.runtime "managed exception injection lost its owned resume operand")

/-- `inject_managed_exception_owned`: whether the activation takes the exception; if not, the reference is given up. The
handled state of the activation answers for itself. -/
def injectManagedExceptionOwned (handled : Except Raised Unit) : Except Raised Unit :=
  if s.terminal ∨ s.managed = none ∨ s.strictResume = false then
    .error (.unavailable "managed exception has no live suspended execution")
  else handled

/-- `mark_terminal`; `mark` is the answer of `PyGen_MarkSoacManagedTerminal`. -/
def markTerminal (mark : Except Raised Unit) : Except Raised Unit :=
  match s.managed with
  | none => .ok ()
  | some b =>
    if b.phase ≠ .body ∨ b.generator = none then
      .error (.runtime "managed generator terminated outside its active body")
    else mark

/-- `notify_terminal`: the first failure is kept for the end of the body. `failure` is the exception object of it. -/
def notifyTerminal (mark : Except Raised Unit) (failure : ObjId) : PreservedState :=
  match s.managed, s.markTerminal mark with
  | some b, .error _ =>
    if b.terminalProtocolError = none then s.setBinding { b with terminalProtocolError := some failure } else s
  | _, _ => s

/-- `finish_body_result`: a failure that was kept replaces the result of the body. -/
def finishBodyResult (result : Except Raised ObjId) : PreservedState × Except Raised ObjId :=
  match s.managed with
  | none => (s, .error (.runtime "generator does not own a managed suspended execution"))
  | some b =>
    match b.terminalProtocolError with
    | none => (s, result)
    | some failure => (s.setBinding { b with terminalProtocolError := none }, .error (.object failure))

/-- The drop of the `ProtocolGuard`, up to the release of the pending exception. -/
def dropProtocolGuard : PreservedState :=
  match s.managed with
  | none => s
  | some b =>
    if b.phase = .retired then s.setBinding { b with pendingException := none }
    else s.setBinding { b with pendingException := none, phase := .idle, delivery := .ordinary }

def requireConsumedException : Except Raised Unit := do
  let b ← s.binding
  if b.pendingException.isSome then
    throw (.runtime "managed generator completed a step without delivering its exception")

def retireTerminalProtocolRoots : PreservedState :=
  { s with
    terminal := true
    strictResume := false
    managed := s.managed.map fun b => { b with function := none } }

def finishStrictResume : PreservedState :=
  if s.closed then { s with terminal := true, strictResume := false } else s

/-- The first part of `clear`, up to the release of the operands. -/
def startClear : PreservedState :=
  { s with clearing := true, terminal := true }

/-- The middle of `clear`: the associations are unpublished before the values are released. -/
def unpublish : PreservedState :=
  { s with managed := none, strictResume := false, closed := false }

/-! ## What an operation that succeeds has done -/

section

open Fallible

variable {s s' : PreservedState} {b : Binding} {live : Live}

theorem managed_of_binding (h : s.binding = .ok b) : s.managed = some b := by
  unfold binding at h
  split at h
  · next b' hb =>
    cases h
    exact hb
  · cases h

theorem bind_ok {generator function sourceCode : ObjId} (h : s.bind generator function sourceCode live = .ok s') :
    ∃ b, s.managed = some b ∧ b.phase = .prepared ∧
      s' = s.setBinding { b with generator := some generator, phase := .idle } := by
  obtain ⟨b, hb, h⟩ := bind_eq_ok.mp h
  split at h
  · cases h
  · next hchecked =>
    rw [not_or, not_not] at hchecked
    obtain ⟨closed, -, h⟩ := bind_eq_ok.mp h
    split at h
    · cases h
    · obtain ⟨-, -, h⟩ := bind_eq_ok.mp h
      cases h
      exact ⟨b, managed_of_binding hb, hchecked.1, rfl⟩

theorem consumeResumePermit_ok {function generator : Option ObjId}
    (h : s.consumeResumePermit function generator live = .ok s') :
    ∃ b, s.managed = some b ∧ b.phase = .permitted ∧ s' = s.setBinding { b with phase := .admitting } := by
  obtain ⟨b, hb, h⟩ := bind_eq_ok.mp h
  split at h
  · cases h
  · next hchecked =>
    rw [not_or, not_not] at hchecked
    obtain ⟨-, -, h⟩ := bind_eq_ok.mp h
    cases h
    exact ⟨b, managed_of_binding hb, hchecked.1, rfl⟩

theorem markBodyEntry_ok (h : s.markBodyEntry = .ok s') :
    ∃ b, s.managed = some b ∧ b.phase = .admitting ∧ s' = s.setBinding { b with phase := .body, started := true } := by
  obtain ⟨b, hb, h⟩ := bind_eq_ok.mp h
  split at h
  · cases h
  · next hchecked =>
    cases h
    exact ⟨b, managed_of_binding hb, not_not.mp hchecked, rfl⟩

theorem takeInjected_ok {exception : Option ObjId} {ref : ExceptionRef} (h : s.takeInjected exception = .ok (ref, s')) :
    ∃ b, s.managed = some b ∧ b.phase = .body ∧ b.pendingException = some ref ∧
      s' = s.setBinding { b with pendingException := none } := by
  obtain ⟨b, hb, h⟩ := bind_eq_ok.mp h
  split at h
  · next ref' href =>
    split at h
    · cases h
    · next hchecked =>
      rw [not_or, not_or, not_not, not_not] at hchecked
      cases h
      exact ⟨b, managed_of_binding hb, hchecked.2.1, href, rfl⟩
  · cases h

theorem strictResumeSnapshot_ok (h : s.strictResumeSnapshot = .ok ()) : s.terminal = false := by
  unfold strictResumeSnapshot at h
  split at h
  · cases h
  · next hchecked =>
    rw [not_or] at hchecked
    exact Bool.eq_false_iff.mpr hchecked.1

end

end PreservedState

end Soac.Generator
