import Soac.Generator.Admission

/-!
# Managed generators admit one body at a time

Every move of the machine is one of the effects of `Admission`, so the invariant holds in every state of every run,
whatever Python code calls from inside a step, a body or a finalizer. A step that was admitted leaves the binding idle, or
finds it taken out; a step that is refused, because another one is active, leaves it as that one has it.
-/

namespace Soac.Generator

open PreservedState List

/-! ## What a state comes to -/

/-- The part of a frame in the protocol. -/
def Frame.mark : Frame → Option Mark
  | .step f =>
    match f.point with
    | .begin | .closingDelegate _ | .throwingDelegate _ | .normalizing _ => some (.step f.id .opened)
    | .admitting _ _ => some (.step f.id .holding)
    | .resuming | .resumed _ | .leaving _ => some (.step f.id .spent)
    | .settled _ => some (.settled f.id)
  | .resume f =>
    match f.point with
    | .admitted (some i) _ | .compiled (some i) | .activated (some i) => some (.admitting i)
    | .body (some i) => some (.body i)
    | .activated none | .body none => some .stray
    | _ => none
  | .clear .operands => none
  | .clear (.payload managed) => (managed.bind (·.pendingException)).map fun ref => .taken ref.step

/-- The frames that only a terminal state has: a clear that has not taken the binding yet, and a call that found none. -/
def Frame.closing : Frame → Bool
  | .step _ => false
  | .resume f =>
    match f.point with
    | .admitted none _ | .compiled none => true
    | _ => false
  | .clear .operands => true
  | .clear (.payload _) => false

variable (s : State)

def State.view : View where
  binding := s.preserved.managed.map fun b => (b.phase, b.pendingException.map (·.step))
  permit := s.permit
  terminal := s.preserved.terminal
  closing := s.frames.countP Frame.closing
  marks := s.frames.filterMap Frame.mark
  next := s.nextStep
  log := s.log

theorem view_binding {s : State} {b : Binding} {ph : Phase} (h : s.preserved.managed = some b) (hph : b.phase = ph) :
    s.view.binding = some (ph, b.pendingException.map (·.step)) := by
  rw [State.view, h, ← hph]
  rfl

theorem Effect.of_eq {v v' w : View} (he : Effect v w) (h : v' = w) : Effect v v' :=
  h ▸ he

@[simp]
theorem filterMap_returnResult (result : Except Raised ObjId) (frames : List Frame) :
    (returnResult result frames).filterMap Frame.mark = frames.filterMap Frame.mark := by
  unfold returnResult
  split
  · next f below =>
    cases hp : f.point <;> simp [StepFrame.at, Frame.mark, hp]
  · rfl

@[simp]
theorem countP_returnResult (result : Except Raised ObjId) (frames : List Frame) :
    (returnResult result frames).countP Frame.closing = frames.countP Frame.closing := by
  unfold returnResult
  split
  · next f below =>
    cases hp : f.point <;> simp [StepFrame.at, Frame.closing]
  · rfl

section

variable {s s' : State} {below : List Frame}

theorem marks_of_frames {g : Frame} {m : Mark} (hs : s.frames = g :: below) (hm : g.mark = some m) :
    s.view.marks = m :: below.filterMap Frame.mark := by
  rw [State.view, hs, filterMap_cons_some hm]

/-! ## Steps -/

section

variable {f : StepFrame} {m : Mark}

section

variable (hs : s.frames = .step f :: below)
include hs

/-- A step that goes on changes its own mark only. -/
theorem view_stepAt {point : StepPoint} (hm : (f.at point).mark = some m) :
    (s.on (f.at point :: below)).view = { s.view with marks := m :: below.filterMap Frame.mark } := by
  have hclosing : (f.at point :: below).countP Frame.closing = s.frames.countP Frame.closing := by
    rw [hs, countP_cons]
    rfl
  rw [State.view, State.view, State.on, hclosing, filterMap_cons_some hm]

/-- A step that goes on with the same mark. -/
theorem stepAt_quiet {point : StepPoint} (hf : Frame.mark (.step f) = some m) (hm : (f.at point).mark = some m) :
    Effect s.view (s.on (f.at point :: below)).view := by
  rw [view_stepAt hs hm, ← marks_of_frames hs hf]
  exact .quiet _

/-- A step that has not issued a permit ends without one. -/
theorem leaving_effect (hf : Frame.mark (.step f) = some (.step f.id .opened))
    (outcome : StepOutcome) : Effect s.view (s.on (f.at (.leaving outcome) :: below)).view := by
  rw [view_stepAt hs rfl]
  exact .giveUp (marks_of_frames hs hf)

theorem acquire_effect (hf : Frame.mark (.step f) = some (.step f.id .opened))
    (exception : ObjId) (delivery : GeneratorResumeDelivery) :
    Effect s.view (acquire s f below exception delivery).view := by
  refine (Effect.acquire (marks_of_frames hs hf)).of_eq ?_
  exact view_stepAt (s := s.record (.acquired f.id)) hs rfl

/-- A step that cannot issue its permit gives up the exception it holds. -/
theorem refused_effect {exception : Option ObjId}
    (hf : Frame.mark (.step f) = some (.step f.id (if exception.isSome then .holding else .opened)))
    (outcome : StepOutcome) :
    Effect s.view ((s.releasePending (exception.map fun e => ⟨e, f.id⟩)).on (f.at (.leaving outcome) :: below)).view := by
  cases exception with
  | none => exact leaving_effect hs hf outcome
  | some exception =>
    refine (Effect.discard (marks_of_frames hs hf)).of_eq ?_
    exact view_stepAt (s := s.record (.released f.id)) hs rfl

theorem runBody_effect (exception : Option ObjId)
    (hf : Frame.mark (.step f) = some (.step f.id (if exception.isSome then .holding else .opened)))
    (sendValue : ObjId) (delivery : GeneratorResumeDelivery) :
    Effect s.view (runBody s f below sendValue (exception.map fun e => ⟨e, f.id⟩) delivery).view := by
  unfold runBody
  split
  · exact refused_effect hs hf _
  · next b hb =>
    split
    · exact refused_effect hs hf _
    · next hphase =>
      rw [not_or, not_not, not_not] at hphase
      have hbinding : s.view.binding = some (.protocol, none) := by
        rw [view_binding (managed_of_binding hb) hphase.1, hphase.2]
        rfl
      cases exception with
      | none =>
        refine (Effect.permit (marks_of_frames hs hf) hbinding).of_eq ?_
        simp [State.view, State.record, PreservedState.setBinding, StepFrame.at, Frame.closing, hs]
        rfl
      | some exception =>
        refine (Effect.permitHolding (marks_of_frames hs hf) hbinding).of_eq ?_
        simp [State.view, State.record, PreservedState.setBinding, StepFrame.at, Frame.closing, hs]
        rfl

end

theorem view_dropProtocolGuard (s : State) :
    s.dropProtocolGuard.view = { s.view with
      binding := s.view.binding.map fun b => (b.1.settled, none)
      log := s.view.log ++ s.view.pending.toList.map .released } := by
  unfold State.dropProtocolGuard PreservedState.dropProtocolGuard
  cases hb : s.preserved.managed with
  | none => simp [State.view, State.releasePending, View.pending, hb]
  | some b =>
    have hsettled : b.phase ≠ .retired → b.phase.settled = .idle := by
      intro hphase
      cases hp : b.phase <;> first | rfl | exact absurd hp hphase
    dsimp only
    split
    · next hphase =>
      cases hp : b.pendingException <;>
        simp [State.view, State.releasePending, State.record, PreservedState.setBinding, View.pending, Phase.settled, *]
    · next hphase =>
      cases hp : b.pendingException <;>
        simp [State.view, State.releasePending, State.record, PreservedState.setBinding, View.pending, *]

theorem frames_dropProtocolGuard (s : State) : s.dropProtocolGuard.frames = s.frames := by
  unfold State.dropProtocolGuard State.releasePending
  split <;> rfl

variable (hs : s.frames = .step f :: below)
include hs

theorem settle_effect (hf : Frame.mark (.step f) = some (.step f.id .spent))
    (outcome : StepOutcome) : Effect s.view (s.dropProtocolGuard.on (f.at (.settled outcome) :: below)).view := by
  refine (Effect.settle (marks_of_frames hs hf)).of_eq ?_
  rw [view_stepAt ((frames_dropProtocolGuard s).trans hs) rfl, view_dropProtocolGuard]

theorem beginThrow_effect (hf : Frame.mark (.step f) = some (.step f.id .opened))
    (delegate : Delegate) (genexit : Bool) : Effect s.view (beginThrow s f below delegate genexit).view := by
  unfold beginThrow
  split
  · exact leaving_effect hs hf _
  · exact leaving_effect hs hf _
  · refine stepAt_quiet hs hf ?_
    split
    · rfl
    · split <;> rfl

theorem throwDelegate_effect
    (hf : Frame.mark (.step f) = some (.step f.id .opened)) (delivery : GeneratorResumeDelivery) (thrown : Thrown) :
    Effect s.view (throwDelegate s f below delivery thrown).view := by
  cases thrown with
  | failed exception | yielded value | invalid => exact leaving_effect hs hf _
  | raised exception => exact acquire_effect hs hf _ _
  | unhandled => exact stepAt_quiet hs hf rfl

/-- Whatever a step in progress does next is one of the effects. -/
theorem stepNext_effect {answer : Answer} (h : f.next s below answer = some s') : Effect s.view s'.view := by
  rcases f with ⟨id, generator, input, started, function, noDefault, point⟩
  unfold StepFrame.next at h
  dsimp only at h
  split at h
  · split at h
    · cases h
      exact runBody_effect hs none rfl _ _
    · split at h
      · cases h
        exact stepAt_quiet hs rfl rfl
      · split at h
        · cases h
          exact leaving_effect hs rfl _
        · cases h
  · split at h
    · cases h
      exact beginThrow_effect hs rfl _ _
    · cases h
  · cases h
    exact acquire_effect hs rfl _ _
  · cases h
    exact stepAt_quiet hs rfl rfl
  · cases h
    exact throwDelegate_effect hs rfl _ _
  · split at h
    · split at h
      · cases h
        exact acquire_effect hs rfl _ _
      · cases h
    · cases h
  · split at h
    · cases h
    · split at h
      · cases h
        exact leaving_effect hs rfl _
      · cases h
        exact leaving_effect hs rfl _
      · cases h
        exact acquire_effect hs rfl _ _
  · next exception _ =>
    cases h
    exact runBody_effect hs (some exception) rfl _ _
  · cases h
    exact stepAt_quiet hs rfl rfl
  · cases h
    exact settle_effect hs rfl _
  · cases h
    refine (Effect.finish (marks_of_frames hs rfl)).of_eq ?_
    rw [State.view, State.view, hs, countP_cons]
    rfl
  · cases h

end

/-! ## Resume helpers -/

section

variable {f : ResumeFrame} {g : Frame}

/-- Only the topmost frame makes a difference. -/
theorem view_of_frames (hs : s.frames = g :: below) : s.view = { s.view with
      marks := g.mark.toList ++ below.filterMap Frame.mark
      closing := below.countP Frame.closing + if g.closing then 1 else 0 } := by
  rw [State.view, hs, countP_cons]
  cases hm : g.mark with
  | none => rw [filterMap_cons_none hm]; rfl
  | some m => rw [filterMap_cons_some hm]; rfl

theorem view_on_cons (s : State) (g : Frame) (below : List Frame) :
    (s.on (g :: below)).view = { s.view with
      marks := g.mark.toList ++ below.filterMap Frame.mark
      closing := below.countP Frame.closing + if g.closing then 1 else 0 } :=
  view_of_frames (s := s.on (g :: below)) rfl

theorem view_return (s : State) (result : Except Raised ObjId) (below : List Frame) :
    (s.on (returnResult result below)).view = { s.view with
      marks := below.filterMap Frame.mark, closing := below.countP Frame.closing } := by
  rw [State.view, State.on, filterMap_returnResult, countP_returnResult]
  rfl

/-- A call that takes no part in the protocol returns. -/
theorem return_quiet (hs : s.frames = g :: below) (hm : g.mark = none) (hc : g.closing = false)
    (result : Except Raised ObjId) : Effect s.view (s.on (returnResult result below)).view := by
  rw [view_return, view_of_frames hs, hm, hc]
  exact .quiet _

/-- A call that has not reached the body returns. -/
theorem return_effect (hs : s.frames = .resume f :: below) (permit : Option Nat)
    (hm : Frame.mark (.resume f) = permit.map .admitting) (hc : Frame.closing (.resume f) = permit.isNone)
    (result : Except Raised ObjId) : Effect s.view (s.on (returnResult result below)).view := by
  have hview := view_of_frames hs
  rw [hm, hc] at hview
  rw [view_return]
  cases permit with
  | none =>
    have hclosing : s.view.closing = below.countP Frame.closing + 1 := by rw [hview]; rfl
    refine (Effect.endUnmanaged hclosing).of_eq ?_
    rw [hview]
    rfl
  | some i =>
    refine (Effect.abandon (marks_of_frames hs hm)).of_eq ?_
    rw [hview]
    rfl

theorem frameAt_quiet {g' : Frame} (hs : s.frames = g :: below) (hm : g'.mark = g.mark) (hc : g'.closing = g.closing) :
    Effect s.view (s.on (g' :: below)).view := by
  rw [view_on_cons, view_of_frames hs, hm, hc]
  exact .quiet _

theorem view_setBinding (s : State) (b : Binding) :
    State.view { s with preserved := s.preserved.setBinding b } =
      { s.view with binding := some (b.phase, b.pendingException.map (·.step)) } :=
  rfl

theorem consume_effect (hs : s.frames = .resume f :: below) (hp : f.point = .start) (read : Except Raised Metadata)
    (live : Live) : Effect s.view (f.consume s below read live).view := by
  rcases f with ⟨asyncGenerator, function, generator, sendValue, resumeExc, point⟩
  obtain rfl : point = .start := hp
  unfold ResumeFrame.consume
  split
  · exact return_quiet hs rfl rfl _
  · split
    · next hb =>
      have hbinding : s.view.binding = none := by rw [State.view, hb]; rfl
      refine (Effect.startUnmanaged hbinding).of_eq ?_
      rw [view_on_cons, view_of_frames hs]
      rfl
    · split
      · exact return_quiet hs rfl rfl _
      · next preserved hok =>
        obtain ⟨b, hb, hphase, rfl⟩ := consumeResumePermit_ok hok
        refine (Effect.consume (view_binding hb hphase)).of_eq ?_
        rw [view_of_frames hs]
        rfl

theorem enter_effect (hs : s.frames = .resume f :: below) {permit : Option Nat} (hp : f.point = .activated permit) :
    Effect s.view (f.enter s below permit).view := by
  rcases f with ⟨asyncGenerator, function, generator, sendValue, resumeExc, point⟩
  obtain rfl : point = .activated permit := hp
  unfold ResumeFrame.enter
  cases permit with
  | none => exact .stray (marks_of_frames hs rfl)
  | some i =>
    dsimp only
    split
    · exact return_effect hs (some i) rfl rfl _
    · next preserved hok =>
      obtain ⟨b, hb, hphase, rfl⟩ := markBodyEntry_ok hok
      refine (Effect.enter (marks_of_frames hs rfl) (view_binding hb hphase)).of_eq ?_
      rw [view_of_frames hs]
      rfl

theorem view_finishBodyResult (s : State) (result : Except Raised ObjId) :
    State.view { s with preserved := (s.preserved.finishBodyResult result).1 } = s.view := by
  unfold finishBodyResult
  split
  · rfl
  · next b hb =>
    split
    · rfl
    · rw [view_setBinding, ← view_binding hb rfl]

/-- So is what a resumption does -/
theorem resumeNext_effect (hs : s.frames = .resume f :: below) {answer : Answer} (h : f.next s below answer = some s') :
    Effect s.view s'.view := by
  rcases f with ⟨asyncGenerator, function, generator, sendValue, resumeExc, point⟩
  unfold ResumeFrame.next at h
  dsimp only at h
  split at h
  · cases h
    exact consume_effect hs rfl _ _
  · next permit metadata compiled =>
    have hreturn := return_effect hs permit (by cases permit <;> rfl) (by cases permit <;> rfl)
    split at h
    · cases h
      exact hreturn _
    · cases h
      exact hreturn _
    · cases h
      exact frameAt_quiet hs (by cases permit <;> rfl) (by cases permit <;> rfl)
  · next permit metadata =>
    have hreturn := return_effect hs permit (by cases permit <;> rfl) (by cases permit <;> rfl)
    split at h
    · cases h
      exact hreturn _
    · cases h
      exact hreturn _
    · next hsnapshot =>
      cases h
      cases permit with
      | none =>
        refine Effect.activateUnmanaged ?_ (strictResumeSnapshot_ok hsnapshot)
        rw [view_of_frames hs]
        exact Nat.succ_pos _
      | some i => exact frameAt_quiet hs rfl rfl
  · next permit e =>
    cases h
    cases permit with
    | none => exact .stray (marks_of_frames hs rfl)
    | some i => exact return_effect hs (some i) rfl rfl _
  · cases h
    exact enter_effect hs rfl
  · next permit result =>
    split at h
    · exact .stray (marks_of_frames hs rfl)
    · next i =>
      cases h
      refine (Effect.exit (marks_of_frames hs rfl)).of_eq ?_
      refine (view_on_cons { s with preserved := (s.preserved.finishBodyResult result).1 } _ below).trans ?_
      rw [view_finishBodyResult, view_of_frames hs]
      rfl
  · next result =>
    cases h
    unfold finishStrictResume
    split
    · refine (Effect.terminate s.view).of_eq ?_
      rw [view_of_frames hs]
      rfl
    · exact frameAt_quiet hs rfl rfl
  · cases h
    exact return_quiet hs rfl rfl _
  · cases h

end

/-! ## Clearing -/

theorem startClear_effect (s : State) : Effect s.view (startClear s).view := by
  unfold startClear
  split
  · exact .quiet _
  · refine (Effect.startClear s.view).of_eq ?_
    rw [State.view, countP_cons]
    rfl

/-- and what clearing does. -/
theorem clearNext_effect {point : ClearPoint} (hs : s.frames = .clear point :: below) {answer : Answer}
    (h : point.next s below answer = some s') : Effect s.view s'.view := by
  have hview := view_of_frames hs
  unfold ClearPoint.next at h
  split at h
  · split at h
    · cases h
      have hclosing : s.view.closing = below.countP Frame.closing + 1 := by rw [hview]; rfl
      refine (Effect.take hclosing).of_eq ?_
      have hmarks : s.view.marks = below.filterMap Frame.mark := by rw [hview]; rfl
      rw [hmarks]
      cases hb : s.preserved.managed with
      | none =>
        simp [State.view, unpublish, View.pending, Frame.closing, hb]
        rfl
      | some b =>
        cases hp : b.pendingException <;>
          simp [State.view, unpublish, View.pending, Frame.mark, Frame.closing, hb, hp]
    · next managed =>
      cases h
      cases hp : managed.bind (·.pendingException) with
      | none =>
        refine (Effect.quiet s.view).of_eq ?_
        rw [hview]
        simp [State.view, State.on, State.releasePending, Frame.mark, Frame.closing, hp]
      | some ref =>
        refine (Effect.dropTaken (marks_of_frames hs (congrArg (Option.map _) hp))).of_eq ?_
        rw [hview]
        rfl
  · cases h

/-! ## Calls -/

/-- A step is opened only while the generator is idle. -/
theorem stepImpl_ok {generator : ObjId} {input : Input} {live : Live} (h : stepImpl s generator input live = .ok s') :
    ∃ b f, s.preserved.managed = some b ∧ b.phase = .idle ∧ f.id = s.nextStep ∧ f.point = .begin ∧
      s' = { s with
        preserved := s.preserved.setBinding { b with phase := .protocol }
        nextStep := s.nextStep + 1
        frames := .step f :: s.frames } := by
  obtain ⟨b, hb, h⟩ := Fallible.bind_eq_ok.mp h
  obtain ⟨-, -, h⟩ := Fallible.bind_eq_ok.mp h
  split at h
  · cases h
  · next hchecked =>
    rw [not_or, not_not, not_not] at hchecked
    cases h
    exact ⟨b, _, managed_of_binding hb, hchecked.2, rfl, rfl, rfl⟩

theorem step_effect (s : State) (generator : ObjId) (input : Input) (live : Live) :
    Effect s.view (s.call (.step generator input live)).view := by
  unfold State.call
  dsimp only
  split
  · next s' hok =>
    obtain ⟨b, f, hb, hphase, hid, hpoint, rfl⟩ := stepImpl_ok hok
    refine (Effect.openStep (view_binding hb hphase)).of_eq ?_
    simp [State.view, setBinding, Frame.mark, Frame.closing, hid, hpoint]
  · exact .quiet _

theorem inject_effect (s : State) (exception : Option ObjId) (handled : Except Raised Unit) :
    Effect s.view (injectResumeException s exception handled).view := by
  unfold injectResumeException
  split
  · exact .quiet _
  · next ref preserved hok =>
    obtain ⟨b, hb, hphase, href, rfl⟩ := takeInjected_ok hok
    have hbinding := view_binding hb hphase
    rw [href] at hbinding
    split
    · refine (Effect.inject hbinding (.inl rfl)).of_eq ?_
      simp [State.view, State.record, setBinding, hphase]
    · refine (Effect.inject hbinding (.inr rfl)).of_eq ?_
      simp [State.view, State.record, setBinding, hphase]

theorem view_notifyTerminal (s : State) (mark : Except Raised Unit) (failure : ObjId) :
    State.view { s with preserved := s.preserved.notifyTerminal mark failure } = s.view := by
  unfold notifyTerminal
  split
  · next b _ hb _ =>
    split
    · rw [view_setBinding, ← view_binding hb rfl]
    · rfl
  · rfl

/-- And so is every call from outside. -/
theorem call_effect (s : State) (call : Call) : Effect s.view (s.call call).view := by
  cases call with
  | bind generator function sourceCode live =>
    unfold State.call
    dsimp only
    split
    · next preserved hok =>
      obtain ⟨b, hb, hphase, rfl⟩ := bind_ok hok
      have hbinding := view_binding hb hphase
      exact .bind hbinding
    · exact .quiet _
  | step generator input live => exact step_effect s generator input live
  | resume asyncGenerator function generator sendValue resumeExc =>
    refine (Effect.quiet s.view).of_eq ?_
    exact view_on_cons s _ s.frames
  | injectResumeException exception handled => exact inject_effect s exception handled
  | notifyTerminal mark failure => exact (Effect.quiet s.view).of_eq (view_notifyTerminal s mark failure)
  | retireTerminalProtocolRoots =>
    refine (Effect.terminate s.view).of_eq ?_
    cases hb : s.preserved.managed <;> simp [State.call, State.view, retireTerminalProtocolRoots, hb]
  | storeClosed => exact .quiet _
  | clear generator | abortManagedPreparation =>
    unfold State.call
    dsimp only
    split
    · split
      · exact startClear_effect s
      · exact .quiet _
    · exact .quiet _
  | clearCapsule => exact startClear_effect s

/-- Every move is one of the effects. -/
theorem move_effect {m : Move} (h : s.move m = some s') : Effect s.view s'.view := by
  cases m with
  | call call =>
    cases h
    exact call_effect s call
  | next answer =>
    unfold State.move State.next at h
    dsimp only at h
    split at h
    · cases h
    · next hs => exact stepNext_effect hs h
    · next hs => exact resumeNext_effect hs h
    · next hs => exact clearNext_effect hs h

end

/-! ## Runs -/

theorem new_inv (function : ObjId) (kind : FunctionKind) (noDefault sourceCode : ObjId) (yieldfromSlot : Nat) :
    (State.new function kind noDefault sourceCode yieldfromSlot).view.Inv := by
  refine ⟨none, [], rfl, ?_, nofun, nofun, ?_, fun i => ?_, fun i => ?_⟩
  · rintro (h | h)
    · cases h
    · cases h
  · rintro - ph p ⟨⟩
    exact ⟨.inl ⟨rfl, rfl⟩, rfl⟩
  · simp [State.view, State.new]
  · simp [State.view, State.new, View.held, activeHeld, View.pending, Binding.new]

/-- Every state of a run has the invariant. -/
theorem run_inv {s s' : State} {moves : List Move} (hs : s.view.Inv) (h : s.run moves = some s') : s'.view.Inv := by
  induction moves generalizing s with
  | nil =>
    cases h
    exact hs
  | cons m moves ih =>
    obtain ⟨t, hmove, hrun⟩ := Option.bind_eq_some_iff.mp h
    exact ih ((move_effect hmove).inv hs) hrun

theorem run_retired {s s' : State} {moves : List Move} (hs : s.view.Inv) (hb : s.preserved.managed = none)
    (h : s.run moves = some s') :
    s'.preserved.managed = none ∧ ∀ i, s'.log.count (.entered i) = s.log.count (.entered i) := by
  induction moves generalizing s with
  | nil =>
    cases h
    exact ⟨hb, fun _ => rfl⟩
  | cons m moves ih =>
    obtain ⟨t, hmove, hrun⟩ := Option.bind_eq_some_iff.mp h
    have heffect := move_effect hmove
    have hbinding : s.view.binding = none := by rw [State.view, hb]; rfl
    obtain ⟨ht, hcount⟩ := heffect.retired hs hbinding
    obtain ⟨hs', hcount'⟩ := ih (heffect.inv hs) (Option.map_eq_none_iff.mp ht) hrun
    exact ⟨hs', fun i => (hcount' i).trans (hcount i)⟩

/-! ## Admission -/

/-- The permit of the body that is running in a frame. -/
def Frame.body? : Frame → Option (Option Nat)
  | .resume f =>
    match f.point with
    | .body permit => some permit
    | _ => none
  | _ => none

/-- The step in a frame, if its guard has not been dropped. -/
def Frame.guarded? : Frame → Option Nat
  | .step f =>
    match f.point with
    | .settled _ => none
    | _ => some f.id
  | _ => none

/-- The steps that are active: admitted, and with a guard that has not been dropped. -/
def State.activeSteps : List Nat :=
  s.frames.filterMap Frame.guarded?

/-- No binding is left, or it is idle or retired, with no pending exception. -/
def PreservedState.Settled (p : PreservedState) : Prop :=
  ∀ b, p.managed = some b → (b.phase = .idle ∨ b.phase = .retired) ∧ b.pendingException = none

/-- A move that refuses a step. -/
def RefusesStep (m : Move) (s' : State) : Prop :=
  s.move m = some s' ∧ s'.frames = s.frames ∧ ∃ generator input live, m = .call (.step generator input live)

/-- A move with which a step that was admitted returns. -/
def ReturnsStep (m : Move) (s' : State) : Prop :=
  s.move m = some s' ∧ ∃ f outcome below, s.frames = .step f :: below ∧ f.point = .settled outcome ∧ m = .next .go

/-- What admission guarantees in a state. -/
structure State.Admission (s : State) : Prop where
  /-- A body runs under the permit that the active step issued. -/
  underPermit : ∀ f ∈ s.frames, ∀ permit, f.body? = some permit →
    ∃ i, permit = some i ∧ s.activeSteps = [i] ∧ s.log.count (.permitted i) = 1
  /-- A permit is consumed at most once, and a body entered at most once with it. -/
  permitOnce : ∀ i, s.log.count (.consumed i) ≤ s.log.count (.permitted i) ∧ s.log.count (.permitted i) ≤ 1 ∧
    s.log.count (.entered i) ≤ s.log.count (.consumed i)
  /-- No two bodies run at the same time. -/
  noOverlap : s.frames.countP (·.body?.isSome) ≤ 1
  /-- An exception is delivered or released, and only once. -/
  deliveredOnce : ∀ i, s.log.count (.delivered i) + s.log.count (.released i) ≤ s.log.count (.acquired i) ∧
    s.log.count (.acquired i) ≤ 1
  /-- The exception of a step that is no longer active has been delivered or released. -/
  delivered : ∀ i, i ∉ s.activeSteps →
    s.log.count (.acquired i) = s.log.count (.delivered i) + s.log.count (.released i)
  /-- A step that was admitted leaves the binding settled. -/
  returned : ∀ m s', ReturnsStep s m s' → s'.preserved.Settled
  /-- A step that is refused changes nothing. -/
  refused : ∀ m s', RefusesStep s m s' → s' = s
  /-- After the binding was taken out no body is entered. -/
  retired : s.preserved.managed = none → ∀ moves s', s.run moves = some s' →
    s'.preserved.managed = none ∧ ∀ i, s'.log.count (.entered i) = s.log.count (.entered i)

theorem guarded?_eq (f : Frame) : f.guarded? = f.mark.bind Mark.guarded := by
  cases f with
  | step f =>
    unfold Frame.guarded? Frame.mark
    dsimp only
    cases f.point <;> rfl
  | resume f =>
    unfold Frame.guarded? Frame.mark
    dsimp only
    split <;> rfl
  | clear point =>
    cases point with
    | operands => rfl
    | payload managed =>
      unfold Frame.guarded? Frame.mark
      dsimp only
      cases managed.bind (·.pendingException) <;> rfl

theorem activeSteps_eq : s.activeSteps = s.view.marks.filterMap Mark.guarded := by
  rw [State.view, filterMap_filterMap]
  exact filterMap_congr fun f _ => guarded?_eq f

theorem mark_of_body {f : Frame} {permit : Option Nat} (h : f.body? = some permit) :
    f.mark = some (match permit with
      | none => .stray
      | some i => .body i) := by
  cases f with
  | resume f =>
    unfold Frame.body? at h
    dsimp only at h
    split at h
    · next permit' hp =>
      cases h
      cases permit <;> rw [Frame.mark, hp]
    · cases h
  | step f | clear point => cases h

theorem isBody_of_body {f : Frame} (h : f.body?.isSome) : (f.mark.map Mark.isBody).getD false := by
  obtain ⟨permit, hp⟩ := Option.isSome_iff_exists.mp h
  rw [mark_of_body hp]
  cases permit <;> rfl

/-- The invariant gives what is asked of admission. -/
theorem admission_of_inv {s : State} (hs : s.view.Inv) : s.Admission := by
  obtain ⟨active, settled, h⟩ := hs
  have hactive : s.activeSteps = (active.map (·.step)).toList := by rw [activeSteps_eq, h.guarded_marks]
  refine ⟨?_, ?_, ?_, ?_, ?_, ?_, ?_, ?_⟩
  · intro f hf permit hbody
    have hmark := mark_of_body hbody
    have hmem := mem_filterMap.mpr ⟨f, hf, hmark⟩
    obtain ⟨a, rfl, hinner, hm⟩ := h.active_of_body_mem hmem (by cases permit <;> rfl)
    cases permit with
    | none => cases hm
    | some i =>
      cases hm
      refine ⟨a.step, rfl, hactive, (h.running a rfl).issued ?_⟩
      rw [hinner]
      exact nofun
  · intro i
    obtain ⟨hentered, hconsumed, hpermitted⟩ := h.permits i
    exact ⟨hconsumed, hpermitted, hentered⟩
  · refine Nat.le_trans ?_ h.countP_body_le
    rw [State.view, countP_filterMap]
    exact countP_mono_left fun f _ hbody => isBody_of_body hbody
  · intro i
    obtain ⟨hcount, hone⟩ := h.exceptions i
    change s.log.count _ = s.log.count _ + s.log.count _ + _ at hcount
    change s.log.count _ ≤ 1 at hone
    omega
  · intro i hi
    obtain ⟨hcount, -⟩ := h.exceptions i
    rw [h.held_eq_zero] at hcount
    · exact hcount
    · rintro a rfl rfl
      rw [hactive] at hi
      exact hi (mem_singleton.mpr rfl)
  · rintro m s' ⟨hmove, f, outcome, below, hframes, hpoint, rfl⟩
    have hmark : Frame.mark (.step f) = some (.settled f.id) := by rw [Frame.mark, hpoint]
    obtain ⟨rfl, rest, rfl, -⟩ := h.of_marks (marks_of_frames hframes hmark)
    have hs' : s' = s.on below := by
      rw [State.move, State.next, hframes] at hmove
      simp only [StepFrame.next, hpoint] at hmove
      exact (Option.some.inj hmove).symm
    subst hs'
    intro b hb
    obtain ⟨⟨-, hnil⟩ | hphase, hp⟩ := h.quiet rfl _ _ (view_binding (s := s) hb rfl)
    · cases hnil
    · exact ⟨hphase, Option.map_eq_none_iff.mp hp⟩
  · rintro m s' ⟨hmove, hframes, generator, input, live, rfl⟩
    rw [State.move, Option.some.injEq] at hmove
    subst hmove
    unfold State.call at hframes ⊢
    dsimp only at hframes ⊢
    split
    · next s' hok =>
      rw [hok] at hframes
      obtain ⟨b, f, -, -, -, -, rfl⟩ := stepImpl_ok hok
      exact absurd hframes (cons_ne_self _ _)
    · rfl
  · intro hb moves s' hrun
    exact run_retired ⟨active, settled, h⟩ hb hrun

/-- In every run of operations on a managed generator, however they are nested, bodies are admitted one at a time and by
the permit of the step that is active. -/
theorem managedGenerator_admission (function : ObjId) (kind : FunctionKind) (noDefault sourceCode : ObjId)
    (yieldfromSlot : Nat) (moves : List Move) (s : State)
    (h : (State.new function kind noDefault sourceCode yieldfromSlot).run moves = some s) : s.Admission :=
  admission_of_inv (run_inv (new_inv function kind noDefault sourceCode yieldfromSlot) h)

/-- A generator that is bound and sent a value, up to the entry into its body. -/
def bodyEntered : List Move :=
  [.call (.bind 7 1 3 .owner), .call (.step 7 { operation := .send, closeOnGenexit := false, arg := 5 } .owner), .next .go,
    .next (.metadata (.ok { loweredKind := .generator, bodyParams := 4 }) .owner), .next (.done (.ok ())),
    .next (.done (.ok ())), .next (.done (.ok ()))]

theorem managedGenerator_admission_entered :
    ∃ s, (State.new 1 .generator 2 3 0).run bodyEntered = some s ∧ s.activeSteps = [0] ∧ s.Admission :=
  ⟨_, rfl, rfl, managedGenerator_admission 1 .generator 2 3 0 bodyEntered _ rfl⟩

/-- A step that the body calls on its own generator is refused, and leaves the binding in the middle of the first one. -/
theorem managedGenerator_everyStep_false :
    ¬∀ (moves : List Move) (s s' : State) (m : Move), (State.new 1 .generator 2 3 0).run moves = some s →
      RefusesStep s m s' ∨ ReturnsStep s m s' → s'.preserved.Settled := by
  intro hall
  have hsettled := hall bodyEntered _ _
    (.call (.step 7 { operation := .send, closeOnGenexit := false, arg := 5 } .owner)) rfl
    (.inl ⟨rfl, rfl, 7, { operation := .send, closeOnGenexit := false, arg := 5 }, .owner, rfl⟩)
  obtain ⟨hphase | hphase, -⟩ := hsettled _ rfl
  · cases hphase
  · cases hphase

end Soac.Generator
