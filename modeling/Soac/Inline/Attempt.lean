import Soac.Inline.Rewrite

/-!
# A rejected inlining

`try_build_typed_direct_call_inline_rewrite_for_candidate` with its exits: what it returns and what it leaves of the caller
when it rejects a candidate. The layout is put back at every exit. The caller's constants are put back only where the
arguments of a plan cannot be bound; a plan without a callee, or with a callee that cannot be copied, leaves what was copied
so far.
-/

namespace Soac

open RemapM

inductive TypedInlineBlockRewrite where
  | unchanged (block : Block InstrTyped)
  | rewritten (blocks : List (Block InstrTyped))

/-- What an attempt returns, with the caller's storage layout and its module's constants after it. -/
structure TypedInlineAttempt where
  rewrite : TypedInlineBlockRewrite
  stackSlots : List String
  callerConstants : Option (List ConstantExpr)

/-- What the builder of a single block asks of the block. -/
def singleBlockInlinable (callee : CodegenFunction InstrTyped) : Bool :=
  match callee.blocks with
  | [b] => b.params.isEmpty && b.excEdge.isNone && match b.term with
    | .ret _ => true
    | _ => false
  | _ => true

/-- What the builders do before they copy the first instruction. -/
def prepareTypedInlineFragment (st : TypedInlineState) (callee : CodegenFunction InstrTyped)
    (calleeConstants : Option (List ConstantExpr)) (context : InlineHandledContext)
    (bindings : List (LocalLocation × InstrTyped)) :
    Except InlineUnsupportedReason (List (LocalLocation × InlineLocal) × CodegenFunction InstrTyped × ConstantScope) := do
  require (context.canInline callee.toBlockPyFunction) .unrepresentedHandledActivation
  checkTypedInlineCallee callee bindings
  require (singleBlockInlinable callee) .nonReturnTerm
  let (locals, caller) ← st.caller.allocateInlineLocals "typed_inline" (fun x => (bindings.lookup x).isSome)
    (List.range callee.stackSlots.length)
  let scope ← typedInlineConstantScope st.callerConstants calleeConstants
  return (locals, caller, scope)

variable (m : TypedInlineModule)

/-- The loop over the callee's blocks. -/
def copyTypedCallee (callee : CodegenFunction InstrTyped) (continuation : BlockLabel)
    (bindings : List (LocalLocation × InstrTyped)) (returnTarget : ResolvedName)
    (locals : List (LocalLocation × InlineLocal)) (caller : CodegenFunction InstrTyped) :
    RemapM (List (Block InstrTyped)) :=
  mapList (typedDialect.remapBlock (typedRemapEnv m callee locals bindings)
    (freshLabelMap caller callee.toBlockPyFunction) returnTarget continuation) callee.blocks

section

open Fallible

variable {m : TypedInlineModule} {st : TypedInlineState} {callee : CodegenFunction InstrTyped}
  {calleeConstants : Option (List ConstantExpr)} {context : InlineHandledContext} {continuation : BlockLabel}
  {bindings : List (LocalLocation × InstrTyped)} {returnTarget : ResolvedName}
  {locals : List (LocalLocation × InlineLocal)} {caller : CodegenFunction InstrTyped} {scope : ConstantScope}

theorem require_eq_ok {condition : Bool} {reason : InlineUnsupportedReason} {u : Unit} :
    require condition reason = .ok u ↔ condition := by
  cases condition <;> simp [require]

/-- A list of one element is copied as the element is. -/
theorem RemapM.run_andThen_singleton {α : Type} (x : RemapM α) (s : RemapState) :
    (x.andThen fun a => (pure []).andThen fun as => pure (a :: as)) s = (x s).map fun r => ([r.1], r.2) := by
  simp only [run, andThen, pure]
  generalize x.effect s = p
  obtain ⟨e, s₁⟩ := p
  cases e <;> rfl

section

variable (h : prepareTypedInlineFragment st callee calleeConstants context bindings = .ok (locals, caller, scope))
include h

theorem prepareTypedInlineFragment_eq_ok :
    context.canInline callee.toBlockPyFunction ∧ checkTypedInlineCallee callee bindings = .ok () ∧
      singleBlockInlinable callee ∧
      st.caller.allocateInlineLocals "typed_inline" (fun x => (bindings.lookup x).isSome)
        (List.range callee.stackSlots.length) = .ok (locals, caller) ∧
      typedInlineConstantScope st.callerConstants calleeConstants = .ok scope := by
  obtain ⟨_, hinline, h⟩ := bind_eq_ok.mp h
  obtain ⟨_, hcheck, h⟩ := bind_eq_ok.mp h
  obtain ⟨_, hsingle, h⟩ := bind_eq_ok.mp h
  obtain ⟨⟨locals', caller'⟩, hlocals, h⟩ := bind_eq_ok.mp h
  obtain ⟨scope', hscope, h⟩ := bind_eq_ok.mp h
  cases h
  exact ⟨require_eq_ok.mp hinline, hcheck, require_eq_ok.mp hsingle, hlocals, hscope⟩

/-- Both builders copy the callee's blocks. -/
theorem buildFragment_of_prepared :
    buildTypedDirectCallInlineFragment m st callee calleeConstants context continuation bindings returnTarget =
      (copyTypedCallee m callee continuation bindings returnTarget locals caller
        { constants := scope, nextInstrIndex := st.nextInstrIndex }).map fun r =>
          (r.1.map context.composeCallee, ⟨(caller.nextBlockNames callee.blocks.length).2,
            r.2.constants.callerConstants st.callerConstants, r.2.nextInstrIndex⟩) := by
  obtain ⟨hinline, hcheck, hcond, hlocals, hscope⟩ := prepareTypedInlineFragment_eq_ok h
  rw [buildTypedDirectCallInlineFragment, require_eq_ok (u := ()).mpr hinline, ok_bind]
  dsimp only
  by_cases hone : callee.blocks.length = 1
  · obtain ⟨b, hb⟩ := List.length_eq_one_iff.mp hone
    rw [if_pos hone]
    simp only [singleBlockInlinable, hb, Bool.and_eq_true] at hcond
    obtain ⟨⟨hparams, hexc⟩, hterm⟩ := hcond
    obtain ⟨value, hvalue⟩ : ∃ value, b.term = .ret value := by
      cases ht : b.term with
      | ret value => exact ⟨value, rfl⟩
      | _ =>
        rw [ht] at hterm
        cases hterm
    unfold buildSingleBlockTypedInlineFragment
    rw [hcheck]
    simp only [hb, hparams, hexc, hvalue, require, if_true, ok_bind, hlocals, hscope, copyTypedCallee, mapList,
      List.length_singleton]
    rw [run_andThen_singleton]
    generalize run _ _ = r
    cases r <;> rfl
  · rw [if_neg hone]
    unfold buildMultiBlockTypedInlineFragment
    rw [hcheck, ok_bind, hlocals, ok_bind]
    dsimp only
    rw [hscope, ok_bind, copyTypedCallee]
    generalize run _ _ = r
    cases r <;> rfl

end

/-- A fragment that is built was prepared. -/
theorem prepared_of_buildFragment {r : List (Block InstrTyped) × TypedInlineState}
    (h : buildTypedDirectCallInlineFragment m st callee calleeConstants context continuation bindings returnTarget = .ok r) :
    ∃ p, prepareTypedInlineFragment st callee calleeConstants context bindings = .ok p := by
  obtain ⟨_, hinline, h⟩ := bind_eq_ok.mp h
  obtain ⟨_, hbuild, _⟩ := bind_eq_ok.mp h
  suffices ∃ u p scope, checkTypedInlineCallee callee bindings = .ok u ∧ singleBlockInlinable callee ∧
      st.caller.allocateInlineLocals "typed_inline" (fun x => (bindings.lookup x).isSome)
        (List.range callee.stackSlots.length) = .ok p ∧
      typedInlineConstantScope st.callerConstants calleeConstants = .ok scope by
    obtain ⟨_, ⟨locals, caller⟩, scope, hcheck, hsingle, hlocals, hscope⟩ := this
    refine ⟨(locals, caller, scope), ?_⟩
    rw [prepareTypedInlineFragment, hinline, ok_bind, hcheck, ok_bind, require_eq_ok (u := ()).mpr hsingle, ok_bind, hlocals,
      ok_bind]
    dsimp only
    rw [hscope]
    rfl
  split at hbuild
  · obtain ⟨u, hcheck, hbuild⟩ := bind_eq_ok.mp hbuild
    split at hbuild
    · rename_i b hb
      obtain ⟨_, hparams, hbuild⟩ := bind_eq_ok.mp hbuild
      obtain ⟨_, hexc, hbuild⟩ := bind_eq_ok.mp hbuild
      split at hbuild
      · rename_i value hterm
        obtain ⟨p, hlocals, hbuild⟩ := bind_eq_ok.mp hbuild
        obtain ⟨scope, hscope, _⟩ := bind_eq_ok.mp hbuild
        refine ⟨u, p, scope, hcheck, ?_, hlocals, hscope⟩
        simp [singleBlockInlinable, hb, hterm, require_eq_ok.mp hparams, require_eq_ok.mp hexc]
      · cases hbuild
    · cases hbuild
  · rename_i hone
    obtain ⟨u, hcheck, hbuild⟩ := bind_eq_ok.mp hbuild
    obtain ⟨p, hlocals, hbuild⟩ := bind_eq_ok.mp hbuild
    obtain ⟨scope, hscope, _⟩ := bind_eq_ok.mp hbuild
    refine ⟨u, p, scope, hcheck, ?_, hlocals, hscope⟩
    unfold singleBlockInlinable
    split
    · rename_i hb
      exact absurd (by rw [hb]; rfl) hone
    · rfl

end

/-- The caller's constants after a fragment has been built or given up. -/
def constantsAfterFragment (st : TypedInlineState) (callee : CodegenFunction InstrTyped)
    (calleeConstants : Option (List ConstantExpr)) (context : InlineHandledContext) (continuation : BlockLabel)
    (bindings : List (LocalLocation × InstrTyped)) (returnTarget : ResolvedName) : Option (List ConstantExpr) :=
  match prepareTypedInlineFragment st callee calleeConstants context bindings with
  | .error _ => st.callerConstants
  | .ok (locals, caller, scope) =>
    ((copyTypedCallee m callee continuation bindings returnTarget locals caller).effect
      { constants := scope, nextInstrIndex := st.nextInstrIndex }).2.constants.callerConstants st.callerConstants

/-- The loop over the plans. Where a plan is rejected, the constants that are left; nothing where an expectation fails. -/
def attemptFragments (m : TypedInlineModule) (context : InlineHandledContext) (temps : TypedInlineTemps)
    (cleanup : BlockLabel) (original : Option (List ConstantExpr)) :
    List TypedInlineDirectCallPlan → TypedInlineState → Option (Except (Option (List ConstantExpr)) Unit)
  | [], _ => some (.ok ())
  | plan :: plans, st =>
    match typedInlineCallee m plan.target with
    -- only the layout is put back
    | none => some (.error st.callerConstants)
    | some (callee, constants) =>
      match typedInlineProvidedValues callee.toCodegenFunction temps with
      | .error _ => none
      | .ok values =>
        match bindTypedDirectCallInlineValues callee.toCodegenFunction plan.argPlan values with
        | .error _ => some (.error original)
        | .ok bindings =>
          match buildTypedDirectCallInlineFragment m st callee.toCodegenFunction constants context cleanup bindings
              temps.returnTarget with
          -- only the layout is put back
          | .error _ => some (.error (constantsAfterFragment m st callee.toCodegenFunction constants context cleanup
              bindings temps.returnTarget))
          | .ok (_, st) => attemptFragments m context temps cleanup original plans st

/-- `try_build_typed_direct_call_inline_rewrite_for_candidate`, whatever it returns. -/
def attemptTypedInline (st : TypedInlineState) (block : Block InstrTyped)
    (candidate : TypedInlineStoreCandidate) : Option TypedInlineAttempt :=
  let context := InlineHandledContext.forCallSite block
  let rejected (constants : Option (List ConstantExpr)) : TypedInlineAttempt :=
    ⟨.unchanged block, st.caller.stackSlots, constants⟩
  match checkTypedInlineCandidate m context candidate, allocateTypedInlineTemps m candidate st.caller with
  | .ok _, .ok (temps, caller) =>
    let (labels, nextBlockId) := candidate.labels caller.nextBlockId
    match splitAtCandidate block candidate temps.returnTarget, typedInlineEntryTerm candidate labels temps,
        typedInlineGuards context block.excEdge candidate.call temps labels.generic labels.guards
          (candidate.inlinePlans.zip labels.hot).tail with
    | .ok _, .ok _, .ok _ =>
      match attemptFragments m context temps labels.cleanup st.callerConstants candidate.inlinePlans
          { st with caller := { caller with nextBlockId } } with
      | some (.error constants) => some (rejected constants)
      | some (.ok _) =>
        match tryBuildTypedDirectCallInlineRewriteForCandidate m st block candidate with
        | .ok (blocks, st') => some ⟨.rewritten blocks, st'.caller.stackSlots, st'.callerConstants⟩
        | .error _ => none
      | none => none
    | _, _, _ => none
  | _, _ => some (rejected st.callerConstants)

end Soac
