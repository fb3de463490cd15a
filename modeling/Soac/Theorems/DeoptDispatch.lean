import Soac.Interp.Deopt

/-!
# The deopt interpreter dispatches exceptions

An exception that is raised in a block goes along the exception edge of the block, and the parameters of the handler get
the arguments of the edge. The interpreter does so at every place where a block can raise but two: the index of a branch
table and the arguments of a jump leave the function at once. At the others it needs a frame that the edge can be taken
in: with bound arguments, and with handled exceptions that are still live if the handler is to select among them.
-/

namespace Soac.Interp

open Handled List Option

variable {I σ : Type}

/-- A function as `validate.rs` accepts it: every exception edge has a target, with one parameter for each argument. -/
structure InterpretedFunction (I : Type) extends BlockPyFunction I where
  labelsNodup : (blocks.map (·.label)).Nodup
  excTargets : ∀ b ∈ blocks, ∀ edge ∈ b.excEdge, ∃ t ∈ blocks, t.label = edge.target ∧ t.params.length = edge.args.length

instance : CoeOut (InterpretedFunction I) (BlockPyFunction I) := ⟨InterpretedFunction.toBlockPyFunction⟩

/-! ## Where a block raises -/

inductive RaiseSite where
  | instruction
  | returnValue
  | test
  | truthValue
  | branchIndex
  | branchValue
  | raised
  | jumpArgument
deriving DecidableEq, Repr

/-- A place where an exception has been raised: which part of which block, and the frame with the exception in its
indicator. -/
structure RaisedAt (I σ : Type) where
  site : RaiseSite
  block : Block I
  frame : Frame σ

section

variable (sem : Semantics I σ) (fn : BlockPyFunction I)

/-- The evaluation of an instruction raises, or goes on with its value. -/
def raisedIn (site : RaiseSite) (b : Block I) (e : I) (f : Frame σ)
    (next : ObjId → Frame σ → Option (RaisedAt I σ)) : Option (RaisedAt I σ) :=
  match sem.executeExpr e f with
  | .error _ => none
  | .ok (none, f) => some ⟨site, b, f⟩
  | .ok (some v, f) => next v f

/-- An argument of a jump raises. -/
def raisedInArgs (b : Block I) (edge : BlockEdge) (f : Frame σ) : Option (RaisedAt I σ) :=
  match edgeTarget fn edge f with
  | .error _ => none
  | .ok target =>
    match edgeArgs sem none f (target.params.zip edge.args) with
    | .ok (none, f) => some ⟨.jumpArgument, b, f⟩
    | _ => none

def raisedInTerm (b : Block I) (f : Frame σ) : Option (RaisedAt I σ) :=
  match b.term with
  | .ret value | .generatorReturn value => raisedIn sem .returnValue b value f fun _ _ => none
  | .jump edge => raisedInArgs sem fn b edge f
  | .ifTerm test _ _ => raisedIn sem .test b test f fun v f =>
    match sem.isTrue v f with
    | (none, f) => some ⟨.truthValue, b, f⟩
    | (some _, _) => none
  | .branchTable index _ _ => raisedIn sem .branchIndex b index f fun v f =>
    match sem.asLongLong v f with
    | (none, f) => some ⟨.branchValue, b, f⟩
    | (some _, _) => none
  | .raise none => some ⟨.raised, b, reraiseCurrent f⟩
  | .raise (some exc) => raisedIn sem .raised b exc f fun v f => some ⟨.raised, b, sem.setRaiseException v f⟩

/-- The exception that the next step of the run raises, if it raises one. -/
def raisedNext : Config I σ → Option (RaisedAt I σ)
  | .running (.body b (i :: _)) f => raisedIn sem .instruction b i f fun _ _ => none
  | .running (.term b) f => raisedInTerm sem fn b f
  | _ => none

/-! ## Dispatch -/

/-- The value an exception edge passes for an argument. -/
def argValue (raised : Raised) (locals : List (String × Option ObjId)) : BlockArg → Option ObjId
  | .name name => (locals.lookup name).join
  | .none => some pyNone
  | .currentException => some (sem.exceptionObject raised)
  | .abruptKind kind => some (sem.abruptKindTag kind)

/-- The locals once the parameters of the target hold the arguments of the edge. -/
def bindParams (raised : Raised) (target : Block I) (edge : BlockEdge) (locals : List (String × Option ObjId)) :
    List (String × Option ObjId) :=
  (explicitParams target.params edge.args).foldl
    (fun ls pa => replaceLocal pa.1.name (argValue sem raised locals pa.2) ls) locals

/-- The exception goes where the block sends it: to the target of its exception edge, with the arguments of the edge and
an empty indicator, or out of the function when the block has no such edge. -/
def Dispatched (r : RaisedAt I σ) (next : Config I σ) : Prop :=
  match r.block.excEdge with
  | none => next = .finished (.ret none) r.frame
  | some edge => ∃ raised target f, r.frame.world.thread.raised = some raised ∧ fn.block? edge.target = some target ∧
      next = .running (.head edge.target 0) f ∧ f.locals = bindParams sem raised target edge r.frame.locals ∧
      f.world.thread.raised = none

end

/-- The handled exceptions are live where the block selects among them. -/
def Frame.LiveFor (f : Frame σ) (b : Block I) : Prop :=
  f.hasState = true → b.handledException = .regions ∨ b.handledException = .unwind →
    f.world.state.active = true ∧ f.world.state.terminal = false

/-- A frame in which an exception edge can be taken: the parameters of the target are locals of the frame, the locals that
the edge passes are bound, and the handled exceptions are live where the target selects among them. -/
structure Frame.Receives (f : Frame σ) (edge : BlockEdge) (target : Block I) : Prop where
  params : ∀ p ∈ target.params, (f.getByName p.name).isSome
  args : ∀ name, BlockArg.name name ∈ edge.args → (f.getByName name).join.isSome
  live : f.LiveFor target

/-! ## Handled exceptions -/

variable {fn : BlockPyFunction I} {f : Frame σ} {b : Block I} {edge : BlockEdge} {target : Block I} {p : BlockParam}

theorem regionOperand_ok (incoming : List (String × Option ObjId)) (h : (f.getByName p.name).isSome) :
    ∃ region, regionOperand fn f incoming b p = .ok region := by
  obtain ⟨v, hv⟩ := isSome_iff_exists.mp h
  unfold regionOperand
  cases hi : incoming.lookup p.name with
  | none => exact ⟨_, by rw [hv, none_or]⟩
  | some v' => exact ⟨_, by rw [some_or]⟩

theorem mem_params_of_handled (h : p ∈ b.handledExceptionParams) : p ∈ b.params := by
  unfold Block.handledExceptionParams at h
  split at h
  · cases h
  · rcases mem_append.mp h with h | h
    · exact mem_reverse.mp (mem_filter.mp h).1
    · exact (mem_filter.mp h).1

variable {transition : HandledExceptionTransition} (finalizer : List (RefEvent ObjId) → Option ObjId) (w : World)

/-- Leaving scopes succeeds exactly in a live state, and keeps the indicator. -/
theorem select_leaves (regions : List HandledExceptionRegion) (ht : transition ≠ .enter) :
    ((w.select finalizer regions transition).1 = 0 ↔ w.state.active ∧ w.state.terminal = false) ∧
      ((w.select finalizer regions transition).1 = 0 →
        (w.select finalizer regions transition).2.thread.raised = w.thread.raised) := by
  by_cases hdead : (!w.state.active || w.state.terminal)
  · have hselect : w.select finalizer regions transition =
        (-1, w.stateError "handled-exception activation is no longer live") := by
      rw [World.select, if_pos hdead]
    have hfails : ¬(w.select finalizer regions transition).1 = 0 := by
      rw [hselect]
      exact fun h => absurd (show (-1 : Int) = 0 from h) (by decide)
    refine ⟨⟨fun h => absurd h hfails, fun h => ?_⟩, fun h => absurd h hfails⟩
    rw [h.1, h.2] at hdead
    cases hdead
  · have hlive : w.state.active ∧ w.state.terminal = false := by
      cases ha : w.state.active <;> cases hterm : w.state.terminal <;> simp_all
    have hselect : ∃ w', w.select finalizer regions transition = (0, w') ∧ w'.thread.raised = w.thread.raised := by
      rw [World.select, if_neg hdead]
      simp only [if_neg ht]
      exact ⟨_, rfl, by rw [World.finishSelect, if_neg (by decide)]; rfl⟩
    obtain ⟨w', hw, hraised⟩ := hselect
    rw [hw]
    exact ⟨⟨fun _ => hlive, fun _ => rfl⟩, fun _ => hraised⟩

theorem retireScopesAndDetach_raised (yielded : Bool) :
    (w.retireScopesAndDetach finalizer yielded).thread.raised = w.thread.raised := by
  unfold World.retireScopesAndDetach
  split
  · rfl
  · rfl

/-- What leaving scopes comes to: it keeps the locals, and succeeds exactly when the state is live, with the indicator
as it was. -/
structure Leaves (f : Frame σ) (live : Prop) (result : Bool × Frame σ) : Prop where
  locals : result.2.locals = f.locals
  reached : result.1 = true ↔ live
  raised : result.1 = true → result.2.world.thread.raised = f.world.thread.raised

variable (sem : Semantics I σ)

theorem selectRegions_leaves (f : Frame σ) (regions : List HandledExceptionRegion) (ht : transition ≠ .enter) :
    Leaves f (f.hasState → f.world.state.active ∧ f.world.state.terminal = false)
      (selectRegions sem f regions transition) := by
  obtain ⟨hstatus, hraised⟩ := select_leaves sem.finalizer f.world regions ht
  unfold selectRegions
  by_cases hs : f.hasState
  · rw [if_pos hs]
    refine ⟨rfl, ?_, fun h => hraised (beq_iff_eq.mp h)⟩
    rw [beq_iff_eq, hstatus]
    exact ⟨fun h _ => h, fun h => h hs⟩
  · rw [if_neg hs]
    exact ⟨rfl, ⟨fun _ h => absurd h hs, fun _ => rfl⟩, fun _ => rfl⟩

theorem transitionHandledState_leaves (fn : BlockPyFunction I)
    (incoming : List (String × Option ObjId)) (hp : ∀ p ∈ b.params, (f.getByName p.name).isSome) :
    ∃ result, transitionHandledState sem fn f b incoming false = .ok result ∧ Leaves f (f.LiveFor b) result := by
  obtain ⟨regions, hregions⟩ : ∃ regions, b.handledExceptionParams.mapM (regionOperand fn f incoming b) = .ok regions :=
    Fallible.exists_mapM_eq_ok fun p hp' => regionOperand_ok incoming (hp p (mem_params_of_handled hp'))
  unfold transitionHandledState Frame.LiveFor
  cases hb : b.handledException with
  | preserve => exact ⟨_, rfl, rfl, by simp, fun _ => rfl⟩
  | terminal =>
    refine ⟨_, rfl, rfl, by simp, fun _ => ?_⟩
    show (if f.hasState then f.world.retireScopesAndDetach sem.finalizer false else f.world).thread.raised = _
    split
    · exact retireScopesAndDetach_raised sem.finalizer f.world false
    · rfl
  | unwind | regions =>
    refine ⟨_, by simp only [hregions]; rfl, ?_⟩
    simpa using selectRegions_leaves sem f regions (by decide)

/-! ## Arguments -/

variable (raised : Raised)

/-- An argument of an exception edge has its value, or the local it names has none. -/
theorem edgeArg_cases (f : Frame σ) (arg : BlockArg) :
    (∃ v, argValue sem raised f.locals arg = some v ∧ edgeArg sem (some raised) f arg = .ok (some v, some raised, f)) ∨
      argValue sem raised f.locals arg = none ∧ ∀ v raised' f', edgeArg sem (some raised) f arg ≠ .ok (some v, raised', f') := by
  cases arg with
  | name name =>
    rcases hl : f.locals.lookup name with _ | _ | v
    · exact .inr ⟨by simp [argValue, hl], by simp [edgeArg, Frame.getByName, hl]⟩
    · exact .inr ⟨by simp [argValue, hl], by simp [edgeArg, Frame.getByName, hl]⟩
    · exact .inl ⟨v, by simp [argValue, hl], by simp [edgeArg, Frame.getByName, hl]⟩
  | none | currentException | abruptKind kind => exact .inl ⟨_, rfl, rfl⟩

theorem argValue_isSome_iff (f : Frame σ) (args : List BlockArg) :
    (∀ arg ∈ args, (argValue sem raised f.locals arg).isSome) ↔
      ∀ name, BlockArg.name name ∈ args → (f.getByName name).join.isSome := by
  constructor
  · intro h name hname
    exact h (.name name) hname
  · intro h arg harg
    cases arg with
    | name name => exact h name harg
    | none | currentException | abruptKind kind => rfl

variable {pairs : List (BlockParam × BlockArg)}

theorem edgeArgs_bound (f : Frame σ) (h : ∀ pa ∈ pairs, (argValue sem raised f.locals pa.2).isSome) :
    edgeArgs sem (some raised) f pairs =
      .ok (some (pairs.map fun pa => (pa.1.name, argValue sem raised f.locals pa.2)), f) := by
  induction pairs with
  | nil => rfl
  | cons pa pairs ih =>
    obtain ⟨p, arg⟩ := pa
    have harg := h (p, arg) mem_cons_self
    rcases edgeArg_cases sem raised f arg with ⟨v, hv, hedge⟩ | ⟨hnone, _⟩
    · rw [edgeArgs, hedge]
      simp only [ih fun pa hpa => h pa (mem_cons_of_mem _ hpa), map_cons, hv]
    · rw [hnone] at harg
      cases harg

theorem edgeArgs_unbound (f : Frame σ)
    {pa : BlockParam × BlockArg} (hpa : pa ∈ pairs) (h : argValue sem raised f.locals pa.2 = none) :
    ∀ values f', edgeArgs sem (some raised) f pairs ≠ .ok (some values, f') := by
  induction pairs with
  | nil => cases hpa
  | cons pa' pairs ih =>
    obtain ⟨p, arg⟩ := pa'
    intro values f' heq
    rcases edgeArg_cases sem raised f arg with ⟨v, hv, hedge⟩ | ⟨_, hedge⟩
    · have hrest : pa ∈ pairs := by
        rcases mem_cons.mp hpa with rfl | hrest
        · rw [hv] at h
          cases h
        · exact hrest
      rw [edgeArgs, hedge] at heq
      dsimp only at heq
      split at heq
      · cases heq
      · cases heq
      · next hrec => exact ih hrest _ _ hrec
    · rw [edgeArgs] at heq
      split at heq
      · cases heq
      · cases heq
      · next hrec => exact hedge _ _ _ hrec

/-! ## The exception edge -/

theorem blockForLabel_eq (fn : InterpretedFunction I) (label : BlockLabel) :
    blockForLabel fn label = fn.block? label := by
  unfold blockForLabel
  cases hb : fn.blocks[label]? with
  | none => rfl
  | some b =>
    by_cases hl : b.label = label
    · rw [← hl, BlockPyFunction.block?_of_mem fn.labelsNodup (mem_of_getElem? hb)]
      exact if_pos rfl
    · exact if_neg hl

/-- The target of the exception edge of a block. -/
theorem InterpretedFunction.excTarget (fn : InterpretedFunction I) (hb : b ∈ fn.blocks) (he : b.excEdge = some edge) :
    ∃ target, fn.block? edge.target = some target ∧ target.params.length = edge.args.length := by
  obtain ⟨target, hmem, hlabel, hlen⟩ := fn.excTargets b hb edge he
  exact ⟨target, hlabel ▸ BlockPyFunction.block?_of_mem fn.labelsNodup hmem, hlen⟩

theorem edgeTarget_eq_ok : edgeTarget fn edge f = .ok target ↔ blockForLabel fn edge.target = some target ∧
    edge.args.length ≤ target.params.length ∧ ∀ p ∈ target.params, (f.getByName p.name).isSome := by
  have hfind : (target.params.find? fun p => (f.getByName p.name).isNone) = none ↔
      ∀ p ∈ target.params, (f.getByName p.name).isSome := by
    simp [List.find?_eq_none, Option.isSome_iff_ne_none]
  unfold edgeTarget
  grind

theorem mem_zip_of_mem_args {params : List BlockParam} {args : List BlockArg} (hlen : params.length = args.length)
    {arg : BlockArg} (h : arg ∈ args) : ∃ p, (p, arg) ∈ params.zip args := by
  have hsnd : (params.zip args).map Prod.snd = args := map_snd_zip (Nat.le_of_eq hlen.symm)
  rw [← hsnd, List.mem_map] at h
  obtain ⟨⟨p, arg'⟩, hmem, rfl⟩ := h
  exact ⟨p, hmem⟩

section

variable (sem : Semantics I σ)
  (ht : blockForLabel fn edge.target = some target) (hlen : target.params.length = edge.args.length)
include ht hlen

/-- An exception edge is taken in a frame that receives it. -/
theorem executeJumpEdge_receives (raised : Raised) (hf : f.Receives edge target) :
    ∃ f', executeJumpEdge sem fn edge (some raised) f = .ok (true, f') ∧
      f'.locals = bindParams sem raised target edge f.locals ∧ f'.world.thread.raised = f.world.thread.raised := by
  have hargs : ∀ pa ∈ target.params.zip edge.args, (argValue sem raised f.locals pa.2).isSome := by
    intro pa hpa
    exact (argValue_isSome_iff sem raised f edge.args).mpr hf.args pa.2 (of_mem_zip hpa).2
  obtain ⟨⟨reached, f'⟩, htransition, hleaves⟩ := transitionHandledState_leaves sem fn
    ((target.params.zip edge.args).map fun pa => (pa.1.name, argValue sem raised f.locals pa.2)) hf.params
  have hreached : reached := hleaves.reached.mpr hf.live
  subst hreached
  have hjump : executeJumpEdge sem fn edge (some raised) f = .ok (true, { f' with
      locals := ((target.params.zip edge.args).map fun pa => (pa.1.name, argValue sem raised f.locals pa.2)).foldl
        (fun ls p => replaceLocal p.1 p.2 ls) f'.locals }) := by
    rw [executeJumpEdge, edgeTarget_eq_ok.mpr ⟨ht, Nat.le_of_eq hlen.symm, hf.params⟩]
    simp only [edgeArgs_bound sem raised f hargs, enterTarget, htransition]
  refine ⟨_, hjump, ?_, hleaves.raised rfl⟩
  have hexplicit : explicitParams target.params edge.args = target.params.zip edge.args := by
    rw [explicitParams, hlen, Nat.sub_self, drop_zero]
  have hlocals : f'.locals = f.locals := hleaves.locals
  simp only [bindParams, hexplicit, foldl_map, hlocals]

/-- An exception edge is taken in no other frame. -/
theorem receives_of_executeJumpEdge {f' : Frame σ} {raised : Raised}
    (h : executeJumpEdge sem fn edge (some raised) f = .ok (true, f')) : f.Receives edge target := by
  unfold executeJumpEdge at h
  split at h
  · cases h
  · next target' htarget =>
    obtain ⟨ht', _, hp⟩ := edgeTarget_eq_ok.mp htarget
    obtain rfl := some.inj (ht.symm.trans ht')
    split at h
    · cases h
    · cases h
    · next incoming f₁ hvalues =>
      have hargs : ∀ arg ∈ edge.args, (argValue sem raised f.locals arg).isSome := by
        intro arg harg
        obtain ⟨p, hpair⟩ := mem_zip_of_mem_args hlen harg
        rw [← ne_none_iff_isSome]
        intro hnone
        exact edgeArgs_unbound sem raised f hpair hnone _ _ hvalues
      have hvalues' := edgeArgs_bound sem raised f fun pa (hpa : pa ∈ target.params.zip edge.args) =>
        hargs pa.2 (of_mem_zip hpa).2
      rw [hvalues] at hvalues'
      cases hvalues'
      obtain ⟨⟨reached, f₂⟩, htransition, hleaves⟩ := transitionHandledState_leaves sem fn
        ((target.params.zip edge.args).map fun pa => (pa.1.name, argValue sem raised f.locals pa.2)) hp
      refine ⟨hp, (argValue_isSome_iff sem raised f edge.args).mp hargs, hleaves.reached.mp ?_⟩
      rw [enterTarget, htransition] at h
      cases reached with
      | false => cases h
      | true => rfl

end

/-- A frame whose exception is taken, marked for an edge, is the frame but for its error indicator. -/
theorem markTarget_takeRaised (fn : BlockPyFunction I) (f : Frame σ) (edge : BlockEdge) (target : Block I) :
    (markTarget fn edge f.takeRaised).locals = f.locals ∧ (markTarget fn edge f.takeRaised).world.thread.raised = none ∧
      ((markTarget fn edge f.takeRaised).Receives edge target ↔ f.Receives edge target) := by
  unfold markTarget Frame.markRaised
  split
  · split <;> exact ⟨rfl, rfl, fun h => ⟨h.params, h.args, h.live⟩, fun h => ⟨h.params, h.args, h.live⟩⟩
  · exact ⟨rfl, rfl, fun h => ⟨h.params, h.args, h.live⟩, fun h => ⟨h.params, h.args, h.live⟩⟩

/-- An exception edge is taken exactly in the frames that receive it. -/
theorem dispatch_dispatched_iff (fn : InterpretedFunction I) (hb : b ∈ fn.blocks) (site : RaiseSite) (hf : f.raising) :
    Dispatched sem fn ⟨site, b, f⟩ (dispatch sem fn b f) ↔
      ∀ edge, b.excEdge = some edge → ∀ target, fn.block? edge.target = some target → f.Receives edge target := by
  unfold Dispatched dispatch
  cases he : b.excEdge with
  | none => simp
  | some edge =>
    obtain ⟨raised, hraised⟩ := ne_none_iff_exists'.mp hf
    obtain ⟨target, ht, hlen⟩ := fn.excTarget hb he
    have ht' : blockForLabel fn edge.target = some target := by rw [blockForLabel_eq, ht]
    have htry : tryDispatchExceptionEdge sem fn (some edge) f =
        executeJumpEdge sem fn.toBlockPyFunction edge (some raised) (markTarget fn.toBlockPyFunction edge f.takeRaised) := by
      simp only [tryDispatchExceptionEdge, hraised]
    have hmark := markTarget_takeRaised fn.toBlockPyFunction f edge target
    generalize markTarget fn.toBlockPyFunction edge f.takeRaised = marked at htry hmark
    simp only [htry]
    constructor
    · rintro ⟨_, _, f', _, _, hnext, _⟩ edge' hedge target' ht''
      cases hedge
      rw [ht] at ht''
      cases ht''
      refine hmark.2.2.mp ?_
      rcases hjump : executeJumpEdge sem fn edge (some raised) marked with e | ⟨_ | _, f''⟩
      · rw [hjump] at hnext
        cases hnext
      · rw [hjump] at hnext
        cases hnext
      · exact receives_of_executeJumpEdge sem ht' hlen hjump
    · intro h
      obtain ⟨f', hjump, hlocals, hr⟩ :=
        executeJumpEdge_receives sem ht' hlen raised (hmark.2.2.mpr (h edge rfl target ht))
      rw [hmark.1] at hlocals
      exact ⟨raised, target, f', hraised, ht, by rw [hjump]; rfl, hlocals, hr.trans hmark.2.1⟩

/-! ## The steps that raise -/

/-- The block a run is in. -/
def Config.block? : Config I σ → Option (Block I)
  | .running (.body b _) _ | .running (.term b) _ => some b
  | _ => none

/-- What the interpreter does about an exception. -/
structure Raises (sem : Semantics I σ) (fn : BlockPyFunction I) (b : Block I) (next : Config I σ) (r : RaisedAt I σ) :
    Prop where
  raising : r.frame.raising
  block : r.block = b
  next : next = if r.site = .branchIndex ∨ r.site = .jumpArgument then .finished (.ret none) r.frame
    else dispatch sem fn b r.frame

section

variable (sem : Semantics I σ) (fn : BlockPyFunction I) {r : RaisedAt I σ} {site : RaiseSite}

theorem Raises.dispatch (hs : ¬(site = .branchIndex ∨ site = .jumpArgument)) (b : Block I)
    (hf : f.raising) : Raises sem fn b (dispatch sem fn b f) ⟨site, b, f⟩ :=
  ⟨hf, rfl, (if_neg hs).symm⟩

/-- An evaluation raises here, or what follows it does. -/
theorem evaluate_raises (hs : ¬(site = .branchIndex ∨ site = .jumpArgument)) {e : I}
    {next : ObjId → Frame σ → Config I σ} {raised : ObjId → Frame σ → Option (RaisedAt I σ)}
    (hnext : ∀ v f r, raised v f = some r → Raises sem fn b (next v f) r)
    (h : raisedIn sem site b e f raised = some r) : Raises sem fn b (evaluate sem fn b e f next) r := by
  unfold raisedIn at h
  split at h
  · cases h
  · next f' hexpr =>
    cases h
    unfold evaluate
    rw [hexpr]
    exact .dispatch sem fn hs b (sem.executeExpr_raising e f f' hexpr)
  · next v f' hexpr =>
    unfold evaluate
    rw [hexpr]
    exact hnext v f' r h

/-- An argument without a value has set the indicator. -/
theorem edgeArg_raising {raised raised' : Option Raised} {f' : Frame σ} {arg : BlockArg}
    (h : edgeArg sem raised f arg = .ok (none, raised', f')) : f'.raising := by
  cases arg with
  | name name =>
    simp only [edgeArg] at h
    split at h <;> cases h
    exact some_ne_none _
  | none | abruptKind kind => cases h
  | currentException =>
    simp only [edgeArg] at h
    split at h
    · cases h
    · split at h <;> cases h
      exact some_ne_none _

theorem edgeArgs_raising {raised : Option Raised} {f' : Frame σ}
    (h : edgeArgs sem raised f pairs = .ok (none, f')) : f'.raising := by
  induction pairs generalizing raised f with
  | nil => cases h
  | cons pa pairs ih =>
    obtain ⟨p, arg⟩ := pa
    rw [edgeArgs] at h
    split at h
    · cases h
    · next raised' f₁ harg =>
      cases h
      exact edgeArg_raising sem harg
    · split at h
      · cases h
      · next hrest =>
        cases h
        exact ih hrest
      · cases h

theorem jump_raises (h : raisedInArgs sem fn b edge f = some r) :
    Raises sem fn b (goTo edge.target (executeJumpEdge sem fn edge none f)) r := by
  unfold raisedInArgs at h
  split at h
  · cases h
  · next target htarget =>
    split at h
    · next f' hargs =>
      cases h
      refine ⟨edgeArgs_raising sem hargs, rfl, ?_⟩
      rw [executeJumpEdge, htarget]
      simp only [hargs]
      rfl
    · cases h

theorem executeTerm_raises (h : raisedInTerm sem fn b f = some r) : Raises sem fn b (executeTerm sem fn b f) r := by
  unfold raisedInTerm at h
  unfold executeTerm
  cases hterm : b.term with
  | ret value | generatorReturn value =>
    rw [hterm] at h
    exact evaluate_raises sem fn (by decide) (fun _ _ _ h => by cases h) h
  | jump edge =>
    rw [hterm] at h
    exact jump_raises sem fn h
  | ifTerm test thenLabel elseLabel =>
    rw [hterm] at h
    refine evaluate_raises sem fn (by decide) ?_ h
    intro v f r h
    rcases htruth : sem.isTrue v f with ⟨_ | value, f'⟩
    · rw [htruth] at h
      cases h
      exact .dispatch sem fn (by decide) b (sem.isTrue_raising v f f' htruth)
    · rw [htruth] at h
      cases h
  | branchTable index targets defaultLabel =>
    rw [hterm] at h
    simp only [raisedIn] at h
    split at h
    · cases h
    · next f' hexpr =>
      cases h
      simp only [hexpr]
      exact ⟨sem.executeExpr_raising index f f' hexpr, rfl, (if_pos (.inl rfl)).symm⟩
    · next v f' hexpr =>
      simp only [hexpr]
      rcases hvalue : sem.asLongLong v f' with ⟨_ | value, f''⟩
      · rw [hvalue] at h
        cases h
        exact .dispatch sem fn (by decide) b (sem.asLongLong_raising v f' f'' hvalue)
      · rw [hvalue] at h
        cases h
  | raise exc =>
    rw [hterm] at h
    cases exc with
    | none =>
      cases h
      refine .dispatch sem fn (by decide) b ?_
      unfold reraiseCurrent
      split <;> exact some_ne_none _
    | some exc =>
      refine evaluate_raises sem fn (by decide) ?_ h
      intro v f r h
      cases h
      exact .dispatch sem fn (by decide) b (sem.setRaiseException_raising v f)

theorem step_raises {c : Config I σ} (h : raisedNext sem fn c = some r) :
    ∃ b, c.block? = some b ∧ Raises sem fn b (step sem fn c) r := by
  unfold raisedNext at h
  split at h
  · next b i rest f =>
    exact ⟨b, rfl, evaluate_raises sem fn (by decide) (fun _ _ _ h => by cases h) h⟩
  · next b f => exact ⟨b, rfl, executeTerm_raises sem fn h⟩
  · cases h

end

/-! ## Runs -/

/-- The blocks a run goes through are blocks of the function. -/
theorem mem_blocks_of_blockForLabel {label : BlockLabel} (h : blockForLabel fn label = some b) : b ∈ fn.blocks := by
  unfold blockForLabel at h
  split at h
  · next b' hb' =>
    split at h
    · cases h
      exact mem_of_getElem? hb'
    · exact mem_of_find?_eq_some h
  · exact mem_of_find?_eq_some h

def Config.InFunction (fn : BlockPyFunction I) (c : Config I σ) : Prop :=
  ∀ b, c.block? = some b → b ∈ fn.blocks

theorem goTo_inFunction (fn : BlockPyFunction I) (target : BlockLabel) (result : Except InterpError (Bool × Frame σ)) :
    (goTo target result : Config I σ).InFunction fn := by
  intro b hb
  rcases result with e | ⟨_ | _, f⟩ <;> cases hb

theorem dispatch_inFunction (fn : BlockPyFunction I) (b : Block I) (f : Frame σ) :
    (dispatch sem fn b f).InFunction fn := by
  unfold dispatch
  split
  · intro b' hb'
    cases hb'
  · exact goTo_inFunction fn _ _

theorem leaveFor_inFunction (fn : BlockPyFunction I) (target : BlockLabel) (f : Frame σ) :
    (leaveFor sem fn target f).InFunction fn := by
  unfold leaveFor
  split
  · intro b' hb'
    cases hb'
  · exact goTo_inFunction fn _ _

theorem evaluate_inFunction (fn : BlockPyFunction I) {e : I}
    {next : ObjId → Frame σ → Config I σ} (hnext : ∀ v f, (next v f).InFunction fn) :
    (evaluate sem fn b e f next).InFunction fn := by
  unfold evaluate
  split
  · intro b' hb'
    cases hb'
  · exact dispatch_inFunction sem fn b _
  · exact hnext _ _

theorem enterBlock_inFunction (fn : BlockPyFunction I) (label : BlockLabel) (bodyIndex : Nat)
    (f : Frame σ) : (enterBlock sem fn label bodyIndex f).InFunction fn := by
  unfold enterBlock
  intro b hb
  split at hb
  · cases hb
  · next b' hb' =>
    split at hb
    · cases hb
    · split at hb <;> cases hb
      exact mem_blocks_of_blockForLabel hb'

theorem executeTerm_inFunction (fn : BlockPyFunction I) (b : Block I) (f : Frame σ) :
    (executeTerm sem fn b f).InFunction fn := by
  have hend : ∀ outcome f, (Config.finished outcome f : Config I σ).InFunction fn := by
    intro outcome f b' hb'
    cases hb'
  unfold executeTerm
  split
  · exact evaluate_inFunction sem fn fun v f => hend _ _
  · exact evaluate_inFunction sem fn fun v f => hend _ _
  · exact goTo_inFunction fn _ _
  · refine evaluate_inFunction sem fn fun v f => ?_
    split
    · exact dispatch_inFunction sem fn b _
    · exact leaveFor_inFunction sem fn _ _
  · split
    · intro b' hb'
      cases hb'
    · exact hend _ _
    · split
      · exact dispatch_inFunction sem fn b _
      · exact leaveFor_inFunction sem fn _ _
  · exact dispatch_inFunction sem fn b _
  · exact evaluate_inFunction sem fn fun v f => dispatch_inFunction sem fn b _

theorem step_inFunction {c : Config I σ} (hc : c.InFunction fn) : (step sem fn c).InFunction fn := by
  unfold step
  split
  · exact enterBlock_inFunction sem fn _ _ _
  · exact hc
  · exact evaluate_inFunction sem fn fun v f => hc
  · exact executeTerm_inFunction sem fn _ _
  · exact hc
  · exact hc

theorem run_inFunction (n : Nat) {c : Config I σ} (hc : c.InFunction fn) : (run sem fn n c).InFunction fn := by
  induction n generalizing c with
  | zero => exact hc
  | succ n ih => exact ih (step_inFunction sem hc)

/-- The exceptions the interpreter dispatches: those of a block without an exception edge, and the others when it is not
the index of a branch table or an argument of a jump that raises and the frame receives the edge. -/
def RaisedAt.Dispatchable (fn : BlockPyFunction I) (r : RaisedAt I σ) : Prop :=
  ∀ edge, r.block.excEdge = some edge → r.site ≠ .branchIndex ∧ r.site ≠ .jumpArgument ∧
    ∀ target, fn.block? edge.target = some target → r.frame.Receives edge target

/-- In every run, a step that raises an exception sends it along the exception edge of the block, with the arguments of
the edge, or out of a function whose block has none, exactly if it is one of the exceptions the interpreter dispatches. -/
theorem deoptInterpreter_dispatches_iff (sem : Semantics I σ) (fn : InterpretedFunction I) (label : BlockLabel)
    (bodyIndex : Nat) (frame : Frame σ) (n : Nat) :
    let c := run sem fn n (.running (.head label bodyIndex) frame)
    ∀ r, raisedNext sem fn c = some r →
      (Dispatched sem fn r (step sem fn c) ↔ r.Dispatchable fn) := by
  intro c r hr
  have hstart : (Config.running (.head label bodyIndex) frame : Config I σ).InFunction fn := by
    intro b hb
    cases hb
  obtain ⟨b, hb, hraising, rfl, hnext⟩ := step_raises sem fn hr
  have hmem : r.block ∈ fn.blocks := run_inFunction sem n hstart r.block hb
  by_cases hs : r.site = .branchIndex ∨ r.site = .jumpArgument
  · rw [hnext, if_pos hs]
    unfold Dispatched RaisedAt.Dispatchable
    cases he : r.block.excEdge with
    | none => simp
    | some edge =>
      constructor
      · rintro ⟨_, _, _, _, _, hrun, _⟩
        cases hrun
      · intro h
        obtain ⟨hindex, hargument, _⟩ := h edge rfl
        exact (hs.elim hindex hargument).elim
  · rw [hnext, if_neg hs]
    have hiff := dispatch_dispatched_iff sem fn hmem r.site hraising
    refine hiff.trans ⟨fun h edge he => ?_, fun h edge he => (h edge he).2.2⟩
    exact ⟨fun h => hs (.inl h), fun h => hs (.inr h), h edge he⟩

/-! ## A handler around a branch table -/

/-- An operand that is an object, or raises one. -/
inductive Operand where
  | value (o : ObjId)
  | raises (o : ObjId)
deriving DecidableEq, Repr

/-- Operands are evaluated without an effect on the frame; every object is true and the number one. -/
def operandSemantics : Semantics Operand Unit where
  executeExpr
    | .value o, f => .ok (some o, f)
    | .raises o, f => .ok (none, f.withRaised (some (.object o)))
  isTrue _ f := (some true, f)
  asLongLong _ f := (some 1, f)
  setRaiseException o f := f.withRaised (some (.object o))
  exceptionObject
    | .object o => o
    | .runtimeError _ => 1
  unboundLocalError _ := 2
  abruptKindTag _ := 3
  notifyTerminal h := h
  finalizer _ := none
  executeExpr_raising i f f' h := by
    cases i with
    | value o => cases h
    | raises o =>
      cases h
      exact Option.some_ne_none _
  isTrue_raising o f f' h := by cases h
  asLongLong_raising o f f' h := by cases h
  setRaiseException_raising o f := Option.some_ne_none _

/-- A block with an instruction and a branch table, and a handler for both that takes the exception and the local `x`. -/
def guardedBranch (instruction index : Operand) : InterpretedFunction Operand where
  params := []
  stackSlots := ["x", "e"]
  blocks := [
    { label := 0, body := [instruction], term := .branchTable index [1] 1, excEdge := some ⟨1, [.currentException, .name "x"]⟩ },
    { label := 1, params := [⟨"e", .exception⟩, ⟨"x", .value⟩], body := [], term := .ret (.value 4) }]
  labelsNodup := by simp
  excTargets := by simp

/-- A frame that is run from its start, with `x` bound. -/
def guardedFrame : Frame Unit where
  locals := [("x", some 5), ("e", none)]
  hasState := true
  world := (World.new ⟨["e"], 0⟩ false none []).enter none []
  heap := ()

def guardedRun (instruction index : Operand) (n : Nat) : Config Operand Unit :=
  run operandSemantics (guardedBranch instruction index).toBlockPyFunction n (.running (.head 0 0) guardedFrame)

/-- The instruction raises: the handler gets the exception and `x`. -/
theorem deoptInterpreter_dispatches_iff_instruction :
    ∃ r, raisedNext operandSemantics (guardedBranch (.raises 7) (.value 8)).toBlockPyFunction
        (guardedRun (.raises 7) (.value 8) 1) = some r ∧ r.site = .instruction ∧
      Dispatched operandSemantics (guardedBranch (.raises 7) (.value 8)).toBlockPyFunction r
        (step operandSemantics (guardedBranch (.raises 7) (.value 8)).toBlockPyFunction
          (guardedRun (.raises 7) (.value 8) 1)) := by
  refine ⟨_, rfl, rfl, ?_⟩
  refine (deoptInterpreter_dispatches_iff operandSemantics (guardedBranch (.raises 7) (.value 8)) 0 0 guardedFrame 1 _ rfl).mpr ?_
  intro edge he
  cases he
  refine ⟨nofun, nofun, fun target ht => ?_⟩
  cases ht
  refine ⟨?_, ?_, fun _ _ => ⟨rfl, rfl⟩⟩
  · intro p hp
    simp at hp
    rcases hp with rfl | rfl <;> rfl
  · intro name hname
    simp at hname
    subst hname
    rfl

/-- The index of the branch table raises: the handler of its block is not entered. -/
theorem deoptInterpreter_dispatches_false :
    ¬∀ r, raisedNext operandSemantics (guardedBranch (.value 6) (.raises 7)).toBlockPyFunction
        (guardedRun (.value 6) (.raises 7) 3) = some r →
      Dispatched operandSemantics (guardedBranch (.value 6) (.raises 7)).toBlockPyFunction r
        (step operandSemantics (guardedBranch (.value 6) (.raises 7)).toBlockPyFunction
          (guardedRun (.value 6) (.raises 7) 3)) := by
  intro h
  obtain ⟨_, _, _, _, _, hnext, _⟩ := h _ rfl
  cases hnext

end Soac.Interp
