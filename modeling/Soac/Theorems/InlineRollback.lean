import Soac.Theorems.InlineLabels

/-!
# What a rejected inlining leaves behind

`rejectedInline_rollsBack_iff`: whenever the typed inliner returns a block unchanged, the block and the caller's storage
layout are as before, and the caller's module constants are as before exactly when the candidate was rejected before its
plans were tried, or for the arguments of a plan, or no copy made until then came across a constant of another module.
`rejectedInline_rollsBack_false` is a candidate with two plans: the first one copies a constant, the second one has no
callee.
-/

namespace Soac

open Fallible List Option

/-! ## What a copy comes across -/

/-- What a copy comes across before it ends: a constant of another module, or something that cannot be copied. -/
structure CopyScan where
  mentions : Bool := false
  stops : Bool := false
deriving DecidableEq

namespace CopyScan

def andThen (r r' : CopyScan) : CopyScan :=
  if r.stops then r else ⟨r.mentions || r'.mentions, r'.stops⟩

def check (ok : Bool) : CopyScan :=
  { stops := !ok }

def all {α : Type} (scan : α → CopyScan) : List α → CopyScan
  | [] => {}
  | a :: as => (scan a).andThen (all scan as)

theorem check_andThen (a b : Bool) : (check a).andThen (check b) = check (a && b) := by
  cases a <;> rfl

end CopyScan

/-- What decides how far a copy gets: the callee's slots, labels and constants, the slots of the bound parameters (and
whether the argument is a local of the caller), the names the runtime knows. -/
structure CopyScope where
  stackSlots : List String
  labels : List BlockLabel
  constants : Option (List ConstantExpr)
  bound : LocalLocation → Option Bool
  runtimeName : String → Bool

namespace CopyScope

variable (S : CopyScope)

/-- A slot of the callee that gets a fresh slot of the caller. -/
def fresh (x : LocalLocation) : Bool :=
  (S.bound x).isNone && decide (x < S.stackSlots.length)

def scanName (n : ResolvedName) : CopyScan :=
  match n.location with
  | .constant i =>
    match S.constants with
    | none => {}
    | some constants => if i < constants.length then { mentions := true } else { stops := true }
  | .globalName | .global _ => .check (S.constants.isNone || S.runtimeName n.id)
  | .cell c => .check (typedCellLocation c).isOk
  | .local x => .check (S.fresh x)
  | _ => {}

def scanHead : Head TypedOp → CopyScan
  | .load n | .store n | .del n _ | .takeOperand n | .comprehensionInsert _ n | .iteratorStep n => S.scanName n
  | .callArgumentOp _ callable buffer => (S.scanName callable).andThen (S.scanName buffer)
  | .cellRef c => .check (typedCellLocation c).isOk
  | .makeCell | .op _ => {}

/-- A load of a bound parameter is replaced by the argument. -/
def loadsBound : Head TypedOp → Bool
  | .load n => n.localLocation.any fun x => (S.bound x).isSome
  | _ => false

mutual

def scanInstr : InstrTyped → CopyScan
  | .mk _ h ops =>
    if S.loadsBound h then {}
    else (CopyScan.check (typedDialect.checkHead h).isOk).andThen ((S.scanHead h).andThen (scanInstrs ops))

def scanInstrs : List InstrTyped → CopyScan
  | [] => {}
  | i :: is => (scanInstr i).andThen (scanInstrs is)

end

def copiesLabel (l : BlockLabel) : Bool :=
  decide (l ∈ S.labels)

def copiesArg : BlockArg → Bool
  | .name name => (S.stackSlots.idxOf? name).any fun x => (S.bound x).getD true
  | _ => true

def copiesEdge (e : BlockEdge) : Bool :=
  S.copiesLabel e.target && e.args.all S.copiesArg

def scanTerm : BlockTerm InstrTyped → CopyScan
  | .ret value | .raise (some value) => S.scanInstr value
  | .jump e => .check (S.copiesEdge e)
  | .ifTerm test t e => (S.scanInstr test).andThen (.check (S.copiesLabel t && S.copiesLabel e))
  | .branchTable index targets default =>
    (S.scanInstr index).andThen (.check (targets.all S.copiesLabel && S.copiesLabel default))
  | .raise none => {}
  | .generatorReturn value => (S.scanInstr value).andThen (.check false)

def scanBlock (b : Block InstrTyped) : CopyScan :=
  (CopyScan.check (S.copiesLabel b.label)).andThen <| (S.scanInstrs (typedDialect.copiedBody b.body)).andThen <|
    (S.scanTerm b.term).andThen <| .check (b.params.all (fun p => (S.stackSlots.idxOf? p.name).any S.fresh) &&
      b.excEdge.all S.copiesEdge)

end CopyScope

/-- Whether an argument is a local of the caller. -/
def isLocalLoad : InstrTyped → Bool
  | .mk _ (.load n) _ => n.localLocation.isSome
  | _ => false

/-- The slots of the bound parameters. -/
def boundSlots (bindings : List (LocalLocation × InstrTyped)) (x : LocalLocation) : Option Bool :=
  (bindings.lookup x).map isLocalLoad

def typedCopyScope (m : TypedInlineModule) (callee : CodegenFunction InstrTyped)
    (calleeConstants : Option (List ConstantExpr)) (bindings : List (LocalLocation × InstrTyped)) : CopyScope where
  stackSlots := callee.stackSlots
  labels := callee.labels
  constants := calleeConstants
  bound := boundSlots bindings
  runtimeName name := (m.runtimeName name).isSome

/-- Whether the builders get to the first instruction. -/
def copyStarts (st : TypedInlineState) (callee : CodegenFunction InstrTyped)
    (calleeConstants : Option (List ConstantExpr)) (context : InlineHandledContext)
    (bindings : List (LocalLocation × InstrTyped)) : Bool :=
  context.canInline callee.toBlockPyFunction && ((checkTypedInlineCallee callee bindings).isOk &&
    (singleBlockInlinable callee && ((st.caller.hasStorageLayout ||
      (List.range callee.stackSlots.length).all fun x => (bindings.lookup x).isSome) &&
    (calleeConstants.isNone || st.callerConstants.isSome))))

/-- What building a fragment comes across. -/
def scanFragment (m : TypedInlineModule) (st : TypedInlineState) (callee : CodegenFunction InstrTyped)
    (calleeConstants : Option (List ConstantExpr)) (context : InlineHandledContext)
    (bindings : List (LocalLocation × InstrTyped)) : CopyScan :=
  (CopyScan.check (copyStarts st callee calleeConstants context bindings)).andThen
    (.all (typedCopyScope m callee calleeConstants bindings).scanBlock callee.blocks)

/-- What a plan comes across; nothing where its arguments cannot be bound. -/
def scanPlan (m : TypedInlineModule) (st : TypedInlineState) (context : InlineHandledContext) (temps : TypedInlineTemps)
    (plan : TypedInlineDirectCallPlan) : Option CopyScan :=
  match typedInlineCallee m plan.target with
  | none => some { stops := true }
  | some (callee, constants) =>
    (typedInlineProvidedValues callee.toCodegenFunction temps >>=
      bindTypedDirectCallInlineValues callee.toCodegenFunction plan.argPlan).toOption.map
        (scanFragment m st callee.toCodegenFunction constants context)

/-- The first plan that is rejected is rejected for its arguments, or no copy up to it comes across a constant of another
module. -/
def constantsKept (m : TypedInlineModule) (st : TypedInlineState) (context : InlineHandledContext)
    (temps : TypedInlineTemps) : List TypedInlineDirectCallPlan → Bool → Bool
  | [], _ => true
  | plan :: plans, mentioned =>
    match scanPlan m st context temps plan with
    | none => true
    | some r =>
      if r.stops then !(mentioned || r.mentions) else constantsKept m st context temps plans (mentioned || r.mentions)

/-! ## Scanning follows copying -/

variable (constants : Option (List ConstantExpr))

/-- The scope copies from a table of constants, or from the caller's own. -/
def ConstantScope.Reads : ConstantScope → Prop
  | .sameModule => constants = none
  | .crossModule _ callee mapped => constants = some callee ∧ ∀ i j, mapped.lookup i = some j → i < callee.length

/-- What a part of a copy does to the scope: if it mentions a constant, some constant has been copied by its end. -/
def ConstantScope.Advances (mentions : Bool) : ConstantScope → ConstantScope → Prop
  | .sameModule, t => t = .sameModule ∧ mentions = false
  | .crossModule caller callee mapped, t => ∃ extra new, t = .crossModule (caller ++ extra) callee (new ++ mapped) ∧
      new.length = extra.length ∧ (mentions = false → new = []) ∧ (mentions = true → new ++ mapped ≠ [])

theorem ConstantScope.Advances.refl (t : ConstantScope) : t.Advances false t := by
  cases t with
  | sameModule => exact ⟨rfl, rfl⟩
  | crossModule caller callee mapped => exact ⟨[], [], by simp, rfl, fun _ => rfl, nofun⟩

/-- Two stretches of a copy in a row advance as their union. -/
theorem ConstantScope.Advances.trans {a b : Bool} {t t₁ t₂ : ConstantScope} (h : t.Advances a t₁) (h' : t₁.Advances b t₂) :
    t.Advances (a || b) t₂ := by
  cases t with
  | sameModule =>
    obtain ⟨rfl, rfl⟩ := h
    exact h'
  | crossModule caller callee mapped =>
    obtain ⟨extra, new, rfl, hlen, hno, hyes⟩ := h
    obtain ⟨extra', new', rfl, hlen', hno', hyes'⟩ := h'
    refine ⟨extra ++ extra', new' ++ new, by simp, by simp [hlen, hlen', Nat.add_comm], ?_, ?_⟩
    · intro hab
      obtain ⟨rfl, rfl⟩ := Bool.or_eq_false_iff.mp hab
      rw [hno rfl, hno' rfl]
      rfl
    · intro hab
      rw [append_assoc]
      rcases Bool.or_eq_true_iff.mp hab with rfl | rfl
      · exact append_ne_nil_of_right_ne_nil _ (hyes rfl)
      · exact hyes' rfl

/-- A step of the remapper does what the scan says, whatever it starts from. -/
def RemapM.Scans {α : Type} (constants : Option (List ConstantExpr)) (x : RemapM α) (r : CopyScan) : Prop :=
  ∀ s, s.constants.Reads constants → (x.effect s).1.isOk = !r.stops ∧ (x.effect s).2.constants.Reads constants ∧
    s.constants.Advances r.mentions (x.effect s).2.constants

namespace RemapM.Scans

variable {α β : Type} {constants : Option (List ConstantExpr)} {x : RemapM α} {r r' : CopyScan}

/-- A step that leaves the constants alone. -/
theorem of_check {b : Bool} (h : ∀ s, s.constants.Reads constants →
    (x.effect s).1.isOk = b ∧ (x.effect s).2.constants = s.constants) : x.Scans constants (.check b) := by
  intro s hs
  obtain ⟨hok, heq⟩ := h s hs
  rw [heq]
  exact ⟨by simpa [CopyScan.check] using hok, hs, .refl _⟩

theorem pure (a : α) : (RemapM.pure a).Scans constants {} :=
  of_check (b := true) fun _ _ => ⟨rfl, rfl⟩

theorem lift (e : Except InlineUnsupportedReason α) : (RemapM.lift e).Scans constants (.check e.isOk) :=
  of_check fun _ _ => ⟨rfl, rfl⟩

variable {k : α → RemapM β}

theorem andThen (hx : x.Scans constants r) (hk : ∀ a, (k a).Scans constants r') :
    (x.andThen k).Scans constants (r.andThen r') := by
  intro s hs
  obtain ⟨hok, hreads, hadv⟩ := hx s hs
  simp only [RemapM.andThen]
  generalize x.effect s = p at hok hreads hadv ⊢
  obtain ⟨e, s₁⟩ := p
  cases e with
  | error e =>
    have hstops : r.stops = true := by simpa [Except.isOk, Except.toBool] using hok
    rw [CopyScan.andThen, if_pos hstops]
    exact ⟨hok, hreads, hadv⟩
  | ok a =>
    have hstops : ¬ r.stops = true := by simpa [Except.isOk, Except.toBool] using hok
    obtain ⟨hok', hreads', hadv'⟩ := hk a s₁ hreads
    rw [CopyScan.andThen, if_neg hstops]
    exact ⟨hok', hreads', hadv.trans hadv'⟩

/-- A step after which nothing is come across. -/
theorem andThen_clear (hx : x.Scans constants r) (hk : ∀ a, (k a).Scans constants {}) :
    (x.andThen k).Scans constants r := by
  have hr : r.andThen {} = r := by
    obtain ⟨mentions, stops⟩ := r
    cases stops <;> simp [CopyScan.andThen]
  have h := hx.andThen hk
  rwa [hr] at h

theorem andThen_pure {g : α → β} (hx : x.Scans constants r) : (x.andThen fun a => RemapM.pure (g a)).Scans constants r :=
  hx.andThen_clear fun a => Scans.pure (g a)

theorem mapList {f : α → RemapM β} {scan : α → CopyScan} {as : List α} (h : ∀ a ∈ as, (f a).Scans constants (scan a)) :
    (RemapM.mapList f as).Scans constants (.all scan as) := by
  induction as with
  | nil => exact Scans.pure []
  | cons a as ih =>
    refine (h a mem_cons_self).andThen fun b => ?_
    exact (ih fun a' ha' => h a' (mem_cons_of_mem _ ha')).andThen_pure

end RemapM.Scans

/-- From another module, a constant is copied unless its index is outside the callee's table. -/
theorem remapConstant_scans (i : Nat) : (remapConstant i).Scans constants (match constants with
      | none => {}
      | some constants => if i < constants.length then { mentions := true } else { stops := true }) := by
  intro s hs
  cases hscope : s.constants with
  | sameModule =>
    rw [hscope] at hs
    obtain rfl : constants = none := hs
    simp only [remapConstant, hscope]
    exact ⟨rfl, rfl, .refl _⟩
  | crossModule caller callee mapped =>
    rw [hscope] at hs
    obtain ⟨rfl, hmapped⟩ := hs
    simp only [remapConstant, hscope]
    cases hi : mapped.lookup i with
    | some j =>
      simp only [if_pos (hmapped i j hi)]
      rw [hscope]
      refine ⟨rfl, ⟨rfl, hmapped⟩, [], [], by simp, rfl, fun _ => rfl, fun _ => ?_⟩
      rintro rfl
      cases hi
    | none =>
      cases hc : callee[i]? with
      | none =>
        simp only [if_neg (Nat.not_lt.mpr (List.getElem?_eq_none_iff.mp hc))]
        rw [hscope]
        exact ⟨rfl, ⟨rfl, hmapped⟩, .refl _⟩
      | some c =>
        have hlt := (List.getElem?_eq_some_iff.mp hc).1
        simp only [if_pos hlt]
        refine ⟨rfl, ⟨rfl, fun i' j' hj' => ?_⟩, [c], [(i, caller.length)], rfl, rfl, by simp, fun _ => by simp⟩
        by_cases hne : i' = i
        · exact hne ▸ hlt
        · rw [lookup_cons, beq_eq_false_iff_ne.mpr hne] at hj'
          exact hmapped i' j' hj'

section

/-- The scope says what the remapper of a copy can copy. -/
structure CopyScope.Describes (S : CopyScope) (env : RemapEnv TypedInstrExtra TypedOp) (labelMap : LabelMap) : Prop where
  slots : env.stackSlots = S.stackSlots
  bound : ∀ x, boundSlots env.bindings x = S.bound x
  locals : ∀ x, (env.locals.lookup x).isSome = S.fresh x
  cell : env.cell = typedCellLocation
  runtimeName : ∀ name, (env.runtimeName name).isSome = S.runtimeName name
  labels : ∀ l, (labelMap.lookup l).isSome = S.copiesLabel l

variable {S : CopyScope} {env : RemapEnv TypedInstrExtra TypedOp} (h : S.Describes env labelMap)

include h

theorem freshLocal_isOk (x : LocalLocation) : (env.freshLocal x).isOk = S.fresh x := by
  have hl := h.locals x
  have hb := h.bound x
  rw [RemapEnv.freshLocal]
  rw [boundSlots] at hb
  cases hlookup : env.bindings.lookup x with
  | some value =>
    rw [hlookup] at hb
    simp [CopyScope.fresh, ← hb, Except.isOk, Except.toBool]
  | none =>
    rw [← hl]
    cases env.locals.lookup x <;> rfl

theorem callerName_isOk {n : ResolvedName} (hn : ∀ i, n.location ≠ .constant i) {s : RemapState}
    (hs : s.constants.Reads S.constants) :
    ((env.crossModuleLocation n.id n.location s).bind (env.callerName n.id)).isOk = !(S.scanName n).stops ∧
      (S.scanName n).mentions = false := by
  have hcross : s.constants.isCrossModule = !S.constants.isNone := by
    cases hscope : s.constants with
    | sameModule =>
      rw [hscope] at hs
      rw [show S.constants = none from hs]
      rfl
    | crossModule caller callee mapped =>
      rw [hscope] at hs
      rw [hs.1]
      rfl
  obtain ⟨id, location⟩ := n
  have hr := h.runtimeName id
  cases location with
  | constant i => exact absurd rfl (hn i)
  | «local» x =>
    have hx := freshLocal_isOk h x
    simp only [CopyScope.scanName, CopyScan.check, Bool.not_not, and_true, ← hx]
    simp only [RemapEnv.crossModuleLocation, Except.bind, RemapEnv.callerName]
    cases env.freshLocal x <;> rfl
  | cell c =>
    simp only [CopyScope.scanName, CopyScan.check, Bool.not_not, and_true, RemapEnv.crossModuleLocation, Except.bind,
      RemapEnv.callerName, h.cell]
    cases typedCellLocation c <;> rfl
  | globalName | global _ =>
    simp only [CopyScope.scanName, CopyScan.check, Bool.not_not, and_true, RemapEnv.crossModuleLocation, hcross, ← hr]
    cases S.constants.isNone <;> cases env.runtimeName id <;> rfl
  | _ => exact ⟨rfl, rfl⟩

/-- A name is copied exactly if the scan of it does not stop. -/
theorem tryMapName_scans (n : ResolvedName) : (env.tryMapName n).Scans S.constants (S.scanName n) := by
  by_cases hn : ∃ i, n.location = .constant i
  · obtain ⟨i, hi⟩ := hn
    have heq : env.tryMapName n = (remapConstant i).andThen fun j => RemapM.pure ⟨n.id, .constant j⟩ := by
      simp only [RemapEnv.tryMapName, hi, remapLocation, RemapM.andThen, RemapM.pure, RemapM.mk.injEq]
      funext s
      generalize (remapConstant i).effect s = p
      obtain ⟨e, s₁⟩ := p
      cases e <;> rfl
    rw [heq, CopyScope.scanName, hi]
    exact (remapConstant_scans S.constants i).andThen_pure
  · have hne : ∀ i, n.location ≠ .constant i := fun i hi => hn ⟨i, hi⟩
    have hremap : remapLocation n.location = RemapM.pure n.location := by
      cases hl : n.location with
      | constant i => exact absurd hl (hne i)
      | _ => rfl
    intro s hs
    obtain ⟨hok, hmentions⟩ := callerName_isOk h hne hs
    simp only [RemapEnv.tryMapName, hremap, RemapM.andThen, RemapM.pure, RemapM.read, RemapM.lift]
    rw [hmentions]
    exact ⟨hok, hs, .refl _⟩

/-- So are the names of a head. -/
theorem tryMapHead_scans (head : Head TypedOp) : (env.tryMapHead head).Scans S.constants (S.scanHead head) := by
  cases head with
  | callArgumentOp kind callable buffer =>
    exact (tryMapName_scans h callable).andThen fun _ => (tryMapName_scans h buffer).andThen_pure
  | cellRef c =>
    rw [CopyScope.scanHead, ← h.cell]
    exact (RemapM.Scans.lift _).andThen_pure
  | makeCell | op k => exact .pure _
  | load n | store n | del n _ | takeOperand n | comprehensionInsert _ n | iteratorStep n =>
    exact (tryMapName_scans h n).andThen_pure

omit h in
theorem remapExtra_scans (x : TypedInstrExtra) : (typedDialect.remapExtra x).Scans S.constants {} := by
  refine .of_check (b := true) fun s _ => ?_
  simp only [typedDialect, remapInstrId]
  split
  · exact ⟨rfl, rfl⟩
  · split <;> exact ⟨rfl, rfl⟩

theorem loadsBound_eq (head : Head TypedOp) : (env.boundValue head).isSome = S.loadsBound head := by
  cases head with
  | load n =>
    rw [RemapEnv.boundValue, CopyScope.loadsBound]
    cases n.localLocation with
    | none => rfl
    | some x =>
      rw [bind_some, any_some, ← h.bound x, boundSlots, isSome_map]
  | _ => rfl

set_option linter.unusedSectionVars false in
mutual

/-- Copying an instruction fails where the scan stops and adds constants where it mentions one. -/
theorem tryMapInstr_scans : ∀ i : InstrTyped, (typedDialect.tryMapInstr env i).Scans S.constants (S.scanInstr i)
  | .mk x head ops => by
    have hbound := loadsBound_eq h head
    rw [RemapDialect.tryMapInstr, CopyScope.scanInstr, ← hbound]
    cases env.boundValue head with
    | some value => exact .pure _
    | none =>
      refine (RemapM.Scans.lift _).andThen fun _ => (tryMapHead_scans h head).andThen fun _ => ?_
      exact (tryMapInstrs_scans ops).andThen_clear fun _ => (remapExtra_scans x).andThen_pure

theorem tryMapInstrs_scans : ∀ is : List InstrTyped,
    (typedDialect.tryMapInstrs env is).Scans S.constants (S.scanInstrs is)
  | [] => .pure _
  | i :: is => (tryMapInstr_scans i).andThen fun _ => (tryMapInstrs_scans is).andThen_pure

end

theorem remappedLabel_isOk (l : BlockLabel) : (remappedLabel labelMap l).isOk = S.copiesLabel l := by
  rw [← h.labels, remappedLabel]
  cases labelMap.lookup l <;> rfl

omit h in
theorem boundLocalName_isOk (x : LocalLocation) (value : InstrTyped) :
    (RemapEnv.boundLocalName x value).isOk = isLocalLoad value := by
  obtain ⟨extra, head, ops⟩ := value
  cases head with
  | load n =>
    rw [RemapEnv.boundLocalName, isLocalLoad]
    cases n.localLocation <;> rfl
  | _ => rfl

theorem tryMapBlockArg_isOk (arg : BlockArg) : (env.tryMapBlockArg arg).isOk = S.copiesArg arg := by
  cases arg with
  | name name =>
    rw [RemapEnv.tryMapBlockArg, isOk_map, CopyScope.copiesArg, RemapEnv.tryMapBlockLocalName,
      RemapEnv.calleeLocalLocationByName, h.slots]
    cases hx : S.stackSlots.idxOf? name with
    | none => rfl
    | some x =>
      have hl := h.locals x
      have hlt : x < S.stackSlots.length := (List.idxOf?_eq_some_iff.mp hx).1
      simp only [Except.bind, any_some, CopyScope.fresh, ← h.bound x, boundSlots, hlt] at hl ⊢
      cases hv : env.bindings.lookup x with
      | some value => exact boundLocalName_isOk x value
      | none =>
        rw [hv] at hl
        cases hfresh : env.locals.lookup x with
        | some fresh => rfl
        | none =>
          rw [hfresh] at hl
          cases hl
  | _ => rfl

/-- An edge is copied if its label and all its arguments are. -/
theorem remapInlineEdge_isOk (e : BlockEdge) : (remapInlineEdge env labelMap e).isOk = S.copiesEdge e := by
  have hl := remappedLabel_isOk h e.target
  have hargs : (e.args.mapM env.tryMapBlockArg).isOk = e.args.all S.copiesArg := by
    rw [isOk_mapM]
    exact congrArg (List.all e.args) (funext fun arg => tryMapBlockArg_isOk h arg)
  rw [remapInlineEdge, CopyScope.copiesEdge, ← hl, ← hargs]
  cases remappedLabel labelMap e.target <;> cases e.args.mapM env.tryMapBlockArg <;> rfl

theorem tryMapBlockParam_isOk (p : BlockParam) :
    (env.tryMapBlockParam p).isOk = (S.stackSlots.idxOf? p.name).any S.fresh := by
  rw [RemapEnv.tryMapBlockParam, RemapEnv.calleeLocalLocationByName, h.slots]
  cases S.stackSlots.idxOf? p.name with
  | none => rfl
  | some x =>
    have hx := freshLocal_isOk h x
    simp only [Except.bind, isOk_map, any_some, hx]

variable {returnTarget : ResolvedName} {continuation : BlockLabel}

/-- A generator's return stops the copy, after its value has been copied. -/
theorem remapInlineTerm_scans (t : BlockTerm InstrTyped) :
    (typedDialect.remapInlineTerm env labelMap returnTarget continuation t).Scans S.constants (S.scanTerm t) := by
  cases t with
  | ret value =>
    refine (tryMapInstr_scans h value).andThen_clear fun value => .andThen_pure ?_
    exact .of_check (b := true) fun s _ => ⟨rfl, rfl⟩
  | jump e =>
    rw [CopyScope.scanTerm, ← remapInlineEdge_isOk h]
    exact (RemapM.Scans.lift _).andThen_pure
  | ifTerm test t e =>
    refine (tryMapInstr_scans h test).andThen fun _ => ?_
    rw [← CopyScan.check_andThen, ← remappedLabel_isOk h, ← remappedLabel_isOk h]
    exact (RemapM.Scans.lift _).andThen fun _ => (RemapM.Scans.lift _).andThen_pure
  | branchTable index targets default =>
    refine (tryMapInstr_scans h index).andThen fun _ => ?_
    rw [← CopyScan.check_andThen, ← funext (remappedLabel_isOk h), ← isOk_mapM]
    exact (RemapM.Scans.lift _).andThen fun _ => (RemapM.Scans.lift _).andThen_pure
  | raise exc =>
    cases exc with
    | none => exact .pure _
    | some exc => exact (tryMapInstr_scans h exc).andThen_pure
  | generatorReturn value => exact (tryMapInstr_scans h value).andThen fun _ => .lift (.error _)

/-- The scan of a block follows the copy: label, body, terminator, then parameters and exception edge. -/
theorem remapBlock_scans (b : Block InstrTyped) :
    (typedDialect.remapBlock env labelMap returnTarget continuation b).Scans S.constants (S.scanBlock b) := by
  rw [CopyScope.scanBlock, ← CopyScan.check_andThen, ← remappedLabel_isOk h, ← funext (tryMapBlockParam_isOk h),
    ← isOk_mapM, ← funext (remapInlineEdge_isOk h), ← isOk_option_mapM]
  refine (RemapM.Scans.lift _).andThen fun _ => (tryMapInstrs_scans h _).andThen fun _ => ?_
  refine (remapInlineTerm_scans h b.term).andThen fun _ => (RemapM.Scans.lift _).andThen fun _ => ?_
  exact (RemapM.Scans.lift _).andThen_pure

end

/-! ## Fragments -/

theorem isSome_lookup {β : Type} (l : List (Nat × β)) (x : Nat) : (l.lookup x).isSome = decide (x ∈ l.map Prod.fst) := by
  grind [lookup_isSome_iff]

section

variable {f : CodegenFunction InstrTyped} {k : String} {bound : LocalLocation → Bool} {xs : List LocalLocation}

theorem allocateInlineLocals_isOk :
    (f.allocateInlineLocals k bound xs).isOk = (f.hasStorageLayout || xs.all bound) := by
  induction xs generalizing f with
  | nil => simp [CodegenFunction.allocateInlineLocals, Except.isOk, Except.toBool]
  | cons x xs ih =>
    rw [CodegenFunction.allocateInlineLocals, all_cons]
    cases hx : bound x with
    | true => rw [if_pos rfl, ih, Bool.true_and]
    | false =>
      rw [CodegenFunction.tryAllocateStackTemp]
      cases hl : f.hasStorageLayout with
      | false => rfl
      | true =>
        obtain ⟨r, hr⟩ : ∃ r, CodegenFunction.allocateInlineLocals k bound xs
            { f with stackSlots := ensureStackSlot f.stackSlots (f.tmpName k), nextTmpId := f.nextTmpId + 1 } = .ok r :=
          exists_eq_ok (ih.trans (by rw [hl, Bool.true_or]))
        rw [hl] at hr
        rw [if_pos rfl, ok_bind]
        dsimp only
        rw [hr]
        rfl

end

variable {m : TypedInlineModule} {st : TypedInlineState} {callee : CodegenFunction InstrTyped}
  {calleeConstants : Option (List ConstantExpr)} {context : InlineHandledContext}
  {bindings : List (LocalLocation × InstrTyped)}

/-- The remapper of a fragment is the one the scan describes. -/
theorem typedCopyScope_describes {locals : List (LocalLocation × InlineLocal)} {caller : CodegenFunction InstrTyped}
    (h : locals.map Prod.fst = (List.range callee.stackSlots.length).filter fun x => !(bindings.lookup x).isSome) :
    (typedCopyScope m callee calleeConstants bindings).Describes (typedRemapEnv m callee locals bindings)
      (freshLabelMap caller callee.toBlockPyFunction) where
  slots := rfl
  bound _ := rfl
  locals x := by
    change (locals.lookup x).isSome = _
    rw [isSome_lookup, h, CopyScope.fresh, Bool.eq_iff_iff, Bool.and_eq_true, decide_eq_true_iff, decide_eq_true_iff,
      mem_filter, mem_range, and_comm]
    refine and_congr_left' ?_
    cases hx : bindings.lookup x <;> simp [typedCopyScope, boundSlots, hx]
  cell := rfl
  runtimeName _ := rfl
  labels l := by
    rw [isSome_lookup, freshLabelMap, map_fst_zip]
    · rfl
    · simp [CodegenFunction.nextBlockNames, BlockPyFunction.labels]

/-- The constants of a caller's module after copies: longer exactly when a constant was mentioned. -/
def Grown (mentioned : Bool) (original constants : Option (List ConstantExpr)) : Prop :=
  ∃ extra, constants = original.map (· ++ extra) ∧ (mentioned = true ↔ original.isSome = true ∧ extra ≠ [])

theorem Grown.refl (original : Option (List ConstantExpr)) : Grown false original original :=
  ⟨[], by simp, by simp⟩

theorem Grown.trans {a b : Bool} {c₀ c₁ c₂ : Option (List ConstantExpr)} (h : Grown a c₀ c₁) (h' : Grown b c₁ c₂) :
    Grown (a || b) c₀ c₂ := by
  obtain ⟨extra, rfl, ha⟩ := h
  obtain ⟨extra', rfl, hb⟩ := h'
  refine ⟨extra ++ extra', by simp [Function.comp_def], ?_⟩
  rw [Bool.or_eq_true, ha, hb, isSome_map, ← and_or_left, Ne, Ne, Ne, append_eq_nil_iff, not_and_or]

variable {mentioned : Bool} {constants : Option (List ConstantExpr)} {original : Option (List ConstantExpr)}

theorem Grown.isSome_eq (h : Grown mentioned original constants) : constants.isSome = original.isSome := by
  obtain ⟨extra, rfl, _⟩ := h
  exact isSome_map ..

/-- The table is as it was exactly if no constant was mentioned. -/
theorem Grown.eq_iff (h : Grown mentioned original constants) : constants = original ↔ mentioned = false := by
  obtain ⟨extra, rfl, hm⟩ := h
  rw [← Bool.not_eq_true, hm]
  cases original <;> simp

/-- The copy starts under conditions that can be read off the callee. -/
theorem prepareFragment_isOk : (prepareTypedInlineFragment st callee calleeConstants context bindings).isOk =
    copyStarts st callee calleeConstants context bindings := by
  have hscope : (typedInlineConstantScope st.callerConstants calleeConstants).isOk =
      (calleeConstants.isNone || st.callerConstants.isSome) := by
    cases calleeConstants <;> cases st.callerConstants <;> rfl
  have hrequire : ∀ condition reason, (require condition reason).isOk = condition := by
    intro condition reason
    cases condition <;> rfl
  rw [copyStarts, ← allocateInlineLocals_isOk (k := "typed_inline"), ← hscope]
  refine (isOk_bind fun _ _ => isOk_bind fun _ _ => isOk_bind fun _ _ => isOk_bind fun _ _ => ?_).trans
    (by rw [hrequire, hrequire])
  cases typedInlineConstantScope st.callerConstants calleeConstants <;> rfl

theorem reads_constantScope {scope : ConstantScope}
    (h : typedInlineConstantScope st.callerConstants calleeConstants = .ok scope) : scope.Reads calleeConstants := by
  unfold typedInlineConstantScope at h
  split at h
  · cases h
    rfl
  · split at h
    · cases h
      exact ⟨rfl, nofun⟩
    · cases h

theorem grown_of_advances {scope t : ConstantScope} {mentions : Bool}
    (h : typedInlineConstantScope st.callerConstants calleeConstants = .ok scope) (ha : scope.Advances mentions t) :
    Grown mentions st.callerConstants (t.callerConstants st.callerConstants) := by
  unfold typedInlineConstantScope at h
  split at h
  · cases h
    obtain ⟨rfl, rfl⟩ := ha
    exact .refl _
  · split at h
    · rename_i callee _ caller hcaller
      cases h
      obtain ⟨extra, new, rfl, hlen, hno, hyes⟩ := ha
      rw [hcaller]
      refine ⟨extra, rfl, fun hm => ⟨rfl, ?_⟩, fun hm => ?_⟩
      · have hne := hyes hm
        rw [append_nil, ← length_pos_iff, hlen, length_pos_iff] at hne
        exact hne
      · by_contra hmentions
        have hnew := hno (Bool.eq_false_iff.mpr hmentions)
        rw [hnew, length_nil, eq_comm, length_eq_zero_iff] at hlen
        exact hm.2 hlen
    · cases h

variable (continuation returnTarget) in
/-- Building a fragment does what the scan of the callee says. -/
theorem buildFragment_scans {r : CopyScan} (hr : scanFragment m st callee calleeConstants context bindings = r) :
    (buildTypedDirectCallInlineFragment m st callee calleeConstants context continuation bindings returnTarget).isOk =
        !r.stops ∧
      Grown r.mentions st.callerConstants
        (constantsAfterFragment m st callee calleeConstants context continuation bindings returnTarget) ∧
      ∀ blocks st', buildTypedDirectCallInlineFragment m st callee calleeConstants context continuation bindings
          returnTarget = .ok (blocks, st') →
        st'.callerConstants = constantsAfterFragment m st callee calleeConstants context continuation bindings
          returnTarget ∧ st'.caller.hasStorageLayout = st.caller.hasStorageLayout := by
  rw [scanFragment, ← prepareFragment_isOk] at hr
  rw [constantsAfterFragment]
  cases hp : prepareTypedInlineFragment st callee calleeConstants context bindings with
  | error e =>
    rw [hp] at hr
    obtain rfl : { stops := true } = r := hr
    have herror : ∀ r, buildTypedDirectCallInlineFragment m st callee calleeConstants context continuation bindings
        returnTarget ≠ .ok r := by
      intro r h
      obtain ⟨p, hp'⟩ := prepared_of_buildFragment h
      rw [hp] at hp'
      cases hp'
    refine ⟨?_, .refl _, fun blocks st' h => absurd h (herror _)⟩
    cases hb : buildTypedDirectCallInlineFragment m st callee calleeConstants context continuation bindings
        returnTarget with
    | error e => rfl
    | ok r => exact absurd hb (herror r)
  | ok p =>
    obtain ⟨locals, caller, scope⟩ := p
    rw [hp] at hr
    obtain ⟨hkeys, hlayout, hscope⟩ : locals.map Prod.fst =
          (List.range callee.stackSlots.length).filter (fun x => !(bindings.lookup x).isSome) ∧
        caller.hasStorageLayout = st.caller.hasStorageLayout ∧
        typedInlineConstantScope st.callerConstants calleeConstants = .ok scope := by
      obtain ⟨_, _, _, hlocals, hscope⟩ := prepareTypedInlineFragment_eq_ok hp
      obtain ⟨hdraws, hkeys⟩ := allocateInlineLocals_draws hlocals
      exact ⟨hkeys, hdraws.hasStorageLayout, hscope⟩
    have hscan : (copyTypedCallee m callee continuation bindings returnTarget locals caller).Scans calleeConstants r :=
      hr ▸ RemapM.Scans.mapList fun b _ => remapBlock_scans (typedCopyScope_describes (m := m) hkeys) b
    obtain ⟨hok, _, hadv⟩ := hscan { constants := scope, nextInstrIndex := st.nextInstrIndex } (reads_constantScope hscope)
    rw [buildFragment_of_prepared hp, isOk_map]
    refine ⟨?_, grown_of_advances hscope hadv, fun blocks st' h => ?_⟩
    · rw [← hok, RemapM.run, isOk_map]
    · obtain ⟨⟨bs, s⟩, hrun, h⟩ := map_eq_ok.mp h
      cases h
      dsimp only
      rw [RemapM.run_eq_ok.mp hrun]
      exact ⟨rfl, hlayout⟩

/-! ## Plans -/

/-- The loop over the plans. -/
theorem attemptFragments_error {temps : TypedInlineTemps} {cleanup : BlockLabel} {plans : List TypedInlineDirectCallPlan}
    {st' : TypedInlineState}
    (h : attemptFragments m context temps cleanup st.callerConstants plans st' = some (.error constants))
    (hlayout : st'.caller.hasStorageLayout = st.caller.hasStorageLayout)
    (hgrown : Grown mentioned st.callerConstants st'.callerConstants) :
    constants = st.callerConstants ↔ constantsKept m st context temps plans mentioned = true := by
  induction plans generalizing st' mentioned with
  | nil => cases h
  | cons plan plans ih =>
    rw [attemptFragments] at h
    rw [constantsKept, scanPlan]
    cases hcallee : typedInlineCallee m plan.target with
    | none =>
      rw [hcallee] at h
      cases h
      rw [hgrown.eq_iff]
      simp
    | some c =>
      obtain ⟨callee, calleeConstants⟩ := c
      rw [hcallee] at h
      dsimp only at h ⊢
      split at h
      · cases h
      · rename_i values hvalues
        rw [hvalues, ok_bind]
        split at h
        · rename_i e hbind
          cases h
          rw [hbind]
          exact ⟨fun _ => rfl, fun _ => rfl⟩
        · rename_i bindings hbind
          obtain ⟨r, hr⟩ : ∃ r, scanFragment m st' callee.toCodegenFunction calleeConstants context bindings = r := ⟨_, rfl⟩
          obtain ⟨hok, hgrown', hst⟩ := buildFragment_scans cleanup temps.returnTarget hr
          -- a scan depends on the caller only by whether it has a layout and constants
          rw [scanFragment, copyStarts, hlayout, hgrown.isSome_eq] at hr
          have hgrown := hgrown.trans hgrown'
          rw [hbind, Except.toOption, map_some, scanFragment, copyStarts, hr]
          dsimp only
          split at h
          · rename_i e herror
            cases h
            rw [herror] at hok
            rw [if_pos (by simpa [Except.isOk, Except.toBool] using hok), hgrown.eq_iff, Bool.not_eq_true']
          · rename_i blocks st'' hbuild
            obtain ⟨hconstants, hlayout'⟩ := hst blocks st'' hbuild
            rw [hbuild] at hok
            rw [if_neg (by simpa [Except.isOk, Except.toBool] using hok)]
            exact ih h (hlayout'.trans hlayout) (hconstants ▸ hgrown)

/-! ## Rejected candidates -/

/-- The candidate is rejected before its plans are tried, or the plans keep the constants. -/
def RollsBack (m : TypedInlineModule) (st : TypedInlineState) (block : Block InstrTyped)
    (candidate : TypedInlineStoreCandidate) : Bool :=
  match checkTypedInlineCandidate m (.forCallSite block) candidate, allocateTypedInlineTemps m candidate st.caller with
  | .ok _, .ok (temps, _) => constantsKept m st (.forCallSite block) temps candidate.inlinePlans false
  | _, _ => true

/-- A rejected candidate leaves the block, the layout and the constants as they were, exactly if it rolls back. -/
theorem rejectedInline_rollsBack_iff (m : TypedInlineModule) (st : TypedInlineState) (block : Block InstrTyped)
    (candidate : TypedInlineStoreCandidate) (b : Block InstrTyped) (stackSlots : List String)
    (constants : Option (List ConstantExpr))
    (h : attemptTypedInline m st block candidate = some ⟨.unchanged b, stackSlots, constants⟩) :
    (b = block ∧ stackSlots = st.caller.stackSlots ∧ constants = st.callerConstants) ↔
      RollsBack m st block candidate = true := by
  unfold attemptTypedInline at h
  dsimp only at h
  split at h
  · rename_i u temps caller hcheck htemps
    rw [RollsBack, hcheck, htemps]
    split at h
    · split at h
      · rename_i constants' hloop
        cases h
        have hlayout := (allocateTypedInlineTemps_draws htemps).hasStorageLayout
        simpa using attemptFragments_error hloop hlayout (.refl _)
      · split at h
        · cases h
        · cases h
      · cases h
    · cases h
  · rename_i hfail
    cases h
    refine iff_of_true ⟨rfl, rfl, rfl⟩ ?_
    unfold RollsBack
    split
    · rename_i u temps caller hcheck htemps
      exact absurd htemps (hfail u temps caller hcheck)
    · rfl

namespace InlineRollbackExample

open InstrTyped InlineLabelsExample

/-- `def g(n): return "text"`, with the text in the constants of its module. -/
def constant : TypedInlineCallee where
  params := [⟨"n", .any⟩]
  stackSlots := ["n"]
  functionId := 7
  nextBlockId := 1
  blocks := [{ label := 0, body := [], term := .ret (load ⟨"", .constant 0⟩) }]
  nonempty := by decide
  labelsNodup := by decide

/-- `def h(n): return n`. -/
def identity : TypedInlineCallee where
  params := [⟨"n", .any⟩]
  stackSlots := ["n"]
  functionId := 9
  nextBlockId := 1
  blocks := [{ label := 0, body := [], term := .ret (load ⟨"n", .local 0⟩) }]
  nonempty := by decide
  labelsNodup := by decide

def functions : TypedInlineModule :=
  { callableDefs := [], external := .contextual [(constant, [.literal (.stringLiteral "text")]), (identity, [])],
    runtimeName := fun _ => none }

/-- A call that may go to some functions; there is none with the number 8. -/
def candidateTo (targets : List Nat) : TypedInlineStoreCandidate :=
  { instrIndex := 0, result := .storeTo r, call := .callable call,
    inlinePlans := targets.map fun target => ⟨target, [.provided 0], .callable⟩ }

end InlineRollbackExample

open InlineRollbackExample InlineLabelsExample in
/-- The constant copied for the first function stays when there is no second one. -/
theorem rejectedInline_rollsBack_false :
    ∃ b stackSlots constants,
      attemptTypedInline functions ⟨caller.function, some [], 0⟩ caller.block (candidateTo [7, 8]) =
        some ⟨.unchanged b, stackSlots, constants⟩ ∧
      ¬ (b = caller.block ∧ stackSlots = caller.function.stackSlots ∧ constants = some []) :=
  ⟨_, _, some [.literal (.stringLiteral "text")], rfl, nofun⟩

open InlineRollbackExample InlineLabelsExample in
/-- The copy of a function without constants is given up when there is no second one: by itself it is made, and with the
missing one after it nothing stays. -/
theorem rejectedInline_rollsBack_copied :
    (∃ attempt, attemptTypedInline functions ⟨caller.function, some [], 0⟩ caller.block (candidateTo [9]) = some attempt ∧
      ∀ b stackSlots constants, attempt ≠ ⟨.unchanged b, stackSlots, constants⟩) ∧
    ∃ b stackSlots constants,
      attemptTypedInline functions ⟨caller.function, some [], 0⟩ caller.block (candidateTo [9, 8]) =
        some ⟨.unchanged b, stackSlots, constants⟩ ∧
      b = caller.block ∧ stackSlots = caller.function.stackSlots ∧ constants = some [] := by
  refine ⟨⟨_, rfl, fun b stackSlots constants h => ?_⟩, _, _, _, rfl, ?_⟩
  · cases h
  · exact (rejectedInline_rollsBack_iff functions ⟨caller.function, some [], 0⟩ caller.block (candidateTo [9, 8]) _ _ _
      rfl).mpr (by decide +kernel)

end Soac
