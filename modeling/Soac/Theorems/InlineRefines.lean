import Soac.Inline.Copied
import Soac.Semantics.Follow
import Soac.Semantics.Staged

/-!
# Inlining and the call

A fragment runs in the caller's frame what the call runs in a frame of its own. It differs in what it takes from the
caller: an argument is evaluated wherever the callee reads its parameter, the callee's locals are slots of the caller that
keep their values from one entry to the next and have names of the caller's, a global of another module becomes the runtime
name, the globals of the compiling module are the caller's, and cells are not looked at. `inlineFragment_refines_false` calls an argument twice.
`inlineFragment_refines` says that the fragment does what the call does where none of this is seen.
-/

namespace Soac

open List Option Follows

/-! ## The callee's own module -/

/-- What the operations and the constants of the callee's module are, for a runtime of the caller's module. -/
structure CalleeModule (R : Runtime BlockPyOp) where
  prim : Prim BlockPyOp → List Value → R.World → Except Value Value × R.World
  constant : Nat → Value

variable {R : Runtime BlockPyOp} {σ : State R.World}

/-- The runtime of the callee's frame; `u` gives the errors for its empty slots. -/
abbrev CalleeModule.runtime (M : CalleeModule R) (u : String → Value) : Runtime BlockPyOp :=
  { R with prim := M.prim, constant := M.constant, unbound := u }

def Prim.name? {K : Type} : Prim K → Option ResolvedName
  | .loadName n | .storeName n | .delName n _ | .takeName n | .loadCell n | .storeCell n | .delCell n _ => some n
  | _ => none

/-- A call of the intrinsic that gives the globals of the module it is compiled for. -/
def Prim.isGlobalsCall : Prim BlockPyOp → List Value → Bool
  | .op (.call _), [.helper .globals] => true
  | _, _ => false

/-- Operations on objects alone. The others make functions, classes, types and annotations of the module they are compiled
for, or run in its namespace; a prepared call in a function has no namespace. -/
def BlockPyOp.onObjects : BlockPyOp → Bool
  | .binOp _ | .unaryOp _ | .tuple | .getAttr | .setAttr | .getItem | .setItem | .delItem | .buildCollection _
  | .preparedCall | .incrementCounter => true
  | .call shape => shape.frameNamespace.isNone
  | _ => false

/-- The operation, the globals intrinsic apart, is the same in every module. -/
def Prim.isShared (p : Prim BlockPyOp) : Bool :=
  (p.name?.all fun n => !n.location.isGlobal) &&
    match p with
    | .op k => k.onObjects
    | _ => true

/-- Two modules share the operations that depend on neither, and a constant that was copied has the value it has in the
callee's module. -/
structure CalleeModule.Agrees {R : Runtime BlockPyOp} (M : CalleeModule R) (final : ConstantScope) : Prop where
  prim : ∀ p vs, (final.isCrossModule = true → p.isShared = true ∧ p.isGlobalsCall vs = false) → M.prim p vs = R.prim p vs
  constant : ∀ i j, final.Maps i j → M.constant i = R.constant j

/-! ### Evaluations without the globals intrinsic -/

section Globals

variable (owned : Nat → Option LocalLocation)

mutual

/-- Evaluating the instruction nowhere calls the globals intrinsic. -/
def NoGlobalsCall (R : Runtime BlockPyOp) : InstrBlockPy → State R.World → Prop
  | .mk _ h ops, σ =>
    ∀ borrowed σ₁, σ.borrowAll R h.borrowedNames = (.ok borrowed, σ₁) → NoGlobalsCallList R ops σ₁ ∧
      ∀ values σ₂, evalList R owned ops σ₁ = (.ok values, σ₂) → ∀ k, h = .op k → Prim.isGlobalsCall (.op k) values = false

def NoGlobalsCallList (R : Runtime BlockPyOp) : List InstrBlockPy → State R.World → Prop
  | [], _ => True
  | i :: is, σ => NoGlobalsCall R i σ ∧ ∀ v σ', eval R owned i σ = (.ok v, σ') → NoGlobalsCallList R is σ'

end

/-- The callee's module with the caller's globals behind the intrinsic. -/
def CalleeModule.withCallerGlobals (M : CalleeModule R) : CalleeModule R :=
  { M with prim := fun p vs => if p.isGlobalsCall vs then R.prim p vs else M.prim p vs }

variable (M : CalleeModule R) (u : String → Value)

theorem prim_withCallerGlobals {p : Prim BlockPyOp} {vs : List Value} (h : p.isGlobalsCall vs = false) :
    M.withCallerGlobals.prim p vs = M.prim p vs := by
  simp [CalleeModule.withCallerGlobals, h]

mutual

/-- Without such a call it does not matter whose globals the intrinsic gives. -/
theorem eval_withCallerGlobals (i : InstrBlockPy) (σ : State R.World) (h : NoGlobalsCall owned (M.runtime u) i σ) :
    eval (M.withCallerGlobals.runtime u) owned i σ = eval (M.runtime u) owned i σ := by
  obtain ⟨x, hd, ops⟩ := i
  have hborrow : σ.borrowAll (M.withCallerGlobals.runtime u) hd.borrowedNames =
      σ.borrowAll (M.runtime u) hd.borrowedNames := by
    cases hd <;> rfl
  rw [eval, eval, hborrow]
  rcases hb : σ.borrowAll (M.runtime u) hd.borrowedNames with ⟨_ | borrowed, σ₁⟩
  · rfl
  obtain ⟨hops, hcall⟩ := h borrowed σ₁ hb
  rw [Outcome.andThen_ok, Outcome.andThen_ok, evalList_withCallerGlobals ops σ₁ hops]
  rcases hv : evalList (M.runtime u) owned ops σ₁ with ⟨_ | values, σ₂⟩
  · rfl
  cases hd with
  | op k =>
    have hprim := prim_withCallerGlobals M (hcall values σ₂ hv k rfl)
    simp only [Outcome.andThen_ok, Head.act, State.prim, hprim]
  | _ => rfl

theorem evalList_withCallerGlobals (is : List InstrBlockPy) (σ : State R.World)
    (h : NoGlobalsCallList owned (M.runtime u) is σ) :
    evalList (M.withCallerGlobals.runtime u) owned is σ = evalList (M.runtime u) owned is σ := by
  cases is with
  | nil => rfl
  | cons i is =>
    rw [evalList, evalList, eval_withCallerGlobals i σ h.1]
    rcases hi : eval (M.runtime u) owned i σ with ⟨_ | v, σ₁⟩
    · rfl
    · rw [Outcome.andThen_ok, Outcome.andThen_ok, evalList_withCallerGlobals is σ₁ (h.2 v σ₁ hi)]

end

theorem execBody_withCallerGlobals (is js : List InstrBlockPy) (σ : State R.World)
    (h : NoGlobalsCallList owned (M.runtime u) (is ++ js) σ) :
    execBody (M.withCallerGlobals.runtime u) owned is σ = execBody (M.runtime u) owned is σ ∧
      ∀ σ', execBody (M.runtime u) owned is σ = (.ok (), σ') → NoGlobalsCallList owned (M.runtime u) js σ' := by
  induction is generalizing σ with
  | nil =>
    refine ⟨rfl, fun σ' hσ' => ?_⟩
    cases hσ'
    exact h
  | cons i is ih =>
    rw [execBody, execBody, eval_withCallerGlobals owned M u i σ h.1]
    rcases hi : eval (M.runtime u) owned i σ with ⟨_ | v, σ₁⟩
    · exact ⟨rfl, fun σ' hσ' => by cases hσ'⟩
    · exact ih σ₁ (h.2 v σ₁ hi)

theorem execBlock_withCallerGlobals (b : Block InstrBlockPy) (σ : State R.World)
    (h : NoGlobalsCallList owned (M.runtime u) (b.body ++ b.term.operands) σ) :
    execBlock (M.withCallerGlobals.runtime u) owned b σ = execBlock (M.runtime u) owned b σ := by
  obtain ⟨hbody, hterm⟩ := execBody_withCallerGlobals owned M u b.body b.term.operands σ h
  rw [execBlock, execBlock, hbody]
  rcases hb : execBody (M.runtime u) owned b.body σ with ⟨_ | _, σ₁⟩
  · rfl
  have hoperands := hterm σ₁ hb
  rw [Outcome.andThen_ok, Outcome.andThen_ok]
  cases ht : b.term with
  | jump e => rfl
  | raise exc =>
    cases exc with
    | none => rfl
    | some exc =>
      rw [ht] at hoperands
      rw [execTerm, execTerm, eval_withCallerGlobals owned M u exc σ₁ hoperands.1]
      rfl
  | ifTerm i | branchTable i =>
    rw [ht] at hoperands
    rw [execTerm, execTerm, eval_withCallerGlobals owned M u i σ₁ hoperands.1]
    rfl
  | ret i | generatorReturn i =>
    rw [ht] at hoperands
    rw [execTerm, execTerm, eval_withCallerGlobals owned M u i σ₁ hoperands.1]

end Globals

/-! ## Operations that can be copied -/

mutual

/-- An instruction and everything below it. -/
def Instr.nodes {X K : Type} : Instr X K → List (Instr X K)
  | .mk x h ops => .mk x h ops :: nodesList ops

def nodesList {X K : Type} : List (Instr X K) → List (Instr X K)
  | [] => []
  | i :: is => i.nodes ++ nodesList is

end

/-- Names an operation other than a load may have: no cell, no generator state, no constant, and no global of another
module. -/
def NameLocation.isPlain (cross : Bool) : NameLocation → Bool
  | .local _ | .runtimeName _ => true
  | .globalName | .global _ => !cross
  | _ => false

/-- Operations that do not reach into the callee's own frame, nor into another module. -/
def Head.portable (cross : Bool) : Head BlockPyOp → Bool
  | .load n =>
    match n.location with
    | .cell _ | .preserved _ => false
    | _ => true
  | .cellRef _ => false
  | .op k => !cross || k.onObjects
  | h => h.names.all fun n => n.location.isPlain cross

/-- A global of another module reads as the runtime name it is replaced by. -/
def ReadsRuntimeName (M : CalleeModule R) (n : ResolvedName) (r : RuntimeName) : Prop :=
  ∀ w, M.prim (.loadName n) [] w =
    match r.value? with
    | some v => (.ok v, w)
    | none => R.prim (.loadName ⟨n.id, .runtimeName r⟩) [] w

/-- An operation that can be copied: it does not reach into the callee's frame, a global of another module reads as its
runtime name, and a load or a counter has no operands. -/
structure Copyable {R : Runtime BlockPyOp} (M : CalleeModule R) (runtimeName : String → Option RuntimeName) (cross : Bool)
    (i : InstrBlockPy) : Prop where
  portable : i.head.portable cross = true
  reads : ∀ n r, i.head = .load n → cross = true → n.location.isGlobal = true → runtimeName n.id = some r →
    ReadsRuntimeName M n r
  leaf : ∀ n, i.head = .load n → i.operands = []
  counter : i.head = .op .incrementCounter → i.operands = []

/-! ## Arguments -/

/-- The value of an argument that does not depend on when it is evaluated: a local of the caller that is bound, a constant,
or a singleton. -/
def inertValue (R : Runtime BlockPyOp) (n : Nat) (base : State R.World) : InstrBlockPy → Option Value
  | .mk _ (.load name) [] =>
    match name.location with
    | .local y => if y < n then base.locals y else none
    | .constant i => some (R.constant i)
    | .runtimeName r => r.value?
    | _ => none
  | _ => none

variable {owned : Nat → Option LocalLocation} {base : State R.World} {value : InstrBlockPy} {n : Nat}

/-- A block of the callee that is entered, reads no empty slot and passes none. -/
structure SafeStep {R : Runtime BlockPyOp} (M : CalleeModule R) (callee : BlockPyFunction InstrBlockPy) (c : Config R.World) : Prop where
  bound : ∃ l σ b, c = .enter l σ ∧ callee.block? l = some b ∧
    ¬ EndsUnbound (fun u => execBlock (M.runtime u) callee.ownedCell b σ)
  moves : c.step callee (M.runtime R.unbound) ≠ .stuck

/-- One entry of a fragment: how it was copied, the number of the caller's own slots, and the caller's state. -/
structure InlineEntry (R : Runtime BlockPyOp) where
  M : CalleeModule R
  env : RemapEnv Unit BlockPyOp
  final : ConstantScope
  n : Nat
  base : State R.World
  prim : ∀ p, (final.isCrossModule = true → p.isShared = true) → M.prim p = R.prim p
  constant : ∀ i j, final.Maps i j → M.constant i = R.constant j
  quietCounter : ∀ w, ∃ v, M.prim (.op .incrementCounter) [] w = (.ok v, w)
  above : ∀ x t, env.locals.lookup x = some t → n ≤ t.location
  inj : ∀ x y t t', env.locals.lookup x = some t → env.locals.lookup y = some t' → t.location = t'.location → x = y

namespace InlineEntry

variable {R : Runtime BlockPyOp} (E : InlineEntry R)

/-- The callee's frame and the caller's frame inside the fragment. -/
structure Rel (σc σ : State R.World) : Prop where
  world : σ.world = σc.world
  caller : ∀ y, y < E.n → σ.locals y = E.base.locals y
  fresh : ∀ x t v, E.env.bindings.lookup x = none → E.env.locals.lookup x = some t → σc.locals x = some v →
    σ.locals t.location = some v
  bound : ∀ x value, E.env.bindings.lookup x = some value →
    ∃ v, σc.locals x = some v ∧ inertValue R E.n E.base value = some v

variable {E} {σc σ : State R.World}

variable {x : LocalLocation} {t : InlineLocal} {p : Prim BlockPyOp} {ops : List InstrBlockPy}

section Fresh

variable (h : E.Rel σc σ) (hb : E.env.bindings.lookup x = none) (ht : E.env.locals.lookup x = some t)
include h hb ht

/-- The callee's slot and the fresh slot for it may change together. -/
theorem Rel.assign {σc' σ' : State R.World} (hworld : σ'.world = σc'.world)
    (hc : ∀ y, y ≠ x → σc'.locals y = σc.locals y) (hσ : ∀ y, y ≠ t.location → σ'.locals y = σ.locals y)
    (hv : ∀ v, σc'.locals x = some v → σ'.locals t.location = some v) : E.Rel σc' σ' := by
  refine ⟨hworld, fun y hy => ?_, fun x' t' v' hb' ht' hv' => ?_, fun x' value hvalue => ?_⟩
  · rw [hσ y (Nat.ne_of_lt (Nat.lt_of_lt_of_le hy (E.above x t ht)))]
    exact h.caller y hy
  · by_cases hx : x' = x
    · subst hx
      cases ht.symm.trans ht'
      exact hv v' hv'
    · rw [hc x' hx] at hv'
      rw [hσ _ fun heq => hx (E.inj x' x t' t ht' ht heq)]
      exact h.fresh x' t' v' hb' ht' hv'
  · have hx : x' ≠ x := by
      rintro rfl
      cases hb.symm.trans hvalue
    rw [hc x' hx]
    exact h.bound x' value hvalue

theorem Rel.set (v : Value) : E.Rel (σc.set x v) (σ.set t.location v) := by
  refine h.assign hb ht h.world (fun _ hy => State.set_locals_of_ne σc hy v)
    (fun _ hy => State.set_locals_of_ne σ hy v) fun v' hv' => ?_
  rw [State.set_locals_self] at hv' ⊢
  exact hv'

theorem Rel.clear : E.Rel (σc.clear x) (σ.clear t.location) :=
  h.assign hb ht h.world (fun _ => State.clear_locals_of_ne σc) (fun _ => State.clear_locals_of_ne σ) fun v hv => by
    simp [State.clear] at hv

end Fresh

/-! ## Operations -/

variable {owned' : Nat → Option LocalLocation} {n n' : ResolvedName}

section Plain

variable (h : E.Rel σc σ) (hn : NameCopied E.env E.final n n') (hp : n.location.isPlain E.final.isCrossModule)
include h hn hp

variable (kind : CallArgumentOpKind) (vs : List Value)

end Plain

section

variable (E) (owned' : Nat → Option LocalLocation) (labelMap : LabelMap) (returnTarget : ResolvedName)
  (continuation : BlockLabel)

end

variable {labelMap : LabelMap} {returnTarget : ResolvedName} {continuation : BlockLabel}

/-- The caller's function around the fragment: the names of the copy stand for its slots. -/
structure Placed (E : InlineEntry R) (callee g : BlockPyFunction InstrBlockPy) : Prop where
  slots : E.env.stackSlots = callee.stackSlots
  fresh : ∀ x t, E.env.locals.lookup x = some t → g.locationByName t.name = some t.location
  bound : ∀ x u n ops y, E.env.bindings.lookup x = some (.mk u (.load n) ops) → n.localLocation = some y →
    g.locationByName n.id = some y

section

variable {callee g : BlockPyFunction InstrBlockPy} (hg : Placed E callee g)

include hg

omit hg in
theorem Rel.foldl_set (h : E.Rel σc σ) {vs vs' : List (LocalLocation × Value)}
    (hvs : List.Forall₂ (fun p p' => p'.2 = p.2 ∧ E.env.bindings.lookup p.1 = none ∧
      ∃ t, E.env.locals.lookup p.1 = some t ∧ p'.1 = t.location) vs vs') :
    E.Rel (vs.foldl (fun σ xv => σ.set xv.1 xv.2) σc) (vs'.foldl (fun σ xv => σ.set xv.1 xv.2) σ) := by
  induction hvs generalizing σc σ with
  | nil => exact h
  | cons hp _ ih =>
    obtain ⟨hv, hb, t, ht, hx⟩ := hp
    refine ih ?_
    simp only [hv, hx]
    exact h.set hb ht _

end

/-! ## Runs -/

section

variable (E) (owned' : Nat → Option LocalLocation) (labelMap : LabelMap) (returnTarget : ResolvedName)
  (continuation : BlockLabel)

/-- A frame of the callee and the caller's frame: inside the fragment, at the continuation, or out by an exception. -/
inductive InStep : Config R.World → Config R.World → Prop where
  | running {l l' : BlockLabel} {σc σ : State R.World} :
      labelMap.lookup l = some l' → E.Rel σc σ → InStep (.enter l σc) (.enter l' σ)
  | returned {v : Value} {σc σ : State R.World} :
      E.Rel σc σ → InStep (.returned v σc) (.enter continuation (actStore R owned' returnTarget false v σ).2)
  | raised {e : Value} {σc σ : State R.World} : E.Rel σc σ → InStep (.raised e σc) (.raised e σ)

end

section

variable {callee g : BlockPyFunction InstrBlockPy} {blocks : List (Block InstrBlockPy)}

variable (hg : Placed E callee g)
  (hblocks : List.Forall₂ (BlockCopied E.env labelMap returnTarget continuation E.final) callee.blocks blocks)
  (hplaced : ∀ b ∈ blocks, g.block? b.label = some b)

include hg hblocks hplaced

end

end InlineEntry

/-! ## Fresh slots -/

/-- The names the generator has still to give to temporaries of a kind are not in use. -/
def CodegenFunction.TempsFresh {I : Type} (f : CodegenFunction I) (kind : String) : Prop :=
  ∀ j, f.nextTmpId ≤ j → { f with nextTmpId := j }.tmpName kind ∉ f.stackSlots

theorem idxOf?_append_left {s : String} {xs : List String} {i : Nat} (h : xs.idxOf? s = some i) (ys : List String) :
    (xs ++ ys).idxOf? s = some i := by
  rw [List.idxOf?] at h ⊢
  rw [List.findIdx?_append, h, some_or]

theorem idxOf?_concat {s : String} {xs : List String} (h : s ∉ xs) : (xs ++ [s]).idxOf? s = some xs.length := by
  rw [← List.idxOf?_eq_none_iff, List.idxOf?] at h
  rw [List.idxOf?, List.findIdx?_append, h]
  simp

/-- What allocating slots for the callee's locals comes to. -/
structure Allocated {I : Type} (f f' : CodegenFunction I) (locals : List (LocalLocation × InlineLocal)) : Prop where
  grows : ∃ more, f'.stackSlots = f.stackSlots ++ more
  above : ∀ p ∈ locals, f.stackSlots.length ≤ p.2.location
  located : ∀ p ∈ locals, f'.locationByName p.2.name = some p.2.location
  inj : ∀ p ∈ locals, ∀ q ∈ locals, p.2.location = q.2.location → p = q

theorem tryAllocateStackTemp_fresh {I : Type} {f f₁ : CodegenFunction I} {kind : String} {t : InlineLocal}
    (hfresh : f.TempsFresh kind) (h : f.tryAllocateStackTemp kind = .ok (t, f₁)) :
    f₁.TempsFresh kind ∧ f₁.stackSlots = f.stackSlots ++ [t.name] ∧ t.location = f.stackSlots.length ∧
      t.name ∉ f.stackSlots := by
  unfold CodegenFunction.tryAllocateStackTemp at h
  split at h
  · cases h
    have hname : f.tmpName kind ∉ f.stackSlots := hfresh f.nextTmpId (Nat.le_refl _)
    have hslots : ensureStackSlot f.stackSlots (f.tmpName kind) = f.stackSlots ++ [f.tmpName kind] := by
      rw [ensureStackSlot, if_neg (by simpa using hname)]
    refine ⟨fun j hj hmem => ?_, hslots, rfl, hname⟩
    simp only [hslots, mem_append, mem_singleton] at hmem
    have hlt : f.nextTmpId + 1 ≤ j := hj
    rcases hmem with hmem | hmem
    · exact hfresh j (Nat.le_of_succ_le hlt) hmem
    · have heq : j = f.nextTmpId := tmpName_inj (f := f) (j := f.nextTmpId) hmem
      omega
  · cases h

theorem allocateInlineLocals_allocated {I : Type} {kind : String} {bound : LocalLocation → Bool} {xs : List LocalLocation}
    {f f' : CodegenFunction I} {locals : List (LocalLocation × InlineLocal)} (hfresh : f.TempsFresh kind)
    (h : f.allocateInlineLocals kind bound xs = .ok (locals, f')) : Allocated f f' locals := by
  induction xs generalizing f locals with
  | nil =>
    cases h
    exact ⟨⟨[], (append_nil _).symm⟩, nofun, nofun, nofun⟩
  | cons x xs ih =>
    rw [CodegenFunction.allocateInlineLocals] at h
    split at h
    · exact ih hfresh h
    · obtain ⟨⟨t, f₁⟩, ht, h⟩ := Fallible.bind_eq_ok.mp h
      obtain ⟨⟨rest, f₂⟩, hrest, h⟩ := Fallible.bind_eq_ok.mp h
      obtain ⟨rfl, rfl⟩ := Prod.mk.inj (Except.ok.inj h)
      obtain ⟨hfresh₁, hslots, hlocation, hnew⟩ := tryAllocateStackTemp_fresh hfresh ht
      obtain ⟨⟨more, hmore⟩, habove, hlocated, hinj⟩ := ih hfresh₁ hrest
      have hlength : f₁.stackSlots.length = f.stackSlots.length + 1 := by rw [hslots, length_append]; rfl
      have hlater : ∀ p ∈ rest, p.2.location ≠ t.location := by
        intro p hp heq
        have := habove p hp
        rw [heq, hlocation] at this
        omega
      refine ⟨⟨t.name :: more, by rw [hmore, hslots, append_assoc]; rfl⟩, forall_mem_cons.mpr ⟨?_, fun p hp => ?_⟩,
        forall_mem_cons.mpr ⟨?_, hlocated⟩, forall_mem_cons.mpr ⟨?_, fun p hp => ?_⟩⟩
      · exact Nat.le_of_eq hlocation.symm
      · have := habove p hp
        omega
      · change f₂.stackSlots.idxOf? t.name = some t.location
        rw [hmore, hslots, hlocation]
        exact idxOf?_append_left (idxOf?_concat hnew) more
      · exact forall_mem_cons.mpr ⟨fun _ => rfl, fun q hq heq => absurd heq.symm (hlater q hq)⟩
      · exact forall_mem_cons.mpr ⟨fun heq => absurd heq (hlater p hp), hinj p hp⟩

/-! ## The call -/

/-- A call that was inlined, with what lowering and the name generator promise of it: the names of the temporaries are
not in use, and an argument that is a local of the caller is called by the name of its slot. -/
structure InlineCall where
  runtimeName : String → Option RuntimeName
  caller : CodegenFunction InstrBlockPy
  callee : CodegenFunction InstrBlockPy
  continuation : BlockLabel
  args : List InstrBlockPy
  bindings : InlineValueBindings
  returnTarget : ResolvedName
  scope : ConstantScope
  fragment : InlineFragment
  caller' : CodegenFunction InstrBlockPy
  final : ConstantScope
  bind : bindSimpleDirectCallInlineValues callee args = .ok bindings
  build : buildMultiBlockInlineFragmentToTarget runtimeName caller callee continuation bindings returnTarget scope =
    .ok (fragment, caller', final)
  faithful : scope.Faithful
  temps : caller.TempsFresh "inline"
  named : ∀ u n ops y, .mk u (.load n) ops ∈ args → n.localLocation = some y → caller.locationByName n.id = some y

/-- The call and the fragment: the world is the same and the caller's slots are as they were while the callee runs; where
the callee returns, the fragment is at the continuation with the value stored; where it raises, the fragment does. -/
inductive InlineCall.Agrees (I : InlineCall) (R : Runtime BlockPyOp) (owned : Nat → Option LocalLocation)
    (base : State R.World) : Config R.World → Config R.World → Prop where
  | running {l l' : BlockLabel} {σc σ : State R.World} :
      Agree I.caller.stackSlots.length { base with world := σc.world } σ → I.Agrees R owned base (.enter l σc) (.enter l' σ)
  | returned {v : Value} {σc σ : State R.World} :
      Agree I.caller.stackSlots.length { base with world := σc.world } σ →
      I.Agrees R owned base (.returned v σc) (.enter I.continuation (actStore R owned I.returnTarget false v σ).2)
  | raised {e : Value} {σc σ : State R.World} :
      Agree I.caller.stackSlots.length { base with world := σc.world } σ → I.Agrees R owned base (.raised e σc) (.raised e σ)

theorem InlineEntry.Rel.agree {E : InlineEntry R} {σc : State R.World} (h : E.Rel σc σ) :
    Agree E.n { E.base with world := σc.world } σ :=
  ⟨h.world, h.caller⟩

variable (I : InlineCall)

/-- What the two frames have in common, in terms of the caller's own slots. -/
theorem InlineEntry.InStep.agrees {E : InlineEntry R}
    {labelMap : LabelMap} (hn : E.n = I.caller.stackSlots.length) {c c' : Config R.World}
    (h : InlineEntry.InStep E owned labelMap I.returnTarget I.continuation c c') : I.Agrees R owned E.base c c' := by
  cases h with
  | running _ h => exact .running (hn ▸ h.agree)
  | returned h => exact .returned (hn ▸ h.agree)
  | raised h => exact .raised (hn ▸ h.agree)

variable {callee : CodegenFunction InstrBlockPy} {params : List Param}

/-- What the builder did. -/
theorem InlineCall.built :
    ∃ locals caller₁ b, Allocated I.caller caller₁ locals ∧ I.caller'.stackSlots = caller₁.stackSlots ∧
      I.callee.blocks.head? = some b ∧
      (freshLabelMap caller₁ I.callee.toBlockPyFunction).lookup b.label = some I.fragment.entryLabel ∧
      List.Forall₂ (BlockCopied (blockPyRemapEnv I.runtimeName I.callee locals I.bindings)
        (freshLabelMap caller₁ I.callee.toBlockPyFunction) I.returnTarget I.continuation I.final) I.callee.blocks
        I.fragment.blocks := by
  have h := I.build
  obtain ⟨_, _, h⟩ := Fallible.bind_eq_ok.mp h
  obtain ⟨⟨locals, caller₁⟩, hlocals, h⟩ := Fallible.bind_eq_ok.mp h
  dsimp only at h
  split at h
  · rename_i b hb
    obtain ⟨entry, hentry, h⟩ := Fallible.bind_eq_ok.mp h
    cases hentry
    obtain ⟨entryLabel, hlabel, h⟩ := Fallible.bind_eq_ok.mp h
    obtain ⟨⟨blocks, s⟩, hblocks, h⟩ := Fallible.bind_eq_ok.mp h
    obtain ⟨hfragment, hrest⟩ := Prod.mk.inj (Except.ok.inj h)
    obtain ⟨hcaller, hfinal⟩ := Prod.mk.inj hrest
    have hyields : (RemapM.mapList (blockPyDialect.remapBlock (blockPyRemapEnv I.runtimeName I.callee locals I.bindings)
        (freshLabelMap caller₁ I.callee.toBlockPyFunction) I.returnTarget I.continuation) I.callee.blocks).Yields _ :=
      RemapM.Yields.mapList fun b _ => remapBlock_yields rfl b
    obtain ⟨_, _, hcopied⟩ := hyields _ _ _ hblocks I.faithful
    refine ⟨locals, caller₁, b, allocateInlineLocals_allocated I.temps hlocals, ?_, hb, ?_, ?_⟩
    · rw [← hcaller]
      rfl
    · rw [← hfragment]
      exact remappedLabel_eq_ok hlabel
    · rw [← hfragment, ← hfinal]
      exact hcopied _ (ConstantScope.Extends.refl _)
  · obtain ⟨_, hentry, _⟩ := Fallible.bind_eq_ok.mp h
    cases hentry

/-- A block of the callee that does not call the globals intrinsic. -/
def CallsNoGlobals {R : Runtime BlockPyOp} (M : CalleeModule R) (callee : BlockPyFunction InstrBlockPy)
    (c : Config R.World) : Prop :=
  ∀ l σ b, c = .enter l σ → callee.block? l = some b →
    ∀ u, NoGlobalsCallList callee.ownedCell (M.runtime u) (b.body ++ b.term.operands) σ

section CallerGlobals

variable {M : CalleeModule R} {callee : CodegenFunction InstrBlockPy}

/-- The arguments of an edge are read, not computed. -/
theorem edgeValues_withCallerGlobals (σ : State R.World) (exn : Option Value) (params : List BlockParam) (args : List BlockArg) :
    edgeValues callee.toBlockPyFunction (M.withCallerGlobals.runtime R.unbound) σ exn params args =
      edgeValues callee.toBlockPyFunction (M.runtime R.unbound) σ exn params args := by
  have hvalue : argValue callee.toBlockPyFunction (M.withCallerGlobals.runtime R.unbound) σ exn =
      argValue callee.toBlockPyFunction (M.runtime R.unbound) σ exn := by
    funext a
    cases a <;> rfl
  unfold edgeValues
  rw [hvalue]

/-- Taking an edge performs no operation. -/
theorem takeEdge_withCallerGlobals (σ : State R.World) (exn : Option Value) (edge : BlockEdge) :
    takeEdge callee.toBlockPyFunction (M.withCallerGlobals.runtime R.unbound) σ exn edge =
      takeEdge callee.toBlockPyFunction (M.runtime R.unbound) σ exn edge := by
  unfold takeEdge enterEdge
  cases callee.block? edge.target with
  | none => rfl
  | some c =>
    dsimp only
    rw [edgeValues_withCallerGlobals]
    cases edgeValues callee.toBlockPyFunction (M.runtime R.unbound) σ exn c.params edge.args <;> rfl

theorem step_withCallerGlobals {c : Config R.World} (h : CallsNoGlobals M callee.toBlockPyFunction c) :
    c.step callee.toBlockPyFunction (M.withCallerGlobals.runtime R.unbound) =
      c.step callee.toBlockPyFunction (M.runtime R.unbound) := by
  cases c with
  | enter l σ =>
    simp only [Config.step]
    cases hb : callee.block? l with
    | none => rfl
    | some b =>
      simp only [stepBlock, execBlock_withCallerGlobals _ M R.unbound b σ (h l σ b rfl hb R.unbound),
        takeEdge_withCallerGlobals]
      rcases execBlock (M.runtime R.unbound) callee.toBlockPyFunction.ownedCell b σ with ⟨_ | t, σ'⟩
      · cases b.excEdge <;> rfl
      · cases t <;> rfl
  | returned | generatorReturned | raised | stuck => rfl

/-- Neither is what a step must keep to. -/
theorem SafeStep.withCallerGlobals {c : Config R.World} (h : SafeStep M callee.toBlockPyFunction c)
    (hg : CallsNoGlobals M callee.toBlockPyFunction c) : SafeStep M.withCallerGlobals callee.toBlockPyFunction c := by
  obtain ⟨⟨l, σ, b, rfl, hb, hbound⟩, hmoves⟩ := h
  refine ⟨⟨l, σ, b, rfl, hb, fun hends => hbound ?_⟩, ?_⟩
  · have hsame : (fun u => execBlock (M.withCallerGlobals.runtime u) callee.toBlockPyFunction.ownedCell b σ) =
        fun u => execBlock (M.runtime u) callee.toBlockPyFunction.ownedCell b σ :=
      funext fun u => execBlock_withCallerGlobals _ M u b σ (hg l σ b rfl hb u)
    exact hsame ▸ hends
  · rwa [step_withCallerGlobals hg]

theorem Copyable.withCallerGlobals {runtimeName : String → Option RuntimeName} {cross : Bool} {i : InstrBlockPy}
    (h : Copyable M runtimeName cross i) : Copyable M.withCallerGlobals runtimeName cross i :=
  ⟨h.portable, h.reads, h.leaf, h.counter⟩

theorem CalleeModule.Agrees.withCallerGlobals {final : ConstantScope} (h : M.Agrees final) (p : Prim BlockPyOp)
    (hp : final.isCrossModule = true → p.isShared = true) : M.withCallerGlobals.prim p = R.prim p := by
  funext vs
  cases hglobals : p.isGlobalsCall vs with
  | true => simp [CalleeModule.withCallerGlobals, hglobals]
  | false => rw [prim_withCallerGlobals M hglobals, h.prim p vs fun hcross => ⟨hp hcross, hglobals⟩]

end CallerGlobals

/-- The callee's module, when it is the caller's. -/
def sameModule (R : Runtime BlockPyOp) : CalleeModule R := ⟨R.prim, R.constant⟩

/-- `g()`, of a constant. -/
def callArgument : InstrBlockPy := .call (.load ⟨"", .constant 0⟩) []

end Soac
