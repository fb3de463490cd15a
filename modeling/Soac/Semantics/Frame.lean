import Soac.Semantics.Run

/-!
# What evaluation leaves alone

An expression that writes no name leaves every slot as it is, but for the operands it takes. The same holds of a
terminator, and of an edge for the slots it does not fill.
-/

namespace Soac

open List Option

variable {X K : Type} {W β : Type}

theorem Access.OnlyClears.leavesAlone {a : Access} {takes : List LocalLocation} {x : LocalLocation} (h : a.OnlyClears takes)
    (hx : x ∉ takes) : a.LeavesAlone x := by
  cases a with
  | read y => trivial
  | unbind y => exact fun e => hx (e ▸ h)
  | bind y | publish y => cases h

section

variable (R : Runtime K) (owned : Nat → Option LocalLocation) (x : LocalLocation)

theorem keeps_borrowAll (h : Head K) (σ : State R.World) : Keeps x σ (σ.borrowAll R h.borrowedNames) :=
  (effects_borrowAll R h.borrowedNames).keeps x σ fun _ ha => (onlyClears_borrow h ha []).leavesAlone not_mem_nil

/-- An expression without writes leaves alone what it does not take. -/
theorem eval_keeps (i : Instr X K) (hw : i.writeFree) (hx : x ∉ i.operandTakes) (σ : State R.World) :
    Keeps x σ (eval R owned i σ) :=
  (eval_effects R owned i).keeps x σ fun _ ha => (onlyClears_of_writeFree owned i hw ha).leavesAlone hx

theorem evalList_keeps (is : List (Instr X K)) (hw : writeFreeList is) (hx : x ∉ operandTakesList is)
    (σ : State R.World) : Keeps x σ (evalList R owned is σ) :=
  (evalList_effects R owned is).keeps x σ fun _ ha => (onlyClears_of_writeFreeList owned is hw ha).leavesAlone hx

/-- A local that still holds a value after an expression without writes has held it all along. -/
theorem eval_locals {i : Instr X K} (hw : i.writeFree) {σ σ' : State R.World} {u v : Value}
    (h : eval R owned i σ = (.ok u, σ')) (hv : σ'.locals x = some v) : σ.locals x = some v :=
  (eval_effects R owned i).locals_of_onlyClears (fun _ ha => onlyClears_of_writeFree owned i hw ha) h hv

/-- The value of a load of a local is what the local holds at the start. -/
theorem eval_localLoad {expr : Instr X K} (hx : localLoadLocation expr = some x)
    (hw : writeFreeList expr.operands) {σ σ' : State R.World} {v : Value}
    (h : eval R owned expr σ = (.ok v, σ')) : σ.locals x = some v := by
  obtain ⟨y, hd, ops⟩ := expr
  cases hd with
  | load n =>
    obtain ⟨id, loc⟩ := n
    obtain ⟨_, σ₁, values, σ₂, hb, hv, hact⟩ := eval_mk_ok h
    obtain ⟨_, rfl⟩ := hb
    refine (evalList_effects R owned ops).locals_of_onlyClears (fun _ ha => onlyClears_of_writeFreeList owned ops hw ha)
      hv ?_
    cases loc with
    | «local» z =>
      obtain rfl : z = x := by simpa [localLoadLocation, ResolvedName.localLocation] using hx
      simp only [Head.act, actLoad, State.readSlot] at hact
      split at hact
      · rename_i u hu
        cases hact
        exact hu
      · cases hact
    | _ => simp [localLoadLocation, ResolvedName.localLocation] at hx
  | _ => simp [localLoadLocation] at hx

/-- The slot the root of a statement binds or clears. -/
def Instr.rootWrite (owned : Nat → Option LocalLocation) (i : Instr X K) : Option LocalLocation :=
  match i.head with
  | .store n => storeBindingLocation owned n (storesFreshCell i.operands)
  | .del n _ => n.localLocation
  | .callArgumentOp kind _ buffer => if kind.replacesBuffer then buffer.localLocation else none
  | _ => none

/-- The root of a statement leaves alone what it neither takes nor writes. -/
theorem leavesAlone_rootAct {y : X} {h : Head K} {ops : List (Instr X K)} (hx : x ∉ h.ownTake.toList)
    (hr : (Instr.mk y h ops).rootWrite owned ≠ some x) {a : Access} (ha : a ∈ h.actAccesses owned (storesFreshCell ops)) :
    a.LeavesAlone x := by
  cases actAccess_of_mem ha with
  | name | cell => trivial
  | store hz | del hz => exact fun e => hr (e ▸ hz)
  | take hz => exact fun e => hx (by simp [Head.ownTake, hz, e])
  | consume hk hz | publish hk hz => exact fun e => hr (by simp [Instr.rootWrite, hk, hz, e])

/-- A statement leaves alone what it neither takes nor writes at its root. -/
theorem eval_statement_keeps (i : Instr X K) (hw : writeFreeList i.operands) (hx : x ∉ i.operandTakes)
    (hr : i.rootWrite owned ≠ some x) (σ : State R.World) : Keeps x σ (eval R owned i σ) := by
  obtain ⟨y, h, ops⟩ := i
  rw [operandTakes_mk, mem_append, not_or] at hx
  refine (keeps_borrowAll R x h σ).andThen fun borrowed σ' _ => ?_
  refine (evalList_keeps R owned x ops hw hx.1 σ').andThen fun values σ'' _ => ?_
  exact (effects_act R owned h _ borrowed values).keeps x σ'' fun a ha => leavesAlone_rootAct owned x hx.2 hr ha

/-- A terminator leaves alone what it does not take. -/
theorem execTerm_keeps (t : BlockTerm (Instr X K)) (hw : writeFreeList t.operands) (hx : x ∉ t.operandTakes)
    (σ : State R.World) : Keeps x σ (execTerm R owned t σ) :=
  (execTerm_effects t).keeps x σ fun _ ha => (onlyClears_of_writeFreeList owned t.operands hw ha).leavesAlone hx

end

/-! ## Edges -/

variable {R : Runtime K} {f : BlockPyFunction (Instr X K)} {params : List BlockParam} {args : List BlockArg}
  {exn : Option Value} {x : LocalLocation} {σ σ' : State R.World} {vs : List (LocalLocation × Value)} {v : Value}

/-- Filling slots leaves alone a slot that only gets the value it has. -/
theorem foldl_set_keeps {σ : State W} (h : ∀ v, (x, v) ∈ vs → σ.locals x = some v) :
    (vs.foldl (fun σ xv => σ.set xv.1 xv.2) σ).locals x = σ.locals x := by
  induction vs generalizing σ with
  | nil => rfl
  | cons yv vs ih =>
    obtain ⟨y, v⟩ := yv
    have hset : (σ.set y v).locals x = σ.locals x := by
      by_cases hxy : x = y
      · subst hxy
        rw [State.set_locals_self, h v (by simp)]
      · exact State.set_locals_of_ne σ hxy v
    rw [foldl_cons, ih fun u hu => ?_, hset]
    rw [hset]
    exact h u (by simp [hu])

/-- A slot that is filled, always with the same value, ends with it. -/
theorem foldl_set_locals {σ : State W} (hx : (x, v) ∈ vs) (hall : ∀ u, (x, u) ∈ vs → u = v) :
    (vs.foldl (fun σ xv => σ.set xv.1 xv.2) σ).locals x = some v := by
  induction vs generalizing σ with
  | nil => cases hx
  | cons yu vs ih =>
    obtain ⟨y, u⟩ := yu
    rw [foldl_cons]
    by_cases hin : (x, v) ∈ vs
    · exact ih hin fun w hw => hall w (mem_cons_of_mem _ hw)
    · obtain ⟨rfl, rfl⟩ : x = y ∧ v = u := by simpa [hin] using hx
      rw [foldl_set_keeps fun w hw => ?_, State.set_locals_self]
      exact absurd (hall w (mem_cons_of_mem _ hw) ▸ hw) hin

/-- The slots an edge fills are those of parameters it passes an argument to, with the values of these arguments. -/
theorem mem_edgeValues (h : edgeValues f R σ exn params args = some vs) (hx : (x, v) ∈ vs) :
    ∃ pa ∈ explicitParams params args, f.locationByName pa.1.name = some x ∧ argValue f R σ exn pa.2 = some v := by
  obtain ⟨pa, hpa, hl, hv⟩ := forall₂_mem_right (edgeValues_eq_some_iff.mp h) hx
  exact ⟨pa, hpa, hl, hv⟩

/-- Every parameter that is passed an argument is filled. -/
theorem exists_edgeValue (h : edgeValues f R σ exn params args = some vs) {pa : BlockParam × BlockArg}
    (hpa : pa ∈ explicitParams params args) (hx : f.locationByName pa.1.name = some x) :
    ∃ v, (x, v) ∈ vs ∧ argValue f R σ exn pa.2 = some v := by
  obtain ⟨⟨y, v⟩, hv, hy, ha⟩ := forall₂_mem_left (edgeValues_eq_some_iff.mp h) hpa
  obtain rfl : y = x := Option.some.inj (hy.symm.trans hx)
  exact ⟨v, hv, ha⟩

/-- An edge leaves alone a slot that its arguments hand the value it has. -/
theorem enterEdge_keeps (h : enterEdge f R σ exn params args = some σ')
    (hx : ∀ pa ∈ explicitParams params args, f.locationByName pa.1.name = some x → argValue f R σ exn pa.2 = σ.locals x) :
    σ'.locals x = σ.locals x := by
  simp only [enterEdge, map_eq_some_iff] at h
  obtain ⟨vs, hvs, rfl⟩ := h
  refine foldl_set_keeps fun v hv => ?_
  obtain ⟨pa, hpa, hl, hval⟩ := mem_edgeValues hvs hv
  rw [← hx pa hpa hl, hval]

/-- An edge to parameters with distinct names leaves a parameter with the value of its argument. -/
theorem enterEdge_explicit (hn : (params.map (·.name)).Nodup) (h : enterEdge f R σ exn params args = some σ')
    {pa : BlockParam × BlockArg} (hpa : pa ∈ explicitParams params args) (hx : f.locationByName pa.1.name = some x) :
    ∃ v, argValue f R σ exn pa.2 = some v ∧ σ'.locals x = some v := by
  simp only [enterEdge, map_eq_some_iff] at h
  obtain ⟨vs, hvs, rfl⟩ := h
  obtain ⟨v, hv, ha⟩ := exists_edgeValue hvs hpa hx
  refine ⟨v, ha, foldl_set_locals hv fun u hu => ?_⟩
  obtain ⟨qb, hqb, hl, hval⟩ := mem_edgeValues hvs hu
  obtain rfl : pa = qb := eq_of_explicit hn hpa hqb (BlockPyFunction.locationByName_inj hx hl)
  exact Option.some.inj (hval.symm.trans ha)

end Soac
