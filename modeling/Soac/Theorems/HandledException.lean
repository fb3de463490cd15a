import Soac.Exceptions.HandledRefines

/-!
# The handled exceptions of an activation are a stack

What every run of an activation keeps, what a selection of scopes makes of the active ones, and what is left at the end.
-/

namespace Soac.Handled

open List StackWorld

/-- Distinct regions of a plan. -/
def DistinctIn (capacity : Nat) (regions : List HandledExceptionRegion) : Prop :=
  (regions.map (·.scope)).Nodup ∧ ∀ region ∈ regions, 1 ≤ region.scope ∧ region.scope ≤ capacity

instance (capacity : Nat) (regions : List HandledExceptionRegion) : Decidable (DistinctIn capacity regions) :=
  inferInstanceAs (Decidable (_ ∧ _))

variable {regions : List HandledExceptionRegion}

theorem DistinctIn.length_le {capacity : Nat} (h : DistinctIn capacity regions) : regions.length ≤ capacity := by
  have hsub : (regions.map (·.scope)).Subperm (List.range' 1 capacity) := by
    refine subperm_of_subset h.1 fun scope hscope => ?_
    obtain ⟨region, hr, rfl⟩ := mem_map.mp hscope
    have hb := h.2 region hr
    rw [mem_range'_1]
    omega
  simpa using hsub.length_le

/-- What a selection makes of the active scopes: those that continue stay, the innermost of the others are left first, and
the regions from the first fresh one on that have a value are entered, in their order. -/
structure Selected (w : World) (regions : List HandledExceptionRegion) (transition : HandledExceptionTransition)
    (w' : World) : Prop where
  scopes : w'.scopes = (continuing transition w.state.pendingScope w.scopes regions).1 ++
    if transition = .enter then
      ((continuing transition w.state.pendingScope w.scopes regions).2.filter (·.hasValue)).map (·.scope)
    else []
  kept : (continuing transition w.state.pendingScope w.scopes regions).1 <+: w.scopes
  inOrder : w'.scopes.Sublist (regions.map (·.scope))
  entered : transition = .enter → ∀ region ∈ regions, region.hasValue = true → region.scope ∈ w'.scopes
  left : w'.left = w.left ++
    (w.scopes.drop (continuing transition w.state.pendingScope w.scopes regions).1.length).reverse
  raised : w'.thread.raised = w.thread.raised

theorem map_scope_entries (regions : List HandledExceptionRegion) :
    (regions.filterMap (·.entry)).map (·.scope) = (regions.filter (·.hasValue)).map (·.scope) := by
  rw [map_filterMap, ← filterMap_eq_filter, map_filterMap]
  refine filterMap_congr fun region _ => ?_
  obtain ⟨scope, _ | o⟩ := region
  · rfl
  · by_cases ho : o = pyNone <;> simp [HandledExceptionRegion.hasValue, HandledExceptionRegion.entry, ho, Option.guard]

variable {a : StackWorld}

theorem StackWorld.select_live (hlive : a.live)
    (hdistinct : DistinctIn a.capacity regions) (transition : HandledExceptionTransition)
    {cont : List Nat × List HandledExceptionRegion}
    (hcont : continuing transition a.pendingScope (a.entries.map (·.scope)) regions = cont) :
    (a.select regions transition).entries.map (·.scope) =
        cont.1 ++ (if transition = .enter then (cont.2.filter (·.hasValue)).map (·.scope) else []) ∧
      (a.select regions transition).left = a.left ++ ((a.entries.map (·.scope)).drop cont.1.length).reverse ∧
      (a.select regions transition).raised = a.raised := by
  obtain ⟨hkeeps, hsub⟩ := continuing_sublist transition a.pendingScope (a.entries.map (·.scope)) regions
  rw [hcont] at hkeeps hsub
  have hkept : (a.entries.take cont.1.length).map (·.scope) = cont.1 := by
    rw [map_take]
    exact (prefix_iff_eq_take.mp hkeeps).symm
  rw [select, hlive, hcont]
  by_cases ht : transition = .enter
  · have hfits : (a.entries.take cont.1.length ++ cont.2.filterMap (·.entry)).length ≤ a.capacity := by
      have hlen := hsub.length_le
      have hfilter := length_filterMap_le (·.entry) cont.2
      have hkept' := congrArg List.length hkept
      have hregions := hdistinct.length_le
      simp only [length_append, length_map] at *
      omega
    simp only [Bool.not_true, Bool.false_eq_true, if_false, ht, if_true, Refines.enterAll_eq, leaveTo]
    rw [take_of_length_le hfits, if_pos hfits, map_append, hkept, map_scope_entries, map_drop]
    exact ⟨rfl, rfl, rfl⟩
  · simp only [Bool.not_true, Bool.false_eq_true, if_false, ht, leaveTo, append_nil, hkept, map_drop,
      and_self]

variable {finalizer : List (RefEvent ObjId) → Option ObjId} {w : World}

theorem Refines.selected (h : Refines w a) (hlive : a.live)
    (hdistinct : DistinctIn w.state.capacity regions) (transition : HandledExceptionTransition) :
    Selected w regions transition (w.step finalizer (.select regions transition)) := by
  have hnext := h.select finalizer regions transition
  have hscopes : w.scopes = a.entries.map (·.scope) := h.stacked.scopes
  have hscopes' : (w.step finalizer (.select regions transition)).scopes =
      (a.select regions transition).entries.map (·.scope) := hnext.stacked.scopes
  obtain ⟨hkeeps, hsub⟩ := continuing_sublist transition w.state.pendingScope w.scopes regions
  rw [h.capacity] at hdistinct
  obtain ⟨hentries, hleft, hraised⟩ := a.select_live hlive hdistinct transition rfl
  rw [← h.pendingScope, ← hscopes] at hentries hleft
  exact {
    scopes := hscopes'.trans hentries
    kept := hkeeps
    inOrder := by
      rw [hscopes', hentries]
      refine List.Sublist.trans (List.Sublist.append_left ?_ _) hsub
      split
      · exact filter_sublist.map _
      · exact nil_sublist _
    entered := by
      intro ht region hr hvalue
      rw [hscopes', hentries, if_pos ht, mem_append]
      refine (continuing_covers (by rw [ht]; decide) w.state.pendingScope w.scopes regions region hr hvalue).imp_right ?_
      exact fun hfresh => mem_map_of_mem (mem_filter.mpr ⟨hfresh, hvalue⟩)
    left := by rw [← h.left] at hleft; exact hnext.left.trans hleft
    raised := hnext.raised.trans (hraised.trans h.raised.symm) }

/-- After the end of its last run an activation has no scope left, its caller's handled exception is seen again, the
error indicator is what it was, and no reference is held but that of the indicator. -/
structure Retired (w : World) (callers : List (Option ObjId)) (w' : World) : Prop where
  scopes : w'.scopes = []
  handled : w'.handled = topmost callers
  left : w'.left = w.left ++ w.scopes.reverse
  raised : w'.thread.raised = w.thread.raised
  refs : ∀ o, RefEvent.held w'.thread.events o = ((raisedRefs w'.thread.raised).count o : Int)

theorem Refines.retired (h : Refines w a) (hactive : a.active) :
    Retired w (a.caller :: a.outer) (w.run finalizer [.retire false, .releaseResidual]) := by
  have hend := h.run finalizer [.retire false, .releaseResidual]
  have hrun : a.run [.retire false, .releaseResidual] =
      { a.leaveTo 0 with pendingScope := 0, active := false, terminal := a.terminal || a.suspended } := by
    cases hs : a.suspended <;>
      simp [StackWorld.run, StackWorld.step, StackWorld.retire, StackWorld.release, StackWorld.leaveTo, hactive, hs]
  rw [hrun] at hend
  exact {
    scopes := hend.stacked.scopes
    handled := hend.handled_eq
    left := by
      have hleft := hend.left
      rw [StackWorld.leaveTo, ← h.left, drop_zero, ← h.stacked.scopes] at hleft
      exact hleft
    raised := hend.raised.trans h.raised.symm
    refs := by simpa [Thread.Holds, StackWorld.leaveTo] using hend.stacked.refs }

/-- The handled exceptions of an activation are a stack. After any run the active scopes, the handled exception, the scopes
left so far and the error indicator are those of the stack, there are no more scopes than there is room for, and the
references held are those of the stack and of the indicator. A selection of distinct regions keeps the scopes that
continue and enters the fresh ones with a value; the end of the last run gives everything back. -/
theorem handledExceptions_stack (finalizer : List (RefEvent ObjId) → Option ObjId) (plan : HandledExceptionPlan)
    (suspended : Bool) (caller : Option ObjId) (outer : List (Option ObjId)) (ops : List Op) :
    let w := (World.new plan suspended caller outer).run finalizer ops
    let a := (new plan suspended caller outer).run ops
    (w.scopes = a.entries.map (·.scope) ∧ w.scopes.length ≤ w.state.capacity ∧ w.handled = a.handled ∧ w.left = a.left ∧
      w.thread.raised = a.raised ∧
      ∀ o, RefEvent.held w.thread.events o =
        (((a.entries.map (·.exception)).count o + (raisedRefs a.raised).count o : Nat) : Int)) ∧
    (∀ regions transition, a.live = true → DistinctIn w.state.capacity regions →
      Selected w regions transition (w.step finalizer (.select regions transition))) ∧
    (a.active = true → Retired w (a.caller :: a.outer) (w.run finalizer [.retire false, .releaseResidual])) := by
  intro w a
  have h : Refines w a := (Refines.new plan suspended caller outer).run finalizer ops
  refine ⟨⟨h.stacked.scopes, h.room_scopes, h.handled_eq, h.left, h.raised, ?_⟩, ?_, ?_⟩
  · intro o
    have hrefs := h.stacked.refs o
    rw [append_nil, h.raised] at hrefs
    exact hrefs
  · intro regions transition hlive hdistinct
    exact h.selected hlive hdistinct transition
  · intro hactive
    exact h.retired hactive

/-- A generator that is suspended in two handlers, the inner one raised into from the outer one, and resumed by a caller
that handles nothing, while every finalizer leaves an exception behind. -/
def resumedInHandlers : List Op := [
  .resume ⟨["outer", "inner"], 0⟩ (some 7) [], .select [⟨1, some 5⟩] .enter, .markRaised 2,
  .select [⟨1, some pyNone⟩, ⟨2, some 6⟩] .enter, .raises (some 8), .retire true, .resume ⟨["outer", "inner"], 0⟩ none []]

theorem handledExceptions_stack_resumed :
    let w := (World.new ⟨["outer", "inner"], 0⟩ true none []).run (fun _ => some 9) resumedInHandlers
    w.scopes = [1, 2] ∧ w.handled = some 6 ∧
      Selected w [⟨1, none⟩] .leave (w.step (fun _ => some 9) (.select [⟨1, none⟩] .leave)) ∧
      Retired w [none] (w.run (fun _ => some 9) [.retire false, .releaseResidual]) := by
  intro w
  obtain ⟨hstack, hselect, hretire⟩ :=
    handledExceptions_stack (fun _ => some 9) ⟨["outer", "inner"], 0⟩ true none [] resumedInHandlers
  exact ⟨hstack.1.trans (by decide), hstack.2.2.1.trans (by decide), hselect _ _ (by decide) (by decide), hretire (by decide)⟩

end Soac.Handled
