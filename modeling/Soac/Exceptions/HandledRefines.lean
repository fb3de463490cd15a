import Mathlib.Data.List.Induction
import Mathlib.Data.List.Perm.Basic
import Soac.Exceptions.HandledStack

/-!
# How an activation holds its stack

The records and the item of an activation hold a stack of scopes with their exceptions: each record keeps the value of the
scope below it, the item holds the value of the innermost one. Every operation does to them what it does to the stack, and
the references an activation holds are those of its stack.
-/

namespace Soac.Handled

open List Thread HandledExceptionRegion RefEvent

/-! ## References -/

/-- The reference the error indicator holds. -/
def raisedRefs : Option Raised → List ObjId
  | some (.object o) => [o]
  | _ => []

@[simp]
theorem raisedRefs_none : raisedRefs none = [] :=
  rfl

@[simp]
theorem raisedRefs_object (o : ObjId) : raisedRefs (some (.object o)) = [o] :=
  rfl

@[simp]
theorem Thread.dropRaised_raised (t : Thread) : t.dropRaised.raised = none := by
  rw [dropRaised]
  split <;> rfl

/-- The references held are those of the listed objects and of the error indicator. -/
def Thread.Holds (t : Thread) (objects : List ObjId) : Prop :=
  ∀ o, held t.events o = ((objects.count o + (raisedRefs t.raised).count o : Nat) : Int)

namespace Thread.Holds

variable {t : Thread} {objects objects' : List ObjId}

/-- The order in which references are listed does not matter. -/
theorem perm (h : t.Holds objects) (hp : objects.Perm objects') : t.Holds objects' := by
  intro o
  rw [h o, hp.count_eq]

/-- The exception of the error indicator is taken over. -/
theorem takeRaised (h : t.Holds objects) : Holds { t with raised := none } (raisedRefs t.raised ++ objects) := by
  intro o
  have ho := h o
  simp only [count_append, raisedRefs_none, count_nil]
  omega

/-- Emptying the error indicator gives up what it held. -/
theorem dropRaised (h : t.Holds objects) : t.dropRaised.Holds objects := by
  intro o
  have ho := h o
  obtain ⟨caller, outer, raised, events⟩ := t
  obtain _ | o' | message := raised
  · exact ho
  · simp only [raisedRefs_object, count_singleton, beq_iff_eq] at ho
    simp only [dropRaised, held_concat_release, raisedRefs_none, count_nil]
    split at ho <;> simp_all
  · exact ho

/-- The error indicator takes over a reference. -/
theorem setRaised (raised : Option Raised) (h : t.Holds (raisedRefs raised ++ objects)) :
    (t.setRaised raised).Holds objects := by
  intro o
  have ho := h.dropRaised o
  rw [Thread.dropRaised_raised, raisedRefs_none, count_nil, count_append] at ho
  simp only [Thread.setRaised]
  omega

theorem incref (h : t.Holds objects) (o : ObjId) : (t.incref o).Holds (o :: objects) := by
  intro o'
  have ho := h o'
  simp only [Thread.incref, held_concat_acquire, count_cons, beq_iff_eq]
  split <;> omega

/-- Raising an object takes a new reference to it. -/
theorem raiseObject (h : t.Holds objects) (o : ObjId) : (t.raiseObject o).Holds objects := by
  intro o'
  have ho := h.dropRaised o'
  rw [Thread.dropRaised_raised, raisedRefs_none, count_nil] at ho
  simp only [Thread.raiseObject, held_concat_acquire, raisedRefs_object, count_singleton, beq_iff_eq]
  split <;> omega

section
variable {finalizer : List (RefEvent ObjId) → Option ObjId}

/-- A finalizer may set the error indicator, which then holds its own reference. -/
theorem decref {o : ObjId} (h : t.Holds (o :: objects)) : (t.decref finalizer o).Holds objects := by
  have hreleased : Holds { t with events := t.events ++ [.release o] } objects := by
    intro o'
    have ho := h o'
    simp only [count_cons, beq_iff_eq] at ho
    split at ho <;> simp_all
    omega
  rw [Thread.decref]
  split
  · exact hreleased
  · exact hreleased.raiseObject _

theorem xdecref {o : Option ObjId} (h : t.Holds (o.toList ++ objects)) : (t.xdecref finalizer o).Holds objects := by
  cases o with
  | none => exact h
  | some o => exact h.decref

theorem xdecrefRaised {raised : Option Raised} (h : t.Holds (raisedRefs raised ++ objects)) :
    (t.xdecrefRaised finalizer raised).Holds objects := by
  obtain _ | o | message := raised
  · exact h
  · exact h.decref
  · exact h

/-- A list of objects is pinned. -/
theorem increfs (h : t.Holds objects) (os : List ObjId) : (os.foldl Thread.incref t).Holds (os ++ objects) := by
  induction os generalizing t objects with
  | nil => exact h
  | cons o os ih => exact (ih (h.incref o)).perm perm_middle

/-- A list of objects is released. -/
theorem decrefs {os : List ObjId} (h : t.Holds (os ++ objects)) :
    (os.foldl (Thread.decref finalizer) t).Holds objects := by
  induction os generalizing t with
  | nil => exact h
  | cons o os ih => exact ih h.decref

end

end Thread.Holds

/-- Two threads with the same items. -/
def Thread.SameItems (t t' : Thread) : Prop :=
  t'.caller = t.caller ∧ t'.outer = t.outer

namespace Thread

variable (finalizer : List (RefEvent ObjId) → Option ObjId)

theorem SameItems.trans {t t' t'' : Thread} (h : t.SameItems t') (h' : t'.SameItems t'') : t.SameItems t'' :=
  ⟨h'.1.trans h.1, h'.2.trans h.2⟩

variable (t : Thread)

/-- The error indicator is no item. -/
theorem dropRaised_sameItems : t.SameItems t.dropRaised := by
  rw [dropRaised]
  split <;> exact ⟨rfl, rfl⟩

/-- A finalizer leaves the items as they are. -/
theorem decref_sameItems (o : ObjId) : t.SameItems (t.decref finalizer o) := by
  rw [decref]
  split
  · exact ⟨rfl, rfl⟩
  · exact dropRaised_sameItems { t with events := t.events ++ [.release o] }

theorem xdecref_sameItems (o : Option ObjId) : t.SameItems (t.xdecref finalizer o) := by
  cases o with
  | none => exact ⟨rfl, rfl⟩
  | some o => exact decref_sameItems finalizer t o

theorem xdecrefRaised_sameItems (raised : Option Raised) : t.SameItems (t.xdecrefRaised finalizer raised) := by
  obtain _ | o | message := raised
  · exact ⟨rfl, rfl⟩
  · exact decref_sameItems finalizer t o
  · exact ⟨rfl, rfl⟩

variable (os : List ObjId)

theorem increfs_sameItems : t.SameItems (os.foldl incref t) := by
  induction os generalizing t with
  | nil => exact ⟨rfl, rfl⟩
  | cons o os ih => exact ih (t.incref o)

theorem decrefs_sameItems : t.SameItems (os.foldl (decref finalizer) t) := by
  induction os generalizing t with
  | nil => exact ⟨rfl, rfl⟩
  | cons o os ih => exact (decref_sameItems finalizer t o).trans (ih (t.decref finalizer o))

end Thread

/-! ## The stack in the records and the item -/

namespace World

/-- The records and the item hold the entries above a base value, and the references are those of the entries and of the
listed objects. -/
structure Stacked (w : World) (base : Option ObjId) (entries : List Entry) (owned : List ObjId) : Prop where
  scopes : w.state.records.map (·.scope) = entries.map (·.scope)
  values : w.state.records.map (·.previous) ++ [w.item] = base :: entries.map (fun e => some e.exception)
  refs : w.thread.Holds (entries.map (·.exception) ++ owned)

/-- Everything but the stack, the references and the error indicator is the same. -/
structure Same (w w' : World) : Prop where
  outer : w'.thread.outer = w.thread.outer
  caller : w.state.suspended = true → w'.thread.caller = w.thread.caller
  capacity : w'.state.capacity = w.state.capacity
  pendingScope : w'.state.pendingScope = w.state.pendingScope
  suspended : w'.state.suspended = w.state.suspended
  active : w'.state.active = w.state.active
  terminal : w'.state.terminal = w.state.terminal
  sourceLayout : w'.state.sourceLayout = w.state.sourceLayout

theorem Same.refl (w : World) : w.Same w :=
  ⟨rfl, fun _ => rfl, rfl, rfl, rfl, rfl, rfl, rfl⟩

variable {w : World} {base : Option ObjId} {entries : List Entry} {owned : List ObjId}
  {region : HandledExceptionRegion}

theorem Same.trans {w' w'' : World} (h : w.Same w') (h' : w'.Same w'') : w.Same w'' where
  outer := h'.outer.trans h.outer
  caller hs := (h'.caller (h.suspended.trans hs)).trans (h.caller hs)
  capacity := h'.capacity.trans h.capacity
  pendingScope := h'.pendingScope.trans h.pendingScope
  suspended := h'.suspended.trans h.suspended
  active := h'.active.trans h.active
  terminal := h'.terminal.trans h.terminal
  sourceLayout := h'.sourceLayout.trans h.sourceLayout

/-- A thread with the same items in place of the thread. -/
theorem Same.withThread (w : World) {t : Thread} (h : w.thread.SameItems t) : w.Same { w with thread := t } :=
  ⟨h.2, fun _ => h.1, rfl, rfl, rfl, rfl, rfl, rfl⟩

theorem item_withThread (w : World) {t : Thread} (h : w.thread.SameItems t) : item { w with thread := t } = w.item := by
  simp only [item, h.1]

/-- A suspended activation has its item in its own state. -/
theorem item_of_suspended (h : w.state.suspended) : w.item = w.state.item := by
  rw [item, if_pos h]

@[simp]
theorem item_setItem (w : World) (value : Option ObjId) : (w.setItem value).item = value := by
  cases hs : w.state.suspended <;> simp [setItem, item, hs]

/-- Setting the item changes nothing else. -/
theorem setItem_same (w : World) (value : Option ObjId) : w.Same (w.setItem value) := by
  cases hs : w.state.suspended <;> simp only [setItem, hs] <;> constructor <;> simp [hs]

@[simp]
theorem setItem_records (w : World) (value : Option ObjId) : (w.setItem value).state.records = w.state.records := by
  cases hs : w.state.suspended <;> simp [setItem, hs]

@[simp]
theorem setItem_left (w : World) (value : Option ObjId) : (w.setItem value).left = w.left := by
  cases hs : w.state.suspended <;> simp [setItem, hs]

@[simp]
theorem setItem_raised (w : World) (value : Option ObjId) : (w.setItem value).thread.raised = w.thread.raised := by
  cases hs : w.state.suspended <;> simp [setItem, hs]

theorem setItem_holds {objects : List ObjId} (h : w.thread.Holds objects) (value : Option ObjId) :
    (w.setItem value).thread.Holds objects := by
  rw [setItem]
  split <;> exact h

/-- A thread with the same items and other references. -/
theorem Stacked.withThread {owned' : List ObjId} {t : Thread}
    (h : w.Stacked base entries owned) (hitems : w.thread.SameItems t)
    (hrefs : t.Holds (entries.map (·.exception) ++ owned')) : Stacked { w with thread := t } base entries owned' :=
  ⟨h.scopes, by rw [w.item_withThread hitems]; exact h.values, hrefs⟩

/-! ## Leaving scopes -/

section
variable (finalizer : List (RefEvent ObjId) → Option ObjId)

/-- Leaving the innermost scope. -/
theorem Stacked.popRecord {e : Entry} (h : w.Stacked base (entries ++ [e]) owned) :
    (w.popRecord finalizer).Stacked base entries owned ∧ w.Same (w.popRecord finalizer) ∧
      (w.popRecord finalizer).left = w.left ++ [e.scope] := by
  obtain ⟨hscopes, hvalues, hrefs⟩ := h
  rw [map_append] at hscopes hvalues hrefs
  obtain ⟨records, last, hrecords, hscopes, hlast⟩ := map_eq_append_iff.mp hscopes
  obtain ⟨record, rfl, hrecord⟩ := map_eq_singleton_iff.mp hlast
  rw [hrecords, map_append, ← cons_append] at hvalues
  obtain ⟨hvalues, hitem⟩ := append_inj' hvalues rfl
  have hitem : w.item = some e.exception := singleton_inj.mp hitem
  -- the item's reference is that of the scope that is left
  have hrefs' : w.thread.Holds (e.exception :: (entries.map (·.exception) ++ owned)) := by
    refine hrefs.perm ?_
    rw [append_assoc]
    exact perm_middle
  have hlast : w.state.records.getLast? = some record := by rw [hrecords, List.getLast?_concat]
  have hinit : w.state.records.dropLast = records := by rw [hrecords, dropLast_concat]
  simp only [World.popRecord, hlast, hinit, hitem]
  generalize hw : ({ w with state := { w.state with records := records }, left := w.left ++ [record.scope] } : World) = w₁
  have hsame : w.Same w₁ := by
    subst hw
    exact ⟨rfl, fun _ => rfl, rfl, rfl, rfl, rfl, rfl, rfl⟩
  have hitems := Thread.xdecref_sameItems finalizer (w₁.setItem record.previous).thread (some e.exception)
  refine ⟨⟨?_, ?_, ?_⟩, (hsame.trans (w₁.setItem_same _)).trans (.withThread _ hitems), ?_⟩
  · rw [setItem_records, ← hw]
    exact hscopes
  · rw [item_withThread _ hitems, item_setItem, setItem_records, ← hw]
    exact hvalues
  · refine .xdecref (setItem_holds ?_ _)
    rw [← hw]
    exact hrefs'
  · rw [setItem_left, ← hw, hrecord]

/-- There is a record for each scope. -/
theorem Stacked.length_eq (h : w.Stacked base entries owned) : w.state.records.length = entries.length := by
  simpa using congrArg List.length h.scopes

/-- Leaving scopes down to a depth. -/
theorem Stacked.popTo (h : w.Stacked base entries owned) (depth : Nat) :
    (w.popTo finalizer depth).Stacked base (entries.take depth) owned ∧ w.Same (w.popTo finalizer depth) ∧
      (w.popTo finalizer depth).left = w.left ++ ((entries.drop depth).map (·.scope)).reverse := by
  induction entries using List.reverseRecOn generalizing w with
  | nil =>
    have hpop : w.popTo finalizer depth = w := by
      rw [World.popTo, h.length_eq, length_nil, Nat.zero_sub, popRecords]
    rw [hpop, take_nil]
    exact ⟨h, .refl w, by simp⟩
  | append_singleton entries e ih =>
    have hlen := h.length_eq
    rw [length_append, length_singleton] at hlen
    rcases Nat.lt_or_ge entries.length depth with hd | hd
    · have hpop : w.popTo finalizer depth = w := by
        rw [World.popTo, hlen, Nat.sub_eq_zero_of_le hd, popRecords]
      have hlong : (entries ++ [e]).length ≤ depth := by
        rw [length_append, length_singleton]
        omega
      rw [hpop, take_of_length_le hlong, drop_of_length_le hlong]
      exact ⟨h, .refl w, by simp⟩
    · obtain ⟨hstacked, hsame, hleft⟩ := h.popRecord finalizer
      obtain ⟨hstacked', hsame', hleft'⟩ := ih hstacked
      have hpop : w.popTo finalizer depth = (w.popRecord finalizer).popTo finalizer depth := by
        rw [World.popTo, World.popTo, hlen, hstacked.length_eq, Nat.sub_add_comm hd, popRecords]
      rw [hpop, take_append_of_le_length hd, drop_append_of_le_length hd]
      refine ⟨hstacked', hsame.trans hsame', ?_⟩
      rw [hleft', hleft]
      simp

end

/-! ## Entering scopes -/

/-- The entry a region makes has its scope and its exception. -/
theorem entry_eq_some {e : Entry} (h : region.entry = some e) :
    region.scope = e.scope ∧ region.exception = some e.exception := by
  rw [entry] at h
  split at h
  · cases h
  · next o ho =>
    split at h
    · cases h
    · cases h
      exact ⟨rfl, ho⟩

/-- Entering a scope: the record saves the value that was handled before. -/
theorem Stacked.pushRecord (h : w.Stacked base entries owned) {e : Entry} (he : region.entry = some e) :
    (w.pushRecord region).Stacked base (entries ++ [e]) owned ∧ w.Same (w.pushRecord region) ∧
      (w.pushRecord region).left = w.left ∧ (w.pushRecord region).thread.raised = w.thread.raised := by
  obtain ⟨hscope, hexception⟩ := entry_eq_some he
  simp only [World.pushRecord, hexception]
  generalize hw : ({ w with thread := w.thread.incref e.exception } : World) = w₁
  have hitems : w.thread.SameItems (w.thread.incref e.exception) := ⟨rfl, rfl⟩
  have hsame : w.Same w₁ := by
    subst hw
    exact .withThread w hitems
  have hset := w₁.setItem_same (some e.exception)
  refine ⟨⟨?_, ?_, ?_⟩, ?_, ?_, ?_⟩
  · simp only [setItem_records, map_append, map_singleton, hscope, ← hw, h.scopes]
  · have hitem : item { w₁.setItem (some e.exception) with
        state := { (w₁.setItem (some e.exception)).state with
          records := (w₁.setItem (some e.exception)).state.records ++ [⟨region.scope, w.item⟩] } } =
        (w₁.setItem (some e.exception)).item := rfl
    rw [hitem, item_setItem, setItem_records, map_append, map_append, ← hw]
    show (w.state.records.map (·.previous) ++ [w.item]) ++ [some e.exception] = _
    rw [h.values]
    rfl
  · refine setItem_holds ?_ _
    rw [← hw]
    refine (h.refs.incref e.exception).perm ?_
    rw [map_append, append_assoc]
    exact perm_middle.symm
  · refine hsame.trans (hset.trans ?_)
    exact ⟨rfl, fun _ => rfl, rfl, rfl, rfl, rfl, rfl, rfl⟩
  · rw [setItem_left, ← hw]
  · rw [setItem_raised, ← hw]
    rfl

/-- A region with a value makes an entry. -/
theorem exists_entry (h : region.hasValue) : ∃ e, region.entry = some e := by
  rw [hasValue, decide_eq_true_eq] at h
  obtain ⟨hnull, hnone⟩ := h
  obtain ⟨o, ho⟩ := Option.ne_none_iff_exists'.mp hnull
  rw [ho, Ne, Option.some.injEq] at hnone
  exact ⟨⟨region.scope, o⟩, by simp [entry, ho, hnone]⟩

theorem setRaised_sameItems (t : Thread) (raised : Option Raised) : t.SameItems (t.setRaised raised) :=
  t.dropRaised_sameItems

/-- An operation that is rejected only sets the error indicator. -/
theorem Stacked.stateError
    (h : w.Stacked base entries owned) (message : String) : (w.stateError message).Stacked base entries owned :=
  h.withThread (setRaised_sameItems _ _) (Thread.Holds.setRaised (some (.runtimeError message)) h.refs)

/-- Entering scopes, as many as there is room for. -/
theorem Stacked.pushRegions
    (h : w.Stacked base entries owned) (hroom : entries.length ≤ w.state.capacity) (hlive : w.state.terminal = false)
    {regions : List HandledExceptionRegion} (hvalues : ∀ region ∈ regions, region.hasValue) :
    (World.pushRegions regions w).2.Stacked base
        ((entries ++ regions.filterMap (·.entry)).take w.state.capacity) owned ∧
      w.Same (World.pushRegions regions w).2 ∧ (World.pushRegions regions w).2.left = w.left ∧
      if (entries ++ regions.filterMap (·.entry)).length ≤ w.state.capacity then
        (World.pushRegions regions w).1 = 0 ∧ (World.pushRegions regions w).2.thread.raised = w.thread.raised
      else
        (World.pushRegions regions w).1 = -1 ∧ (World.pushRegions regions w).2.thread.raised =
          some (.runtimeError "invalid handled-exception region transition") := by
  induction regions generalizing w entries with
  | nil =>
    have htake : (entries ++ []).take w.state.capacity = entries := by
      rw [append_nil, take_of_length_le hroom]
    rw [filterMap_nil, htake, append_nil, if_pos hroom]
    exact ⟨h, .refl w, rfl, rfl, rfl⟩
  | cons region regions ih =>
    obtain ⟨e, he⟩ := exists_entry (hvalues region mem_cons_self)
    have hlen := h.length_eq
    rw [filterMap_cons_some he, World.pushRegions]
    by_cases hfull : entries.length = w.state.capacity
    · have htake : (entries ++ e :: regions.filterMap (·.entry)).take w.state.capacity = entries :=
        take_left' hfull
      have hlong : ¬ (entries ++ e :: regions.filterMap (·.entry)).length ≤ w.state.capacity := by
        rw [length_append, length_cons]
        omega
      rw [if_pos (.inr (hlen.trans hfull)), htake, if_neg hlong]
      exact ⟨h.stateError _, .withThread w (setRaised_sameItems _ _), rfl, rfl, rfl⟩
    · have hcont : ¬ (w.state.terminal ∨ w.state.records.length = w.state.capacity) := by
        rw [hlive, hlen]
        simp [hfull]
      obtain ⟨hstacked, hsame, hleft, hraised⟩ := h.pushRecord he
      have hrest := ih hstacked (by rw [hsame.capacity, length_append, length_singleton]; omega)
        (hsame.terminal.trans hlive) (fun r hr => hvalues r (mem_cons_of_mem _ hr))
      rw [hsame.capacity, append_assoc, hleft, hraised] at hrest
      rw [if_neg hcont]
      exact ⟨hrest.1, hsame.trans hrest.2.1, hrest.2.2⟩

end World

/-! ## The scopes that continue -/

variable (transition : HandledExceptionTransition) (pendingScope : Nat)

/-- The loop over the regions finds the scopes that continue and the regions to enter. -/
theorem scanRegions_eq (records : List HandledExceptionRecord) (regions : List HandledExceptionRegion) (common : Nat) :
    scanRegions transition pendingScope records regions common =
      (common + (continuing transition pendingScope ((records.drop common).map (·.scope)) regions).1.length,
        (continuing transition pendingScope ((records.drop common).map (·.scope)) regions).2) := by
  induction regions generalizing common with
  | nil => rw [scanRegions, continuing, length_nil, Nat.add_zero]
  | cons region regions ih =>
    rw [scanRegions, ih (common + 1), ih common, ← List.head?_drop, ← tail_drop]
    cases records.drop common with
    | nil =>
      by_cases hunwind : transition = .unwind
      · simp [continuing, hunwind]
      · by_cases hfresh : region.hasValue = true ∨ region.scope = pendingScope <;> simp [continuing, hunwind, hfresh]
    | cons record rest =>
      simp only [List.head?_cons, Option.map_some, Option.some.injEq, map_cons, tail_cons, continuing]
      by_cases hcont : (transition = .unwind ∨ region.scope ≠ pendingScope) ∧ record.scope = region.scope
      · simp only [if_pos hcont, length_cons, Nat.add_assoc, Nat.add_comm 1]
      · rw [if_neg hcont, if_neg hcont]
        by_cases hunwind : transition = .unwind
        · simp [hunwind]
        · by_cases hfresh : region.hasValue = true ∨ region.scope = pendingScope <;> simp [hunwind, hfresh]

/-- The scopes that continue are outermost ones, and with the regions entered afresh they stand in the order of the
regions. -/
theorem continuing_sublist (scopes : List Nat) (regions : List HandledExceptionRegion) :
    (continuing transition pendingScope scopes regions).1 <+: scopes ∧
      ((continuing transition pendingScope scopes regions).1 ++
        (continuing transition pendingScope scopes regions).2.map (·.scope)).Sublist (regions.map (·.scope)) := by
  fun_induction continuing transition pendingScope scopes regions with
  | case1 scopes => exact ⟨ nil_prefix, nil_sublist _⟩
  | case2 region regions h | case5 scope scopes region regions h h' => exact ⟨ nil_prefix, .refl _⟩
  | case3 region regions h ih | case6 scope scopes region regions h h' ih => exact ⟨ih.1, ih.2.cons _⟩
  | case4 scope scopes region regions h kept fresh heq ih =>
    rw [heq] at ih
    rw [h.2]
    exact ⟨cons_prefix_cons.mpr ⟨rfl, ih.1⟩, ih.2.cons_cons _⟩

/-- Unless scopes are unwound, a region with a value continues or is entered afresh. -/
theorem continuing_covers {transition : HandledExceptionTransition} (ht : transition ≠ .unwind) (pendingScope : Nat)
    (scopes : List Nat) (regions : List HandledExceptionRegion) :
    ∀ region ∈ regions, region.hasValue →
      region.scope ∈ (continuing transition pendingScope scopes regions).1 ∨
        region ∈ (continuing transition pendingScope scopes regions).2 := by
  fun_induction continuing transition pendingScope scopes regions with
  | case1 scopes => nofun
  | case2 region regions h => exact fun r hr _ => .inr hr
  | case3 region regions h ih => exact forall_mem_cons.mpr ⟨fun hvalue => absurd ⟨ht, .inl hvalue⟩ h, ih⟩
  | case4 scope scopes region regions h kept fresh heq ih =>
    rw [heq] at ih
    refine forall_mem_cons.mpr ⟨fun _ => .inl (h.2 ▸ mem_cons_self), fun r hr hvalue => ?_⟩
    exact (ih r hr hvalue).imp_left (mem_cons_of_mem _)
  | case5 scope scopes region regions h h' => exact fun r hr _ => .inr hr
  | case6 scope scopes region regions h h' ih => exact forall_mem_cons.mpr ⟨fun hvalue => absurd ⟨ht, .inl hvalue⟩ h', ih⟩

namespace World

section
variable (finalizer : List (RefEvent ObjId) → Option ObjId) {w : World} {base : Option ObjId} {entries : List Entry}
  {owned : List ObjId}

theorem Stacked.takeRaised (h : w.Stacked base entries owned) :
    w.takeRaised.Stacked base entries (raisedRefs w.thread.raised ++ owned) := by
  refine h.withThread (t := { w.thread with raised := none }) ⟨rfl, rfl⟩ (h.refs.takeRaised.perm ?_)
  rw [← append_assoc, ← append_assoc]
  exact perm_append_comm.append_right _

theorem takeRaised_same (w : World) : w.Same w.takeRaised :=
  .withThread w ⟨rfl, rfl⟩

/-- Pinning the operands adds a reference to each. -/
theorem Stacked.pinRegions (h : w.Stacked base entries owned) (regions : List HandledExceptionRegion) :
    (w.pinRegions regions).Stacked base entries (regions.filterMap (·.exception) ++ owned) := by
  refine h.withThread (Thread.increfs_sameItems _ _) ((h.refs.increfs _).perm ?_)
  rw [← append_assoc, ← append_assoc]
  exact perm_append_comm.append_right _

/-- Unpinning them gives these references up. -/
theorem Stacked.unpinRegions {regions : List HandledExceptionRegion}
    (h : w.Stacked base entries (regions.filterMap (·.exception) ++ owned)) :
    (w.unpinRegions finalizer regions).Stacked base entries owned := by
  refine h.withThread (Thread.decrefs_sameItems _ _ _) (Thread.Holds.decrefs (h.refs.perm ?_))
  rw [← append_assoc, ← append_assoc]
  exact perm_append_comm.append_right _

theorem Stacked.perm {owned' : List ObjId} (h : w.Stacked base entries owned) (hp : owned.Perm owned') :
    w.Stacked base entries owned' :=
  ⟨h.scopes, h.values, h.refs.perm (hp.append_left _)⟩

/-- An owned exception is given up and the error indicator is set to another one. -/
theorem Stacked.replaceRaised {dropped kept : Option Raised}
    (h : w.Stacked base entries (raisedRefs dropped ++ raisedRefs kept)) :
    Stacked { w with thread := (w.thread.xdecrefRaised finalizer dropped).setRaised kept } base entries [] ∧
      w.Same { w with thread := (w.thread.xdecrefRaised finalizer dropped).setRaised kept } := by
  have hitems := (w.thread.xdecrefRaised_sameItems finalizer dropped).trans (setRaised_sameItems _ kept)
  refine ⟨h.withThread hitems ?_, .withThread w hitems⟩
  have hdropped : w.thread.Holds (raisedRefs dropped ++ (raisedRefs kept ++ entries.map (·.exception))) := by
    refine h.refs.perm (perm_append_comm.trans ?_)
    rw [append_assoc]
  rw [append_nil]
  exact .setRaised _ (Thread.Holds.xdecrefRaised hdropped)

/-- At the end of a selection the pins are gone and the error indicator is back, unless there is a new error. -/
theorem Stacked.finishSelect {fresh : List HandledExceptionRegion} {savedError : Option Raised} (status : Int)
    (h : w.Stacked base entries (fresh.filterMap (·.exception) ++ raisedRefs savedError)) :
    (w.finishSelect finalizer status fresh savedError).Stacked base entries [] ∧
      w.Same (w.finishSelect finalizer status fresh savedError) ∧
      (w.finishSelect finalizer status fresh savedError).left = w.left ∧
      (w.finishSelect finalizer status fresh savedError).thread.raised =
        if status < 0 then w.thread.raised else savedError := by
  have hunpinned : (w.takeRaised.unpinRegions finalizer fresh).Stacked base entries
      (raisedRefs w.thread.raised ++ raisedRefs savedError) := by
    refine Stacked.unpinRegions finalizer (h.takeRaised.perm ?_)
    rw [← append_assoc, ← append_assoc]
    exact perm_append_comm.append_right _
  have hsame : w.Same (w.takeRaised.unpinRegions finalizer fresh) :=
    w.takeRaised_same.trans (.withThread _ (Thread.decrefs_sameItems _ _ _))
  rw [World.finishSelect]
  by_cases hstatus : status < 0
  · have hend := (hunpinned.perm perm_append_comm).replaceRaised finalizer
    simp only [if_pos hstatus]
    exact ⟨hend.1, hsame.trans hend.2, rfl, rfl⟩
  · have hend := hunpinned.replaceRaised finalizer
    simp only [if_neg hstatus]
    exact ⟨hend.1, hsame.trans hend.2, rfl, rfl⟩

end

end World

/-! ## Refinement -/

/-- What stands below the scopes in the item. -/
def StackWorld.base (a : StackWorld) : Option ObjId :=
  if a.suspended then none else a.caller

/-- The activation holds the stack. -/
structure Refines (w : World) (a : StackWorld) : Prop where
  stacked : w.Stacked a.base a.entries []
  raised : w.thread.raised = a.raised
  left : w.left = a.left
  outer : w.thread.outer = a.outer
  caller : a.suspended = true → w.thread.caller = a.caller
  capacity : w.state.capacity = a.capacity
  pendingScope : w.state.pendingScope = a.pendingScope
  suspended : w.state.suspended = a.suspended
  active : w.state.active = a.active
  terminal : w.state.terminal = a.terminal
  sourceLayout : w.state.sourceLayout = a.sourceLayout
  room : a.entries.length ≤ a.capacity
  exceptions : ∀ e ∈ a.entries, e.exception ≠ pyNone
  idle : a.suspended = false → a.active = false → a.entries = []

namespace Refines

variable (finalizer : List (RefEvent ObjId) → Option ObjId) {w : World} {a : StackWorld}

/-- A new activation handles nothing. -/
theorem new (plan : HandledExceptionPlan) (suspended : Bool) (caller : Option ObjId) (outer : List (Option ObjId)) :
    Refines (World.new plan suspended caller outer) (StackWorld.new plan suspended caller outer) where
  stacked := ⟨rfl, by cases suspended <;> rfl, fun _ => rfl⟩
  raised := rfl
  left := rfl
  outer := rfl
  caller _ := rfl
  capacity := rfl
  pendingScope := rfl
  suspended := rfl
  active := rfl
  terminal := rfl
  sourceLayout := rfl
  room := Nat.zero_le _
  exceptions _ he := absurd he not_mem_nil
  idle _ _ := rfl

section

variable (h : Refines w a)
include h

/-- A thread with the same items, other references and another error indicator. -/
theorem withThread {t : Thread} (hitems : w.thread.SameItems t) (hrefs : t.Holds (a.entries.map (·.exception) ++ []))
    {raised : Option Raised} (hraised : t.raised = raised) : Refines { w with thread := t } { a with raised } :=
  { h with
    stacked := h.stacked.withThread hitems hrefs
    raised := hraised
    outer := hitems.2.trans h.outer
    caller := fun hs => hitems.1.trans (h.caller hs) }

/-- A rejected operation is rejected by the stack machine with the same message. -/
theorem stateError (message : String) : Refines (w.stateError message) (a.fail message) :=
  h.withThread (World.setRaised_sameItems _ _) (.setRaised (some (.runtimeError message)) h.stacked.refs) rfl

/-- An activation that has changed in its stack and its error indicator only. -/
theorem ofSame {w' : World} {entries : List Entry} {left : List Nat}
    (hsame : w.Same w') (hstacked : w'.Stacked a.base entries []) (hleft : w'.left = left)
    (hroom : entries.length ≤ a.capacity) (hexceptions : ∀ e ∈ entries, e.exception ≠ pyNone)
    (hidle : a.suspended = false → a.active = false → entries = []) :
    Refines w' { a with entries, left, raised := w'.thread.raised } where
  stacked := hstacked
  raised := rfl
  left := hleft
  outer := hsame.outer.trans h.outer
  caller hs := (hsame.caller (h.suspended.trans hs)).trans (h.caller hs)
  capacity := hsame.capacity.trans h.capacity
  pendingScope := hsame.pendingScope.trans h.pendingScope
  suspended := hsame.suspended.trans h.suspended
  active := hsame.active.trans h.active
  terminal := hsame.terminal.trans h.terminal
  sourceLayout := hsame.sourceLayout.trans h.sourceLayout
  room := hroom
  exceptions := hexceptions
  idle := hidle

/-- A raised mark is the pending scope. -/
theorem markRaised (scope : Nat) : Refines (w.markRaised scope) { a with pendingScope := scope } :=
  { h with stacked := ⟨h.stacked.scopes, h.stacked.values, h.stacked.refs⟩, pendingScope := rfl }

/-- The records and the stack agree on what continues. -/
theorem scan_eq (regions : List HandledExceptionRegion) (transition : HandledExceptionTransition) :
    scanRegions transition w.state.pendingScope w.state.records regions 0 =
      ((continuing transition a.pendingScope (a.entries.map (·.scope)) regions).1.length,
        (continuing transition a.pendingScope (a.entries.map (·.scope)) regions).2) := by
  rw [scanRegions_eq, drop_zero, Nat.zero_add, h.pendingScope, h.stacked.scopes]

/-- The operands of the fresh regions are pinned and the scopes that do not continue are left. -/
theorem popTo_pinRegions (fresh : List HandledExceptionRegion) (depth : Nat) :
    ((w.takeRaised.pinRegions fresh).popTo finalizer depth).Stacked a.base (a.entries.take depth)
        (fresh.filterMap (·.exception) ++ raisedRefs w.thread.raised) ∧
      w.Same ((w.takeRaised.pinRegions fresh).popTo finalizer depth) ∧
      ((w.takeRaised.pinRegions fresh).popTo finalizer depth).left =
        a.left ++ ((a.entries.drop depth).map (·.scope)).reverse := by
  have hpinned := h.stacked.takeRaised.pinRegions fresh
  rw [append_nil] at hpinned
  obtain ⟨hstacked, hsame, hleft⟩ := hpinned.popTo finalizer depth
  refine ⟨hstacked, (w.takeRaised_same.trans (.withThread _ (increfs_sameItems _ _))).trans hsame, ?_⟩
  rw [hleft, ← h.left]
  rfl

/-- A selection that enters nothing leaves the scopes that do not continue. -/
theorem select_stay (hlive : a.live) (regions : List HandledExceptionRegion)
    {transition : HandledExceptionTransition} (ht : transition ≠ .enter) :
    Refines (w.select finalizer regions transition).2 (a.select regions transition) := by
  obtain ⟨hactive, hterminal⟩ : a.active = true ∧ a.terminal = false := by simpa [StackWorld.live] using hlive
  rw [World.select, StackWorld.select, h.active, h.terminal, hactive, hterminal, hlive]
  simp only [Bool.not_true, Bool.or_self, Bool.false_eq_true, if_false, if_neg ht]
  rw [show w.takeRaised.state = w.state from rfl, h.scan_eq]
  generalize continuing transition a.pendingScope (a.entries.map (·.scope)) regions = cont
  obtain ⟨hstacked, hsame, hleft⟩ := h.popTo_pinRegions finalizer (cont.2.filter (·.hasValue)) cont.1.length
  obtain ⟨hstacked', hsame', hleft', hraised⟩ := hstacked.finishSelect finalizer 0
  have href := h.ofSame (hsame.trans hsame') hstacked' (hleft'.trans hleft)
    (Nat.le_trans (length_take_le' _ _) h.room) (fun e he => h.exceptions e (mem_of_mem_take he))
    (fun hs hn => by rw [h.idle hs hn, take_nil])
  rw [hraised, if_neg (by decide)] at href
  simpa only [StackWorld.leaveTo, h.raised] using href

end

theorem filterMap_entry_filter (regions : List HandledExceptionRegion) :
    (regions.filter (·.hasValue)).filterMap (·.entry) = regions.filterMap (·.entry) := by
  rw [filterMap_filter]
  refine filterMap_congr fun region _ => ?_
  obtain ⟨scope, _ | o⟩ := region
  · rfl
  · by_cases ho : o = pyNone <;> simp [hasValue, entry, ho]

theorem entry_exception_ne {region : HandledExceptionRegion} {e : Entry} (h : region.entry = some e) :
    e.exception ≠ pyNone := by
  rw [entry] at h
  split at h
  · cases h
  · split at h
    · cases h
    · cases h
      assumption

/-- The stack machine enters as many scopes as there is room for. -/
theorem enterAll_eq (a : StackWorld) (entries : List Entry) :
    a.enterAll entries = { a with
      entries := (a.entries ++ entries).take a.capacity
      raised := if (a.entries ++ entries).length ≤ a.capacity then a.raised
        else some (.runtimeError "invalid handled-exception region transition") } := by
  rw [StackWorld.enterAll]
  split <;> rfl

section

variable (h : Refines w a)
include h

/-- A selection that enters leaves the scopes that do not continue and enters the others. -/
theorem select_enter (hlive : a.live) (regions : List HandledExceptionRegion) :
    Refines (w.select finalizer regions .enter).2 (a.select regions .enter) := by
  obtain ⟨hactive, hterminal⟩ : a.active = true ∧ a.terminal = false := by simpa [StackWorld.live] using hlive
  rw [World.select, StackWorld.select, h.active, h.terminal, hactive, hterminal, hlive]
  simp only [Bool.not_true, Bool.or_self, Bool.false_eq_true, if_false, if_true]
  rw [show w.takeRaised.state = w.state from rfl, h.scan_eq]
  generalize continuing .enter a.pendingScope (a.entries.map (·.scope)) regions = cont
  have hvalues : ∀ region ∈ cont.2.filter (·.hasValue), region.hasValue := fun _ hr => (mem_filter.mp hr).2
  have hes := filterMap_entry_filter cont.2
  generalize cont.2.filter (·.hasValue) = fresh at *
  rw [← hes]
  obtain ⟨hstacked, hsame, hleft⟩ := h.popTo_pinRegions finalizer fresh cont.1.length
  generalize (w.takeRaised.pinRegions fresh).popTo finalizer cont.1.length = w₁ at *
  have hcapacity := hsame.capacity.trans h.capacity
  have hpush := hstacked.pushRegions
    (by rw [hcapacity]; exact Nat.le_trans (length_take_le' _ _) h.room)
    ((hsame.terminal.trans h.terminal).trans hterminal) hvalues
  rw [hcapacity] at hpush
  obtain ⟨hstacked₂, hsame₂, hleft₂, hstatus⟩ := hpush
  generalize World.pushRegions fresh w₁ = pushed at *
  obtain ⟨status, w₂⟩ := pushed
  simp only at hstatus
  have hstacked₃ : (w₂.markRaised 0).Stacked _ _ _ := ⟨hstacked₂.scopes, hstacked₂.values, hstacked₂.refs⟩
  have hsame₃ : (w.markRaised 0).Same (w₂.markRaised 0) := { hsame.trans hsame₂ with pendingScope := rfl }
  obtain ⟨hstacked₄, hsame₄, hleft₄, hraised⟩ := hstacked₃.finishSelect finalizer status
  have href := (h.markRaised 0).ofSame (hsame₃.trans hsame₄) hstacked₄ (hleft₄.trans (hleft₂.trans hleft))
    (length_take_le _ _) ?_ fun _ hn => absurd (hactive.symm.trans hn) (by decide)
  · have hindicator : (if status < 0 then w₂.thread.raised else w.thread.raised) =
        if (a.entries.take cont.1.length ++ fresh.filterMap (·.entry)).length ≤ a.capacity then a.raised
        else some (.runtimeError "invalid handled-exception region transition") := by
      split at hstatus
      · next hfits => rw [hstatus.1, if_neg (by decide), h.raised, if_pos hfits]
      · next hfits => rw [hstatus.1, if_pos (by decide), hstatus.2, if_neg hfits]
    rw [hraised] at href
    rw [enterAll_eq]
    exact hindicator ▸ href
  · intro e he
    rcases mem_append.mp (mem_of_mem_take he) with he | he
    · exact h.exceptions e (mem_of_mem_take he)
    · obtain ⟨region, _, hregion⟩ := mem_filterMap.mp he
      exact entry_exception_ne hregion

/-- Every selection, also on an activation that is not live, where it is rejected. -/
theorem select (regions : List HandledExceptionRegion) (transition : HandledExceptionTransition) :
    Refines (w.select finalizer regions transition).2 (a.select regions transition) := by
  by_cases hlive : a.live
  · by_cases ht : transition = .enter
    · rw [ht]
      exact h.select_enter finalizer hlive regions
    · exact h.select_stay finalizer hlive regions ht
  · have hdead : (!a.active || a.terminal) := by
      cases hactive : a.active <;> cases hterminal : a.terminal <;> simp_all [StackWorld.live]
    rw [World.select, StackWorld.select, h.active, h.terminal, if_pos hdead, if_pos (by simpa using hlive)]
    exact h.stateError _

theorem markTerminal : Refines w.markTerminal { a with terminal := true } :=
  { h with stacked := ⟨h.stacked.scopes, h.stacked.values, h.stacked.refs⟩, terminal := rfl }

theorem raises (raised : Option ObjId) :
    Refines (w.step finalizer (.raises raised)) { a with raised := raised.map .object } := by
  have hdrop := w.thread.dropRaised_sameItems
  cases raised with
  | none => exact h.withThread hdrop h.stacked.refs.dropRaised (dropRaised_raised _)
  | some o => exact h.withThread (t := w.thread.raiseObject o) hdrop (h.stacked.refs.raiseObject o) rfl

/-- The body has ended and every scope is left, while the error indicator was kept aside. -/
theorem leaveScopes : Refines ((w.takeRaised.leaveScopes finalizer).detach w.thread.raised)
      { a.leaveTo 0 with pendingScope := 0, active := false } := by
  obtain ⟨hstacked, hsame, hleft⟩ := h.stacked.takeRaised.popTo finalizer 0
  rw [World.leaveScopes]
  generalize w.takeRaised.popTo finalizer 0 = w₁ at *
  have hitems := World.setRaised_sameItems w₁.thread w.thread.raised
  rw [take_zero] at hstacked
  have hrefs := hstacked.refs
  have hleft : w₁.left = (a.leaveTo 0).left := by
    rw [StackWorld.leaveTo, ← h.left]
    exact hleft
  have href := h.ofSame ((w.takeRaised_same.trans hsame).trans (.withThread w₁ hitems))
    (hstacked.withThread hitems (.setRaised _ hrefs)) hleft (Nat.zero_le _) nofun fun _ _ => rfl
  exact { href with
    stacked := ⟨href.stacked.scopes, href.stacked.values, href.stacked.refs⟩
    raised := h.raised
    pendingScope := rfl
    active := rfl
    idle := fun _ _ => rfl }

/-- A suspension keeps every scope. -/
theorem detach (hs : a.suspended) : Refines (w.takeRaised.detach w.thread.raised) { a with active := false } :=
  { h with
    stacked := by
      have hrefs := h.stacked.takeRaised.refs
      refine ⟨h.stacked.scopes, h.stacked.values, ?_⟩
      rw [append_nil]
      exact .setRaised _ (hrefs.perm (by rw [append_nil]; exact perm_append_comm))
    active := rfl
    idle := fun hn => absurd (hs.symm.trans hn) (by decide) }

/-- Retirement leaves every scope, unless the activation only yields. -/
theorem retire (yielded : Bool) : Refines (w.retireScopesAndDetach finalizer yielded) (a.retire yielded) := by
  have hsuspended : w.takeRaised.state.suspended = a.suspended := h.suspended
  have hterminal : w.takeRaised.state.terminal = a.terminal := h.terminal
  rw [World.retireScopesAndDetach, StackWorld.retire, World.retireScopes, hsuspended, hterminal, h.active]
  cases hactive : a.active with
  | false => exact h
  | true =>
    cases hs : a.suspended with
    | false =>
      simp only [Bool.not_true, Bool.false_and, Bool.false_eq_true, if_false, Bool.or_false]
      exact h.leaveScopes finalizer
    | true =>
      by_cases hyield : yielded ∧ a.terminal = false
      · simpa [hyield, hs] using h.detach hs
      · have hend : (!yielded || a.terminal) := by
          cases yielded <;> cases ht : a.terminal <;> simp_all
        have hend' : (yielded && !a.terminal) = false := by
          cases yielded <;> cases ht : a.terminal <;> simp_all
        simp only [hend, hend', Bool.not_true, Bool.and_false, Bool.false_eq_true, if_false, if_true, Bool.or_true]
        exact h.markTerminal.leaveScopes finalizer

end

/-- The records of an activation that will not run again are given up, with the values they saved. -/
theorem releaseRecords {objects : List ObjId} (h : w.thread.Holds (w.state.records.filterMap (·.previous) ++ objects)) :
    ∃ t, w.releaseRecords finalizer w.state.records.length =
        { w with state := { w.state with records := [] }, thread := t } ∧
      w.thread.SameItems t ∧ t.Holds objects := by
  generalize hrecords : w.state.records = records at h
  induction records using List.reverseRecOn generalizing w with
  | nil =>
    refine ⟨w.thread, ?_, ⟨rfl, rfl⟩, h⟩
    rw [length_nil, World.releaseRecords, ← hrecords]
  | append_singleton records record ih =>
    have hlast : w.state.records.getLast? = some record := by rw [hrecords, List.getLast?_concat]
    have hinit : w.state.records.dropLast = records := by rw [hrecords, dropLast_concat]
    have hrelease : w.releaseRecord finalizer = { w with
        state := { w.state with records := records }, thread := w.thread.xdecref finalizer record.previous } := by
      simp only [World.releaseRecord, hlast, hinit]
    have hholds : w.thread.Holds (record.previous.toList ++ (records.filterMap (·.previous) ++ objects)) := by
      refine h.perm ?_
      rw [filterMap_append, append_assoc, ← append_assoc, ← append_assoc]
      refine .append_right _ (perm_append_comm.trans ?_)
      cases hp : record.previous <;> simp [hp]
    obtain ⟨t, ht, hitems, hrefs⟩ := ih (w := w.releaseRecord finalizer) (by rw [hrelease])
      (by rw [hrelease]; exact hholds.xdecref)
    refine ⟨t, ?_, ?_, hrefs⟩
    · rw [length_append, length_singleton, World.releaseRecords, ht, hrelease]
    · rw [hrelease] at hitems
      exact (w.thread.xdecref_sameItems finalizer record.previous).trans hitems

section

variable (h : Refines w a)
include h

/-- The residual item of a suspended activation that has ended is released. -/
theorem releaseResidual : Refines (w.releaseResidual finalizer) a.release := by
  rw [World.releaseResidual, StackWorld.release, h.suspended, h.active, h.terminal]
  by_cases hend : (!a.suspended || a.active || !a.terminal)
  · rw [if_pos hend, if_pos hend]
    exact h
  · rw [if_neg hend, if_neg hend]
    obtain ⟨hs, hactive, hterminal⟩ : a.suspended ∧ a.active = false ∧ a.terminal := by
      cases hs : a.suspended <;> cases ha : a.active <;> cases ht : a.terminal <;> simp_all
    have hitem : w.item = w.state.item := World.item_of_suspended (h.suspended.trans hs)
    -- the saved values and the item's value are those of the entries
    have hvalues : w.state.records.filterMap (·.previous) ++ w.state.item.toList = a.entries.map (·.exception) := by
      have hv := congrArg (List.filterMap id) h.stacked.values
      rw [StackWorld.base, if_pos hs, hitem] at hv
      cases hi : w.state.item <;> simpa [hi, filterMap_map, Function.comp_def] using hv
    have hrefs : w.takeRaised.thread.Holds (w.takeRaised.state.records.filterMap (·.previous) ++
        (w.state.item.toList ++ raisedRefs w.thread.raised)) := by
      have hr := h.stacked.takeRaised.refs
      rw [← hvalues, append_nil, append_assoc] at hr
      exact hr
    obtain ⟨t, ht, hitems, hholds⟩ := releaseRecords finalizer hrefs
    simp only [ht]
    have hitems' : w.thread.SameItems ((t.xdecref finalizer w.state.item).setRaised w.thread.raised) :=
      (Thread.SameItems.trans hitems (t.xdecref_sameItems finalizer w.state.item)).trans (World.setRaised_sameItems _ _)
    exact { h with
      stacked := by
        refine ⟨rfl, ?_, ?_⟩
        · simp [World.item, StackWorld.base, World.takeRaised, h.suspended, hs]
        · refine .setRaised _ ?_
          rw [map_nil, nil_append, append_nil]
          exact hholds.xdecref
      outer := hitems'.2.trans h.outer
      caller := fun hs => hitems'.1.trans (h.caller hs)
      pendingScope := rfl
      room := Nat.zero_le _
      exceptions := nofun
      idle := fun _ _ => rfl }

/-- Clearing an activation that runs only marks it as terminal. -/
theorem clear : Refines (w.clear finalizer) (a.step .clear) := by
  rw [World.clear, StackWorld.step, show w.markTerminal.state.active = a.active from h.active]
  by_cases hactive : a.active
  · rw [if_pos hactive, if_pos hactive]
    exact h.markTerminal
  · rw [if_neg hactive, if_neg hactive]
    exact h.markTerminal.releaseResidual finalizer

/-- An activation is entered on a caller, or the entry is rejected. -/
theorem enter (caller : Option ObjId) (outer : List (Option ObjId)) :
    Refines (w.enter caller outer) (a.enter caller outer) := by
  rw [World.enter, StackWorld.enter, h.active, h.terminal, h.suspended]
  by_cases hrunning : (a.active || a.terminal)
  · rw [if_pos hrunning, if_pos hrunning]
    exact h.stateError _
  · obtain ⟨hactive, hterminal⟩ : a.active = false ∧ a.terminal = false := by simpa using hrunning
    rw [if_neg hrunning, if_neg hrunning]
    by_cases hs : a.suspended
    · rw [if_pos hs, if_pos hs]
      have hvalues := h.stacked.values
      rw [StackWorld.base, if_pos hs, World.item_of_suspended (h.suspended.trans hs)] at hvalues
      exact { h with
        stacked := by
          refine ⟨h.stacked.scopes, ?_, h.stacked.refs⟩
          rw [StackWorld.base, if_pos hs]
          exact Eq.trans (congrArg (fun v => _ ++ [v]) (World.item_of_suspended (h.suspended.trans hs))) hvalues
        outer := rfl
        caller := fun _ => rfl
        active := rfl
        idle := fun hn => absurd hs (by rw [hn]; decide) }
    · rw [if_neg hs, if_neg hs]
      have hrefs := h.stacked.refs
      rw [h.idle (by simpa using hs) hactive] at hrefs
      exact { h with
        stacked := ⟨rfl, by simp [World.item, StackWorld.base, h.suspended, hs], hrefs⟩
        outer := rfl
        caller := fun hn => absurd hn hs
        pendingScope := rfl
        active := rfl
        terminal := hterminal.symm
        room := Nat.zero_le _
        exceptions := nofun
        idle := fun _ hn => nomatch hn }

theorem setCapacity {capacity : Nat} (hc : a.capacity ≤ capacity) :
    Refines { w with state := { w.state with capacity } } { a with capacity } :=
  { h with
    stacked := ⟨h.stacked.scopes, h.stacked.values, h.stacked.refs⟩
    capacity := rfl
    room := Nat.le_trans h.room hc }

theorem resume (plan : HandledExceptionPlan) (caller : Option ObjId) (outer : List (Option ObjId)) :
    Refines (w.resume plan caller outer) (a.resume plan caller outer) := by
  have hany : w.state.records.any (fun record => plan.sourceScopes < record.scope) =
      a.entries.any (fun e => plan.sourceScopes < e.scope) := by
    have hmap := congrArg (fun scopes => scopes.any fun scope => decide (plan.sourceScopes < scope)) h.stacked.scopes
    simpa only [any_map, Function.comp_def] using hmap
  rw [World.resume, StackWorld.resume, h.suspended]
  by_cases hs : a.suspended
  · rw [if_pos hs, if_pos hs, World.preparePlan, h.active, h.sourceLayout, hany, h.capacity]
    by_cases hchanged : (a.active || a.sourceLayout ≠ plan.sourceLayout ||
        a.entries.any (fun e => plan.sourceScopes < e.scope))
    · rw [if_pos hchanged, if_pos hchanged]
      exact h.stateError _
    · rw [if_neg hchanged, if_neg hchanged]
      by_cases hgrow : a.capacity < plan.len
      · rw [if_pos hgrow, Nat.max_eq_right (Nat.le_of_lt hgrow)]
        exact (h.setCapacity (Nat.le_of_lt hgrow)).enter caller outer
      · rw [if_neg hgrow, Nat.max_eq_left (Nat.le_of_not_lt hgrow)]
        exact h.enter caller outer
  · rw [if_neg hs, if_neg hs]
    exact h.enter caller outer

theorem step (op : Op) : Refines (w.step finalizer op) (a.step op) := by
  cases op with
  | resume plan caller outer => exact h.resume plan caller outer
  | raises raised => exact h.raises finalizer raised
  | markRaised scope => exact h.markRaised scope
  | select regions transition => exact h.select finalizer regions transition
  | retire yielded => exact h.retire finalizer yielded
  | releaseResidual => exact h.releaseResidual finalizer
  | clear => exact h.clear finalizer

theorem run (ops : List Op) : Refines (w.run finalizer ops) (a.run ops) := by
  induction ops generalizing w a with
  | nil => exact h
  | cons op ops ih => exact ih (h.step finalizer op)

theorem item_eq : w.item = (a.entries.getLast?.map (·.exception)).elim a.base some := by
  have hlast := congrArg List.getLast? h.stacked.values
  rw [List.getLast?_concat] at hlast
  cases he : a.entries using List.reverseRecOn with
  | nil =>
    rw [he] at hlast
    exact Option.some.inj hlast
  | append_singleton entries e =>
    rw [he, map_append, map_singleton, ← cons_append, List.getLast?_concat] at hlast
    rw [List.getLast?_concat]
    exact Option.some.inj hlast

/-- Python sees the exception of the innermost scope. -/
theorem handled_eq : w.handled = a.handled := by
  have hitem := h.item_eq
  have htop : ∀ e, a.entries.getLast? = some e → ∀ items, topmost (some e.exception :: items) = some e.exception := by
    intro e he items
    rw [topmost, if_neg (h.exceptions e (mem_of_getLast? he))]
  rw [World.handled, World.items, h.suspended, h.active, h.outer, StackWorld.handled]
  rw [World.item, h.suspended, StackWorld.base] at hitem
  cases hs : a.suspended with
  | true =>
    rw [hs, if_pos rfl] at hitem
    rw [h.caller hs, hitem]
    cases hactive : a.active <;> cases hlast : a.entries.getLast? <;> simp [topmost, htop, hlast]
  | false =>
    rw [hs, if_neg (by decide)] at hitem
    cases hactive : a.active with
    | true =>
      rw [hitem]
      cases hlast : a.entries.getLast? <;> simp [htop, hlast]
    | false =>
      rw [h.idle hs hactive] at hitem ⊢
      rw [hitem]
      rfl

theorem room_scopes : w.scopes.length ≤ w.state.capacity := by
  rw [World.scopes, h.stacked.scopes, length_map, h.capacity]
  exact h.room

end

end Refines

end Soac.Handled
