import Soac.Semantics.Frame

/-!
# Frames with additional slots

A pass that adds temporaries runs the same instructions in a frame with more slots. Two states agree below `n` when they
differ only in slots from `n` on; an instruction that names slots below `n` only does the same in both, and leaves the
other slots alone.
-/

namespace Soac

open List

variable {X K W α β : Type}

/-- Two outcomes: the same result, states that agree below `n`, and in the second the slots from `n` on as they were. -/
structure Matches (n : Nat) (σ' : State W) (r r' : Outcome W α) : Prop where
  result : r'.1 = r.1
  agree : Agree n r.2 r'.2
  keeps : ∀ x, n ≤ x → r'.2.locals x = σ'.locals x

theorem Agree.refl (n : Nat) (σ : State W) : Agree n σ σ := ⟨rfl, fun _ _ => rfl⟩

namespace Matches

variable {n : Nat} {σ σ' : State W}

theorem of_agree (h : Agree n σ σ') (e : Except Value α) : Matches n σ' (e, σ) (e, σ') :=
  ⟨rfl, h, fun _ _ => rfl⟩

/-- One piece after the other. -/
theorem andThen {r r' : Outcome W α} {k k' : α → State W → Outcome W β} (h : Matches n σ' r r')
    (hk : ∀ a τ τ', Agree n τ τ' → Matches n τ' (k a τ) (k' a τ')) :
    Matches n σ' (r.andThen k) (r'.andThen k') := by
  obtain ⟨e, τ⟩ := r
  obtain ⟨e', τ'⟩ := r'
  obtain rfl : e' = e := h.result
  cases e' with
  | ok a =>
    have hm := hk a τ τ' h.agree
    exact ⟨hm.result, hm.agree, fun x hx => (hm.keeps x hx).trans (h.keeps x hx)⟩
  | error e => exact ⟨rfl, h.agree, h.keeps⟩

end Matches

/-! ## The slots an instruction names -/

/-- Whether a name that is a local is a slot below `n`. -/
def ResolvedName.below (n : Nat) (name : ResolvedName) : Bool :=
  match name.localLocation with
  | some x => x < n
  | none => true

mutual

/-- Every local an instruction names is a slot below `n`. -/
def Instr.slotsBelow (n : Nat) : Instr X K → Bool
  | .mk _ h ops => h.names.all (·.below n) && slotsBelowList n ops

def slotsBelowList (n : Nat) : List (Instr X K) → Bool
  | [] => true
  | i :: is => i.slotsBelow n && slotsBelowList n is

end

@[simp] theorem slotsBelow_mk (n : Nat) (x : X) (h : Head K) (ops : List (Instr X K)) :
    (Instr.mk x h ops).slotsBelow n = (h.names.all (·.below n) && slotsBelowList n ops) := by
  rw [Instr.slotsBelow]

theorem slotsBelowList_iff (n : Nat) (ops : List (Instr X K)) : slotsBelowList n ops ↔ ∀ i ∈ ops, i.slotsBelow n := by
  induction ops with
  | nil => simp [slotsBelowList]
  | cons i is ih => simp [slotsBelowList, ih]

/-- The slots of the owned cells lie below `n`. -/
def CellsBelow (n : Nat) (owned : Nat → Option LocalLocation) : Prop :=
  ∀ slot x, owned slot = some x → x < n

section

variable {R : Runtime K} {owned : Nat → Option LocalLocation} {n : Nat} {σ σ' : State R.World}

theorem ResolvedName.below_local {name : ResolvedName} {x : LocalLocation} (h : name.below n)
    (hx : name.localLocation = some x) : x < n := by
  simpa [ResolvedName.below, hx] using h

/-- A piece of a frame with accesses below `n` does the same in states that agree below `n`. -/
theorem Effects.matches {as : List Access} {f : State W → Outcome W α} (h : Effects as f) (hs : ∀ a ∈ as, a.slot < n)
    {σ σ' : State W} (hσ : Agree n σ σ') : Matches n σ' (f σ) (f σ') := by
  obtain ⟨hresult, hagree⟩ := h.agrees n σ σ' hs hσ
  refine ⟨hresult, hagree, fun x hx => h.keeps x σ' fun a ha => ?_⟩
  have hne : x ≠ a.slot := Nat.ne_of_gt (Nat.lt_of_lt_of_le (hs a ha) hx)
  cases a with
  | read y => trivial
  | bind y | publish y | unbind y => exact hne

variable (hc : CellsBelow n owned)
include hc

/-- The accesses of an operation with names below `n` lie below `n`. -/
theorem actAccesses_below {hd : Head K} (hn : hd.names.all (·.below n)) (fresh : Bool) :
    ∀ a ∈ hd.actAccesses owned fresh, a.slot < n := by
  intro a ha
  have hlocal : ∀ nm ∈ hd.names, ∀ x, nm.localLocation = some x → x < n := fun nm hmem x hx =>
    ResolvedName.below_local (all_eq_true.mp hn nm hmem) hx
  cases actAccess_of_mem ha with
  | name hmem hx => exact hlocal _ hmem _ hx
  | cell hx => exact hc _ _ hx
  | @store nm x hx =>
    obtain ⟨id, loc⟩ := nm
    simp only [storeBindingLocation] at hx
    split at hx
    · exact hlocal _ mem_cons_self x hx
    · cases fresh with
      | true => exact hc _ x hx
      | false => cases hx
    · cases hx
  | del hx | take hx => exact hlocal _ mem_cons_self _ hx
  | consume hk hx | publish hk hx => exact hlocal _ (mem_cons_of_mem _ mem_cons_self) _ hx

/-- The accesses of an instruction that names slots below `n` lie below `n`. -/
theorem accesses_below (i : Instr X K) (hi : i.slotsBelow n) : ∀ a ∈ i.accesses owned, a.slot < n := by
  induction i using Instr.induct with
  | mk x hd ops ih =>
    rw [slotsBelow_mk, Bool.and_eq_true, slotsBelowList_iff] at hi
    intro a ha
    rw [accesses_mk, mem_append, mem_append] at ha
    rcases ha with (ha | ha) | ha
    · obtain ⟨nm, hnm, ha⟩ := mem_flatMap.mp ha
      have hmem : nm ∈ hd.names := by cases hd <;> simp_all [Head.names, Head.borrowedNames]
      obtain ⟨x, hx, rfl⟩ := by simpa [readsOf] using ha
      exact ResolvedName.below_local (all_eq_true.mp hi.1 nm hmem) hx
    · rw [accessesList_eq_flatMap, mem_flatMap] at ha
      obtain ⟨j, hj, ha⟩ := ha
      exact ih j hj (hi.2 j hj) a ha
    · exact actAccesses_below hc hi.1 _ a ha

theorem evalList_matches {is : List (Instr X K)} (hi : slotsBelowList n is)
    (h : Agree n σ σ') : Matches n σ' (evalList R owned is σ) (evalList R owned is σ') := by
  refine (evalList_effects R owned is).matches (fun a ha => ?_) h
  rw [accessesList_eq_flatMap, mem_flatMap] at ha
  obtain ⟨j, hj, ha⟩ := ha
  exact accesses_below hc j ((slotsBelowList_iff n is).mp hi j hj) a ha

end

end Soac
