import Soac.Semantics.Eval

/-!
# The slot accesses of an instruction

Which slots an instruction reads, binds and clears, in the order it does so, is fixed by its tree: every operand runs. The
abstract level of the ownership analyses is this list of accesses. `eval_performs` connects it to the evaluation: a normal
outcome has performed all the accesses, an exception some first part of them.
-/

namespace Soac

open List State

/-- One access to a slot: a read, a store, a call-argument phase that publishes its buffer, or a delete or take. -/
inductive Access where
  | read (x : LocalLocation)
  | bind (x : LocalLocation)
  | publish (x : LocalLocation)
  | unbind (x : LocalLocation)
deriving DecidableEq, Repr

/-- The slot of an access. -/
def Access.slot : Access → LocalLocation
  | .read x | .bind x | .publish x | .unbind x => x

/-- Which slots hold a reference after an access. -/
def Access.apply (β : LocalLocation → Bool) : Access → LocalLocation → Bool
  | .read _ => β
  | .bind x | .publish x => Function.update β x true
  | .unbind x => Function.update β x false

/-- Which slots hold a reference after a list of accesses. -/
def applyAccesses (as : List Access) (β : LocalLocation → Bool) : LocalLocation → Bool :=
  as.foldl Access.apply β

@[simp] theorem applyAccesses_nil (β : LocalLocation → Bool) : applyAccesses [] β = β := rfl

@[simp] theorem applyAccesses_cons (a : Access) (as : List Access) (β : LocalLocation → Bool) :
    applyAccesses (a :: as) β = applyAccesses as (a.apply β) := rfl

@[simp] theorem applyAccesses_append (as bs : List Access) (β : LocalLocation → Bool) :
    applyAccesses (as ++ bs) β = applyAccesses bs (applyAccesses as β) :=
  foldl_append

variable {X K : Type}

/-! ## The accesses of an instruction -/

/-- Reading the slot an optional location names. -/
def readsOf (x : Option LocalLocation) : List Access :=
  (x.map Access.read).toList

def Head.borrowAccesses (h : Head K) : List Access :=
  h.borrowedNames.flatMap (fun n => readsOf n.localLocation)

/-- The accesses of an operation after its operands have run. -/
def Head.actAccesses (owned : Nat → Option LocalLocation) (fresh : Bool) : Head K → List Access
  | .load n =>
    match n.location with
    | .local x => [.read x]
    | .cell (.owned slot) => readsOf (owned slot)
    | _ => []
  | .store n =>
    match n.location with
    | .local x => [.bind x]
    | .cell (.owned slot) => if fresh then ((owned slot).map Access.bind).toList else readsOf (owned slot)
    | _ => []
  | .del n _ =>
    match n.location with
    | .local x => [.read x, .unbind x]
    | .cell (.owned slot) => readsOf (owned slot)
    | _ => []
  | .takeOperand n =>
    match n.localLocation with
    | some x => [.read x, .unbind x]
    | none => []
  | .callArgumentOp kind _ buffer =>
    (if kind.consumesBufferBeforeHelper then (buffer.localLocation.map Access.unbind).toList else []) ++
      (if kind.replacesBuffer then (buffer.localLocation.map Access.publish).toList else [])
  | .cellRef (.owned slot) => readsOf (owned slot)
  | _ => []

mutual

/-- The slot accesses of an instruction, in order. -/
def Instr.accesses (owned : Nat → Option LocalLocation) : Instr X K → List Access
  | .mk _ h ops => h.borrowAccesses ++ accessesList owned ops ++ h.actAccesses owned (storesFreshCell ops)

/-- The slot accesses of a list of instructions, in order. -/
def accessesList (owned : Nat → Option LocalLocation) : List (Instr X K) → List Access
  | [] => []
  | i :: is => i.accesses owned ++ accessesList owned is

end

variable (owned : Nat → Option LocalLocation)

@[simp] theorem accesses_mk (x : X) (h : Head K) (ops : List (Instr X K)) : (Instr.mk x h ops).accesses owned =
      h.borrowAccesses ++ accessesList owned ops ++ h.actAccesses owned (storesFreshCell ops) := by
  simp [Instr.accesses]

@[simp] theorem accessesList_nil : accessesList owned ([] : List (Instr X K)) = [] := by
  simp [accessesList]

variable (i : Instr X K)

@[simp] theorem accessesList_cons (is : List (Instr X K)) :
    accessesList owned (i :: is) = i.accesses owned ++ accessesList owned is := by
  simp [accessesList]

variable (is : List (Instr X K))

theorem accessesList_eq_flatMap : accessesList owned is = is.flatMap (·.accesses owned) := by
  induction is with
  | nil => simp
  | cons i is ih => simp [ih]

theorem accessesList_append (js : List (Instr X K)) :
    accessesList owned (is ++ js) = accessesList owned is ++ accessesList owned js := by
  simp [accessesList_eq_flatMap]

/-! ## The accesses of an expression -/

/-- An access that binds no slot: a read, or a clear of one of the given slots. -/
def Access.OnlyClears (takes : List LocalLocation) : Access → Prop
  | .read _ => True
  | .unbind x => x ∈ takes
  | .bind _ | .publish _ => False

variable {a : Access}

theorem Access.OnlyClears.mono {xs ys : List LocalLocation} (h : a.OnlyClears xs) (hs : xs ⊆ ys) :
    a.OnlyClears ys := by
  cases a with
  | unbind x => exact hs h
  | _ => exact h

theorem onlyClears_borrow (h : Head K) (ha : a ∈ h.borrowAccesses) (xs : List LocalLocation) :
    a.OnlyClears xs := by
  rw [Head.borrowAccesses, mem_flatMap] at ha
  obtain ⟨n, _, ha⟩ := ha
  obtain ⟨y, _, rfl⟩ := by simpa [readsOf] using ha
  trivial

/-- The names of an operation. -/
def Head.names : Head K → List ResolvedName
  | .load n | .store n | .del n _ | .takeOperand n | .comprehensionInsert _ n | .iteratorStep n => [n]
  | .callArgumentOp _ callable buffer => [callable, buffer]
  | .makeCell | .cellRef _ | .op _ => []

/-- Why an operation accesses a slot. -/
inductive Head.ActAccess (owned : Nat → Option LocalLocation) (fresh : Bool) : Head K → Access → Prop
  | name {h : Head K} {n : ResolvedName} {x : LocalLocation} (hn : n ∈ h.names) (hx : n.localLocation = some x) :
    ActAccess owned fresh h (.read x)
  | cell {h : Head K} {slot : Nat} {x : LocalLocation} (hx : owned slot = some x) : ActAccess owned fresh h (.read x)
  | store {n : ResolvedName} {x : LocalLocation} (hx : storeBindingLocation owned n fresh = some x) :
    ActAccess owned fresh (.store n) (.bind x)
  | del {n : ResolvedName} {quietly : Bool} {x : LocalLocation} (hx : n.localLocation = some x) :
    ActAccess owned fresh (.del n quietly) (.unbind x)
  | take {n : ResolvedName} {x : LocalLocation} (hx : n.localLocation = some x) :
    ActAccess owned fresh (.takeOperand n) (.unbind x)
  | consume {kind : CallArgumentOpKind} {callable buffer : ResolvedName} {x : LocalLocation}
    (hk : kind.replacesBuffer = true) (hx : buffer.localLocation = some x) :
    ActAccess owned fresh (.callArgumentOp kind callable buffer) (.unbind x)
  | publish {kind : CallArgumentOpKind} {callable buffer : ResolvedName} {x : LocalLocation}
    (hk : kind.replacesBuffer = true) (hx : buffer.localLocation = some x) :
    ActAccess owned fresh (.callArgumentOp kind callable buffer) (.publish x)

section

variable {owned : Nat → Option LocalLocation} {fresh : Bool} {h : Head K}

theorem Head.ActAccess.of_mem_readsOf {slot : Nat} (ha : a ∈ readsOf (owned slot)) : h.ActAccess owned fresh a := by
  obtain ⟨x, hx, rfl⟩ := by simpa [readsOf] using ha
  exact .cell hx

/-- What an operation does to the slots. -/
theorem actAccess_of_mem (ha : a ∈ h.actAccesses owned fresh) : h.ActAccess owned fresh a := by
  cases h with
  | load n =>
    obtain ⟨id, loc⟩ := n
    cases loc with
    | «local» x =>
      obtain rfl := mem_singleton.mp ha
      exact .name mem_cons_self rfl
    | cell c =>
      cases c with
      | owned slot => exact .of_mem_readsOf ha
      | _ => cases ha
    | _ => cases ha
  | store n =>
    obtain ⟨id, loc⟩ := n
    cases loc with
    | «local» x =>
      obtain rfl := mem_singleton.mp ha
      exact .store rfl
    | cell c =>
      cases c with
      | owned slot =>
        cases fresh with
        | false => exact .of_mem_readsOf ha
        | true =>
          obtain ⟨x, hx, rfl⟩ := by simpa [Head.actAccesses] using ha
          exact .store hx
      | _ => cases ha
    | _ => cases ha
  | del n quietly =>
    obtain ⟨id, loc⟩ := n
    cases loc with
    | «local» x =>
      rcases mem_pair.mp ha with rfl | rfl
      · exact .name mem_cons_self rfl
      · exact .del rfl
    | cell c =>
      cases c with
      | owned slot => exact .of_mem_readsOf ha
      | _ => cases ha
    | _ => cases ha
  | takeOperand n =>
    simp only [Head.actAccesses] at ha
    split at ha
    · next x hx =>
      rcases mem_pair.mp ha with rfl | rfl
      · exact .name mem_cons_self hx
      · exact .take hx
    · cases ha
  | callArgumentOp kind callable buffer =>
    cases hk : kind.replacesBuffer with
    | false => simp [Head.actAccesses, hk, consumesBuffer_of_replacesBuffer hk] at ha
    | true =>
      rcases mem_append.mp ha with ha | ha
      · split at ha
        · obtain ⟨x, hx, rfl⟩ := by simpa using ha
          exact .consume hk hx
        · cases ha
      · obtain ⟨x, hx, rfl⟩ := by simpa [hk] using ha
        exact .publish hk hx
  | cellRef location =>
    cases location with
    | owned slot => exact .of_mem_readsOf ha
    | _ => cases ha
  | _ => cases ha

/-- An operation that writes no name only reads, and clears the operand it takes. -/
theorem onlyClears_act (hw : h.writes = false) (ha : a ∈ h.actAccesses owned fresh) : a.OnlyClears h.ownTake.toList := by
  cases actAccess_of_mem ha with
  | name | cell => trivial
  | store | del => cases hw
  | take hx => simp [Access.OnlyClears, Head.ownTake, hx]
  | consume hk | publish hk => cases hw.symm.trans hk

end

/-- An expression without writes only reads, and clears the operands it takes. -/
theorem onlyClears_of_writeFree (hw : i.writeFree) (ha : a ∈ i.accesses owned) : a.OnlyClears i.operandTakes := by
  induction i using Instr.induct generalizing a with
  | mk x h ops ih =>
    rw [writeFree_mk, Bool.and_eq_true, Bool.not_eq_true', writeFreeList_iff] at hw
    rw [accesses_mk, mem_append, mem_append] at ha
    rcases ha with (ha | ha) | ha
    · exact onlyClears_borrow h ha _
    · rw [accessesList_eq_flatMap, mem_flatMap] at ha
      obtain ⟨j, hj, ha⟩ := ha
      refine (ih j hj (hw.2 j hj) ha).mono fun y hy => mem_append_left _ ?_
      rw [operandTakesList_eq_flatMap, mem_flatMap]
      exact ⟨j, hj, hy⟩
    · exact (onlyClears_act hw.1 ha).mono (subset_append_right _ _)

theorem onlyClears_of_writeFreeList
    (hw : writeFreeList is) (ha : a ∈ accessesList owned is) : a.OnlyClears (operandTakesList is) := by
  rw [accessesList_eq_flatMap, mem_flatMap] at ha
  obtain ⟨j, hj, ha⟩ := ha
  refine (onlyClears_of_writeFree owned j ((writeFreeList_iff is).mp hw j hj) ha).mono fun y hy => ?_
  rw [operandTakesList_eq_flatMap, mem_flatMap]
  exact ⟨j, hj, hy⟩

variable {x : LocalLocation}

/-- An operand that is taken is cleared. -/
theorem unbind_mem_accesses (hx : x ∈ i.operandTakes) : Access.unbind x ∈ i.accesses owned := by
  induction i using Instr.induct with
  | mk y h ops ih =>
    rw [operandTakes_mk, mem_append] at hx
    rw [accesses_mk, mem_append, mem_append]
    rcases hx with hx | hx
    · rw [operandTakesList_eq_flatMap, mem_flatMap] at hx
      obtain ⟨j, hj, hx⟩ := hx
      rw [accessesList_eq_flatMap, mem_flatMap]
      exact .inl (.inr ⟨j, hj, ih j hj hx⟩)
    · cases h with
      | takeOperand n =>
        simp only [Head.ownTake, Option.mem_toList] at hx
        simp [Head.actAccesses, hx]
      | _ => simp [Head.ownTake] at hx

theorem unbind_mem_accessesList (hx : x ∈ operandTakesList is) : Access.unbind x ∈ accessesList owned is := by
  rw [operandTakesList_eq_flatMap, mem_flatMap] at hx
  obtain ⟨j, hj, hx⟩ := hx
  rw [accessesList_eq_flatMap, mem_flatMap]
  exact ⟨j, hj, unbind_mem_accesses owned j hx⟩

section

variable {β : LocalLocation → Bool} {as : List Access}

/-- The access binds the slot. -/
def Access.Binds (x : LocalLocation) (a : Access) : Prop :=
  a = .bind x ∨ a = .publish x

theorem apply_cases (h : a.apply β x) :
    a.Binds x ∨ β x ∧ a ≠ .unbind x := by
  cases a with
  | read y => exact .inr ⟨h, by simp⟩
  | bind y | publish y =>
    by_cases hy : x = y
    · simp [Access.Binds, hy]
    · simp only [Access.apply, Function.update_of_ne hy] at h
      exact .inr ⟨h, by simp⟩
  | unbind y =>
    by_cases hy : x = y
    · simp [Access.apply, hy] at h
    · simp only [Access.apply, Function.update_of_ne hy] at h
      exact .inr ⟨h, by simpa using Ne.symm hy⟩

/-- A slot that is bound after some accesses was bound by one of them, or was bound before and not cleared. -/
theorem applyAccesses_cases (h : applyAccesses as β x) :
    (∃ a ∈ as, a.Binds x) ∨ β x ∧ Access.unbind x ∉ as := by
  induction as generalizing β with
  | nil => exact .inr ⟨h, not_mem_nil⟩
  | cons a as ih =>
    rcases ih h with ⟨b, hb, hbx⟩ | ⟨hβ, hu⟩
    · exact .inl ⟨b, mem_cons_of_mem _ hb, hbx⟩
    · rcases apply_cases hβ with ha | ⟨hβ, ha⟩
      · exact .inl ⟨a, mem_cons_self, ha⟩
      · exact .inr ⟨hβ, by simp [hu, Ne.symm ha]⟩

variable {takes : List LocalLocation}

theorem not_binds_of_onlyClears (h : a.OnlyClears takes) (x : LocalLocation) :
    ¬a.Binds x := by
  rintro (rfl | rfl) <;> exact h

/-- A slot that is bound after accesses that only clear was bound before, and is not cleared. -/
theorem applyAccesses_onlyClears (hc : ∀ a ∈ as, a.OnlyClears takes)
    (h : applyAccesses as β x) : β x ∧ Access.unbind x ∉ as := by
  rcases applyAccesses_cases h with ⟨a, ha, hb⟩ | h
  · exact absurd hb (not_binds_of_onlyClears (hc a ha) x)
  · exact h

end

/-! ## Evaluation performs the accesses -/

/-- The outcome of a piece of a frame that performs the accesses `as` from `σ`: all of them when it ends normally, a first
part of them when it raises. -/
def Performs {W α : Type} (as : List Access) (σ : State W) (r : Outcome W α) : Prop :=
  match r with
  | (.ok _, σ') => σ'.bound = applyAccesses as σ.bound
  | (.error _, σ') => ∃ pre, pre <+: as ∧ σ'.bound = applyAccesses pre σ.bound

namespace Performs

variable {W α β : Type} {σ : State W}

theorem of_ok {as : List Access} {a : α} {σ' : State W} (h : σ'.bound = applyAccesses as σ.bound) :
    Performs as σ ((.ok a, σ') : Outcome W α) := h

/-- An outcome that left the slots as they were. -/
theorem of_locals_eq {r : Outcome W α} (h : r.2.locals = σ.locals) : Performs [] σ r := by
  have hb : r.2.bound = σ.bound := by
    funext x
    simp [State.bound, h]
  obtain ⟨e, σ'⟩ := r
  cases e with
  | ok a => exact hb
  | error e => exact ⟨[], prefix_refl _, hb⟩

/-- Running on performs the accesses of both pieces, one after the other. -/
theorem andThen {p q : List Access} {r : Outcome W α} {k : α → State W → Outcome W β} (h : Performs p σ r)
    (hk : ∀ a σ', r = (.ok a, σ') → Performs q σ' (k a σ')) : Performs (p ++ q) σ (r.andThen k) := by
  obtain ⟨e, σ'⟩ := r
  cases e with
  | error e =>
    obtain ⟨pre, hp, hb⟩ := h
    exact ⟨pre, hp.trans (prefix_append _ _), hb⟩
  | ok a =>
    have hb : σ'.bound = applyAccesses p σ.bound := h
    have h2 := hk a σ' rfl
    simp only [Outcome.andThen_ok]
    generalize k a σ' = r2 at h2
    obtain ⟨e2, σ2⟩ := r2
    cases e2 with
    | ok b =>
      have h2' : σ2.bound = applyAccesses q σ'.bound := h2
      exact h2'.trans (by rw [hb, applyAccesses_append])
    | error e2 =>
      obtain ⟨pre, hp, hb2⟩ := h2
      exact ⟨p ++ pre, prefix_append_right_inj p |>.mpr hp, by rw [hb2, hb, applyAccesses_append]⟩

end Performs

/-- The outcome has the slot as the state has it. -/
def Keeps {W α : Type} (x : LocalLocation) (σ : State W) (r : Outcome W α) : Prop :=
  r.2.locals x = σ.locals x

variable {W α : Type}

theorem Keeps.andThen {β : Type} {σ : State W} {r : Outcome W α} {k : α → State W → Outcome W β}
    (h : Keeps x σ r) (hk : ∀ a σ', r = (.ok a, σ') → Keeps x σ' (k a σ')) : Keeps x σ (r.andThen k) := by
  obtain ⟨e, σ'⟩ := r
  cases e with
  | error e => exact h
  | ok a => exact (hk a σ' rfl).trans h

/-- An access that leaves the slot as it is. -/
def Access.LeavesAlone (x : LocalLocation) : Access → Prop
  | .read _ => True
  | .bind y | .publish y | .unbind y => x ≠ y

/-- Two states of one world that hold the same references below `n`. -/
structure Agree {W : Type} (n : Nat) (σ σ' : State W) : Prop where
  world : σ'.world = σ.world
  locals : ∀ x, x < n → σ'.locals x = σ.locals x

/-- A piece of a frame with the accesses `as`: it performs them, keeps the slots they leave alone, and does the same in
states that agree on the slots they name. -/
structure Effects {W α : Type} (as : List Access) (f : State W → Outcome W α) : Prop where
  performs : ∀ σ, Performs as σ (f σ)
  keeps : ∀ x σ, (∀ a ∈ as, a.LeavesAlone x) → Keeps x σ (f σ)
  agrees : ∀ n σ σ', (∀ a ∈ as, a.slot < n) → Agree n σ σ' → (f σ').1 = (f σ).1 ∧ Agree n (f σ).2 (f σ').2

namespace Effects

variable {α β : Type}

/-- A result, in the state as it is. -/
theorem value (e : Except Value α) : Effects [] fun σ : State W => (e, σ) :=
  ⟨fun _ => .of_locals_eq rfl, fun _ _ _ => rfl, fun _ _ _ _ h => ⟨rfl, h⟩⟩

/-- Only the world is asked. -/
theorem world (g : W → Except Value α × W) :
    Effects [] fun σ : State W => ((g σ.world).1, { σ with world := (g σ.world).2 }) := by
  refine ⟨fun _ => .of_locals_eq rfl, fun _ _ _ => rfl, fun n σ σ' _ h => ?_⟩
  rw [h.world]
  exact ⟨rfl, rfl, h.locals⟩

variable {f : State W → Outcome W α}

/-- Running on has the accesses of both pieces, one after the other. -/
theorem andThen {p q : List Access} {k : α → State W → Outcome W β} (h : Effects p f)
    (hk : ∀ a, Effects q (k a)) : Effects (p ++ q) fun σ => (f σ).andThen k := by
  refine ⟨fun σ => (h.performs σ).andThen fun a σ' _ => (hk a).performs σ', fun x σ hx => ?_, fun n σ σ' hs hσ => ?_⟩
  · have hp : Keeps x σ (f σ) := h.keeps x σ fun a ha => hx a (mem_append_left _ ha)
    exact hp.andThen fun a σ' _ => (hk a).keeps x σ' fun a ha => hx a (mem_append_right _ ha)
  · obtain ⟨hresult, hagree⟩ := h.agrees n σ σ' (fun a ha => hs a (mem_append_left _ ha)) hσ
    generalize f σ = r at *
    generalize f σ' = r' at *
    obtain ⟨e, τ⟩ := r
    obtain ⟨e', τ'⟩ := r'
    obtain rfl : e' = e := hresult
    cases e' with
    | ok a => exact (hk a).agrees n τ τ' (fun a ha => hs a (mem_append_right _ ha)) hagree
    | error e => exact ⟨rfl, hagree⟩

/-- Where all accesses only clear, a slot that still holds a value has held it all along. -/
theorem locals_of_onlyClears {as : List Access} (h : Effects as f) {takes : List LocalLocation}
    (hc : ∀ a ∈ as, a.OnlyClears takes) {σ σ' : State W} {a : α} (hf : f σ = (.ok a, σ')) {v : Value}
    (hv : σ'.locals x = some v) : σ.locals x = some v := by
  have hb : applyAccesses as σ.bound x := by
    have hp := h.performs σ
    rw [hf] at hp
    rw [← show σ'.bound = _ from hp]
    simp [State.bound, hv]
  have hn := (applyAccesses_onlyClears hc hb).2
  have hk : Keeps x σ (f σ) := h.keeps x σ fun b hmem => by
    have honly := hc b hmem
    cases b with
    | read y => trivial
    | unbind y => exact fun e => hn (e ▸ hmem)
    | bind y | publish y => cases honly
  rw [hf] at hk
  exact hk.symm.trans hv

end Effects

variable (σ : State W)

@[simp] theorem State.set_locals_of_ne {y : LocalLocation} (h : x ≠ y) (v : Value) :
    (σ.set y v).locals x = σ.locals x := by
  simp [set, h]

@[simp] theorem State.set_locals_self (x : LocalLocation) (v : Value) : (σ.set x v).locals x = some v := by
  simp [set]

@[simp] theorem State.clear_locals_of_ne {y : LocalLocation} (h : x ≠ y) : (σ.clear y).locals x = σ.locals x := by
  simp [clear, h]

@[simp] theorem State.bound_set (x : LocalLocation) (v : Value) : (σ.set x v).bound = Function.update σ.bound x true := by
  funext y
  by_cases h : y = x
  · subst h; simp [bound, set]
  · simp [bound, set, h]

@[simp] theorem State.bound_clear (x : LocalLocation) : (σ.clear x).bound = Function.update σ.bound x false := by
  funext y
  by_cases h : y = x
  · subst h; simp [bound, clear]
  · simp [bound, clear, h]

theorem Agree.set {n : Nat} {σ σ' : State W} (h : Agree n σ σ') (x : LocalLocation) (v : Value) :
    Agree n (σ.set x v) (σ'.set x v) := by
  refine ⟨h.world, fun y hy => ?_⟩
  by_cases hyx : y = x
  · subst hyx
    simp
  · rw [State.set_locals_of_ne _ hyx, State.set_locals_of_ne _ hyx]
    exact h.locals y hy

theorem Agree.clear {n : Nat} {σ σ' : State W} (h : Agree n σ σ') (x : LocalLocation) :
    Agree n (σ.clear x) (σ'.clear x) := by
  refine ⟨h.world, fun y hy => ?_⟩
  by_cases hyx : y = x
  · subst hyx
    simp [State.clear]
  · rw [State.clear_locals_of_ne _ hyx, State.clear_locals_of_ne _ hyx]
    exact h.locals y hy

/-- Filling a slot, which is a store or the publication of a buffer. -/
theorem effects_set (ha : a.Binds x) (v : Value) (e : α) :
    Effects [a] fun σ : State W => (.ok e, σ.set x v) := by
  refine ⟨fun σ => .of_ok ?_, fun y σ hy => σ.set_locals_of_ne ?_ v, fun n σ σ' _ h => ⟨rfl, h.set x v⟩⟩
  · rcases ha with rfl | rfl <;> simp [Access.apply]
  · have := hy a mem_cons_self
    rcases ha with rfl | rfl <;> exact this

theorem effects_clear (x : LocalLocation) (a : α) :
    Effects [.unbind x] fun σ : State W => (.ok a, σ.clear x) :=
  ⟨fun σ => .of_ok (by simp [Access.apply]), fun _ σ h => σ.clear_locals_of_ne (h _ mem_cons_self),
    fun _ _ _ _ h => ⟨rfl, h.clear x⟩⟩

section

variable (R : Runtime K) (owned : Nat → Option LocalLocation) (p : Prim K) (vs : List Value)

theorem effects_prim : Effects [] fun σ : State R.World => σ.prim R p vs :=
  Effects.world (R.prim p vs)

theorem effects_readSlot (x : LocalLocation) (id : String) : Effects [.read x] fun σ => σ.readSlot R x id := by
  unfold State.readSlot
  refine ⟨fun σ => ?_, fun _ σ _ => ?_, fun n σ σ' hs h => ?_⟩
  · split
    · exact .of_ok rfl
    · exact ⟨[], by simp, rfl⟩
  · split <;> rfl
  · rw [h.locals x (hs _ mem_cons_self)]
    cases σ.locals x <;> exact ⟨rfl, h⟩

variable (n : ResolvedName)

theorem effects_borrow : Effects (readsOf n.localLocation) fun σ => σ.borrow R n := by
  unfold State.borrow
  cases n.localLocation with
  | some x => exact effects_readSlot R x n.id
  | none => exact effects_prim R _ _

theorem effects_borrowAll (ns : List ResolvedName) :
    Effects (ns.flatMap (fun n => readsOf n.localLocation)) fun σ => σ.borrowAll R ns := by
  induction ns with
  | nil => exact .value _
  | cons n ns ih =>
    simp only [flatMap_cons, State.borrowAll]
    refine (effects_borrow R n).andThen fun v => ?_
    rw [← append_nil (ns.flatMap _)]
    exact ih.andThen fun vs => .value _

/-- An effect of the world, then a value, performs no access. -/
theorem effects_prim_const (v : Value) :
    Effects [] fun σ : State R.World => (σ.prim R p vs).andThen fun _ σ => (.ok v, σ) :=
  (effects_prim R p vs).andThen (q := []) fun _ => .value _

/-- Reading the slot of an owned cell, then using the cell. -/
theorem effects_throughCell (x : LocalLocation) (id : String) {k : Value → State R.World → Outcome R.World Value}
    (hk : ∀ v, Effects [] (k v)) : Effects [.read x] fun σ => (σ.readSlot R x id).andThen k :=
  (effects_readSlot R x id).andThen (q := []) hk

variable (fresh : Bool)

theorem effects_actLoad : Effects ((Head.load n : Head K).actAccesses owned fresh) fun σ => actLoad R owned n σ := by
  obtain ⟨id, loc⟩ := n
  unfold actLoad Head.actAccesses
  cases loc with
  | «local» x => exact effects_readSlot R x id
  | constant i => exact .value _
  | runtimeName name =>
    dsimp only
    cases name.value? with
    | some v => exact .value _
    | none => exact effects_prim R _ _
  | cell c =>
    cases c with
    | owned slot =>
      cases hx : owned slot with
      | some x => simpa [hx, readsOf] using effects_throughCell R x id fun v => effects_prim R _ _
      | none => simpa [hx, readsOf] using effects_prim R _ _
    | _ => exact effects_prim R _ _
  | _ => exact effects_prim R _ _

theorem effects_actStore (v : Value) :
    Effects ((Head.store n : Head K).actAccesses owned fresh) fun σ => actStore R owned n fresh v σ := by
  obtain ⟨id, loc⟩ := n
  unfold actStore Head.actAccesses
  cases loc with
  | «local» x => exact effects_set (.inl rfl) v v
  | cell c =>
    cases c with
    | owned slot =>
      cases hx : owned slot with
      | some x =>
        cases fresh with
        | true => simpa [hx] using effects_set (.inl rfl) v v
        | false => simpa [hx, readsOf] using effects_throughCell R x id fun c => effects_prim_const R _ _ v
      | none => cases fresh <;> simpa [hx, readsOf] using effects_prim_const R _ _ v
    | _ => exact effects_prim_const R _ _ v
  | _ => exact effects_prim_const R _ _ v

/-- Clearing a slot that may be empty. -/
theorem effects_delSlot (x : LocalLocation) (e : Except Value Value) :
    Effects [.read x, .unbind x] fun σ : State R.World => match σ.locals x with
      | some _ => (.ok .none, σ.clear x)
      | none => (e, σ) := by
  refine ⟨fun σ => ?_, fun y σ hy => ?_, fun n σ σ' hs h => ?_⟩
  · split
    · exact .of_ok (by simp [Access.apply])
    · next hx =>
      -- the slot is empty already, so clearing it changes nothing
      have hb : σ.bound = Function.update σ.bound x false := by
        rw [Function.eq_update_iff]
        exact ⟨by simp [State.bound, hx], fun _ _ => rfl⟩
      cases e with
      | ok v => exact .of_ok (by simpa [Access.apply] using hb)
      | error e => exact ⟨[], by simp, rfl⟩
  · split
    · exact σ.clear_locals_of_ne (hy (.unbind x) (by simp))
    · rfl
  · rw [h.locals x (hs _ mem_cons_self)]
    cases σ.locals x with
    | some v => exact ⟨rfl, h.clear x⟩
    | none => exact ⟨rfl, h⟩

theorem effects_actDel (quietly fresh : Bool) :
    Effects ((Head.del n quietly : Head K).actAccesses owned fresh) fun σ => actDel R owned n quietly σ := by
  obtain ⟨id, loc⟩ := n
  unfold actDel Head.actAccesses
  cases loc with
  | «local» x => cases quietly <;> exact effects_delSlot R x _
  | cell c =>
    cases c with
    | owned slot =>
      cases hx : owned slot with
      | some x => simpa [hx, readsOf] using effects_throughCell R x id fun c => effects_prim_const R _ _ _
      | none => simpa [hx, readsOf] using effects_prim_const R _ _ _
    | _ => exact effects_prim_const R _ _ _
  | _ => exact effects_prim_const R _ _ _

theorem effects_actTake : Effects ((Head.takeOperand n : Head K).actAccesses owned fresh) fun σ => actTake R n σ := by
  unfold actTake Head.actAccesses
  dsimp only
  cases n.localLocation with
  | some x => exact (effects_readSlot R x n.id).andThen fun v => effects_clear x v
  | none => exact effects_prim R _ _

theorem effects_publish (v : Value) : Effects ((n.localLocation.map Access.publish).toList) fun σ => σ.publish R n v := by
  unfold State.publish
  cases n.localLocation with
  | some x => exact effects_set (.inr rfl) v _
  | none => exact effects_prim R _ _

theorem effects_actCallArgument (kind : CallArgumentOpKind) (callable buffer : ResolvedName) (fresh : Bool)
    (vs : List Value) :
    Effects ((Head.callArgumentOp kind callable buffer : Head K).actAccesses owned fresh) fun σ =>
      actCallArgument R kind buffer vs σ := by
  -- the part after the helper
  have hrest : Effects (if kind.replacesBuffer then (buffer.localLocation.map Access.publish).toList else [])
      fun σ : State R.World => (σ.prim R (.callArgument kind) vs).andThen fun v σ =>
        if kind.replacesBuffer then σ.publish R buffer v else (.ok .none, σ) := by
    refine (effects_prim R _ _).andThen fun v => ?_
    cases kind.replacesBuffer with
    | true => exact effects_publish R buffer v
    | false => exact .value _
  unfold actCallArgument Head.actAccesses
  cases hk : kind.consumesBufferBeforeHelper with
  | false => simpa [hk] using hrest
  | true =>
    cases hx : buffer.localLocation with
    | none => simpa [hk, hx] using hrest
    | some x => simpa [hk, hx] using (effects_clear x ()).andThen fun _ => hrest

theorem effects_actCellRef (location : CellLocation) (fresh : Bool) :
    Effects ((Head.cellRef location : Head K).actAccesses owned fresh) fun σ => actCellRef R owned location σ := by
  unfold actCellRef Head.actAccesses
  cases location with
  | owned slot =>
    cases hx : owned slot with
    | some x => simpa [hx, readsOf] using effects_readSlot R x ""
    | none => simpa [hx, readsOf] using effects_prim R _ _
  | _ => exact effects_prim R _ _

theorem effects_act (h : Head K) (fresh : Bool) (borrowed values : List Value) :
    Effects (h.actAccesses owned fresh) fun σ => h.act R owned fresh borrowed values σ := by
  cases h with
  | load n => exact effects_actLoad R owned n fresh
  | store n => exact effects_actStore R owned n fresh _
  | del n quietly => exact effects_actDel R owned n quietly fresh
  | takeOperand n => exact effects_actTake R owned n fresh
  | callArgumentOp kind callable buffer => exact effects_actCallArgument R owned kind callable buffer fresh _
  | cellRef location => exact effects_actCellRef R owned location fresh
  | comprehensionInsert kind container | iteratorStep n | makeCell | op k => exact effects_prim R _ _

/-- If every instruction of a list performs its accesses, so does the list. -/
theorem effects_evalList_of (is : List (Instr X K)) (h : ∀ i ∈ is, Effects (i.accesses owned) (eval R owned i)) :
    Effects (accessesList owned is) (evalList R owned is) := by
  induction is with
  | nil =>
    exact .value _
  | cons i is ih =>
    refine (h i (by simp)).andThen fun v => ?_
    rw [← append_nil (accessesList owned is)]
    exact (ih fun j hj => h j (by simp [hj])).andThen fun vs => .value _

/-- Evaluation performs the accesses of the instruction. -/
theorem eval_effects (i : Instr X K) : Effects (i.accesses owned) (eval R owned i) := by
  induction i using Instr.induct with
  | mk x h ops ih =>
    rw [accesses_mk, append_assoc]
    refine (effects_borrowAll R h.borrowedNames).andThen fun borrowed => ?_
    refine (effects_evalList_of R owned ops ih).andThen fun values => ?_
    exact effects_act R owned h _ borrowed values

theorem evalList_effects (is : List (Instr X K)) : Effects (accessesList owned is) (evalList R owned is) :=
  effects_evalList_of R owned is fun i _ => eval_effects R owned i

end

end Soac
