import Soac.Passes.Linearize
import Soac.Semantics.Lockstep

/-!
# Linearization and the order of evaluation

The linearizer captures an operand that is read ahead of the ones it lifts something out of, but only a name or a moved
operand: an operation that is no value (a collection display, a nested store, an iterator step) stays where it is and then
runs after the operands on its right. `linearized_frame_agrees_false` is `([f()], g())`, which calls `g` first.
Where no such operand stands in front of one that something is lifted out of (`CodegenFunction.ordered`), the linearized
function does what the function does, step by step and for every runtime.
-/

namespace Soac

open List Fallible CodegenFunction State

/-! ## What is lifted, and what stays in place -/

section

variable (owner : OperandOwner) (f : CodegenFunction InstrTyped)

/-- An operation the linearizer leaves as it is, with its operands. -/
def evaluatedWhole (i : InstrTyped) : Bool :=
  (match hasOwnedOperandInputs owner f.hasStorageLayout i with
    | .ok owned => owned
    | .error _ => false) || keepsOperands f.runtimeModuleId i

mutual

/-- Statements are put ahead for an operand: it is lifted itself, or something in it is. -/
def lifts : InstrTyped → Bool
  | .mk x h ops => h.requiresTemp || (!evaluatedWhole owner f (.mk x h ops) && operandsLift ops)

/-- Statements are put ahead for some of the operands. -/
def operandsLift : List InstrTyped → Bool
  | [] => false
  | i :: is => lifts i || (capturesRead i && containsLiftedList is) || operandsLift is

end

/-- Operands that do not stay in place when a later one is lifted: values, names and moved operands. -/
def yieldsPlace : InstrTyped → Bool
  | .mk _ (.load _) [] => true
  | .mk _ (.takeOperand _) _ => true
  | .mk _ h _ => h.requiresTemp

mutual

/-- No operand that stays in place stands before one that statements are put ahead for. -/
def ordered : InstrTyped → Bool
  | .mk x h ops => evaluatedWhole owner f (.mk x h ops) || orderedOperands ops

def orderedOperands : List InstrTyped → Bool
  | [] => true
  | i :: is => ordered i && orderedOperands is && (!operandsLift owner f is || yieldsPlace i)

end

/-- A statement; the value of a store is linearized on its own. -/
def orderedStatement : InstrTyped → Bool
  | .mk _ (.store _) [value] => ordered owner f value
  | i => ordered owner f i

/-- Every statement and terminator of a function. -/
def CodegenFunction.ordered : Bool :=
  f.blocks.all fun b => b.body.all (orderedStatement owner f) && b.term.operands.all (Soac.ordered owner f)

end

/-! ## Temporaries of the linearizer -/

/-- The name of a temporary of the linearizer. -/
def CodegenFunction.linearizedName (f : CodegenFunction InstrTyped) (j : Nat) : String :=
  { f with nextTmpId := j }.tmpName "typed_linearized_expr"

/-- The function after a number of temporaries were allocated. -/
def CodegenFunction.grown (f : CodegenFunction InstrTyped) (k : Nat) : CodegenFunction InstrTyped :=
  { f with
    stackSlots := f.stackSlots ++ (List.range' f.nextTmpId k).map f.linearizedName
    nextTmpId := f.nextTmpId + k }

/-- What lowering and the name generator promise: instructions name slots of the layout, and the names the generator has
still to give are not in use. -/
structure LinearizeReady (f : CodegenFunction InstrTyped) : Prop where
  body : ∀ b ∈ f.blocks, slotsBelowList f.stackSlots.length b.body = true
  term : ∀ b ∈ f.blocks, slotsBelowList f.stackSlots.length b.term.operands = true
  freshSlot : ∀ j, f.nextTmpId ≤ j → f.linearizedName j ∉ f.stackSlots
  freshCell : ∀ j, f.nextTmpId ≤ j → f.linearizedName j ∉ f.cellvars
  freshEdge : ∀ j, f.nextTmpId ≤ j → ∀ b ∈ f.blocks, f.linearizedName j ∉ b.edgeNames

/-- What the runtime promises: a guarded method call is the call it guards, and an operation of the compiler's own is a
value that does not depend on when it is read. -/
structure LinearizeRuntime (R : Runtime TypedOp) : Prop where
  guardedCall : ∀ shape name guards, R.prim (.op (.guardedMethodCallTyped shape name guards)) = R.prim (.op (.callTyped shape))
  intrinsic : ∀ name r, name.location = .runtimeName r → r.isLanguageIntrinsic = true →
    ∃ v, ∀ w, R.prim (.loadName name) [] w = (.ok v, w)

section

variable {f : CodegenFunction InstrTyped}

@[simp] theorem grown_zero : f.grown 0 = f := by
  simp [grown]

@[simp] theorem grown_stackSlots_length (k : Nat) : (f.grown k).stackSlots.length = f.stackSlots.length + k := by
  simp [grown]

/-- Allocating a temporary appends a slot. -/
theorem tryAllocate_grown (hready : LinearizeReady f) {k : Nat} {temp : InlineLocal} {g : CodegenFunction InstrTyped}
    (h : (f.grown k).tryAllocateStackTemp "typed_linearized_expr" = .ok (temp, g)) :
    temp.location = f.stackSlots.length + k ∧ g = f.grown (k + 1) := by
  unfold tryAllocateStackTemp at h
  split at h
  · cases h
    refine ⟨grown_stackSlots_length k, ?_⟩
    have hname : (f.grown k).tmpName "typed_linearized_expr" = f.linearizedName (f.nextTmpId + k) := rfl
    have hfresh : f.linearizedName (f.nextTmpId + k) ∉ (f.grown k).stackSlots := by
      simp only [grown, mem_append, mem_map, mem_range'_1, not_or, not_exists, not_and]
      refine ⟨hready.freshSlot _ (Nat.le_add_right _ _), fun j hj hj' => ?_⟩
      have := tmpName_inj hj'
      omega
    rw [hname, ensureStackSlot, if_neg (by simpa using hfresh)]
    simp [grown, List.range'_concat, Nat.add_assoc]
  · cases h

/-! ## One instruction -/

variable (f)

/-- What the linearizer added from one state to another: statements, and temporaries in the slots allocated meanwhile. -/
structure Adds (st st' : LinearizerState) (k k' : Nat) (P : List InstrTyped) (T : List InlineLocal) : Prop where
  before : st.function = f.grown k
  after : st'.function = f.grown k'
  grows : k ≤ k'
  hoisted : st'.hoisted = st.hoisted ++ P
  temps : st'.temps = st.temps ++ T
  slots : ∀ t ∈ T, f.stackSlots.length + k ≤ t.location ∧ t.location < f.stackSlots.length + k'

variable {f} {st : LinearizerState}

theorem Adds.refl {k : Nat} (h : st.function = f.grown k) : Adds f st st k k [] [] :=
  ⟨h, h, Nat.le_refl k, (append_nil _).symm, (append_nil _).symm, nofun⟩

theorem Adds.trans {st₁ st₂ : LinearizerState} {k k₁ k₂ : Nat} {P Q : List InstrTyped} {T U : List InlineLocal}
    (h : Adds f st st₁ k k₁ P T) (h' : Adds f st₁ st₂ k₁ k₂ Q U) : Adds f st st₂ k k₂ (P ++ Q) (T ++ U) := by
  have hgrows := h.grows
  have hgrows' := h'.grows
  refine ⟨h.before, h'.after, Nat.le_trans h.grows h'.grows, ?_, ?_, fun t ht => ?_⟩
  · rw [h'.hoisted, h.hoisted, append_assoc]
  · rw [h'.temps, h.temps, append_assoc]
  · rcases mem_append.mp ht with ht | ht
    · obtain ⟨hlow, hhigh⟩ := h.slots t ht
      exact ⟨hlow, Nat.lt_of_lt_of_le hhigh (Nat.add_le_add_left hgrows' _)⟩
    · obtain ⟨hlow, hhigh⟩ := h'.slots t ht
      exact ⟨Nat.le_trans (Nat.add_le_add_left hgrows _) hlow, hhigh⟩

/-- Deleting the temporaries that were added. -/
theorem Adds.quietDels {st' : LinearizerState} {k k' : Nat} {P : List InstrTyped} {T : List InlineLocal}
    (h : Adds f st st' k k' P T) :
    QuietDels (f.stackSlots.length + k) (f.stackSlots.length + k') (typedCleanupDels T) := by
  refine forall_mem_map.mpr fun t ht => ?_
  obtain ⟨hlow, hhigh⟩ := h.slots t (mem_reverse.mp ht)
  exact ⟨{}, t.name, t.location, rfl, hlow, hhigh⟩

section

variable {R : Runtime TypedOp} {owned : Nat → Option LocalLocation}

theorem readsBack_linearizedTemp {m : Nat} {temp : InlineLocal} (hm : m ≤ temp.location) (i : InstrTyped) :
    ReadsBack R owned m temp.location (linearizedTemp temp i) := by
  unfold linearizedTemp
  split
  · exact readsBack_take _ _ hm
  · exact readsBack_load _ _

theorem linearizedTemp_not_makeCell (temp : InlineLocal) (i : InstrTyped) :
    Instr.head (linearizedTemp temp i) ≠ .makeCell := by
  unfold linearizedTemp
  split <;> simp

variable {st' : LinearizerState} {k : Nat} {P : List InstrTyped} {T : List InlineLocal} {i i' : InstrTyped}
  {owner : OperandOwner} {is : List InstrTyped} {x : TypedInstrExtra} {g : CodegenFunction InstrTyped}
  {st₁ : LinearizerState} {k₁ : Nat}

variable (f R owned) in
/-- Two stages over the slots of a function that has grown by `k` temporaries. -/
abbrev StagedFrom (k : Nat) {α : Type} (A B : State R.World → Outcome R.World α) (P : List InstrTyped) : Prop :=
  TwoStage R owned f.stackSlots.length (f.stackSlots.length + k) A B P

/-- Lifting what was linearized, and deleting the temporaries `U` of its operands. -/
theorem liftNestedExpr_settled (hready : LinearizeReady f) {A : State R.World → Outcome R.World Value}
    {U : List InlineLocal} (hadds : Adds f st st₁ k k₁ P T)
    (hU : QuietDels (f.stackSlots.length + k) (f.stackSlots.length + k₁) (typedCleanupDels U))
    (hstage : StagedFrom f R owned k A (eval R owned i) P)
    (h : liftNestedExpr i U st₁ = .ok (i', st')) :
    ∃ Q temp, i' = linearizedTemp temp i ∧ Adds f st st' k (k₁ + 1) Q (T ++ [temp]) ∧
      Settled R owned f.stackSlots.length (f.stackSlots.length + k) (f.stackSlots.length + (k₁ + 1)) A
        (eval R owned i') Q := by
  obtain ⟨⟨temp, g⟩, hallocate, h⟩ := bind_eq_ok.mp h
  cases h
  rw [hadds.after] at hallocate
  obtain ⟨hlocation, rfl⟩ := tryAllocate_grown hready hallocate
  have hle : f.stackSlots.length + k ≤ temp.location := by
    rw [hlocation]
    exact Nat.add_le_add_left hadds.grows _
  have hnext : f.stackSlots.length + (k₁ + 1) = temp.location + 1 := by rw [hlocation]; rfl
  refine ⟨P ++ typedStoreTemp temp.resolvedName i :: typedCleanupDels U, temp, rfl, ?_, ?_⟩
  · refine ⟨hadds.before, rfl, Nat.le_succ_of_le hadds.grows, ?_, ?_, fun t ht => ?_⟩
    · simp [hadds.hoisted]
    · simp [hadds.temps]
    · rcases mem_append.mp ht with ht | ht
      · exact ⟨(hadds.slots t ht).1, Nat.lt_succ_of_lt (hadds.slots t ht).2⟩
      · obtain rfl := mem_singleton.mp ht
        refine ⟨hle, ?_⟩
        rw [hnext]
        exact Nat.lt_succ_self _
  · rw [← hlocation] at hU
    rw [hnext]
    exact hstage.lift {} temp.name (Nat.le_add_right _ _) hle hU (readsBack_linearizedTemp hle i)

/-- What the linearizer makes of an instruction: `P` is put ahead, and `i'` stands for it. -/
structure Stage (f : CodegenFunction InstrTyped) (R : Runtime TypedOp) (owned : Nat → Option LocalLocation)
    (settled : Bool) (k k' : Nat) (i i' : InstrTyped) (P : List InstrTyped) : Prop where
  twoStage : TwoStage R owned f.stackSlots.length (f.stackSlots.length + k) (eval R owned i) (eval R owned i') P
  settled : settled = true →
    Settled R owned f.stackSlots.length (f.stackSlots.length + k) (f.stackSlots.length + k') (eval R owned i)
      (eval R owned i') P
  makeCell : Instr.head i' = .makeCell ↔ Instr.head i = .makeCell

/-- The end of `linearizeInstr`, for the operation `i₁` over linearized operands. -/
theorem finishInstr_spec (hready : LinearizeReady f) {isRoot : Bool} {i₁ : InstrTyped} (hadds : Adds f st st₁ k k₁ P T)
    (hstage : StagedFrom f R owned k (eval R owned i) (eval R owned i₁) P)
    (htemp : InstrTyped.requiresTemp i₁ = InstrTyped.requiresTemp i)
    (hcell : Instr.head i₁ = .makeCell ↔ Instr.head i = .makeCell)
    (h : finishInstr isRoot st.temps.length i₁ st₁ = .ok (i', st')) :
    ∃ k' Q U, Adds f st st' k k' Q U ∧ Stage f R owned (InstrTyped.requiresTemp i && !isRoot) k k' i i' Q ∧
      (InstrTyped.requiresTemp i = false → i' = i₁ ∧ k' = k₁ ∧ Q = P ∧ U = T) := by
  unfold finishInstr at h
  rw [hadds.temps, drop_left, take_left, htemp] at h
  split at h
  · rename_i hlift
    rw [Bool.and_eq_true] at hlift
    have hkept : Adds f st { st₁ with temps := st.temps } k k₁ P [] :=
      ⟨hadds.before, hadds.after, hadds.grows, hadds.hoisted, (append_nil _).symm,
        nofun⟩
    obtain ⟨Q, temp, rfl, hadds', hsettled⟩ := liftNestedExpr_settled hready hkept hadds.quietDels hstage h
    refine ⟨k₁ + 1, Q, [temp], hadds', ⟨hsettled.twoStage (Nat.le_add_right _ _), fun _ => hsettled, ?_⟩, ?_⟩
    · refine iff_of_false (linearizedTemp_not_makeCell temp i₁) fun hc => ?_
      rw [InstrTyped.requiresTemp, hc] at hlift
      exact absurd hlift.1 (by simp [Head.requiresTemp])
    · intro hno
      rw [hno] at hlift
      exact absurd hlift.1 (by simp)
  · rename_i hlift
    cases h
    refine ⟨k₁, P, T, hadds, ⟨hstage, fun hs => ?_, hcell⟩, fun _ => ⟨rfl, rfl, rfl, rfl⟩⟩
    rw [Bool.and_eq_true] at hs
    rw [hs.1, hs.2] at hlift
    simp at hlift

variable (f R owned) in
/-- The linearizer on one instruction. -/
def InstrSpec (owner : OperandOwner) (i : InstrTyped) : Prop :=
  ∀ (isRoot : Bool) (st st' : LinearizerState) (k : Nat) (i' : InstrTyped), st.function = f.grown k →
    ordered owner f i = true → i.slotsBelow f.stackSlots.length = true →
    linearizeInstr owner isRoot i st = .ok (i', st') →
    ∃ k' P T, Adds f st st' k k' P T ∧ Stage f R owned (InstrTyped.requiresTemp i && !isRoot) k k' i i' P ∧
      (lifts owner f i = false → i' = i ∧ k' = k ∧ P = [] ∧ T = [])

theorem containsLiftedList_of_operandsLift
    (his : ∀ i ∈ is, lifts owner f i → containsLifted i) (h : operandsLift owner f is) :
    containsLiftedList is := by
  induction is with
  | nil => simp [operandsLift] at h
  | cons i is ih =>
    rw [operandsLift, Bool.or_eq_true, Bool.or_eq_true, Bool.and_eq_true] at h
    rw [containsLiftedList, Bool.or_eq_true]
    rcases h with (h | h) | h
    · exact .inl (his i mem_cons_self h)
    · exact .inr h.2
    · exact .inr (ih (fun j hj => his j (mem_cons_of_mem _ hj)) h)

/-- Statements are put ahead only where the search for nested expressions finds one. -/
theorem containsLifted_of_lifts (i : InstrTyped) (h : lifts owner f i) : containsLifted i := by
  induction i using Instr.induct with
  | mk x hd ops ih =>
    rw [lifts, Bool.or_eq_true, Bool.and_eq_true] at h
    rw [containsLifted, Bool.or_eq_true]
    exact h.imp id fun h => containsLiftedList_of_operandsLift ih h.2

variable {name : ResolvedName}

variable (owned) in
/-- A name that is neither captured nor moved has one value, whenever it is read. -/
theorem eval_inert (hR : LinearizeRuntime R) (h : capturesRead (.mk x (.load name) []) = false) :
    ∃ v, ∀ σ : State R.World, eval R owned (.mk x (.load name) []) σ = (.ok v, σ) := by
  simp only [capturesRead, Instr.head_mk] at h
  simp only [eval, evalList, Head.borrowedNames, borrowAll, Outcome.andThen_ok, Head.act, actLoad]
  split at h
  · rename_i index hlocation
    exact ⟨R.constant index, fun σ => by rw [hlocation]⟩
  · rename_i r hlocation
    obtain ⟨v, hv⟩ := hR.intrinsic name r hlocation (by simpa using h)
    rw [hlocation]
    cases hvalue : r.value? with
    | some w => exact ⟨w, fun σ => by simp only [hvalue]⟩
    | none => exact ⟨v, fun σ => by simp only [hvalue, prim, hv]⟩
  · cases h

theorem storesFreshCell_cons (h : Instr.head i' = .makeCell ↔ Instr.head i = .makeCell)
    (is is' : List InstrTyped) : storesFreshCell (i' :: is') = storesFreshCell (i :: is) := by
  have hiff : ∀ (i : InstrTyped) is, storesFreshCell (i :: is) ↔ Instr.head i = .makeCell := by
    intro i is
    obtain ⟨x, hd, ops⟩ := i
    cases hd <;> simp [storesFreshCell]
  rw [Bool.eq_iff_iff, hiff, hiff, h]

/-- An operand that is settled, in front of the others. -/
theorem twoStage_cons_settled (hk : k ≤ k₁) {is' Q : List InstrTyped}
    (h : Settled R owned f.stackSlots.length (f.stackSlots.length + k) (f.stackSlots.length + k₁) (eval R owned i)
      (eval R owned i') P)
    (h' : StagedFrom f R owned k₁ (evalList R owned is) (evalList R owned is') Q) :
    StagedFrom f R owned k (evalList R owned (i :: is)) (evalList R owned (i' :: is')) (P ++ Q) := by
  have hcons := h.andThen List.cons (Nat.le_add_right _ _) (Nat.add_le_add_left hk _) h'
  intro σ σ' hσ
  have := hcons σ σ' hσ
  simpa only [evalList] using this

/-- An operand in front of others that nothing is put ahead for. -/
theorem twoStage_cons_inPlace (hc : CellsBelow f.stackSlots.length owned)
    (his : slotsBelowList f.stackSlots.length is)
    (h : StagedFrom f R owned k (eval R owned i) (eval R owned i') P) :
    StagedFrom f R owned k (evalList R owned (i :: is)) (evalList R owned (i' :: is)) P := by
  have hcons := h.andThen (c := fun v σ => (evalList R owned is σ).andThen fun vs σ => (.ok (v :: vs), σ))
    (d := fun v σ => (evalList R owned is σ).andThen fun vs σ => (.ok (v :: vs), σ)) fun v τ τ' hτ =>
      (evalList_matches hc his hτ).andThen fun vs ρ ρ' hρ => Matches.of_agree hρ _
  intro σ σ' hσ
  have := hcons σ σ' hσ
  simpa only [evalList] using this

/-- An operand that does not stay in place and is not captured is settled. -/
theorem settled_of_yieldsPlace (hR : LinearizeRuntime R) {k' : Nat}
    (hplace : yieldsPlace i) (hcapture : capturesRead i = false)
    (hstage : Stage f R owned (InstrTyped.requiresTemp i && !false) k k' i i' P)
    (hplain : lifts owner f i = false → i' = i ∧ k' = k ∧ P = [] ∧ T = []) :
    Settled R owned f.stackSlots.length (f.stackSlots.length + k) (f.stackSlots.length + k') (eval R owned i)
      (eval R owned i') P := by
  unfold yieldsPlace at hplace
  split at hplace
  · obtain ⟨rfl, _, rfl, _⟩ := hplain (by simp [lifts, Head.requiresTemp, operandsLift])
    obtain ⟨v, hv⟩ := eval_inert owned hR hcapture
    exact Settled.of_inert hv hv
  · simp [capturesRead] at hcapture
  · refine hstage.settled ?_
    rw [InstrTyped.requiresTemp, Instr.head_mk, hplace]
    rfl

theorem linearizeOperands_spec (hready : LinearizeReady f) (hR : LinearizeRuntime R)
    (hc : CellsBelow f.stackSlots.length owned) {ops : List InstrTyped}
    (hops : ∀ i ∈ ops, InstrSpec f R owned owner i) {ops' : List InstrTyped}
    (hst : st.function = f.grown k) (hord : orderedOperands owner f ops)
    (hslots : slotsBelowList f.stackSlots.length ops) (h : linearizeOperands owner ops st = .ok (ops', st')) :
    ∃ k' P T, Adds f st st' k k' P T ∧
      StagedFrom f R owned k (evalList R owned ops) (evalList R owned ops') P ∧
      storesFreshCell ops' = storesFreshCell ops ∧
      (operandsLift owner f ops = false → ops' = ops ∧ k' = k ∧ P = [] ∧ T = []) := by
  induction ops generalizing st k ops' with
  | nil =>
    cases h
    refine ⟨k, [], [], Adds.refl hst, TwoStage.nil fun σ σ' hσ => ?_, rfl, fun _ => ⟨rfl, rfl, rfl, rfl⟩⟩
    exact evalList_matches hc hslots hσ
  | cons i is ih =>
    rw [orderedOperands, Bool.and_eq_true, Bool.and_eq_true] at hord
    obtain ⟨⟨hordi, hordis⟩, hplace⟩ := hord
    rw [slotsBelowList, Bool.and_eq_true] at hslots
    obtain ⟨⟨i', st₁⟩, hi, h⟩ := bind_eq_ok.mp h
    obtain ⟨k₁, P, T, hadds, hstage, hplain⟩ := hops i mem_cons_self false st st₁ k i' hst hordi hslots.1 hi
    have hrest := fun {st₂ : LinearizerState} {k₂ : Nat} {is' : List InstrTyped} (h₂ : st₂.function = f.grown k₂)
        (his : linearizeOperands owner is st₂ = .ok (is', st')) =>
      ih (fun j hj => hops j (mem_cons_of_mem _ hj)) h₂ hordis hslots.2 his
    dsimp only at h
    split at h
    · -- the operand is a read that is captured
      rename_i hcapture
      obtain ⟨⟨i'', st₂⟩, hlift, h⟩ := bind_eq_ok.mp h
      obtain ⟨⟨is', st₃⟩, his, h⟩ := bind_eq_ok.mp h
      cases h
      have hnone : QuietDels (f.stackSlots.length + k) (f.stackSlots.length + k₁) (typedCleanupDels []) :=
        forall_mem_nil _
      obtain ⟨Q, temp, rfl, hadds', hsettled⟩ := liftNestedExpr_settled hready hadds hnone hstage.twoStage hlift
      obtain ⟨k', P', T', hadds'', hstage', _, _⟩ := hrest hadds'.after his
      refine ⟨k', Q ++ P', _, hadds'.trans hadds'', twoStage_cons_settled hadds'.grows hsettled hstage', ?_, fun hno => ?_⟩
      · refine storesFreshCell_cons (iff_of_false (linearizedTemp_not_makeCell temp i') fun hcell => ?_) is is'
        simp [capturesRead, hcell] at hcapture
      · rw [operandsLift, hcapture] at hno
        simp at hno
    · rename_i hcapture
      obtain ⟨⟨is', st₃⟩, his, h⟩ := bind_eq_ok.mp h
      cases h
      obtain ⟨k', P', T', hadds', hstage', _, hplain'⟩ := hrest hadds.after his
      refine ⟨k', P ++ P', T ++ T', hadds.trans hadds', ?_, storesFreshCell_cons hstage.makeCell is is', fun hno => ?_⟩
      · cases hlift : operandsLift owner f is with
        | false =>
          obtain ⟨rfl, _, rfl, _⟩ := hplain' hlift
          rw [append_nil]
          exact twoStage_cons_inPlace hc hslots.2 hstage.twoStage
        | true =>
          have hcontains := containsLiftedList_of_operandsLift (fun j _ => containsLifted_of_lifts j) hlift
          rw [hcontains, Bool.and_true, Bool.not_eq_true] at hcapture
          rw [hlift, Bool.not_true] at hplace
          exact twoStage_cons_settled hadds.grows (settled_of_yieldsPlace hR hplace hcapture hstage hplain) hstage'
      · rw [operandsLift, Bool.or_eq_false_iff, Bool.or_eq_false_iff] at hno
        obtain ⟨rfl, rfl, rfl, rfl⟩ := hplain hno.1.1
        obtain ⟨rfl, rfl, rfl, rfl⟩ := hplain' hno.2
        exact ⟨rfl, rfl, rfl, rfl⟩

/-- Rebuilding an operation changes only how a call is planned. -/
theorem eval_rebuild (hR : LinearizeRuntime R) (x : TypedInstrExtra) (h : Head TypedOp) (ops : List InstrTyped)
    (σ : State R.World) : eval R owned (rebuild x h ops) σ = eval R owned (.mk x h ops) σ := by
  unfold rebuild
  split
  · split <;> simp only [eval]
  · split
    · rfl
    · simp only [eval, Head.borrowedNames, borrowAll, Outcome.andThen_ok, Head.act, prim, hR.guardedCall]
  · rfl

theorem rebuild_requiresTemp (x : TypedInstrExtra) (h : Head TypedOp) (ops : List InstrTyped) :
    Head.requiresTemp (Instr.head (rebuild x h ops)) = h.requiresTemp := by
  unfold rebuild
  split
  · split <;> rfl
  · split <;> rfl
  · rfl

theorem rebuild_makeCell (x : TypedInstrExtra) (h : Head TypedOp) (ops : List InstrTyped) :
    Instr.head (rebuild x h ops) = .makeCell ↔ h = .makeCell := by
  unfold rebuild
  split
  · split <;> simp
  · split <;> simp
  · rfl

variable {h : Head TypedOp}

theorem rebuild_of_not_requiresTemp (hh : h.requiresTemp = false) (x : TypedInstrExtra)
    (ops : List InstrTyped) : rebuild x h ops = .mk x h ops := by
  unfold rebuild
  split
  · simp [Head.requiresTemp] at hh
  · simp [Head.requiresTemp] at hh
  · rfl

/-- The operations that read names before their operands run are left as they are. -/
theorem borrowedNames_of_not_keeps (hk : h.keepsOperands x = false) : h.borrowedNames = [] := by
  cases h <;> first | rfl | cases hk

/-- The operation over operands that run in two stages. -/
theorem twoStage_rebuild (hR : LinearizeRuntime R) (hc : CellsBelow f.stackSlots.length owned)
    {ops ops' : List InstrTyped} (hb : h.borrowedNames = [])
    (hn : h.names.all (·.below f.stackSlots.length)) (hfresh : storesFreshCell ops' = storesFreshCell ops)
    (hstage : StagedFrom f R owned k (evalList R owned ops) (evalList R owned ops') P) :
    StagedFrom f R owned k (eval R owned (.mk x h ops)) (eval R owned (rebuild x h ops')) P := by
  have hact := hstage.andThen (c := h.act R owned (storesFreshCell ops) []) (d := h.act R owned (storesFreshCell ops) [])
    fun vs τ τ' hτ => (effects_act R owned h _ [] vs).matches (actAccesses_below hc hn _) hτ
  have hrebuild : eval R owned (rebuild x h ops') = eval R owned (.mk x h ops') := funext (eval_rebuild hR x h ops')
  rw [hrebuild]
  intro σ σ' hσ
  have := hact σ σ' hσ
  simpa only [eval, hb, borrowAll, Outcome.andThen_ok, hfresh] using this

/-- `linearizeInstr`: what is put ahead and what is left do what the instruction does. -/
theorem linearizeInstr_spec (hready : LinearizeReady f) (hR : LinearizeRuntime R)
    (hc : CellsBelow f.stackSlots.length owned) (owner : OperandOwner) (i : InstrTyped) : InstrSpec f R owned owner i := by
  induction i using Instr.induct with
  | mk x h ops ih =>
    intro isRoot st st' k i' hst hord hslots hlin
    have hslots' := hslots
    rw [slotsBelow_mk, Bool.and_eq_true] at hslots'
    obtain ⟨ownedInputs, howned, hlin⟩ := bind_eq_ok.mp hlin
    have hlayout : st.function.hasStorageLayout = f.hasStorageLayout := by rw [hst]; rfl
    have hmodule : st.function.runtimeModuleId = f.runtimeModuleId := by rw [hst]; rfl
    have hwhole : evaluatedWhole owner f (.mk x h ops) =
        (ownedInputs || keepsOperands st.function.runtimeModuleId (.mk x h ops)) := by
      rw [evaluatedWhole, ← hlayout, howned, hmodule]
    rw [← hwhole] at hlin
    cases hcase : evaluatedWhole owner f (.mk x h ops) with
    | true =>
      rw [if_pos hcase] at hlin
      have hstage : StagedFrom f R owned k (eval R owned (.mk x h ops))
          (eval R owned (.mk x h ops)) ([] : List InstrTyped) :=
        TwoStage.nil fun σ σ' => (eval_effects R owned _).matches (accesses_below hc _ hslots)
      obtain ⟨k', Q, U, hadds, hspec, hplain⟩ := finishInstr_spec hready (Adds.refl hst) hstage rfl Iff.rfl hlin
      refine ⟨k', Q, U, hadds, hspec, fun hno => hplain ?_⟩
      rw [lifts, Bool.or_eq_false_iff] at hno
      exact hno.1
    | false =>
      rw [hcase] at hlin
      obtain ⟨⟨ops', st₁⟩, hops, hlin⟩ := bind_eq_ok.mp hlin
      rw [ordered, hcase] at hord
      obtain ⟨k₁, P, T, hadds, hstage, hfresh, hplain⟩ :=
        linearizeOperands_spec hready hR hc ih hst hord hslots'.2 hops
      have hb : h.borrowedNames = [] := by
        refine borrowedNames_of_not_keeps (x := x) ?_
        rw [hwhole] at hcase
        simp only [keepsOperands, Instr.extra_mk, Instr.head_mk, Bool.or_eq_false_iff] at hcase
        exact hcase.2.1.1.2
      have hstage' := twoStage_rebuild (x := x) hR hc hb hslots'.1 hfresh hstage
      obtain ⟨k', Q, U, hadds', hspec, hplain'⟩ := finishInstr_spec hready hadds hstage' (rebuild_requiresTemp x h ops')
        (rebuild_makeCell x h ops') hlin
      refine ⟨k', Q, U, hadds', hspec, fun hno => ?_⟩
      rw [lifts, hcase, Bool.or_eq_false_iff, Bool.not_false] at hno
      obtain ⟨rfl, rfl, rfl, rfl⟩ := hplain' hno.1
      obtain ⟨rfl, rfl, rfl, rfl⟩ := hplain hno.2
      exact ⟨rebuild_of_not_requiresTemp hno.1 x _, rfl, rfl, rfl⟩

/-! ## Statements, blocks and functions -/

/-- A store whose value runs in two stages. -/
theorem twoStage_store (hc : CellsBelow f.stackSlots.length owned)
    {value value' : InstrTyped} (hn : name.below f.stackSlots.length)
    (hcell : Instr.head value' = .makeCell ↔ Instr.head value = .makeCell)
    (h : StagedFrom f R owned k (eval R owned value) (eval R owned value') P) :
    StagedFrom f R owned k (eval R owned (.mk x (.store name) [value]))
      (eval R owned (.mk x (.store name) [value'])) P := by
  have hlist : StagedFrom f R owned k (evalList R owned [value])
      (evalList R owned [value']) P := twoStage_cons_inPlace hc (by simp [slotsBelowList]) h
  have hact := hlist.andThen (c := fun vs => actStore R owned name (storesFreshCell [value]) (vs.headD .none))
    (d := fun vs => actStore R owned name (storesFreshCell [value]) (vs.headD .none))
    fun vs τ τ' hτ => (effects_actStore R owned name _ _).matches
      (actAccesses_below hc (by simpa [Head.names] using hn) _) hτ
  intro σ σ' hσ
  have := hact σ σ' hσ
  simpa only [eval, Head.borrowedNames, borrowAll, Outcome.andThen_ok, Head.act,
    storesFreshCell_cons hcell [] []] using this

variable (hready : LinearizeReady f) (hR : LinearizeRuntime R) (hc : CellsBelow f.stackSlots.length owned)
include hready hR hc

/-- `linearizeInstr` on a root, from a linearizer without statements and temporaries. -/
theorem linearizeRoot_spec (hord : ordered owner f i) (hslots : i.slotsBelow f.stackSlots.length)
    (h : linearizeInstr owner true i { function := f.grown k } = .ok (i', st')) :
    ∃ k', st'.function = f.grown k' ∧
      StagedFrom f R owned k (eval R owned i) (eval R owned i') st'.hoisted ∧
      QuietDels (f.stackSlots.length + k) (f.stackSlots.length + k') (typedCleanupDels st'.temps) ∧
      (Instr.head i' = .makeCell ↔ Instr.head i = .makeCell) := by
  obtain ⟨k', P, T, hadds, hstage, _⟩ := linearizeInstr_spec hready hR hc owner i true _ st' k i' rfl hord hslots h
  have hhoisted : st'.hoisted = P := hadds.hoisted
  have htemps : st'.temps = T := hadds.temps
  rw [hhoisted, htemps]
  exact ⟨k', hadds.after, hstage.twoStage, hadds.quietDels, hstage.makeCell⟩

variable {body : List InstrTyped}

/-- A statement and what it is linearized to. -/
theorem linearizeStatement_spec (hord : orderedStatement owner f i)
    (hslots : i.slotsBelow f.stackSlots.length) (h : linearizeStatement owner (f.grown k) i = .ok (body, g)) :
    ∃ k', g = f.grown k' ∧ ∀ σ σ', Agree f.stackSlots.length σ σ' →
      (execBody R owned [i] σ).Agrees f.stackSlots.length (execBody R owned body σ') := by
  unfold linearizeStatement at h
  split at h
  · rename_i x name value
    obtain ⟨⟨value', st'⟩, hvalue, h⟩ := bind_eq_ok.mp h
    cases h
    rw [slotsBelow_mk, Bool.and_eq_true, slotsBelowList_iff] at hslots
    have hn : name.below f.stackSlots.length = true := by simpa [Head.names] using hslots.1
    obtain ⟨k', hfunction, hstage, hdels, hcell⟩ :=
      linearizeRoot_spec hready hR hc hord (hslots.2 value mem_cons_self) hvalue
    refine ⟨k', hfunction, fun σ σ' hσ => ?_⟩
    exact (twoStage_store hc hn hcell hstage).statement (Nat.le_add_right _ _) hdels hσ
  · rename_i hstore
    obtain ⟨⟨i', st'⟩, hi, h⟩ := bind_eq_ok.mp h
    cases h
    have hord' : ordered owner f i := by
      unfold orderedStatement at hord
      split at hord
      · exact absurd rfl (hstore _ _ _)
      · exact hord
    obtain ⟨k', hfunction, hstage, hdels, _⟩ := linearizeRoot_spec hready hR hc hord' hslots hi
    exact ⟨k', hfunction, fun σ σ' hσ => hstage.statement (Nat.le_add_right _ _) hdels hσ⟩

theorem linearizeBody_spec (hord : is.all (orderedStatement owner f))
    (hslots : slotsBelowList f.stackSlots.length is) (h : linearizeBody owner (f.grown k) is = .ok (body, g)) :
    ∃ k', g = f.grown k' ∧ ∀ σ σ', Agree f.stackSlots.length σ σ' →
      (execBody R owned is σ).Agrees f.stackSlots.length (execBody R owned body σ') := by
  induction is generalizing k body with
  | nil =>
    cases h
    exact ⟨k, rfl, fun σ σ' hσ => ⟨rfl, hσ⟩⟩
  | cons i is ih =>
    rw [all_cons, Bool.and_eq_true] at hord
    rw [slotsBelowList, Bool.and_eq_true] at hslots
    obtain ⟨⟨first, g₁⟩, hfirst, h⟩ := bind_eq_ok.mp h
    obtain ⟨k₁, rfl, hagrees⟩ := linearizeStatement_spec hready hR hc hord.1 hslots.1 hfirst
    obtain ⟨⟨rest, g₂⟩, hrest, h⟩ := bind_eq_ok.mp h
    cases h
    obtain ⟨k', hg, hagrees'⟩ := ih hord.2 hslots.2 hrest
    refine ⟨k', hg, fun σ σ' hσ => ?_⟩
    rw [show i :: is = [i] ++ is from rfl, execBody_append, execBody_append]
    exact (hagrees σ σ' hσ).andThen fun _ τ τ' hτ => hagrees' τ τ' hτ

variable {r : (List InstrTyped × BlockTerm InstrTyped) × CodegenFunction InstrTyped}

/-- A terminator that acts on the value of one operand; what it does with the value is `c`. -/
theorem linearizeTermOperand_spec {term : InstrTyped → BlockTerm InstrTyped}
    {c : Value → State R.World → Outcome R.World TermOutcome} (hord : [i].all (ordered owner f))
    (hslots : slotsBelowList f.stackSlots.length [i]) (h : linearizeTermOperand owner (f.grown k) i term = .ok r)
    (hterm : ∀ i σ, execTerm R owned (term i) σ = (eval R owned i σ).andThen c)
    (hmatches : ∀ v τ τ', Agree f.stackSlots.length τ τ' → Matches f.stackSlots.length τ' (c v τ) (c v τ')) :
    ∃ k', r.2 = f.grown k' ∧ ∀ σ σ', Agree f.stackSlots.length σ σ' →
      (execTerm R owned (term i) σ).Agrees f.stackSlots.length
        ((execBody R owned r.1.1 σ').andThen fun _ σ => execTerm R owned r.1.2 σ) := by
  simp only [all_cons, all_nil, slotsBelowList, Bool.and_true] at hord hslots
  obtain ⟨⟨i', st'⟩, hi, h⟩ := bind_eq_ok.mp h
  obtain rfl := Except.ok.inj h
  obtain ⟨k', hfunction, hstage, _, _⟩ := linearizeRoot_spec hready hR hc hord hslots hi
  refine ⟨k', hfunction, fun σ σ' hσ => ?_⟩
  have hrun := (hstage.andThen hmatches).run hσ
  simpa only [hterm] using hrun

theorem linearizeTerm_spec {t : BlockTerm InstrTyped}
    (hord : t.operands.all (ordered owner f)) (hslots : slotsBelowList f.stackSlots.length t.operands)
    (h : linearizeTerm owner (f.grown k) t = .ok r) : ∃ k', r.2 = f.grown k' ∧ ∀ σ σ', Agree f.stackSlots.length σ σ' →
      (execTerm R owned t σ).Agrees f.stackSlots.length
        ((execBody R owned r.1.1 σ').andThen fun _ σ => execTerm R owned r.1.2 σ) := by
  cases t with
  | jump edge =>
    cases h
    exact ⟨k, rfl, fun σ σ' hσ => ⟨rfl, hσ⟩⟩
  | ifTerm test t e =>
    rw [linearizeTerm] at h
    refine linearizeTermOperand_spec hready hR hc hord hslots h (fun _ _ => rfl) fun v τ τ' hτ => ?_
    exact ((Effects.world (R.isTrue v)).matches nofun hτ).andThen fun b ρ ρ' hρ => Matches.of_agree hρ _
  | branchTable index targets default =>
    rw [linearizeTerm] at h
    refine linearizeTermOperand_spec hready hR hc hord hslots h (fun _ _ => rfl) fun v τ τ' hτ => ?_
    exact ((Effects.world (R.asIndex v)).matches nofun hτ).andThen fun j ρ ρ' hρ => Matches.of_agree hρ _
  | raise exc =>
    have hraised : ∀ (v : Option Value) (τ τ' : State R.World), Agree f.stackSlots.length τ τ' →
        Matches f.stackSlots.length τ' (τ.raised R v) (τ'.raised R v) := fun v τ τ' hτ =>
      (Effects.world fun w => (.error (R.raised v w).1, (R.raised v w).2)).matches nofun hτ
    cases exc with
    | none =>
      cases h
      exact ⟨k, rfl, fun σ σ' hσ => (hraised none σ σ' hσ).agrees⟩
    | some exc =>
      rw [linearizeTerm] at h
      exact linearizeTermOperand_spec hready hR hc hord hslots h (fun _ _ => rfl) fun v => hraised (some v)
  | ret value | generatorReturn value =>
    exact linearizeTermOperand_spec hready hR hc hord hslots h (fun _ _ => rfl) fun v τ τ' hτ => Matches.of_agree hτ _

theorem linearizeBlock_spec {b b' : Block InstrTyped} (hb : b ∈ f.blocks)
    (hord : (b.body.all (orderedStatement owner f) && b.term.operands.all (ordered owner f)))
    (h : linearizeBlock owner (f.grown k) b = .ok (b', g)) :
    ∃ k', g = f.grown k' ∧ BlockAgrees R f.stackSlots.length owned b b' := by
  rw [Bool.and_eq_true] at hord
  obtain ⟨⟨body, g₁⟩, hbody, h⟩ := bind_eq_ok.mp h
  obtain ⟨k₁, rfl, hagrees⟩ := linearizeBody_spec hready hR hc hord.1 (hready.body b hb) hbody
  obtain ⟨⟨term, g₂⟩, hterm, h⟩ := bind_eq_ok.mp h
  cases h
  obtain ⟨k', hg, hagrees'⟩ := linearizeTerm_spec hready hR hc hord.2 (hready.term b hb) hterm
  refine ⟨k', hg, rfl, rfl, rfl, fun σ σ' hσ => ?_⟩
  have hassoc : execBlock R owned { b with body := body ++ term.1, term := term.2 } σ' =
      (execBody R owned body σ').andThen fun _ σ =>
        (execBody R owned term.1 σ).andThen fun _ σ => execTerm R owned term.2 σ := by
    rw [execBlock, execBody_append, Outcome.andThen_assoc]
  rw [hassoc]
  exact (hagrees σ σ' hσ).andThen fun _ τ τ' hτ => hagrees' τ τ' hτ

theorem linearizeBlocks_spec {bs bs' : List (Block InstrTyped)} (hbs : ∀ b ∈ bs, b ∈ f.blocks)
    (hord : ∀ b ∈ bs, (b.body.all (orderedStatement owner f) && b.term.operands.all (ordered owner f)))
    (h : linearizeBlocks owner (f.grown k) bs = .ok (bs', g)) :
    ∃ k', g = f.grown k' ∧ List.Forall₂ (BlockAgrees R f.stackSlots.length owned) bs bs' := by
  induction bs generalizing k bs' with
  | nil =>
    cases h
    exact ⟨k, rfl, List.Forall₂.nil⟩
  | cons b bs ih =>
    obtain ⟨⟨b', g₁⟩, hb', h⟩ := bind_eq_ok.mp h
    obtain ⟨k₁, rfl, hagrees⟩ :=
      linearizeBlock_spec hready hR hc (hbs b mem_cons_self) (hord b mem_cons_self) hb'
    obtain ⟨⟨rest, g₂⟩, hrest, h⟩ := bind_eq_ok.mp h
    cases h
    obtain ⟨k', hg, hall⟩ :=
      ih (fun c hc => hbs c (mem_cons_of_mem _ hc)) (fun c hc => hord c (mem_cons_of_mem _ hc)) hrest
    exact ⟨k', hg, List.Forall₂.cons hagrees hall⟩

end

/-- A name that is no temporary stands for the same slot after temporaries were allocated. -/
theorem locationByName_grown (k : Nat) (blocks : List (Block InstrTyped)) {s : String}
    (hs : ∀ j, f.nextTmpId ≤ j → f.linearizedName j ≠ s) :
    { f.grown k with blocks := blocks }.toBlockPyFunction.locationByName s = f.toBlockPyFunction.locationByName s := by
  have hnot : s ∉ (List.range' f.nextTmpId k).map f.linearizedName := by
    simp only [mem_map, mem_range'_1, not_exists, not_and]
    exact fun j hj => hs j hj.1
  have hnone : ((List.range' f.nextTmpId k).map f.linearizedName).findIdx? (· == s) = none :=
    List.idxOf?_eq_none_iff.mpr hnot
  change (f.stackSlots ++ (List.range' f.nextTmpId k).map f.linearizedName).findIdx? (· == s) = _
  rw [List.findIdx?_append, hnone, Option.map_none, Option.or_none]
  rfl

/-- The cells of the function are where they were. -/
theorem ownedCell_grown (hready : LinearizeReady f) (k : Nat) (blocks : List (Block InstrTyped)) :
    { f.grown k with blocks := blocks }.toBlockPyFunction.ownedCell = f.toBlockPyFunction.ownedCell := by
  funext slot
  change f.cellvars[slot]?.bind _ = f.cellvars[slot]?.bind _
  cases hcell : f.cellvars[slot]? with
  | none => rfl
  | some s =>
    have hmem : s ∈ f.cellvars := mem_of_getElem? hcell
    exact locationByName_grown k blocks fun j hj hs => hready.freshCell j hj (hs ▸ hmem)

theorem cellsBelow_stackSlots : CellsBelow f.stackSlots.length f.toBlockPyFunction.ownedCell := by
  intro slot x hx
  obtain ⟨s, _, hs⟩ := Option.bind_eq_some_iff.mp hx
  exact locationByName_lt hs

/-- Linearization preserves evaluation: where no operand that stays in place stands before one that statements are put
ahead for, a frame of the function and a frame of the linearized function that start at the same place are at the same
place after every number of steps: they have done the same to the world, hold the same in the slots of the function, and
have ended with the same value or exception. -/
theorem linearized_frame_agrees {owner : OperandOwner} {R : Runtime TypedOp} {f' : CodegenFunction InstrTyped}
    (hready : LinearizeReady f) (hR : LinearizeRuntime R) (hord : f.ordered owner = true)
    (h : linearizeTypedFunctionExpressions owner f = .ok f') (steps : Nat) (l : BlockLabel) (σ : State R.World) :
    ConfigAgrees f.stackSlots.length (execFrame f.toBlockPyFunction R steps (.enter l σ))
      (execFrame f'.toBlockPyFunction R steps (.enter l σ)) := by
  obtain ⟨⟨blocks, g⟩, hblocks, h⟩ := bind_eq_ok.mp h
  obtain rfl := Except.ok.inj h
  rw [show linearizeBlocks owner f f.blocks = linearizeBlocks owner (f.grown 0) f.blocks by rw [grown_zero]] at hblocks
  obtain ⟨k, rfl, hall⟩ := linearizeBlocks_spec hready hR cellsBelow_stackSlots (fun b hb => hb)
    (all_eq_true.mp hord) hblocks
  refine execFrame_agrees (Nat.le_refl _) hall (fun b hb s hs => ?_) (ownedCell_grown hready k blocks) steps
    (ConfigAgrees.enter l (Agree.refl _ _))
  exact locationByName_grown k blocks fun j hj hname => hready.freshEdge j hj b hb (hname ▸ hs)

end

/-! ## Calls in a log -/

/-- The log of the typed calls. -/
def typedCallLog : Runtime TypedOp :=
  callLog fun
    | .callTyped _ | .guardedMethodCallTyped _ _ _ => true
    | _ => false

theorem typedCallLog_linearizeRuntime : LinearizeRuntime typedCallLog :=
  ⟨fun _ _ _ => rfl, fun _ _ _ _ => ⟨.none, fun _ => rfl⟩⟩

/-- A function that returns an expression. -/
def returning (value : InstrTyped) : CodegenFunction InstrTyped where
  params := []
  stackSlots := []
  blocks := [{ label := 0, body := [], term := .ret value }]
  nextBlockId := 1

theorem returning_linearizeReady {value : InstrTyped} (h : value.slotsBelow 0) : LinearizeReady (returning value) where
  body := forall_mem_singleton.mpr rfl
  term := forall_mem_singleton.mpr (by simp [BlockTerm.operands, slotsBelowList, returning, h])
  freshSlot _ _ := not_mem_nil
  freshCell _ _ := not_mem_nil
  freshEdge _ _ := forall_mem_singleton.mpr not_mem_nil

/-- A call of a constant without arguments. -/
def callConstant (index : Nat) : InstrTyped :=
  .mk {} (.op (.callTyped { args := [] })) [InstrTyped.load ⟨"", .constant index⟩]

/-- `([f()], g())`, the two functions being constants. -/
def displayThenCall : InstrTyped :=
  .mk {} (.op .tuple) [.mk {} (.op (.buildCollection .list)) [callConstant 0], callConstant 1]

/-- `(f(), [g()])`. -/
def callThenDisplay : InstrTyped :=
  .mk {} (.op .tuple) [callConstant 0, .mk {} (.op (.buildCollection .list)) [callConstant 1]]

theorem ConfigAgrees.world?_eq {W : Type} {n : Nat} {c c' : Config W} (h : ConfigAgrees n c c') : c'.world? = c.world? := by
  cases h with
  | enter _ h | returned _ h | generatorReturned _ h | raised _ h => exact congrArg some h.world
  | stuck => rfl

/-- The calls of a function that returns an expression, and those of its linearization. -/
def callsOf (value : InstrTyped) : Option (List (List Value)) :=
  (execFrame (returning value).toBlockPyFunction typedCallLog 1 (.enter 0 ⟨fun _ => none, []⟩)).world?

def linearizedCallsOf (value : InstrTyped) : Option (List (List Value)) :=
  match linearizeTypedFunctionExpressions (fun _ => none) (returning value) with
  | .ok f' => (execFrame f'.toBlockPyFunction typedCallLog 1 (.enter 0 ⟨fun _ => none, []⟩)).world?
  | .error _ => none

/-- Linearization does not preserve evaluation for every function: of `([f()], g())` the display stays in place while the
call after it is lifted, so that `g` is called first. -/
theorem linearized_frame_agrees_false :
    ¬ ∀ (owner : OperandOwner) (R : Runtime TypedOp) (f f' : CodegenFunction InstrTyped), LinearizeReady f →
        LinearizeRuntime R → linearizeTypedFunctionExpressions owner f = .ok f' →
        ∀ (steps : Nat) (l : BlockLabel) (σ : State R.World),
          ConfigAgrees f.stackSlots.length (execFrame f.toBlockPyFunction R steps (.enter l σ))
            (execFrame f'.toBlockPyFunction R steps (.enter l σ)) := by
  intro h
  have hcalls : linearizedCallsOf displayThenCall = some [[typedCallLog.constant 1], [typedCallLog.constant 0]] := by
    decide +kernel
  unfold linearizedCallsOf at hcalls
  split at hcalls
  · rename_i f' hf'
    have hagree := h _ typedCallLog _ f' (returning_linearizeReady rfl) typedCallLog_linearizeRuntime hf' 1 0 ⟨fun _ => none, []⟩
    rw [hagree.world?_eq] at hcalls
    have horder : callsOf displayThenCall = some [[typedCallLog.constant 0], [typedCallLog.constant 1]] := by decide +kernel
    have hswap := horder.symm.trans hcalls
    exact absurd hswap (by decide)
  · cases hcalls

/-- `(f(), [g()])`: the display stands last, and the calls are made in order. -/
theorem linearized_frame_agrees_callThenDisplay :
    ∃ f', linearizeTypedFunctionExpressions (fun _ => none) (returning callThenDisplay) = .ok f' ∧
      (returning callThenDisplay).ordered (fun _ => none) = true ∧
      ∀ steps l σ, ConfigAgrees 0 (execFrame (returning callThenDisplay).toBlockPyFunction typedCallLog steps (.enter l σ))
        (execFrame f'.toBlockPyFunction typedCallLog steps (.enter l σ)) := by
  have hord : (returning callThenDisplay).ordered (fun _ => none) = true := by decide +kernel
  cases hlin : linearizeTypedFunctionExpressions (fun _ => none) (returning callThenDisplay) with
  | ok f' =>
    exact ⟨f', rfl, hord, linearized_frame_agrees (returning_linearizeReady rfl) typedCallLog_linearizeRuntime hord hlin⟩
  | error e =>
    have hok : (linearizeTypedFunctionExpressions (fun _ => none) (returning callThenDisplay)).isOk = true := by
      decide +kernel
    rw [hlin] at hok
    cases hok

end Soac
