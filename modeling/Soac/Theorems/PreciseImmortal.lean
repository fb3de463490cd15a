import Soac.Facts.Meaning
import Soac.Ownership.PreciseImmortal

/-!
# What precise immortality promises

A slot that is marked at the entry of a block holds an immortal object there, in every run whose moves meet
`Move.KeepsImmortal`: the stores of values declared immortal store immortal objects, and an exception leaves a block only
when the slots that the rest of the block stores a possibly immortal value to hold immortal objects already. The analysis
sends what holds at the end of the block along the exception edge as well, so without the second condition the marks are
wrong in handlers: `preciseImmortal_false`. It also has no entry state for the function, so a marked slot of an entry
block that is entered again must hold an immortal object from the start.
-/

namespace Soac

open List Instr BlockPyFunction

variable {K : Type}

/-- The slot holds an immortal object. -/
def State.HoldsImmortal {W : Type} (σ : State W) (x : LocalLocation) : Prop :=
  ∃ v, σ.locals x = some v ∧ v.immortal = true

/-- Every marked slot holds an immortal object. -/
def State.ImmortalOn {W : Type} (σ : State W) (s : LocalBitSet) : Prop :=
  ∀ x ∈ s, σ.HoldsImmortal x

theorem State.HoldsImmortal.of_locals_eq {W : Type} {σ σ' : State W} {x : LocalLocation} (h : σ.HoldsImmortal x)
    (he : σ'.locals x = σ.locals x) : σ'.HoldsImmortal x := by
  obtain ⟨v, hv, hi⟩ := h
  exact ⟨v, he.trans hv, hi⟩

/-- The expression is declared immortal: by its plan or by its facts, not by what is known of the slot it loads. -/
def declaredImmortal (facts : FactStore) (e : Instr TypedInstrExtra K) : Bool :=
  typedExprIsPreciselyImmortal facts ∅ e

/-- The expression can count as immortal: it does when the slot it loads is marked. -/
def canBeImmortal (facts : FactStore) (e : Instr TypedInstrExtra K) : Bool :=
  typedExprIsPreciselyImmortal facts (localLoadLocation e).toFinset e

/-- The slot a statement can store an immortal object to, as the analysis sees it. -/
def immortalStore (facts : FactStore) (owned : Nat → Option LocalLocation) (i : Instr TypedInstrExtra K) :
    Option LocalLocation :=
  match i.storedValue with
  | some value => if canBeImmortal facts value then i.rootWrite owned else none
  | none => none

/-! ## Expressions -/

section

variable {facts : FactStore} {state : LocalBitSet} {e : Instr TypedInstrExtra K}

/-- An expression counts as immortal because it is declared so, or because it loads a marked slot. -/
theorem preciselyImmortal_cases (h : typedExprIsPreciselyImmortal facts state e) :
    declaredImmortal facts e ∨ ∃ x ∈ state, localLoadLocation e = some x := by
  unfold declaredImmortal
  unfold typedExprIsPreciselyImmortal at h ⊢
  split at h
  · rename_i hp
    exact .inl (by rw [if_pos hp])
  · rename_i hp
    rw [if_neg hp]
    cases hl : localLoadLocation e with
    | some x =>
      simp only [hl, decide_eq_true_eq] at h
      exact .inr ⟨x, h, rfl⟩
    | none =>
      simp only [hl] at h
      exact .inl h

theorem canBeImmortal_of_preciselyImmortal
    (h : typedExprIsPreciselyImmortal facts state e) : canBeImmortal facts e := by
  unfold canBeImmortal
  unfold typedExprIsPreciselyImmortal at h ⊢
  split at h
  · rename_i hp
    rw [if_pos hp]
  · rename_i hp
    rw [if_neg hp]
    cases hl : localLoadLocation e with
    | some x => simp
    | none =>
      simp only [hl] at h
      exact h

end

/-! ## Statements -/

section

variable {facts : FactStore} {owned : Nat → Option LocalLocation} {x : LocalLocation} {i : Instr TypedInstrExtra K}

/-- A slot marked after a statement was marked before and is left alone by it, or the statement stores to it a value that
counts as immortal. -/
theorem mem_transferImmortalInstr {state : LocalBitSet} (hx : x ∈ transferImmortalInstr facts owned state i) :
    (x ∈ state ∧ x ∉ i.operandTakes ∧ i.rootWrite owned ≠ some x) ∨
      (i.rootWrite owned = some x ∧ ∃ value, i.storedValue = some value ∧
        typedExprIsPreciselyImmortal facts (state \ i.operandTakes.toFinset) value) := by
  obtain ⟨y, h, ops⟩ := i
  have hmem : x ∈ state \ (Instr.mk y h ops).operandTakes.toFinset →
      x ∈ state ∧ x ∉ (Instr.mk y h ops).operandTakes := by
    intro hz
    rwa [Finset.mem_sdiff, mem_toFinset] at hz
  rw [← and_assoc]
  simp only [transferImmortalInstr, immortalRoot, head_mk, operands_mk] at hx
  cases h with
  | store n =>
    simp only [rootWrite, head_mk, operands_mk]
    cases hb : storeBindingLocation owned n (storesFreshCell ops) with
    | none =>
      simp only [hb] at hx
      exact .inl ⟨hmem hx, by simp⟩
    | some z =>
      simp only [hb] at hx
      split at hx
      · rename_i himm
        by_cases hxz : x = z
        · subst hxz
          cases hv : (Instr.mk y (.store n) ops).storedValue with
          | none => simp [hv] at himm
          | some value => exact .inr ⟨rfl, value, rfl, by simpa [hv] using himm⟩
        · have hx := (Finset.mem_insert.mp hx).resolve_left hxz
          exact .inl ⟨hmem hx, fun h => hxz (Option.some.inj h).symm⟩
      · obtain ⟨hne, hx⟩ := Finset.mem_erase.mp hx
        exact .inl ⟨hmem hx, fun h => hne (Option.some.inj h).symm⟩
  | del n quietly =>
    rw [Finset.mem_sdiff, Option.mem_toFinset] at hx
    exact .inl ⟨hmem hx.1, hx.2⟩
  | callArgumentOp kind callable buffer =>
    cases hk : kind.replacesBuffer with
    | true =>
      simp only [hk, if_true, Finset.mem_sdiff (s := state \ _), Option.mem_toFinset] at hx
      exact .inl ⟨hmem hx.1, by simpa [rootWrite, hk] using hx.2⟩
    | false =>
      simp only [hk, Bool.false_eq_true, if_false] at hx
      exact .inl ⟨hmem hx, by simp [rootWrite, hk]⟩
  | _ => exact .inl ⟨hmem hx, by simp [rootWrite]⟩

/-- A store that ends normally leaves the value it stored in the slot it binds. -/
theorem eval_store_locals {X : Type} {R : Runtime K} {i value : Instr X K}
    (hr : i.rootWrite owned = some x) (hv : i.storedValue = some value) {σ σ' : State R.World} {v : Value}
    (he : eval R owned i σ = (.ok v, σ')) : ∃ u σ₁, eval R owned value σ = (.ok u, σ₁) ∧ σ'.locals x = some u := by
  obtain ⟨y, h, ops⟩ := i
  cases h with
  | store n =>
    cases ops with
    | nil => cases hv
    | cons j ops =>
      obtain rfl : j = value := by simpa [storedValue] using hv
      obtain ⟨borrowed, σ₁, values, σ₂, hb, hvs, hact⟩ := eval_mk_ok he
      obtain ⟨_, rfl⟩ := hb
      obtain ⟨u, σ₃, ws, hj, _, rfl⟩ := evalList_cons_ok hvs
      refine ⟨u, σ₃, hj, ?_⟩
      simp only [rootWrite, head_mk, operands_mk] at hr
      obtain ⟨id, loc⟩ := n
      simp only [Head.act, actStore, headD_cons] at hact
      cases loc with
      | «local» z =>
        obtain rfl : z = x := by simpa [storeBindingLocation] using hr
        cases hact
        simp
      | cell c =>
        cases c with
        | owned slot =>
          simp only [storeBindingLocation, Option.ite_none_right_eq_some] at hr
          simp only [hr.2, hr.1, if_true] at hact
          cases hact
          simp
        | _ => simp [storeBindingLocation] at hr
      | _ => simp [storeBindingLocation] at hr
  | _ => cases hv

variable {R : Runtime K} {state : LocalBitSet} {σ σ' : State R.World}

/-- Where a value declared immortal is stored, the value is immortal. -/
def StoresDeclared (facts : FactStore) (R : Runtime K) (owned : Nat → Option LocalLocation)
    (i : Instr TypedInstrExtra K) (σ : State R.World) : Prop :=
  ∀ value, i.storedValue = some value → declaredImmortal facts value = true →
    ∀ v σ', eval R owned value σ = (.ok v, σ') → v.immortal = true

theorem writeFree_storedValue {X : Type} {i value : Instr X K} (hw : writeFreeList i.operands)
    (hv : i.storedValue = some value) : writeFreeList value.operands := by
  obtain ⟨y, h, ops⟩ := i
  cases h with
  | store n =>
    cases ops with
    | nil => cases hv
    | cons j ops =>
      obtain rfl : j = value := by simpa [storedValue] using hv
      exact writeFreeList_operands hw mem_cons_self
  | _ => cases hv

/-- A statement that ends normally keeps the marks right. -/
theorem transferImmortalInstr_sound (hw : writeFreeList i.operands) {v : Value}
    (hσ : σ.ImmortalOn state) (hd : StoresDeclared facts R owned i σ) (he : eval R owned i σ = (.ok v, σ')) :
    σ'.ImmortalOn (transferImmortalInstr facts owned state i) := by
  intro x hx
  rcases mem_transferImmortalInstr hx with ⟨hs, ht, hr⟩ | ⟨hr, value, hv, himm⟩
  · have hkeep : Keeps x σ (eval R owned i σ) := eval_statement_keeps R owned x i hw ht hr σ
    rw [he] at hkeep
    exact (hσ x hs).of_locals_eq hkeep
  · obtain ⟨u, σ₁, hu, hx'⟩ := eval_store_locals hr hv he
    refine ⟨u, hx', ?_⟩
    rcases preciselyImmortal_cases himm with hdecl | ⟨z, hz, hload⟩
    · exact hd value hv hdecl u σ₁ hu
    · rw [Finset.mem_sdiff] at hz
      have hzu : σ.locals z = some u := eval_localLoad R owned z hload (writeFree_storedValue hw hv) hu
      obtain ⟨w, hw', hi⟩ := hσ z hz.1
      rw [hw'] at hzu
      rwa [← Option.some.inj hzu]

/-- Where the statements of a body store values declared immortal, the values are immortal. -/
def BodyStoresDeclared (facts : FactStore) (R : Runtime K) (owned : Nat → Option LocalLocation)
    (is : List (Instr TypedInstrExtra K)) (σ : State R.World) : Prop :=
  ∀ pre i post σ₁, is = pre ++ i :: post → execBody R owned pre σ = (.ok (), σ₁) → StoresDeclared facts R owned i σ₁

variable {is : List (Instr TypedInstrExtra K)}

/-- A body that ends normally keeps the marks right. -/
theorem transferImmortalBody_sound (hw : ∀ i ∈ is, writeFreeList i.operands)
    (hσ : σ.ImmortalOn state) (hd : BodyStoresDeclared facts R owned is σ) (he : execBody R owned is σ = (.ok (), σ')) :
    σ'.ImmortalOn (is.foldl (transferImmortalInstr facts owned) state) := by
  induction is generalizing state σ with
  | nil =>
    cases he
    exact hσ
  | cons i is ih =>
    obtain ⟨v, σ₁, hi, hrest⟩ := Outcome.andThen_eq_ok.mp he
    have hdi : StoresDeclared facts R owned i σ := hd [] i is σ rfl rfl
    have h₁ := transferImmortalInstr_sound (hw i (by simp)) hσ hdi hi
    refine ih (fun j hj => hw j (by simp [hj])) h₁ (fun pre j post σ₂ his hpre => ?_) hrest
    refine hd (i :: pre) j post σ₂ (by rw [his, cons_append]) ?_
    rw [execBody, hi]
    exact hpre

theorem immortalStore_of_stored {value : Instr TypedInstrExtra K} (hr : i.rootWrite owned = some x)
    (hv : i.storedValue = some value) (himm : typedExprIsPreciselyImmortal facts state value) :
    immortalStore facts owned i = some x := by
  simp only [immortalStore, hv, canBeImmortal_of_preciselyImmortal himm, if_true, hr]

/-- A slot marked after some statements was marked before them, or one of them can store an immortal object to it. -/
theorem mem_foldl_transferImmortal (hx : x ∈ is.foldl (transferImmortalInstr facts owned) state) :
    x ∈ state ∨ ∃ i ∈ is, immortalStore facts owned i = some x := by
  induction is generalizing state with
  | nil => exact .inl hx
  | cons i is ih =>
    rcases ih hx with hx | ⟨j, hj, hs⟩
    · rcases mem_transferImmortalInstr hx with ⟨hs, _, _⟩ | ⟨hr, value, hv, himm⟩
      · exact .inl hs
      · exact .inr ⟨i, by simp, immortalStore_of_stored hr hv himm⟩
    · exact .inr ⟨j, by simp [hj], hs⟩

variable {b : Block (Instr TypedInstrExtra K)}

/-- An exception leaves the marks of the whole block right, provided the slots the rest of the block can store an immortal
object to hold one already. -/
theorem Leaves.immortalOn (hw : b.StatementWrites) {k : Nat} {exn : Value}
    (h : Leaves R owned b σ k exn σ') (hσ : σ.ImmortalOn state) (hd : BodyStoresDeclared facts R owned (b.body.take k) σ)
    (hrest : ∀ i ∈ b.body.drop k, ∀ x, immortalStore facts owned i = some x → σ'.HoldsImmortal x) :
    σ'.ImmortalOn (transferImmortalThroughBlock facts owned b state) := by
  have hwt : ∀ i ∈ b.body.take k, writeFreeList i.operands := fun i hi => hw.1 i (mem_of_mem_take hi)
  intro x hx
  simp only [transferImmortalThroughBlock, Finset.mem_sdiff, mem_toFinset] at hx
  obtain ⟨hx, hterm⟩ := hx
  rw [← take_append_drop k b.body, foldl_append] at hx
  cases h with
  | before k exn h =>
    have h₁ := transferImmortalBody_sound hwt hσ hd h
    rcases mem_foldl_transferImmortal hx with hx | ⟨i, hi, hs⟩
    · exact h₁ x hx
    · exact hrest i hi x hs
  | @raised σ₁ _ _ _ i h hi hraise =>
    have h₁ := transferImmortalBody_sound hwt hσ hd h
    have hdrop : b.body.drop k = i :: b.body.drop (k + 1) := by
      rw [drop_eq_getElem?_toList_append, hi]
      rfl
    rw [hdrop, foldl_cons] at hx
    rw [hdrop] at hrest
    rcases mem_foldl_transferImmortal hx with hx | ⟨j, hj, hs⟩
    · rcases mem_transferImmortalInstr hx with ⟨hs, ht, hr⟩ | ⟨hr, value, hv, himm⟩
      · -- the statement that raised leaves the slot alone
        have hmem : i ∈ b.body := mem_of_getElem? hi
        have hkeep : Keeps x σ₁ (eval R owned i σ₁) := eval_statement_keeps R owned x i (hw.1 i hmem) ht hr σ₁
        rw [hraise] at hkeep
        exact (h₁ x hs).of_locals_eq hkeep
      · exact hrest i (by simp) x (immortalStore_of_stored hr hv himm)
    · exact hrest j (by simp [hj]) x hs
  | @raisedTerm σ₁ _ _ h hraise =>
    rw [take_length] at hwt hd
    have h₁ := transferImmortalBody_sound hwt hσ hd h
    rw [take_length, drop_length] at hx
    have hkeep : Keeps x σ₁ (execTerm R owned b.term σ₁) := execTerm_keeps R owned x b.term hw.2 hterm σ₁
    rw [hraise] at hkeep
    exact (h₁ x hx).of_locals_eq hkeep

/-- A block that ends normally keeps the marks right. -/
theorem transferImmortalBlock_sound (hw : b.StatementWrites) {out : TermOutcome}
    (hσ : σ.ImmortalOn state) (hd : BodyStoresDeclared facts R owned b.body σ) (he : execBlock R owned b σ = (.ok out, σ')) :
    σ'.ImmortalOn (transferImmortalThroughBlock facts owned b state) := by
  obtain ⟨_, σ₁, hbody, hterm⟩ := Outcome.andThen_eq_ok.mp he
  have h₁ := transferImmortalBody_sound hw.1 hσ hd hbody
  intro x hx
  simp only [transferImmortalThroughBlock, Finset.mem_sdiff, mem_toFinset] at hx
  have hkeep : Keeps x σ₁ (execTerm R owned b.term σ₁) := execTerm_keeps R owned x b.term hw.2 hx.2 σ₁
  rw [hterm] at hkeep
  exact (h₁ x hx.1).of_locals_eq hkeep

end

/-! ## Edges -/

variable {f : BlockPyFunction (Instr TypedInstrExtra K)} {exn : Option Value} {exit : LocalBitSet} {R : Runtime K}

/-- An argument that counts as immortal passes an immortal object. -/
theorem argValue_immortal {σ : State R.World} (hσ : σ.ImmortalOn exit) {a : BlockArg} (ha : f.argImmortal exit a)
    {v : Value} (hv : argValue f R σ exn a = some v) : v.immortal := by
  cases a with
  | name n =>
    simp only [argImmortal, Option.any_eq_true, decide_eq_true_eq] at ha
    obtain ⟨x, hl, hx⟩ := ha
    obtain ⟨u, hu, hi⟩ := hσ x hx
    simp only [argValue, hl, Option.bind_some, hu, Option.some.injEq] at hv
    exact hv ▸ hi
  | none =>
    cases hv
    rfl
  | _ => cases ha

/-- An edge keeps the marks right: those of its arguments and those of what it leaves alone. -/
theorem enterEdge_immortalOn {σ σ' : State R.World}
    {params : List BlockParam} {args : List BlockArg} (liveIn : LocalBitSet)
    (hn : (params.map (·.name)).Nodup) (h : enterEdge f R σ exn params args = some σ') (hσ : σ.ImmortalOn exit) :
    σ'.ImmortalOn (successorImmortalState f liveIn params args exit) := by
  intro x hx
  simp only [successorImmortalState, Finset.mem_union, Finset.mem_inter, Finset.mem_sdiff, mem_toFinset,
    paramLocations, mem_filterMap, Option.ite_none_right_eq_some] at hx
  rcases hx with (⟨pa, hpa, himm, hl⟩ | ⟨⟨p, hp, hl⟩, hx⟩) | ⟨⟨_, hnot⟩, hx⟩
  · obtain ⟨v, hv, hx⟩ := enterEdge_explicit hn h hpa hl
    exact ⟨v, hx, argValue_immortal hσ himm hv⟩
  · refine (hσ x hx).of_locals_eq (enterEdge_keeps h fun qb hqb hl' => ?_)
    exact absurd (locationByName_inj hl hl') (implicit_ne_explicit hn hp hqb)
  · refine (hσ x hx).of_locals_eq (enterEdge_keeps h fun qb hqb hl' => ?_)
    exact absurd ⟨qb.1, mem_params_of_explicit hqb, hl'⟩ hnot

/-! ## Runs -/

/-- A move that keeps the marks right: its target's parameters have distinct names, the values declared immortal that it
stores are immortal, and if an exception leaves the block, then every slot the rest of the block can store an immortal
object to holds one already. -/
structure Move.KeepsImmortal (f : ValidFunction TypedInstrExtra K) (facts : FactStore) (R : Runtime K)
    (m : Move TypedInstrExtra K R.World) : Prop where
  params : (m.target.params.map (·.name)).Nodup
  declared : BodyStoresDeclared facts R f.ownedCell (m.source.body.take m.completed) m.before
  rest : ∀ i ∈ m.source.body.drop m.completed, ∀ x, immortalStore facts f.ownedCell i = some x → m.left.HoldsImmortal x

/-- The function can be entered with the marks of its entry block: no edge leads back to it, or its live slots and its
parameters hold immortal objects. -/
def EntersImmortal (f : ValidFunction TypedInstrExtra K) (liveIn : BlockLabel → LocalBitSet) {W : Type} (σ : State W) :
    Prop :=
  (∃ b ∈ f.blocks, f.entryBlock.label ∈ b.successors) →
    ∀ x ∈ liveIn f.entryBlock.label ∪ (f.paramLocations f.entryBlock.params).toFinset, σ.HoldsImmortal x

theorem successorImmortalState_subset {I : Type} (f : BlockPyFunction I) (liveIn : LocalBitSet)
    (params : List BlockParam) (args : List BlockArg) (exit : LocalBitSet) :
    successorImmortalState f liveIn params args exit ⊆ liveIn ∪ (f.paramLocations params).toFinset := by
  intro x hx
  simp only [successorImmortalState, Finset.mem_union, Finset.mem_inter, Finset.mem_sdiff, mem_toFinset,
    paramLocations, mem_filterMap, Option.ite_none_right_eq_some] at hx
  simp only [Finset.mem_union, mem_toFinset, paramLocations, mem_filterMap]
  rcases hx with (⟨pa, hpa, _, hl⟩ | ⟨⟨p, hp, hl⟩, _⟩) | ⟨⟨hlive, _⟩, _⟩
  · exact .inr ⟨pa.1, mem_params_of_explicit hpa, hl⟩
  · exact .inr ⟨p, mem_of_mem_take hp, hl⟩
  · exact .inl hlive

section

variable {f : ValidFunction TypedInstrExtra K} {facts : FactStore} {liveIn : BlockLabel → LocalBitSet} {fuel : Nat}
  {states : BlockLabel → LocalBitSet} {R : Runtime K}

section

variable (hstates : computePreciseImmortalEntryStates f.toBlockPyFunction facts liveIn fuel = some states)
include hstates

/-- A move carries the marks of its source to its target. -/
theorem Moves.immortalOn {m : Move TypedInstrExtra K R.World} (hm : Moves f R m) (hk : m.KeepsImmortal f facts R)
    (hσ : m.before.ImmortalOn (states m.source.label)) : m.after.ImmortalOn (states m.target.label) := by
  obtain ⟨hn, hd, hrest⟩ := hk
  cases hm with
  | @normal b c σ σ₁ σ₂ edge hb hc hl hx he =>
    rw [take_length] at hd
    have hout := transferImmortalBlock_sound (f.statementWrites b hb) hσ hd hx
    have hedge : edge ∈ b.successorEdges := mem_append_right _ (execBlock_goto hx)
    exact fun x hx => enterEdge_immortalOn _ hn he hout x (preciseImmortal_subset_edge f hstates hb hc hedge hl hx)
  | @exceptional b c σ σ₁ σ₂ edge k exn hb hc hl hex hlv he =>
    have hout := hlv.immortalOn (f.statementWrites b hb) hσ hd hrest
    have hedge : edge ∈ b.successorEdges := mem_append_left _ (by simp [hex])
    exact fun x hx => enterEdge_immortalOn _ hn he hout x (preciseImmortal_subset_edge f hstates hb hc hedge hl hx)

theorem EntersImmortal.immortalOn
    {σ₀ : State R.World} (h₀ : EntersImmortal f liveIn σ₀) : σ₀.ImmortalOn (states f.entryBlock.label) := by
  intro x hx
  obtain ⟨b, hb, e, he, ht⟩ := preciseImmortal_exists_edge f hstates f.entryBlock_mem hx
  refine h₀ ⟨b, hb, ht ▸ mem_successors_of_edge he⟩ x ?_
  exact successorImmortalState_subset _ _ _ _ _ (preciseImmortal_subset_edge f hstates hb f.entryBlock_mem he ht hx)

end

/-- Whenever the analysis ends, on every run whose moves keep the marks right a slot marked at the entry of a reached block
holds an immortal object there, and so does every slot the overrides take for immortal. -/
theorem preciseImmortal_sound
    (hstates : computePreciseImmortalEntryStates f.toBlockPyFunction facts liveIn fuel = some states)
    {σ₀ σ : State R.World} {l : BlockLabel} (h₀ : EntersImmortal f liveIn σ₀)
    (h : Run f R (fun m => m.KeepsImmortal f facts R) σ₀ l σ) :
    (∀ x ∈ states l, σ.HoldsImmortal x) ∧
      ∀ env : LocalLocation → Option LocalRefState, (∀ x, env x = some .immortal → σ.HoldsImmortal x) →
        ∀ x, applyPreciseImmortalOverrides env (states l) x = some .immortal → σ.HoldsImmortal x := by
  have hall : σ.ImmortalOn (states l) := by
    induction h with
    | start => exact h₀.immortalOn hstates
    | step _ hm hk ih => exact hm.immortalOn hstates hk ih
  refine ⟨hall, fun env henv x hx => ?_⟩
  unfold applyPreciseImmortalOverrides at hx
  split at hx
  · exact hall x ‹_›
  · exact henv x hx

end

/-! ## A handler entered before the store -/

namespace PreciseImmortalExample

open InstrTyped

def x : ResolvedName := ⟨"x", .local 0⟩

/-- `None`, with the facts inference gives it. -/
def noneValue : InstrTyped := .mk { resultFacts := some (.pyObj .noneSingleton) } (.load ⟨"NONE", .runtimeName .none⟩) []

def start : Block InstrTyped :=
  { label := 0, body := [store x (.mk {} (.op (.buildCollection .list)) [])], term := .jump ⟨1, []⟩ }

def tryBlock : Block InstrTyped :=
  { label := 1, body := [store x noneValue], term := .jump ⟨2, []⟩, excEdge := some ⟨2, []⟩ }

def join : Block InstrTyped :=
  { label := 2, body := [], term := .ret (load x) }

/-- `x = []; try: x = None; except: pass; return x`, the handler and the code after it in one block. -/
def tryNone : ValidFunction TypedInstrExtra TypedOp where
  params := []
  stackSlots := ["x"]
  blocks := [start, tryBlock, join]
  nonempty := by decide
  labelsNodup := by decide
  targetsKnown := by decide
  slotsNodup := List.nodup_singleton "x"
  statementWrites := by decide

def facts : FactStore := fun _ => none

/-- A list, as every list of this runtime is. -/
def list : Value := .object { exactType := none, truthy := true, immortal := false, id := 0 }

/-- A runtime that makes lists; every other effect on the world raises. -/
def runtime : Runtime TypedOp where
  World := Unit
  prim p _ w := (if p = .op (.buildCollection .list) then .ok list else .error .none, w)
  constant _ := .none
  isTrue _ w := (.ok true, w)
  asIndex _ w := (.ok 0, w)
  raised v w := (v.getD .none, w)
  unbound _ := .none
  abruptKind _ := .none

def entryState : State Unit := { locals := fun _ => none, world := () }

/-- The state after `x = []`. -/
def listState : State Unit := entryState.set 0 list

def toTry : Move TypedInstrExtra TypedOp Unit :=
  ⟨start, tryBlock, ⟨1, []⟩, none, 1, entryState, listState, listState⟩

/-- An exception leaves block 1 before `x = None`. -/
def byException : Move TypedInstrExtra TypedOp Unit :=
  ⟨tryBlock, join, ⟨2, []⟩, some .none, 0, listState, listState, listState⟩

def byJump : Move TypedInstrExtra TypedOp Unit :=
  ⟨tryBlock, join, ⟨2, []⟩, none, 1, listState, listState.set 0 .none, listState.set 0 .none⟩

theorem mem_blocks : start ∈ tryNone.blocks ∧ tryBlock ∈ tryNone.blocks ∧ join ∈ tryNone.blocks := by
  simp [tryNone]

theorem moves_toTry : Moves tryNone runtime toTry :=
  .normal mem_blocks.1 mem_blocks.2.1 rfl rfl rfl

theorem moves_byException : Moves tryNone runtime byException :=
  .exceptional mem_blocks.2.1 mem_blocks.2.2 rfl rfl (.before 0 .none rfl) rfl

theorem moves_byJump : Moves tryNone runtime byJump :=
  .normal mem_blocks.2.1 mem_blocks.2.2 rfl rfl rfl

/-- The statements of a body with one statement. -/
theorem bodyStoresDeclared_singleton {i : InstrTyped} {σ : State Unit}
    (h : StoresDeclared facts runtime tryNone.ownedCell i σ) :
    BodyStoresDeclared facts runtime tryNone.ownedCell [i] σ := by
  intro pre j post σ₁ his hpre
  cases pre with
  | nil =>
    cases hpre
    cases his
    exact h
  | cons k pre => simp at his

theorem declared_toTry : BodyStoresDeclared facts runtime tryNone.ownedCell (start.body.take 1) entryState := by
  refine bodyStoresDeclared_singleton fun value hv hd => ?_
  cases hv
  exact absurd hd (by decide)

theorem declared_byJump : BodyStoresDeclared facts runtime tryNone.ownedCell (tryBlock.body.take 1) listState := by
  refine bodyStoresDeclared_singleton fun value hv _ v σ' he => ?_
  cases hv
  obtain rfl : Value.none = v := (Except.ok.inj (congrArg Prod.fst he))
  rfl

theorem not_reentered : EntersImmortal tryNone (computeLocalLiveness tryNone.toBlockPyFunction) entryState := by
  intro h
  exact absurd h (by decide)

/-- Everything `Move.KeepsImmortal` asks for but the condition on exceptions. -/
def KeepsPromises (m : Move TypedInstrExtra TypedOp Unit) : Prop :=
  (m.target.params.map (·.name)).Nodup ∧
    BodyStoresDeclared facts runtime tryNone.ownedCell (m.source.body.take m.completed) m.before

theorem exists_states : ∃ states, computePreciseImmortalEntryStates tryNone.toBlockPyFunction facts
    (computeLocalLiveness tryNone.toBlockPyFunction) 3 = some states ∧ states 2 = {0} := by
  decide +kernel

end PreciseImmortalExample

open PreciseImmortalExample in
/-- Without the condition on exceptions the marks are wrong: the exception leaves block 1 before `x = None`, and the handler
finds the list in a slot marked immortal. -/
theorem preciseImmortal_false :
    ∃ states σ, computePreciseImmortalEntryStates tryNone.toBlockPyFunction facts
        (computeLocalLiveness tryNone.toBlockPyFunction) 3 = some states ∧
      EntersImmortal tryNone (computeLocalLiveness tryNone.toBlockPyFunction) entryState ∧
      Run tryNone runtime KeepsPromises entryState 2 σ ∧ 0 ∈ states 2 ∧ ¬σ.HoldsImmortal 0 := by
  obtain ⟨states, hs, h2⟩ := exists_states
  refine ⟨states, listState, hs, not_reentered, ?_, by simp [h2], ?_⟩
  · have hto : KeepsPromises toTry := ⟨by decide, declared_toTry⟩
    have hexc : KeepsPromises byException := by
      refine ⟨by decide, fun pre i post σ₁ his => ?_⟩
      cases pre <;> cases his
    exact Run.step (Run.step Run.start moves_toTry hto) moves_byException hexc
  · rintro ⟨v, hv, hi⟩
    obtain rfl : list = v := Option.some.inj hv
    cases hi

open PreciseImmortalExample in
/-- On the run without the exception `x` is marked, and holds an immortal object. -/
theorem preciseImmortal_sound_tryNone :
    ∃ states σ, computePreciseImmortalEntryStates tryNone.toBlockPyFunction facts
        (computeLocalLiveness tryNone.toBlockPyFunction) 3 = some states ∧
      0 ∈ states 2 ∧ Run tryNone runtime (fun m => m.KeepsImmortal tryNone facts runtime) entryState 2 σ ∧
      σ.HoldsImmortal 0 := by
  obtain ⟨states, hs, h2⟩ := exists_states
  have hmem : 0 ∈ states 2 := by simp [h2]
  have hto : toTry.KeepsImmortal tryNone facts runtime :=
    ⟨by decide, declared_toTry, nofun⟩
  have hjump : byJump.KeepsImmortal tryNone facts runtime :=
    ⟨by decide, declared_byJump, nofun⟩
  have hrun : Run tryNone runtime (fun m => m.KeepsImmortal tryNone facts runtime) entryState 2
      (listState.set 0 .none) :=
    Run.step (Run.step Run.start moves_toTry hto) moves_byJump hjump
  exact ⟨states, _, hs, hmem, hrun, (preciseImmortal_sound hs not_reentered hrun).1 0 hmem⟩

end Soac
