import Soac.Inline.Attempt

/-!
# The labels of an inline rewrite

A rewrite replaces one block of the caller by several. Their labels are new, and every edge of them should lead to a
block of the rewritten caller. The copies of a callee are labelled before its edges are mapped, and the copy of its entry
is given the label of its guard afterwards, so an edge of the callee that leads back to its entry leads nowhere in the
copy. `inlineRewrite_wellFormed_iff` says that this is the only way a rewrite goes wrong.
-/

namespace Soac

open Fallible Fresh List RemapM

variable {X K : Type}

/-! ## What the copy of a block looks like -/

/-- The terminators that end the function normally. -/
def BlockTerm.isReturn {I : Type} : BlockTerm I → Bool
  | .ret _ => true
  | _ => false

/-- The label and the edges of the copy of a block: a return leads to the continuation. -/
structure CopyOf (labelMap : LabelMap) (continuation : BlockLabel) (b o : Block (Instr X K)) : Prop where
  label : labelMap.lookup b.label = some o.label
  excEdge : o.excEdge = none ↔ b.excEdge = none
  successors : ∀ l, l ∈ o.successors ↔
    (b.term.isReturn = true ∧ l = continuation) ∨ ∃ k ∈ b.successors, labelMap.lookup k = some l

variable {labelMap : LabelMap}

theorem remapInlineEdge_target {env : RemapEnv X K} {edge edge' : BlockEdge}
    (h : remapInlineEdge env labelMap edge = .ok edge') : labelMap.lookup edge.target = some edge'.target := by
  obtain ⟨target, ht, h⟩ := except_bind_eq_ok.mp h
  obtain ⟨args, _, rfl⟩ := map_eq_ok.mp h
  exact remappedLabel_eq_ok ht

/-- The members of a mapped list of labels. -/
theorem mem_of_mapM_remappedLabel {ks ls : List BlockLabel}
    (h : List.Forall₂ (fun k l => remappedLabel labelMap k = .ok l) ks ls) (l : BlockLabel) :
    l ∈ ls ↔ ∃ k ∈ ks, labelMap.lookup k = some l := by
  constructor
  · intro hl
    obtain ⟨k, hk, hkl⟩ := forall₂_mem_right h hl
    exact ⟨k, hk, remappedLabel_eq_ok hkl⟩
  · rintro ⟨k, hk, hkl⟩
    obtain ⟨l', hl', hkl'⟩ := forall₂_mem_left h hk
    rw [remappedLabel_eq_ok hkl', Option.some.injEq] at hkl
    exact hkl ▸ hl'

section

variable {D : RemapDialect X K} {env : RemapEnv X K} {returnTarget : ResolvedName}
  {continuation : BlockLabel}

/-- The edges of a copied terminator. -/
theorem remapInlineTerm_targets {t t' : BlockTerm (Instr X K)} {tail : List (Instr X K)} {s s' : RemapState}
    (h : D.remapInlineTerm env labelMap returnTarget continuation t s = .ok ((tail, t'), s')) (l : BlockLabel) :
    l ∈ t'.edges.map (·.target) ↔
      (t.isReturn ∧ l = continuation) ∨ ∃ k ∈ t.edges.map (·.target), labelMap.lookup k = some l := by
  cases t with
  | jump edge =>
    obtain ⟨edge', s₁, he, h⟩ := andThen_eq_ok.mp h
    have ht := remapInlineEdge_target (lift_eq_ok he).1
    cases h
    simp [BlockTerm.edges, BlockTerm.isReturn, ht, eq_comm]
  | ifTerm test t e =>
    obtain ⟨test', s₁, _, h⟩ := andThen_eq_ok.mp h
    obtain ⟨t', s₂, ht, h⟩ := andThen_eq_ok.mp h
    obtain ⟨e', s₃, he, h⟩ := andThen_eq_ok.mp h
    have hthen := remappedLabel_eq_ok (lift_eq_ok ht).1
    have helse := remappedLabel_eq_ok (lift_eq_ok he).1
    cases h
    simp [BlockTerm.edges, BlockTerm.isReturn, hthen, helse, eq_comm]
  | branchTable index targets default =>
    obtain ⟨index', s₁, _, h⟩ := andThen_eq_ok.mp h
    obtain ⟨targets', s₂, hts, h⟩ := andThen_eq_ok.mp h
    obtain ⟨default', s₃, hd, h⟩ := andThen_eq_ok.mp h
    have hmem := mem_of_mapM_remappedLabel (mapM_eq_ok_iff.mp (lift_eq_ok hts).1) l
    have hdefault := remappedLabel_eq_ok (lift_eq_ok hd).1
    cases h
    simp [BlockTerm.edges, BlockTerm.isReturn, hmem, or_and_right, exists_or, hdefault, eq_comm]
  | raise exc =>
    cases exc with
    | none =>
      cases h
      simp [BlockTerm.edges, BlockTerm.isReturn]
    | some exc =>
      obtain ⟨exc', s₁, _, h⟩ := andThen_eq_ok.mp h
      cases h
      simp [BlockTerm.edges, BlockTerm.isReturn]
  | ret value =>
    obtain ⟨value', s₁, _, h⟩ := andThen_eq_ok.mp h
    obtain ⟨x, s₂, _, h⟩ := andThen_eq_ok.mp h
    cases h
    simp [BlockTerm.edges, BlockTerm.isReturn]
  | generatorReturn value =>
    obtain ⟨value', s₁, _, h⟩ := andThen_eq_ok.mp h
    cases h

theorem remapBlock_copyOf {b o : Block (Instr X K)} {s s' : RemapState}
    (h : D.remapBlock env labelMap returnTarget continuation b s = .ok (o, s')) :
    CopyOf labelMap continuation b o := by
  obtain ⟨label, s₁, hl, h⟩ := andThen_eq_ok.mp h
  obtain ⟨body, s₂, _, h⟩ := andThen_eq_ok.mp h
  obtain ⟨⟨tail, term⟩, s₃, ht, h⟩ := andThen_eq_ok.mp h
  obtain ⟨params, s₄, _, h⟩ := andThen_eq_ok.mp h
  obtain ⟨excEdge, s₅, hx, h⟩ := andThen_eq_ok.mp h
  have hterm := remapInlineTerm_targets ht
  have hexc := option_mapM_eq_ok (lift_eq_ok hx).1
  cases h
  refine ⟨remappedLabel_eq_ok (lift_eq_ok hl).1, ?_, fun l => ?_⟩
  · rcases hexc with ⟨ha, hb⟩ | ⟨e, e', ha, hb, _⟩ <;> simp [ha, hb]
  · rcases hexc with ⟨ha, hb⟩ | ⟨e, e', ha, hb, he⟩
    · simpa [Block.successors, ha, hb] using hterm l
    · have htarget := remapInlineEdge_target he
      simp only [Block.successors, ha, hb, Option.map_some, Option.toList_some, singleton_append, mem_cons,
        hterm l, exists_eq_or_imp, htarget, Option.some.injEq]
      rw [or_left_comm, @eq_comm _ l e'.target]

theorem mapList_forall₂ {α β : Type} {f : α → RemapM β} {as : List α} {bs : List β} {s s' : RemapState}
    (h : RemapM.mapList f as s = .ok (bs, s')) : List.Forall₂ (fun a b => ∃ s s', f a s = .ok (b, s')) as bs := by
  induction as generalizing bs s with
  | nil =>
    cases h
    exact .nil
  | cons a as ih =>
    obtain ⟨b, s₁, hb, h⟩ := andThen_eq_ok.mp h
    obtain ⟨bs', s₂, hbs, h⟩ := andThen_eq_ok.mp h
    cases h
    exact .cons ⟨s, s₁, hb⟩ (ih hbs)

end

/-! ## Temporaries -/

/-- Temporaries are drawn, and nothing else. -/
structure DrawsTemps {I : Type} (f f' : CodegenFunction I) : Prop where
  nextBlockId : f'.nextBlockId = f.nextBlockId
  hasStorageLayout : f'.hasStorageLayout = f.hasStorageLayout

section

variable {I : Type} {f f' : CodegenFunction I} {kind : String}

theorem DrawsTemps.refl (f : CodegenFunction I) : DrawsTemps f f :=
  ⟨rfl, rfl⟩

theorem DrawsTemps.trans {f'' : CodegenFunction I} (h : DrawsTemps f f') (h' : DrawsTemps f' f'') : DrawsTemps f f'' :=
  ⟨h'.nextBlockId.trans h.nextBlockId, h'.hasStorageLayout.trans h.hasStorageLayout⟩

theorem tryAllocateStackTemp_draws {t : InlineLocal} (h : f.tryAllocateStackTemp kind = .ok (t, f')) : DrawsTemps f f' := by
  unfold CodegenFunction.tryAllocateStackTemp at h
  split at h
  · cases h
    exact ⟨rfl, rfl⟩
  · cases h

theorem tryAllocateStackTemps_draws {n : Nat} {ts : List InlineLocal}
    (h : f.tryAllocateStackTemps kind n = .ok (ts, f')) : DrawsTemps f f' := by
  induction n generalizing f ts with
  | zero =>
    cases h
    exact .refl _
  | succ n ih =>
    obtain ⟨⟨t, f₁⟩, ht, h⟩ := bind_eq_ok.mp h
    obtain ⟨⟨ts', f₂⟩, hts, h⟩ := bind_eq_ok.mp h
    cases h
    exact (tryAllocateStackTemp_draws ht).trans (ih hts)

/-- The locals that are not bound get fresh slots. -/
theorem allocateInlineLocals_draws {bound : LocalLocation → Bool} {xs : List LocalLocation}
    {locals : List (LocalLocation × InlineLocal)}
    (h : CodegenFunction.allocateInlineLocals kind bound xs f = .ok (locals, f')) :
    DrawsTemps f f' ∧ locals.map Prod.fst = xs.filter fun x => !bound x := by
  induction xs generalizing f locals with
  | nil =>
    cases h
    exact ⟨.refl _, rfl⟩
  | cons x xs ih =>
    unfold CodegenFunction.allocateInlineLocals at h
    split at h
    · rename_i hx
      simpa [hx] using ih h
    · rename_i hx
      obtain ⟨⟨t, f₁⟩, ht, h⟩ := bind_eq_ok.mp h
      obtain ⟨⟨rest, f₂⟩, hrest, h⟩ := bind_eq_ok.mp h
      cases h
      obtain ⟨hdraws, hkeys⟩ := ih hrest
      exact ⟨(tryAllocateStackTemp_draws ht).trans hdraws, by simp [hx, hkeys]⟩

theorem tryAllocateOptional_draws {needed : Bool} {t : Option InlineLocal}
    (h : f.tryAllocateOptional kind needed = .ok (t, f')) : DrawsTemps f f' := by
  unfold CodegenFunction.tryAllocateOptional at h
  split at h
  · obtain ⟨⟨t', f₁⟩, ht, h⟩ := map_eq_ok.mp h
    cases h
    exact tryAllocateStackTemp_draws ht
  · cases h
    exact .refl f

end

section

variable {m : TypedInlineModule} {candidate : TypedInlineStoreCandidate} {f f' : CodegenFunction InstrTyped}

theorem allocateResult_draws {r : ResolvedName × Option ResolvedName × Option ResolvedName}
    (h : allocateResult m candidate f = .ok (r, f')) : DrawsTemps f f' := by
  have hmap : ∀ {kind : String} {g : InlineLocal × CodegenFunction InstrTyped →
      (ResolvedName × Option ResolvedName × Option ResolvedName) × CodegenFunction InstrTyped},
      (∀ t, (g t).2 = t.2) → (f.tryAllocateStackTemp kind).map g = .ok (r, f') → DrawsTemps f f' := by
    intro kind g hg h
    obtain ⟨⟨t, f₁⟩, ht, h⟩ := map_eq_ok.mp h
    have hf : f₁ = f' := by simpa [h] using (hg (t, f₁)).symm
    exact hf ▸ tryAllocateStackTemp_draws ht
  unfold allocateResult at h
  split at h
  · split at h
    · exact hmap (fun _ => rfl) h
    · cases h
      exact .refl f
  · exact hmap (fun _ => rfl) h
  · exact hmap (fun _ => rfl) h

theorem allocateTypedInlineTemps_draws {temps : TypedInlineTemps}
    (h : allocateTypedInlineTemps m candidate f = .ok (temps, f')) : DrawsTemps f f' := by
  obtain ⟨⟨r, f₁⟩, h₁, h⟩ := bind_eq_ok.mp h
  obtain ⟨⟨c, f₂⟩, h₂, h⟩ := bind_eq_ok.mp h
  obtain ⟨⟨as, f₃⟩, h₃, h⟩ := bind_eq_ok.mp h
  obtain ⟨⟨res, f₄⟩, h₄, h⟩ := bind_eq_ok.mp h
  cases h
  have hbefore := (tryAllocateOptional_draws h₁).trans (tryAllocateOptional_draws h₂)
  exact (hbefore.trans (tryAllocateStackTemps_draws h₃)).trans (allocateResult_draws h₄)

end

/-! ## Fragments -/

/-- The labels of a callee's copies, starting at a value of the caller's counter. -/
def copyLabels (callee : BlockPyFunction InstrTyped) (base : Nat) : LabelMap :=
  callee.labels.zip (List.range' base callee.labels.length)

theorem freshLabelMap_eq {caller : CodegenFunction InstrTyped} {callee : BlockPyFunction InstrTyped} :
    freshLabelMap caller callee = copyLabels callee caller.nextBlockId := by
  simp [freshLabelMap, copyLabels, CodegenFunction.nextBlockNames, BlockPyFunction.labels]

/-- What a builder makes of a callee: a copy of each block, in order, under consecutive labels. -/
structure Copied (callee : BlockPyFunction InstrTyped) (continuation : BlockLabel) (base : Nat)
    (blocks : List (Block InstrTyped)) (next : Nat) : Prop where
  copies : List.Forall₂ (CopyOf (copyLabels callee base) continuation) callee.blocks blocks
  next_eq : next = base + callee.blocks.length

section

variable {m : TypedInlineModule} {st st' : TypedInlineState} {callee : CodegenFunction InstrTyped}
  {constants : Option (List ConstantExpr)} {continuation : BlockLabel} {bindings : List (LocalLocation × InstrTyped)}
  {returnTarget : ResolvedName} {blocks : List (Block InstrTyped)}

theorem buildFragment_copied {context : InlineHandledContext}
    (h : buildTypedDirectCallInlineFragment m st callee constants context continuation bindings returnTarget =
      .ok (blocks, st')) :
    Copied callee continuation st.caller.nextBlockId blocks st'.caller.nextBlockId := by
  obtain ⟨⟨locals, caller, scope⟩, hp⟩ := prepared_of_buildFragment h
  rw [buildFragment_of_prepared hp] at h
  obtain ⟨⟨os, s⟩, ho, h⟩ := map_eq_ok.mp h
  obtain ⟨_, _, _, hlocals, _⟩ := prepareTypedInlineFragment_eq_ok hp
  have hn : caller.nextBlockId = st.caller.nextBlockId := (allocateInlineLocals_draws hlocals).1.nextBlockId
  have hc := mapList_forall₂ ho
  rw [freshLabelMap_eq, hn] at hc
  cases h
  refine ⟨?_, by rw [← hn]; rfl⟩
  rw [List.forall₂_map_right_iff]
  refine hc.imp fun b o ⟨_, _, hbo⟩ => ?_
  have hcopy := remapBlock_copyOf hbo
  exact ⟨hcopy.label, hcopy.excEdge, hcopy.successors⟩

end

/-- Whether an edge of a function leads to its entry. -/
def BlockPyFunction.entryIsTarget {I : Type} (f : BlockPyFunction I) : Bool :=
  f.blocks.any fun b => b.successors.any fun l => f.labels.head? == some l

section

variable {callee : BlockPyFunction InstrTyped} {continuation : BlockLabel} {base next : Nat}
  {blocks : List (Block InstrTyped)}

variable (h : Copied callee continuation base blocks next)
include h

/-- The copies stand under consecutive labels. -/
theorem Copied.labels (hn : callee.labels.Nodup) : blocks.map (·.label) = List.range' base callee.blocks.length := by
  have hmap : blocks.map (fun o => some o.label) =
      callee.blocks.map fun c => (copyLabels callee base).lookup c.label :=
    map_eq_of_forall₂ (fun _ _ hco => hco.label.symm) h.copies
  have htable : callee.blocks.map (fun c => (copyLabels callee base).lookup c.label) =
      (List.range' base callee.blocks.length).map some := by
    have hkeys := map_lookup_zip_range' hn base
    simpa [copyLabels, BlockPyFunction.labels, Function.comp_def] using hkeys
  rw [← hmap] at htable
  have hinj : Function.Injective (List.map (some : BlockLabel → Option BlockLabel)) :=
    map_injective_iff.mpr fun _ _ hab => Option.some.inj hab
  apply hinj
  rw [← htable, map_map]
  rfl

/-- An edge of a copy leads to the continuation, or to the copy of a block an edge of the callee leads to. -/
theorem Copied.successor {o : Block InstrTyped} (ho : o ∈ blocks) {l : BlockLabel} (hl : l ∈ o.successors) :
    l = continuation ∨ ∃ (i : Nat) (k : BlockLabel) (c : Block InstrTyped),
      c ∈ callee.blocks ∧ k ∈ c.successors ∧ callee.labels[i]? = some k ∧ l = base + i := by
  obtain ⟨c, hc, hco⟩ := forall₂_mem_right h.copies ho
  rcases (hco.successors l).mp hl with ⟨_, rfl⟩ | ⟨k, hk, hlk⟩
  · exact .inl rfl
  · obtain ⟨i, hi, rfl⟩ := of_lookup_zip_range' hlk
    exact .inr ⟨i, k, c, hc, hk, hi, rfl⟩

/-- An edge of the callee to its entry leads to the first of the fresh labels. -/
theorem Copied.entry_target (hn : callee.labels.Nodup)
    (ht : callee.entryIsTarget) : ∃ o ∈ blocks, base ∈ o.successors := by
  simp only [BlockPyFunction.entryIsTarget, any_eq_true, beq_iff_eq] at ht
  obtain ⟨c, hc, l, hl, hhead⟩ := ht
  obtain ⟨o, ho, hco⟩ := forall₂_mem_left h.copies hc
  rw [List.head?_eq_getElem?] at hhead
  have hlookup := lookup_zip_range' hn hhead base
  exact ⟨o, ho, (hco.successors base).mpr (.inr ⟨l, hl, hlookup⟩)⟩

end

/-! ## The copies in the caller -/

/-- The copy of a callee as it stands in the caller: its entry has the label of the guard, the first of its fresh labels
is not used, and its edges stay in the copy unless one of the callee leads to its entry. -/
structure Fragment (callee : BlockPyFunction InstrTyped) (hot cleanup : BlockLabel) (base : Nat)
    (excEdge : Option BlockEdge) (blocks : List (Block InstrTyped)) : Prop where
  labels : blocks.map (·.label) = hot :: List.range' (base + 1) (callee.blocks.length - 1)
  closed : callee.entryIsTarget = false → ∀ b ∈ blocks, ∀ l ∈ b.successors,
    l = cleanup ∨ l ∈ excEdge.toList.map (·.target) ∨ l ∈ blocks.map (·.label)
  dangling : callee.entryIsTarget = true → ∃ b ∈ blocks, base ∈ b.successors

variable {b : Block InstrTyped} {excEdge : Option BlockEdge} {l : BlockLabel}

theorem mem_successors_inheritExcEdge
    (h : l ∈ (inheritExcEdge excEdge b).successors) : l ∈ b.successors ∨ l ∈ excEdge.toList.map (·.target) := by
  cases hb : b.excEdge with
  | none => simpa [inheritExcEdge, Block.successors, hb, or_comm] using h
  | some edge => exact .inl (by simpa [inheritExcEdge, Block.successors, hb] using h)

theorem successors_subset_inheritExcEdge (h : l ∈ b.successors) : l ∈ (inheritExcEdge excEdge b).successors := by
  cases hb : b.excEdge with
  | none =>
    have ht : l ∈ b.term.edges.map (·.target) := by simpa [Block.successors, hb] using h
    exact mem_append_right _ ht
  | some edge => simpa [inheritExcEdge, Block.successors, hb] using h

variable {bs : List (Block InstrTyped)}

/-- Relabelling the entry changes nothing but a label. -/
theorem mem_relabelEntry {hot : BlockLabel}
    (h : b ∈ relabelEntry hot bs) : ∃ b' ∈ bs, ∃ l, b = { b' with label := l } := by
  cases bs with
  | nil => cases h
  | cons c bs =>
    rcases mem_cons.mp h with rfl | h
    · exact ⟨c, mem_cons_self, hot, rfl⟩
    · exact ⟨b, mem_cons_of_mem _ h, b.label, rfl⟩

theorem exists_relabelEntry (hot : BlockLabel) (h : b ∈ bs) :
    ∃ b' ∈ relabelEntry hot bs, b'.successors = b.successors := by
  cases bs with
  | nil => cases h
  | cons c bs =>
    rcases mem_cons.mp h with rfl | h
    · exact ⟨_, mem_cons_self, rfl⟩
    · exact ⟨b, mem_cons_of_mem _ h, rfl⟩

variable {blocks : List (Block InstrTyped)} {callee : TypedInlineCallee}

theorem Copied.fragment {cleanup hot : BlockLabel} {base next : Nat} (excEdge : Option BlockEdge)
    (h : Copied callee cleanup base blocks next) :
    Fragment callee hot cleanup base excEdge
      (relabelEntry hot (blocks.map (inheritExcEdge excEdge))) := by
  have hlabels := h.labels callee.labelsNodup
  have hpos : 0 < callee.blocks.length := length_pos_iff.mpr callee.nonempty
  have hnew : (relabelEntry hot (blocks.map (inheritExcEdge excEdge))).map (·.label) =
      hot :: List.range' (base + 1) (callee.blocks.length - 1) := by
    cases blocks with
    | nil =>
      have := congrArg List.length hlabels
      simp only [map_nil, length_nil, length_range'] at this
      omega
    | cons b bs =>
      obtain ⟨n, hn⟩ : ∃ n, callee.blocks.length = n + 1 := ⟨callee.blocks.length - 1, by omega⟩
      rw [hn, List.range'_succ, map_cons, List.cons.injEq] at hlabels
      simp only [map_cons, relabelEntry, map_map, hn, Nat.add_sub_cancel, List.cons.injEq, true_and,
        ← hlabels.2]
      rfl
  refine ⟨hnew, fun hent b hb l hl => ?_, fun hent => ?_⟩
  · obtain ⟨b', hb', label, rfl⟩ := mem_relabelEntry hb
    obtain ⟨o, ho, rfl⟩ := mem_map.mp hb'
    rcases mem_successors_inheritExcEdge (b := o) hl with hl | hl
    · rcases h.successor ho hl with rfl | ⟨i, k, c, hc, hk, hi, rfl⟩
      · exact .inl rfl
      · refine .inr (.inr ?_)
        have hi0 : i ≠ 0 := by
          rintro rfl
          have hent' : callee.entryIsTarget := by
            simp only [BlockPyFunction.entryIsTarget, any_eq_true, beq_iff_eq, List.head?_eq_getElem?]
            exact ⟨c, hc, k, hk, hi⟩
          rw [hent'] at hent
          cases hent
        have hilt : i < callee.blocks.length := by
          have := (List.getElem?_eq_some_iff.mp hi).1
          rwa [BlockPyFunction.labels, length_map] at this
        have hrange : base + 1 ≤ base + i ∧ base + i < base + 1 + (callee.blocks.length - 1) := by omega
        rw [hnew]
        exact mem_cons_of_mem _ (mem_range'_1.mpr hrange)
    · exact .inr (.inl hl)
  · obtain ⟨o, ho, hbase⟩ := h.entry_target callee.labelsNodup hent
    obtain ⟨b', hb', hsucc⟩ := exists_relabelEntry hot (mem_map_of_mem (f := inheritExcEdge excEdge) ho)
    refine ⟨b', hb', ?_⟩
    rw [hsucc]
    exact successors_subset_inheritExcEdge hbase

/-- The copies of the callees of a list of plans, one after the other. -/
inductive Fragments (m : TypedInlineModule) (cleanup : BlockLabel) (excEdge : Option BlockEdge) :
    List (TypedInlineDirectCallPlan × BlockLabel) → Nat → List (Block InstrTyped) → Prop where
  | nil {base : Nat} : Fragments m cleanup excEdge [] base []
  | cons {plan : TypedInlineDirectCallPlan} {hot : BlockLabel} {plans : List (TypedInlineDirectCallPlan × BlockLabel)}
      {base : Nat} {bs rest : List (Block InstrTyped)} {callee : TypedInlineCallee}
      {constants : Option (List ConstantExpr)} :
      typedInlineCallee m plan.target = some (callee, constants) →
      Fragment callee hot cleanup base excEdge bs →
      Fragments m cleanup excEdge plans (base + callee.blocks.length) rest →
      Fragments m cleanup excEdge ((plan, hot) :: plans) base (bs ++ rest)

variable {m : TypedInlineModule}

theorem typedInlineFragments_fragments {context : InlineHandledContext} {temps : TypedInlineTemps} {cleanup : BlockLabel}
    {plans : List (TypedInlineDirectCallPlan × BlockLabel)} {st st' : TypedInlineState}
    (h : typedInlineFragments m context excEdge temps cleanup plans st = .ok (blocks, st')) :
    Fragments m cleanup excEdge plans st.caller.nextBlockId blocks := by
  induction plans generalizing st st' blocks with
  | nil =>
    cases h
    exact .nil
  | cons planHot plans ih =>
    obtain ⟨plan, hot⟩ := planHot
    unfold typedInlineFragments at h
    split at h
    · cases h
    · rename_i callee constants hcallee
      obtain ⟨values, _, h⟩ := bind_eq_ok.mp h
      obtain ⟨bindings, _, h⟩ := bind_eq_ok.mp h
      obtain ⟨⟨bs, st₁⟩, hbs, h⟩ := bind_eq_ok.mp h
      obtain ⟨⟨rest, st₂⟩, hrest, h⟩ := bind_eq_ok.mp h
      have hcopied := buildFragment_copied hbs
      have hih := ih hrest
      rw [hcopied.next_eq] at hih
      cases h
      exact .cons hcallee (hcopied.fragment excEdge) hih

/-- No callee of a plan has an edge to its entry. -/
def EntryFree (m : TypedInlineModule) (plans : List TypedInlineDirectCallPlan) : Prop :=
  ∀ plan ∈ plans, ∀ callee constants, typedInlineCallee m plan.target = some (callee, constants) →
    callee.entryIsTarget = false

theorem entryFree_cons {plan : TypedInlineDirectCallPlan}
    {plans : List TypedInlineDirectCallPlan} {constants : Option (List ConstantExpr)}
    (h : typedInlineCallee m plan.target = some (callee, constants)) :
    EntryFree m (plan :: plans) ↔ callee.entryIsTarget = false ∧ EntryFree m plans := by
  refine forall_mem_cons.trans (and_congr_left' ⟨fun hfree => hfree callee constants h, fun hcallee _ _ h' => ?_⟩)
  rw [h, Option.some.injEq, Prod.mk.injEq] at h'
  exact h'.1 ▸ hcallee

section

variable {cleanup : BlockLabel}
  {plans : List TypedInlineDirectCallPlan} {hot base : Nat}

variable (h : Fragments m cleanup excEdge (plans.zip (List.range' hot plans.length)) base blocks)
include h

/-- The copies' labels are distinct: the guards' labels, and labels drawn after them. -/
theorem Fragments.labels (hb : hot + plans.length ≤ base) :
    (blocks.map (·.label)).Nodup ∧
      ∀ l, l ∈ blocks.map (·.label) → (hot ≤ l ∧ l < hot + plans.length) ∨ base ≤ l := by
  induction plans generalizing hot base blocks with
  | nil =>
    cases h
    simp
  | cons plan plans ih =>
    rw [length_cons] at hb
    cases h with
    | @cons _ _ _ _ bs rest callee _ hcallee hf hrest =>
      obtain ⟨hnd, hmem⟩ := ih hrest (by omega)
      rw [map_append, hf.labels]
      constructor
      · refine nodup_append.mpr ⟨nodup_cons.mpr ⟨?_, nodup_range'⟩, hnd, ?_⟩
        · rw [mem_range'_1]
          omega
        · rintro a ha _ hb' rfl
          have hrest' := hmem a hb'
          rcases mem_cons.mp ha with rfl | ha
          · omega
          · rw [mem_range'_1] at ha
            omega
      · intro l hl
        rw [length_cons]
        rcases mem_append.mp hl with hl | hl
        · rcases mem_cons.mp hl with rfl | hl
          · omega
          · rw [mem_range'_1] at hl
            omega
        · have := hmem l hl
          omega

/-- Every guard's label is the label of a copy. -/
theorem Fragments.hot_mem : ∀ l ∈ List.range' hot plans.length, l ∈ blocks.map (·.label) := by
  induction plans generalizing hot base blocks with
  | nil => simp
  | cons plan plans ih =>
    intro l hl
    rw [length_cons] at h hl
    cases h with
    | cons _ hf hrest =>
      rw [map_append, hf.labels]
      rcases mem_cons.mp hl with rfl | hl
      · exact mem_append_left _ mem_cons_self
      · exact mem_append_right _ (ih hrest l hl)

/-- Without edges to an entry, the copies' edges stay in the rewrite. -/
theorem Fragments.closed (hfree : EntryFree m plans) : ∀ b ∈ blocks, ∀ l ∈ b.successors,
      l = cleanup ∨ l ∈ excEdge.toList.map (·.target) ∨ l ∈ blocks.map (·.label) := by
  induction plans generalizing hot base blocks with
  | nil =>
    cases h
    simp
  | cons plan plans ih =>
    intro b hb l hl
    cases h with
    | cons hcallee hf hrest =>
      obtain ⟨hentry, hfree⟩ := (entryFree_cons hcallee).mp hfree
      rw [map_append]
      rcases mem_append.mp hb with hb | hb
      · exact (hf.closed hentry b hb l hl).imp_right (Or.imp_right (mem_append_left _))
      · exact (ih hrest hfree b hb l hl).imp_right (Or.imp_right (mem_append_right _))

/-- An edge to an entry leads to a label no copy has. -/
theorem Fragments.dangling (hb : hot + plans.length ≤ base) (hfree : ¬ EntryFree m plans) :
    ∃ b ∈ blocks, ∃ l ∈ b.successors, base ≤ l ∧ l ∉ blocks.map (·.label) := by
  induction plans generalizing hot base blocks with
  | nil => exact absurd nofun hfree
  | cons plan plans ih =>
    rw [length_cons] at hb
    cases h with
    | @cons _ _ _ _ bs rest callee _ hcallee hf hrest =>
      have hlen : 0 < callee.blocks.length := length_pos_iff.mpr callee.nonempty
      have hle : hot + 1 + plans.length ≤ base + callee.blocks.length := by omega
      rw [map_append, hf.labels]
      cases hentry : callee.entryIsTarget with
      | true =>
        obtain ⟨b, hbs, hbase⟩ := hf.dangling hentry
        refine ⟨b, mem_append_left _ hbs, base, hbase, le_refl _, ?_⟩
        rw [mem_append, mem_cons, mem_range'_1]
        rintro ((rfl | hlt) | hl)
        · omega
        · omega
        · have := (hrest.labels hle).2 base hl
          omega
      | false =>
        have hrestFree : ¬ EntryFree m plans := fun hr => hfree ((entryFree_cons hcallee).mpr ⟨hentry, hr⟩)
        obtain ⟨b, hbs, l, hl, hge, hnot⟩ := ih hrest hle hrestFree
        refine ⟨b, mem_append_right _ hbs, l, hl, by omega, ?_⟩
        rw [mem_append, mem_cons, mem_range'_1]
        rintro ((rfl | hlt) | hmem)
        · omega
        · omega
        · exact hnot hmem

end

/-! ## The caller's own blocks -/

section

variable {call : TypedInlineCall} {temps : TypedInlineTemps} {term : BlockTerm InstrTyped}
  {candidate : TypedInlineStoreCandidate} {context : InlineHandledContext}
  {labels : TypedInlineLabels} {t e : BlockLabel}

/-- The labels a guard can lead to. -/
def TypedInlineLabels.Branches (labels : TypedInlineLabels) (l : BlockLabel) : Prop :=
  l ∈ labels.hot ∨ l ∈ labels.guards ∨ labels.generic = some l

theorem typedInlineGuardTerm_targets {plan : TypedInlineDirectCallPlan}
    (h : typedInlineGuardTerm call plan temps t e = .ok term) (hl : l ∈ term.edges.map (·.target)) : l = t ∨ l = e := by
  have hguard : ∀ {temp kind source}, typedGuardTerm temp kind source t e = .ok term → l = t ∨ l = e := by
    intro temp kind source hg
    cases temp with
    | none => cases hg
    | some temp =>
      cases hg
      simpa [BlockTerm.edges] using hl
  have hjump : (.ok (.jump ⟨t, []⟩) : Except InlineUnsupportedReason (BlockTerm InstrTyped)) = .ok term →
      l = t ∨ l = e := by
    intro hj
    cases hj
    exact .inl (mem_singleton.mp hl)
  unfold typedInlineGuardTerm at h
  split at h
  all_goals first | exact hguard h | exact hjump h | cases h

theorem typedInlineEntryTerm_targets (h : typedInlineEntryTerm candidate labels temps = .ok term)
    (hl : l ∈ term.edges.map (·.target)) : labels.Branches l := by
  unfold typedInlineEntryTerm at h
  split at h
  · rename_i hot _ plan _ hhot _
    have hmem : hot ∈ labels.hot := hhot ▸ mem_cons_self
    split at h
    · cases h
      exact .inl ((mem_singleton.mp hl) ▸ hmem)
    · split at h
      · rename_i elseLabel helse
        rcases typedInlineGuardTerm_targets h hl with rfl | rfl
        · exact .inl hmem
        · rcases Option.or_eq_some_iff.mp helse with hg | ⟨_, hg⟩
          · exact .inr (.inl (mem_of_head? hg))
          · exact .inr (.inr hg)
      · cases h
  · cases h

theorem callerBlock_successors (context : InlineHandledContext) (excEdge : Option BlockEdge) (label : BlockLabel)
    (body : List InstrTyped) (term : BlockTerm InstrTyped) :
    (callerBlock context excEdge label body term).successors =
      excEdge.toList.map (·.target) ++ term.edges.map (·.target) := by
  cases excEdge <;> rfl

/-- The guards after the first one: their labels, and where they lead. -/
theorem typedInlineGuards_spec {generic : Option BlockLabel} {guards : List BlockLabel}
    {plans : List (TypedInlineDirectCallPlan × BlockLabel)}
    (h : typedInlineGuards context excEdge call temps generic guards plans = .ok blocks) :
    blocks.map (·.label) = guards ∧ ∀ b ∈ blocks, ∀ l ∈ b.successors,
      l ∈ excEdge.toList.map (·.target) ∨ l ∈ plans.map (·.2) ∨ l ∈ guards ∨ generic = some l := by
  induction guards generalizing plans blocks with
  | nil =>
    cases h
    simp
  | cons label rest ih =>
    cases plans with
    | nil => cases h
    | cons planHot plans =>
      obtain ⟨plan, hot⟩ := planHot
      unfold typedInlineGuards at h
      split at h
      · rename_i elseLabel helse
        obtain ⟨term, hterm, h⟩ := bind_eq_ok.mp h
        obtain ⟨bs, hbs, h⟩ := bind_eq_ok.mp h
        obtain ⟨hlabels, hsucc⟩ := ih hbs
        cases h
        refine ⟨by rw [map_cons, hlabels]; rfl, fun b hb l hl => ?_⟩
        rcases mem_cons.mp hb with rfl | hb
        · rw [callerBlock_successors, mem_append] at hl
          refine hl.imp_right fun hl => ?_
          rcases typedInlineGuardTerm_targets hterm hl with rfl | rfl
          · exact .inl mem_cons_self
          · rcases Option.or_eq_some_iff.mp helse with hg | ⟨_, hg⟩
            · exact .inr (.inl (mem_cons_of_mem _ (mem_of_head? hg)))
            · exact .inr (.inr hg)
        · refine (hsucc b hb l hl).imp_right ?_
          rintro (hl | hl | hl)
          · exact .inl (mem_cons_of_mem _ hl)
          · exact .inr (.inl (mem_cons_of_mem _ hl))
          · exact .inr (.inr hl)
      · cases h

theorem typedInlineFallback_spec (h : typedInlineFallback context excEdge call temps labels = .ok blocks) :
    blocks.map (·.label) = labels.generic.toList ∧ ∀ b ∈ blocks, ∀ l ∈ b.successors,
      l ∈ excEdge.toList.map (·.target) ∨ l = labels.continuation := by
  unfold typedInlineFallback at h
  split at h
  · rename_i hg
    cases h
    simp [hg]
  · rename_i generic hg
    obtain ⟨body, _, h⟩ := bind_eq_ok.mp h
    cases h
    rw [hg]
    refine ⟨rfl, fun b hb l hl => ?_⟩
    rw [mem_singleton.mp hb, callerBlock_successors, mem_append] at hl
    exact hl.imp_right mem_singleton.mp

end

/-! ## The rewrite -/

/-- The blocks of a rewrite: the copies, and the caller's own blocks, whose edges are known. -/
structure RewriteSpec (m : TypedInlineModule) (n : Nat) (block : Block InstrTyped) (candidate : TypedInlineStoreCandidate)
    (copies new : List (Block InstrTyped)) : Prop where
  labels : new.map (·.label) = block.label ::
    ((candidate.labels n).1.guards ++ copies.map (·.label) ++ (candidate.labels n).1.generic.toList ++
      [(candidate.labels n).1.cleanup, (candidate.labels n).1.continuation])
  fragments : Fragments m (candidate.labels n).1.cleanup block.excEdge
    (candidate.inlinePlans.zip (candidate.labels n).1.hot) (candidate.labels n).2 copies
  copies_subset : ∀ b ∈ copies, b ∈ new
  own : ∀ b ∈ new, b ∈ copies ∨ ∀ l ∈ b.successors,
    l ∈ block.successors ∨ (candidate.labels n).1.Branches l ∨ l = (candidate.labels n).1.continuation

theorem excEdge_mem_successors {I : Type} {b : Block I} (h : l ∈ b.excEdge.toList.map (·.target)) : l ∈ b.successors := by
  refine mem_append_left _ ?_
  rwa [Option.toList_map]

theorem rewrite_spec {st st' : TypedInlineState} {block : Block InstrTyped}
    {candidate : TypedInlineStoreCandidate} {new : List (Block InstrTyped)}
    (h : tryBuildTypedDirectCallInlineRewriteForCandidate m st block candidate = .ok (new, st')) :
    ∃ copies, RewriteSpec m st.caller.nextBlockId block candidate copies new := by
  obtain ⟨_, _, h⟩ := bind_eq_ok.mp h
  obtain ⟨⟨temps, caller⟩, htemps, h⟩ := bind_eq_ok.mp h
  obtain ⟨⟨before, after, term⟩, hsplit, h⟩ := bind_eq_ok.mp h
  obtain ⟨entryTerm, hentry, h⟩ := bind_eq_ok.mp h
  obtain ⟨guards, hguards, h⟩ := bind_eq_ok.mp h
  obtain ⟨⟨copies, st₁⟩, hcopies, h⟩ := bind_eq_ok.mp h
  obtain ⟨fallback, hfallback, h⟩ := bind_eq_ok.mp h
  rw [(allocateTypedInlineTemps_draws htemps).nextBlockId] at hentry hguards hcopies hfallback h
  obtain ⟨hguardLabels, hguardSucc⟩ := typedInlineGuards_spec hguards
  obtain ⟨hfallbackLabels, hfallbackSucc⟩ := typedInlineFallback_spec hfallback
  have hfragments := typedInlineFragments_fragments hcopies
  cases h
  refine ⟨copies, ?_, hfragments, fun b hb => ?_, fun b hb => ?_⟩
  · simp only [map_append, map_cons, cons_append, hguardLabels, hfallbackLabels, map_nil]
    rfl
  · simp [hb]
  · simp only [cons_append, mem_cons, mem_append, not_mem_nil, or_false] at hb
    rcases hb with rfl | ((hb | hb) | hb) | rfl | rfl
    · refine .inr fun l hl => ?_
      rcases mem_append.mp hl with hl | hl
      · exact .inl (mem_append_left _ hl)
      · exact .inr (.inl (typedInlineEntryTerm_targets hentry hl))
    · refine .inr fun l hl => ?_
      rcases hguardSucc b hb l hl with hl | hl | hl | hl
      · exact .inl (excEdge_mem_successors hl)
      · rw [map_tail] at hl
        have hhot : l ∈ (candidate.inlinePlans.zip _).map Prod.snd := mem_of_mem_tail hl
        rw [map_snd_zip (by simp [TypedInlineStoreCandidate.labels])] at hhot
        exact .inr (.inl (.inl hhot))
      · exact .inr (.inl (.inr (.inl hl)))
      · exact .inr (.inl (.inr (.inr hl)))
    · exact .inl hb
    · refine .inr fun l hl => ?_
      rcases hfallbackSucc b hb l hl with hl | rfl
      · exact .inl (excEdge_mem_successors hl)
      · exact .inr (.inr rfl)
    · refine .inr fun l hl => ?_
      rw [typedInlineCleanup, callerBlock_successors, mem_append] at hl
      rcases hl with hl | hl
      · exact .inl (excEdge_mem_successors hl)
      · exact .inr (.inr (mem_singleton.mp hl))
    · refine .inr fun l hl => ?_
      rw [typedInlineContinuation, callerBlock_successors, mem_append] at hl
      rcases hl with hl | hl
      · exact .inl (excEdge_mem_successors hl)
      · -- the rest of the split block ends as the block did, if it has a rest
        refine .inl (mem_append_right _ ?_)
        unfold splitAtCandidate at hsplit
        split at hsplit
        · cases hsplit
          cases hl
        · split at hsplit
          · cases hsplit
            exact hl
          · cases hsplit

/-- A caller with the block that holds the call: the labels are distinct and drawn from its counter, and the block's
edges lead to blocks of the caller. -/
structure InlineCaller where
  function : CodegenFunction InstrTyped
  pre : List (Block InstrTyped)
  block : Block InstrTyped
  post : List (Block InstrTyped)
  labelsNodup : ((pre ++ block :: post).map (·.label)).Nodup
  labelsBelow : ∀ b ∈ pre ++ block :: post, b.label < function.nextBlockId
  targetsKnown : ∀ l ∈ block.successors, l ∈ (pre ++ block :: post).map (·.label)

/-- The caller after the block is replaced: the labels are distinct, and every edge of a new block leads to exactly one
block. -/
def WellFormedRewrite (c : InlineCaller) (new : List (Block InstrTyped)) : Prop :=
  (∀ b ∈ new, ∀ l ∈ b.successors, ((c.pre ++ new ++ c.post).map (·.label)).count l = 1) ∧
    ((c.pre ++ new ++ c.post).map (·.label)).Nodup

section

variable {c : InlineCaller} {candidate : TypedInlineStoreCandidate}
  {copies new : List (Block InstrTyped)} {block : Block InstrTyped} {n : Nat}

/-- The labels of the new blocks besides the first are drawn from the counter, and distinct. -/
theorem RewriteSpec.fresh (h : RewriteSpec m n block candidate copies new) :
    (new.map (·.label)).tail.Nodup ∧ ∀ l ∈ (new.map (·.label)).tail, n ≤ l := by
  obtain ⟨hnd, hmem⟩ := h.fragments.labels (by simp [TypedInlineStoreCandidate.labels])
  rw [h.labels, tail_cons]
  simp only [TypedInlineStoreCandidate.labels] at hmem ⊢
  generalize copies.map (·.label) = ls at hnd hmem ⊢
  generalize candidate.guardCount = g at hmem ⊢
  have hrange : ∀ {a : Nat}, (List.range' a g).Nodup := nodup_range'
  generalize candidate.hasGenericFallback = fallback at hmem ⊢
  constructor
  · simp only [nodup_append, nodup_cons, hnd, hrange, mem_append, mem_range'_1, mem_cons,
      not_mem_nil, or_false, not_false_eq_true, nodup_nil, true_and, and_true]
    cases fallback <;> grind
  · intro l hl
    cases fallback <;> grind

/-- A label drawn before the copies is none of the labels drawn for them. -/
theorem RewriteSpec.mem_fresh (h : RewriteSpec m n block candidate copies new)
    (hl : l ∈ (new.map (·.label)).tail) (hbase : (candidate.labels n).2 ≤ l) :
    l ∈ copies.map (·.label) := by
  rw [h.labels] at hl
  simp only [TypedInlineStoreCandidate.labels] at hl hbase
  generalize copies.map (·.label) = ls at hl ⊢
  generalize candidate.hasGenericFallback = fallback at hl hbase
  cases fallback <;> grind

section

variable (h : RewriteSpec m c.function.nextBlockId c.block candidate copies new)
include h

/-- The labels of the rewritten caller: the old ones, and the fresh ones. -/
theorem RewriteSpec.labels_perm : ((c.pre ++ new ++ c.post).map (·.label)).Perm
      ((c.pre ++ c.block :: c.post).map (·.label) ++ (new.map (·.label)).tail) := by
  rw [map_append, map_append, h.labels, map_append, tail_cons]
  generalize (candidate.labels c.function.nextBlockId).1.guards ++ _ ++ _ ++ _ = fresh
  rw [append_assoc, append_assoc]
  refine List.Perm.append_left _ ?_
  exact List.Perm.cons _ perm_append_comm

theorem RewriteSpec.nodup : ((c.pre ++ new ++ c.post).map (·.label)).Nodup := by
  rw [h.labels_perm.nodup_iff, nodup_append]
  refine ⟨c.labelsNodup, h.fresh.1, fun a ha b hb hab => ?_⟩
  subst hab
  obtain ⟨old, hold, rfl⟩ := mem_map.mp ha
  have hlt := c.labelsBelow old hold
  have hge := h.fresh.2 _ hb
  exact absurd (Nat.lt_of_lt_of_le hlt hge) (Nat.lt_irrefl _)

end

/-- The labels the caller's own new blocks lead to are labels of the rewritten caller. -/
theorem RewriteSpec.branch_mem (h : RewriteSpec m n block candidate copies new)
    (hl : (candidate.labels n).1.Branches l ∨ l = (candidate.labels n).1.continuation ∨
      l = (candidate.labels n).1.cleanup) : l ∈ new.map (·.label) := by
  rw [h.labels]
  refine mem_cons_of_mem _ ?_
  simp only [mem_append, mem_cons, not_mem_nil, or_false]
  rcases hl with (hl | hl | hl) | hl | hl
  · exact .inl (.inl (.inr (h.fragments.hot_mem l hl)))
  · exact .inl (.inl (.inl hl))
  · exact .inl (.inr (by rw [hl]; exact mem_singleton_self l))
  · exact .inr (.inr hl)
  · exact .inr (.inl hl)

end

/-- A rewrite is well formed exactly when no callee it copies has an edge to its own entry block. -/
theorem inlineRewrite_wellFormed_iff (m : TypedInlineModule) (c : InlineCaller)
    (callerConstants : Option (List ConstantExpr)) (nextInstrIndex : Nat) (candidate : TypedInlineStoreCandidate)
    (new : List (Block InstrTyped)) (st : TypedInlineState)
    (h : tryBuildTypedDirectCallInlineRewriteForCandidate m ⟨c.function, callerConstants, nextInstrIndex⟩ c.block
      candidate = .ok (new, st)) :
    WellFormedRewrite c new ↔ EntryFree m candidate.inlinePlans := by
  obtain ⟨copies, hspec⟩ := rewrite_spec h
  have hperm := hspec.labels_perm
  have hnd := hspec.nodup
  constructor
  · rintro ⟨htargets, _⟩
    by_contra hfree
    obtain ⟨b, hb, l, hl, hge, hnot⟩ :=
      hspec.fragments.dangling (by simp [TypedInlineStoreCandidate.labels]) hfree
    have hcount := htargets b (hspec.copies_subset b hb) l hl
    have hmem : l ∈ (c.pre ++ new ++ c.post).map (·.label) := count_pos_iff.mp (by omega)
    rcases mem_append.mp (hperm.mem_iff.mp hmem) with hold | hfresh
    · obtain ⟨old, hmemOld, rfl⟩ := mem_map.mp hold
      have hlt := c.labelsBelow old hmemOld
      have hcounter : c.function.nextBlockId ≤ (candidate.labels c.function.nextBlockId).2 := by
        simp only [TypedInlineStoreCandidate.labels]
        omega
      exact absurd (Nat.lt_of_lt_of_le hlt (Nat.le_trans hcounter hge)) (Nat.lt_irrefl _)
    · exact hnot (hspec.mem_fresh hfresh hge)
  · intro hfree
    refine ⟨fun b hb l hl => ?_, hnd⟩
    have hnew : l ∈ new.map (·.label) → l ∈ (c.pre ++ new ++ c.post).map (·.label) := by
      intro hmem
      rw [map_append, map_append]
      exact mem_append_left _ (mem_append_right _ hmem)
    have hold : l ∈ c.block.successors → l ∈ (c.pre ++ new ++ c.post).map (·.label) := fun hmem =>
      hperm.mem_iff.mpr (mem_append_left _ (c.targetsKnown l hmem))
    refine count_eq_one_of_mem hnd ?_
    rcases hspec.own b hb with hcopy | hown
    · rcases hspec.fragments.closed hfree b hcopy l hl with hl | hl | hl
      · exact hnew (hspec.branch_mem (.inr (.inr hl)))
      · exact hold (excEdge_mem_successors hl)
      · obtain ⟨b', hb', rfl⟩ := mem_map.mp hl
        exact hnew (mem_map_of_mem (hspec.copies_subset b' hb'))
    · rcases hown l hl with hl | hl | hl
      · exact hold hl
      · exact hnew (hspec.branch_mem (.inl hl))
      · exact hnew (hspec.branch_mem (.inr (.inl hl)))

/-! ## A callee whose entry is a loop head -/

namespace InlineLabelsExample

open InstrTyped

def n : ResolvedName := ⟨"n", .local 0⟩

def r : ResolvedName := ⟨"r", .local 0⟩

def f : ResolvedName := ⟨"f", .global 0⟩

/-- `def f(n): while n: pass; return n`: the loop head is the entry block. -/
def loop : TypedInlineCallee where
  params := [⟨"n", .any⟩]
  stackSlots := ["n"]
  functionId := 7
  nextBlockId := 3
  blocks :=
    [{ label := 0, body := [], term := .ifTerm (load n) 1 2 },
     { label := 1, body := [], term := .jump ⟨0, []⟩ },
     { label := 2, body := [], term := .ret (load n) }]
  nonempty := by decide
  labelsNodup := by decide

/-- `def f(n): if n: pass; return n`. -/
def straight : TypedInlineCallee where
  params := [⟨"n", .any⟩]
  stackSlots := ["n"]
  functionId := 7
  nextBlockId := 3
  blocks :=
    [{ label := 0, body := [], term := .ifTerm (load n) 1 2 },
     { label := 1, body := [], term := .jump ⟨2, []⟩ },
     { label := 2, body := [], term := .ret (load n) }]
  nonempty := by decide
  labelsNodup := by decide

def moduleOf (callee : TypedInlineCallee) : TypedInlineModule :=
  { callableDefs := [callee], external := .plain [], runtimeName := fun _ => none }

def call : TypedInlineCallParts :=
  { func := load f, args := [(.positional, load r)] }

/-- `r = f(r); return r`. -/
def caller : InlineCaller where
  function := { params := [], stackSlots := ["r"], blocks := [], nextBlockId := 1 }
  pre := []
  block :=
    { label := 0
      body := [store r (.mk {} (.op (.directCallableCallTyped ⟨[.positional], [], none⟩ 7)) [load f, load r])]
      term := .ret (load r) }
  post := []
  labelsNodup := by decide
  labelsBelow := by simp
  targetsKnown := by simp [Block.successors, BlockTerm.edges]

def candidate : TypedInlineStoreCandidate :=
  { instrIndex := 0, result := .storeTo r, call := .directCallable call, inlinePlans := [⟨7, [.provided 0], .direct⟩] }

/-- The rewrite of the call. -/
def rewrite (callee : TypedInlineCallee) : Except InlineUnsupportedReason (List (Block InstrTyped) × TypedInlineState) :=
  tryBuildTypedDirectCallInlineRewriteForCandidate (moduleOf callee) ⟨caller.function, none, 0⟩ caller.block candidate

/-- The labels and the edges of the new blocks. -/
def shape (callee : TypedInlineCallee) : Option (List (BlockLabel × List BlockLabel)) :=
  (rewrite callee).toOption.map fun r => r.1.map fun b => (b.label, b.successors)

/-- The loop's jump leads to label 5, which the copy of the entry had before it became block 4. -/
theorem shape_loop :
    shape loop = some [(0, [4, 2]), (4, [6, 7]), (6, [5]), (7, [3]), (2, [1]), (3, [1]), (1, [])] := by
  decide +kernel

theorem shape_straight :
    shape straight = some [(0, [4, 2]), (4, [6, 7]), (6, [7]), (7, [3]), (2, [1]), (3, [1]), (1, [])] := by
  decide +kernel

/-- A rewrite of a known shape. -/
theorem exists_rewrite {s : List (BlockLabel × List BlockLabel)}
    (h : shape callee = some s) :
    ∃ new st, rewrite callee = .ok (new, st) ∧ new.map (fun b => (b.label, b.successors)) = s := by
  unfold shape at h
  cases hr : rewrite callee with
  | error e =>
    rw [hr] at h
    cases h
  | ok r =>
    rw [hr] at h
    cases h
    exact ⟨r.1, r.2, rfl, rfl⟩

end InlineLabelsExample

open InlineLabelsExample in
/-- Inlining `f(n): while n: pass; return n`: the copy of the loop's last block leads to a label no block has. -/
theorem inlineRewrite_wellFormed_false :
    ∃ new st, tryBuildTypedDirectCallInlineRewriteForCandidate (moduleOf loop) ⟨caller.function, none, 0⟩ caller.block
      candidate = .ok (new, st) ∧ ¬ WellFormedRewrite caller new := by
  obtain ⟨new, st, hr, hshape⟩ := exists_rewrite shape_loop
  refine ⟨new, st, hr, fun hwf => ?_⟩
  have hlabels : new.map (·.label) = [0, 4, 6, 7, 2, 3, 1] := by
    have := congrArg (List.map Prod.fst) hshape
    rwa [map_map] at this
  have hjump : (6, [5]) ∈ new.map (fun b => (b.label, b.successors)) := by
    rw [hshape]
    decide
  obtain ⟨b, hb, hbs⟩ := mem_map.mp hjump
  rw [Prod.mk.injEq] at hbs
  have hcount := hwf.1 b hb 5 (by rw [hbs.2]; decide)
  simp [caller, hlabels] at hcount

open InlineLabelsExample in
/-- Inlining `f(n): if n: pass; return n` is well formed. -/
theorem inlineRewrite_wellFormed_straight :
    ∃ new st, rewrite straight = .ok (new, st) ∧ WellFormedRewrite caller new := by
  obtain ⟨new, st, hr, _⟩ := exists_rewrite shape_straight
  refine ⟨new, st, hr, (inlineRewrite_wellFormed_iff (moduleOf straight) caller none 0 candidate new st hr).mpr ?_⟩
  intro plan hplan callee constants hcallee
  rw [mem_singleton.mp hplan] at hcallee
  cases hcallee
  rfl

end Soac
