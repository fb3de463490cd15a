import Soac.Inline.Fragment

/-!
# What a copied block looks like

The copy of a callee's block, without the state the remapper is threaded through: each name has its image, a load of a
bound parameter has become the argument, and the constants of another module are found at the caller's indices. The
relations are stated at the constants the caller ends up with, `final`, since the remapper only appends to them.
-/

namespace Soac

open Fallible List

/-! ## Constants -/

/-- The remapper only appends to the caller's constants. -/
def ConstantScope.Extends : ConstantScope → ConstantScope → Prop
  | .sameModule, .sameModule => True
  | .crossModule caller callee _, .crossModule caller' callee' _ => callee' = callee ∧ caller <+: caller'
  | _, _ => False

/-- The indices mapped so far hold the callee's constants. -/
def ConstantScope.Faithful : ConstantScope → Prop
  | .sameModule => True
  | .crossModule caller callee mapped => ∀ i j, mapped.lookup i = some j → ∃ c, callee[i]? = some c ∧ caller[j]? = some c

/-- The callee's constant `i` is the caller's constant `j`. -/
def ConstantScope.Maps (i j : Nat) : ConstantScope → Prop
  | .sameModule => j = i
  | .crossModule caller callee _ => ∃ c, callee[i]? = some c ∧ caller[j]? = some c

theorem ConstantScope.Extends.refl (s : ConstantScope) : s.Extends s := by
  cases s with
  | sameModule => trivial
  | crossModule caller callee mapped => exact ⟨rfl, prefix_refl _⟩

theorem ConstantScope.Extends.trans {s t u : ConstantScope} (h : s.Extends t) (h' : t.Extends u) : s.Extends u := by
  cases s with
  | sameModule =>
    cases t with
    | sameModule => exact h'
    | crossModule => exact h.elim
  | crossModule caller callee mapped =>
    cases t with
    | sameModule => exact h.elim
    | crossModule caller' callee' mapped' =>
      cases u with
      | sameModule => exact h'.elim
      | crossModule caller'' callee'' mapped'' => exact ⟨h'.1.trans h.1, h.2.trans h'.2⟩

theorem ConstantScope.Maps.mono {s t : ConstantScope} {i j : Nat} (h : s.Maps i j) (hst : s.Extends t) : t.Maps i j := by
  cases s with
  | sameModule =>
    cases t with
    | sameModule => exact h
    | crossModule => exact hst.elim
  | crossModule caller callee mapped =>
    cases t with
    | sameModule => exact hst.elim
    | crossModule caller' callee' mapped' =>
      obtain ⟨c, hc, hj⟩ := h
      obtain ⟨rfl, more, rfl⟩ := hst
      refine ⟨c, hc, ?_⟩
      rw [List.getElem?_append_left (List.getElem?_eq_some_iff.mp hj).1]
      exact hj

theorem ConstantScope.Extends.isCrossModule {s t : ConstantScope} (h : s.Extends t) : t.isCrossModule = s.isCrossModule := by
  cases s with
  | sameModule =>
    cases t with
    | sameModule => rfl
    | crossModule => exact h.elim
  | crossModule =>
    cases t with
    | sameModule => exact h.elim
    | crossModule => rfl

/-- What a step of the remapper returns, as far as it is seen from the constants the caller ends up with. -/
def RemapM.Yields {α : Type} (x : RemapM α) (P : ConstantScope → α → Prop) : Prop :=
  ∀ s a s', x s = .ok (a, s') → s.constants.Faithful →
    s'.constants.Faithful ∧ s.constants.Extends s'.constants ∧ ∀ final, s'.constants.Extends final → P final a

namespace RemapM.Yields

variable {α β : Type} {P : ConstantScope → α → Prop} {Q : ConstantScope → β → Prop}

theorem pure {a : α} (h : ∀ final, P final a) : (RemapM.pure a).Yields P := by
  intro s b s' hb hs
  cases hb
  exact ⟨hs, .refl _, fun final _ => h final⟩

theorem lift {r : Except InlineUnsupportedReason α} (h : ∀ a, r = .ok a → ∀ final, P final a) :
    (RemapM.lift r).Yields P := by
  intro s a s' ha hs
  obtain ⟨hr, rfl⟩ := RemapM.lift_eq_ok ha
  exact ⟨hs, .refl _, fun final _ => h a hr final⟩

theorem andThen {x : RemapM α} {k : α → RemapM β} (hx : x.Yields P)
    (hk : ∀ a, (k a).Yields fun final b => P final a → Q final b) : (x.andThen k).Yields Q := by
  intro s b s' h hs
  obtain ⟨a, s₁, ha, h⟩ := RemapM.andThen_eq_ok.mp h
  obtain ⟨hs₁, hext, hP⟩ := hx s a s₁ ha hs
  obtain ⟨hs', hext', hQ⟩ := hk a s₁ b s' h hs₁
  exact ⟨hs', hext.trans hext', fun final hf => hQ final hf (hP final (hext'.trans hf))⟩

/-- A mapped list. -/
theorem mapList {γ : Type} {f : α → RemapM γ} {P : ConstantScope → α → γ → Prop} {as : List α}
    (h : ∀ a ∈ as, (f a).Yields fun final c => P final a c) :
    (RemapM.mapList f as).Yields fun final cs => List.Forall₂ (P final) as cs := by
  induction as with
  | nil => exact Yields.pure fun _ => .nil
  | cons a as ih =>
    refine (h a mem_cons_self).andThen fun c => ?_
    refine (ih fun b hb => h b (mem_cons_of_mem _ hb)).andThen fun cs => ?_
    exact Yields.pure fun _ hcs hc => .cons hc hcs

end RemapM.Yields

/-- `remapConstant` gives the index of the callee's constant among the caller's. -/
theorem remapConstant_yields (i : Nat) : (remapConstant i).Yields fun final j => final.Maps i j := by
  intro s j s' h hs
  suffices s'.constants.Faithful ∧ s.constants.Extends s'.constants ∧ s'.constants.Maps i j from
    ⟨this.1, this.2.1, fun final hf => this.2.2.mono hf⟩
  replace h := RemapM.run_eq_ok.mp h
  simp only [remapConstant] at h
  split at h
  · rename_i hscope
    cases h
    rw [hscope]
    exact ⟨trivial, trivial, rfl⟩
  · rename_i caller callee mapped hscope
    rw [hscope] at hs ⊢
    split at h
    · rename_i j' hj
      cases h
      rw [hscope]
      exact ⟨hs, .refl _, hs i j hj⟩
    · split at h
      · cases h
      · rename_i c hc
        cases h
        have hlast : (caller ++ [c])[caller.length]? = some c := List.getElem?_concat_length
        refine ⟨fun i' j' hj' => ?_, ⟨rfl, prefix_append _ _⟩, c, hc, hlast⟩
        by_cases hi : i' = i
        · subst hi
          rw [lookup_cons_self, Option.some.injEq] at hj'
          exact ⟨c, hc, hj' ▸ hlast⟩
        · rw [lookup_cons, beq_false_of_ne hi] at hj'
          obtain ⟨c', hc', hjc'⟩ := hs i' j' hj'
          refine ⟨c', hc', ?_⟩
          rw [List.getElem?_append_left (List.getElem?_eq_some_iff.mp hjc').1]
          exact hjc'

/-! ## Names -/

def NameLocation.isGlobal : NameLocation → Bool
  | .globalName | .global _ => true
  | _ => false

section

variable (env : RemapEnv Unit BlockPyOp) (final : ConstantScope)

/-- The name a callee's name has become. -/
inductive NameCopied : ResolvedName → ResolvedName → Prop where
  | fresh {id : String} {x : LocalLocation} {t : InlineLocal} :
      env.bindings.lookup x = none → env.locals.lookup x = some t → NameCopied ⟨id, .local x⟩ t.resolvedName
  | constant {id : String} {i j : Nat} : final.Maps i j → NameCopied ⟨id, .constant i⟩ ⟨id, .constant j⟩
  | runtimeGlobal {id : String} {location : NameLocation} {r : RuntimeName} :
      final.isCrossModule = true → location.isGlobal = true → env.runtimeName id = some r →
      NameCopied ⟨id, location⟩ ⟨id, .runtimeName r⟩
  | same {id : String} {location : NameLocation} :
      (∀ x, location ≠ .local x) → (∀ i, location ≠ .constant i) →
      (final.isCrossModule = true → location.isGlobal = false) → NameCopied ⟨id, location⟩ ⟨id, location⟩

/-- The operation a callee's operation has become. -/
inductive HeadCopied : Head BlockPyOp → Head BlockPyOp → Prop where
  | load {n n' : ResolvedName} : NameCopied env final n n' → HeadCopied (.load n) (.load n')
  | store {n n' : ResolvedName} : NameCopied env final n n' → HeadCopied (.store n) (.store n')
  | del {n n' : ResolvedName} (quietly : Bool) : NameCopied env final n n' → HeadCopied (.del n quietly) (.del n' quietly)
  | takeOperand {n n' : ResolvedName} : NameCopied env final n n' → HeadCopied (.takeOperand n) (.takeOperand n')
  | comprehensionInsert {n n' : ResolvedName} (kind : ComprehensionInsertKind) :
      NameCopied env final n n' → HeadCopied (.comprehensionInsert kind n) (.comprehensionInsert kind n')
  | callArgumentOp {callable callable' buffer buffer' : ResolvedName} (kind : CallArgumentOpKind) :
      NameCopied env final callable callable' → NameCopied env final buffer buffer' →
      HeadCopied (.callArgumentOp kind callable buffer) (.callArgumentOp kind callable' buffer')
  | iteratorStep {n n' : ResolvedName} : NameCopied env final n n' → HeadCopied (.iteratorStep n) (.iteratorStep n')
  | makeCell : HeadCopied .makeCell .makeCell
  | cellRef (location : CellLocation) : HeadCopied (.cellRef location) (.cellRef location)
  | op (k : BlockPyOp) : HeadCopied (.op k) (.op k)

/-- The instruction a callee's instruction has become. -/
inductive CopiedInstr : InstrBlockPy → InstrBlockPy → Prop where
  | bound {x : Unit} {h : Head BlockPyOp} {ops : List InstrBlockPy} {value : InstrBlockPy} :
      env.boundValue h = some value → CopiedInstr (.mk x h ops) value
  | node {x : Unit} {h h' : Head BlockPyOp} {ops ops' : List InstrBlockPy} :
      env.boundValue h = none → HeadCopied env final h h' → List.Forall₂ CopiedInstr ops ops' →
      CopiedInstr (.mk x h ops) (.mk x h' ops')

end

section

variable {env : RemapEnv Unit BlockPyOp}

theorem freshLocal_eq_ok {x : LocalLocation} {t : InlineLocal} (h : env.freshLocal x = .ok t) :
    env.bindings.lookup x = none ∧ env.locals.lookup x = some t := by
  unfold RemapEnv.freshLocal at h
  split at h
  · cases h
  · rename_i hb
    split at h
    · rename_i t' ht
      cases h
      exact ⟨hb, ht⟩
    · cases h

/-- A global is copied as it is, or is a runtime name of another module. -/
theorem nameCopied_global {id : String} {location location' : NameLocation} {n' : ResolvedName} {s : RemapState}
    {final : ConstantScope} (hglobal : location.isGlobal = true)
    (hcross : env.crossModuleLocation id location s = .ok location') (h : env.callerName id location' = .ok n')
    (hf : s.constants.Extends final) : NameCopied env final ⟨id, location⟩ n' := by
  cases location with
  | globalName | global slot =>
    unfold RemapEnv.crossModuleLocation at hcross
    dsimp only at hcross
    split at hcross
    · rename_i hc
      split at hcross
      · rename_i r hr
        cases hcross
        cases h
        exact .runtimeGlobal (hf.isCrossModule.trans hc) rfl hr
      · cases hcross
    · rename_i hc
      cases hcross
      cases h
      exact .same nofun nofun fun hcross' => absurd (hf.isCrossModule.symm.trans hcross') hc
  | _ => cases hglobal

theorem tryMapName_yields (hcell : env.cell = .ok) (n : ResolvedName) :
    (env.tryMapName n).Yields fun final n' => NameCopied env final n n' := by
  obtain ⟨id, location⟩ := n
  intro s n' s' h hs
  obtain ⟨location', s₁, hlocation, h⟩ := RemapM.andThen_eq_ok.mp h
  obtain ⟨hbind, rfl⟩ := RemapM.lift_eq_ok h
  obtain ⟨location'', hcross, hname⟩ := except_bind_eq_ok.mp hbind
  cases location with
  | constant i =>
    obtain ⟨hs', hext, hmaps⟩ := ((remapConstant_yields i).andThen fun j =>
      RemapM.Yields.pure (P := fun final location => final.Maps i j → ∃ j, location = NameLocation.constant j ∧ final.Maps i j)
        fun _ hj => ⟨j, rfl, hj⟩) s location' s' hlocation hs
    refine ⟨hs', hext, fun final hf => ?_⟩
    obtain ⟨j, rfl, hj⟩ := hmaps final hf
    cases hcross
    cases hname
    exact .constant hj
  | «local» x =>
    cases hlocation
    cases hcross
    obtain ⟨t, ht, rfl⟩ := map_eq_ok.mp hname
    obtain ⟨hb, hl⟩ := freshLocal_eq_ok ht
    exact ⟨hs, .refl _, fun _ _ => .fresh hb hl⟩
  | cell c =>
    cases hlocation
    cases hcross
    rw [RemapEnv.callerName, hcell] at hname
    cases hname
    exact ⟨hs, .refl _, fun _ _ => .same nofun nofun fun _ => rfl⟩
  | preserved location | runtimeName r =>
    cases hlocation
    cases hcross
    cases hname
    exact ⟨hs, .refl _, fun _ _ => .same nofun nofun fun _ => rfl⟩
  | globalName | global slot =>
    cases hlocation
    exact ⟨hs, .refl _, fun _ hf => nameCopied_global rfl hcross hname hf⟩

theorem tryMapHead_yields (hcell : env.cell = .ok) (h : Head BlockPyOp) :
    (env.tryMapHead h).Yields fun final h' => HeadCopied env final h h' := by
  have hname := fun n => tryMapName_yields hcell n
  cases h with
  | load n => exact (hname n).andThen fun _ => .pure fun _ hn => .load hn
  | store n => exact (hname n).andThen fun _ => .pure fun _ hn => .store hn
  | del n quietly => exact (hname n).andThen fun _ => .pure fun _ hn => .del quietly hn
  | takeOperand n => exact (hname n).andThen fun _ => .pure fun _ hn => .takeOperand hn
  | comprehensionInsert kind n =>
    exact (hname n).andThen fun _ => .pure fun _ hn => .comprehensionInsert kind hn
  | callArgumentOp kind callable buffer =>
    refine (hname callable).andThen fun _ => (hname buffer).andThen fun _ => ?_
    exact .pure fun _ hbuffer hcallable => .callArgumentOp kind hcallable hbuffer
  | iteratorStep n => exact (hname n).andThen fun _ => .pure fun _ hn => .iteratorStep hn
  | makeCell => exact .pure fun _ => .makeCell
  | cellRef location =>
    have hlift : (RemapM.lift (env.cell location)).Yields fun _ c => c = location := by
      refine .lift fun c hc _ => ?_
      rw [hcell] at hc
      cases hc
      rfl
    refine hlift.andThen fun c => .pure fun _ hc => ?_
    rw [hc]
    exact .cellRef location
  | op k => exact .pure fun _ => .op k

theorem blockPyDialect_finish (x : Unit) (ops : List InstrBlockPy) (h : Head BlockPyOp) :
    blockPyDialect.finish x ops h = .mk x h ops := by
  cases h <;> rfl

theorem tryMapInstrs_yields_of {ops : List InstrBlockPy}
    (h : ∀ i ∈ ops, (blockPyDialect.tryMapInstr env i).Yields fun final i' => CopiedInstr env final i i') :
    (blockPyDialect.tryMapInstrs env ops).Yields fun final ops' => List.Forall₂ (CopiedInstr env final) ops ops' := by
  induction ops with
  | nil =>
    exact .pure fun _ => .nil
  | cons i is ih =>
    refine (h i mem_cons_self).andThen fun i' => ?_
    refine (ih fun j hj => h j (mem_cons_of_mem _ hj)).andThen fun is' => ?_
    exact .pure fun _ his hi => .cons hi his

/-- `try_map_instr` makes a copy. -/
theorem tryMapInstr_yields (hcell : env.cell = .ok) (i : InstrBlockPy) :
    (blockPyDialect.tryMapInstr env i).Yields fun final i' => CopiedInstr env final i i' := by
  induction i using Instr.induct with
  | mk x h ops ih =>
    rw [RemapDialect.tryMapInstr]
    cases hbound : env.boundValue h with
    | some value => exact .pure fun _ => .bound hbound
    | none =>
      have hcheck : (RemapM.lift (blockPyDialect.checkHead h)).Yields fun _ _ => True :=
        RemapM.Yields.lift fun _ _ _ => trivial
      have hextra : (blockPyDialect.remapExtra x).Yields fun _ x' => x' = x := RemapM.Yields.pure fun _ => rfl
      refine hcheck.andThen fun _ => (tryMapHead_yields hcell h).andThen fun h' => ?_
      refine (tryMapInstrs_yields_of ih).andThen fun ops' => hextra.andThen fun x' => ?_
      refine .pure fun final hx hops hh _ => ?_
      rw [blockPyDialect_finish]
      exact .node hbound hh hops

end

/-! ## Blocks -/

section

variable (env : RemapEnv Unit BlockPyOp) (labelMap : LabelMap) (returnTarget : ResolvedName) (continuation : BlockLabel)

/-- A block parameter is a fresh slot. -/
def ParamCopied (p p' : BlockParam) : Prop :=
  ∃ x t, env.stackSlots.idxOf? p.name = some x ∧ env.bindings.lookup x = none ∧ env.locals.lookup x = some t ∧
    p'.name = t.name

/-- An argument of an edge is a fresh slot, or the caller's name of a bound parameter. -/
inductive ArgCopied : BlockArg → BlockArg → Prop where
  | fresh {s : String} {x : LocalLocation} {t : InlineLocal} :
      env.stackSlots.idxOf? s = some x → env.bindings.lookup x = none → env.locals.lookup x = some t →
      ArgCopied (.name s) (.name t.name)
  | bound {s : String} {x y : LocalLocation} {u : Unit} {n : ResolvedName} {ops : List InstrBlockPy} :
      env.stackSlots.idxOf? s = some x → env.bindings.lookup x = some (.mk u (.load n) ops) → n.localLocation = some y →
      ArgCopied (.name s) (.name n.id)
  | none : ArgCopied .none .none
  | currentException : ArgCopied .currentException .currentException
  | abruptKind (kind : AbruptKind) : ArgCopied (.abruptKind kind) (.abruptKind kind)

structure EdgeCopied (e e' : BlockEdge) : Prop where
  target : labelMap.lookup e.target = some e'.target
  args : List.Forall₂ (ArgCopied env) e.args e'.args

/-- A terminator, with the statements added to the body. -/
inductive TermCopied (final : ConstantScope) : BlockTerm InstrBlockPy → List InstrBlockPy × BlockTerm InstrBlockPy → Prop where
  | ret {value value' : InstrBlockPy} :
      CopiedInstr env final value value' →
      TermCopied final (.ret value) ([.mk value'.extra (.store returnTarget) [value']], .jump ⟨continuation, []⟩)
  | jump {e e' : BlockEdge} : EdgeCopied env labelMap e e' → TermCopied final (.jump e) ([], .jump e')
  | ifTerm {test test' : InstrBlockPy} {t t' e e' : BlockLabel} :
      CopiedInstr env final test test' → labelMap.lookup t = some t' → labelMap.lookup e = some e' →
      TermCopied final (.ifTerm test t e) ([], .ifTerm test' t' e')
  | branchTable {index index' : InstrBlockPy} {targets targets' : List BlockLabel} {d d' : BlockLabel} :
      CopiedInstr env final index index' → List.Forall₂ (fun l l' => labelMap.lookup l = some l') targets targets' →
      labelMap.lookup d = some d' → TermCopied final (.branchTable index targets d) ([], .branchTable index' targets' d')
  | raiseNone : TermCopied final (.raise none) ([], .raise none)
  | raise {exc exc' : InstrBlockPy} : CopiedInstr env final exc exc' → TermCopied final (.raise (some exc)) ([], .raise (some exc'))

structure BlockCopied (final : ConstantScope) (b b' : Block InstrBlockPy) : Prop where
  label : labelMap.lookup b.label = some b'.label
  params : List.Forall₂ (ParamCopied env) b.params b'.params
  excEdge : (b.excEdge = none ∧ b'.excEdge = none) ∨
    ∃ e e', b.excEdge = some e ∧ b'.excEdge = some e' ∧ EdgeCopied env labelMap e e'
  code : ∃ body tail, b'.body = body ++ tail ∧
    List.Forall₂ (CopiedInstr env final) (blockPyDialect.copiedBody b.body) body ∧
    TermCopied env labelMap returnTarget continuation final b.term (tail, b'.term)

end

section

variable {env : RemapEnv Unit BlockPyOp} {labelMap : LabelMap} {returnTarget : ResolvedName} {continuation : BlockLabel}

theorem calleeLocalLocationByName_eq_ok {s : String} {x : LocalLocation}
    (h : env.calleeLocalLocationByName s = .ok x) : env.stackSlots.idxOf? s = some x := by
  unfold RemapEnv.calleeLocalLocationByName at h
  split at h
  · rename_i x' hx
    cases h
    exact hx
  · cases h

theorem tryMapBlockParam_copied {p p' : BlockParam} (h : env.tryMapBlockParam p = .ok p') : ParamCopied env p p' := by
  obtain ⟨x, hx, h⟩ := except_bind_eq_ok.mp h
  obtain ⟨t, ht, rfl⟩ := map_eq_ok.mp h
  obtain ⟨hb, hl⟩ := freshLocal_eq_ok ht
  exact ⟨x, t, calleeLocalLocationByName_eq_ok hx, hb, hl, rfl⟩

theorem tryMapBlockArg_copied {a a' : BlockArg} (h : env.tryMapBlockArg a = .ok a') : ArgCopied env a a' := by
  cases a with
  | none => cases h; exact .none
  | currentException => cases h; exact .currentException
  | abruptKind kind => cases h; exact .abruptKind kind
  | name s =>
    obtain ⟨s', hs, rfl⟩ := map_eq_ok.mp h
    obtain ⟨x, hx, hs⟩ := except_bind_eq_ok.mp hs
    have hx := calleeLocalLocationByName_eq_ok hx
    split at hs
    · rename_i value hvalue
      obtain ⟨u, hd, ops⟩ := value
      cases hd with
      | load n =>
        simp only [RemapEnv.boundLocalName] at hs
        cases hn : n.localLocation with
        | none =>
          rw [hn] at hs
          cases hs
        | some y =>
          rw [hn] at hs
          cases hs
          exact .bound hx hvalue hn
      | _ => cases hs
    · rename_i hb
      split at hs
      · rename_i t ht
        cases hs
        exact .fresh hx hb ht
      · cases hs

theorem remapInlineEdge_copied {e e' : BlockEdge} (h : remapInlineEdge env labelMap e = .ok e') :
    EdgeCopied env labelMap e e' := by
  obtain ⟨target, ht, h⟩ := except_bind_eq_ok.mp h
  obtain ⟨args, hargs, rfl⟩ := map_eq_ok.mp h
  exact ⟨remappedLabel_eq_ok ht, (mapM_eq_ok_iff.mp hargs).imp fun _ _ => tryMapBlockArg_copied⟩

theorem remappedLabel_yields (l : BlockLabel) :
    (RemapM.lift (remappedLabel labelMap l)).Yields fun _ l' => labelMap.lookup l = some l' :=
  RemapM.Yields.lift fun _ hl _ => remappedLabel_eq_ok hl

theorem remapInlineTerm_yields (hcell : env.cell = .ok) (t : BlockTerm InstrBlockPy) :
    (blockPyDialect.remapInlineTerm env labelMap returnTarget continuation t).Yields fun final r =>
      TermCopied env labelMap returnTarget continuation final t r := by
  cases t with
  | ret value =>
    have hextra : ∀ x : Unit, (blockPyDialect.returnExtra x).Yields fun _ x' => x' = x :=
      fun x => .pure fun _ => rfl
    refine (tryMapInstr_yields hcell value).andThen fun value' => (hextra value'.extra).andThen fun x => ?_
    refine .pure fun final hx hvalue => ?_
    exact .ret hvalue
  | jump e =>
    have hedge : (RemapM.lift (remapInlineEdge env labelMap e)).Yields fun _ e' => EdgeCopied env labelMap e e' :=
      RemapM.Yields.lift fun _ he _ => remapInlineEdge_copied he
    exact hedge.andThen fun _ => .pure fun _ he => .jump he
  | ifTerm test t e =>
    refine (tryMapInstr_yields hcell test).andThen fun _ => (remappedLabel_yields t).andThen fun _ => ?_
    exact (remappedLabel_yields e).andThen fun _ => .pure fun _ he ht htest => .ifTerm htest ht he
  | branchTable index targets d =>
    have htargets : (RemapM.lift (targets.mapM (remappedLabel labelMap))).Yields fun _ targets' =>
        List.Forall₂ (fun l l' => labelMap.lookup l = some l') targets targets' :=
      RemapM.Yields.lift fun _ hl _ => (mapM_eq_ok_iff.mp hl).imp fun _ _ => remappedLabel_eq_ok
    refine (tryMapInstr_yields hcell index).andThen fun _ => htargets.andThen fun _ => ?_
    exact (remappedLabel_yields d).andThen fun _ =>
      RemapM.Yields.pure fun _ hd ht hindex => .branchTable hindex ht hd
  | raise exc =>
    cases exc with
    | none => exact .pure fun _ => .raiseNone
    | some exc =>
      exact (tryMapInstr_yields hcell exc).andThen fun _ => .pure fun _ h => .raise h
  | generatorReturn value =>
    intro s r s' h
    obtain ⟨_, _, _, h⟩ := RemapM.andThen_eq_ok.mp h
    cases h

theorem remapBlock_yields (hcell : env.cell = .ok) (b : Block InstrBlockPy) :
    (blockPyDialect.remapBlock env labelMap returnTarget continuation b).Yields fun final b' =>
      BlockCopied env labelMap returnTarget continuation final b b' := by
  have hparams : (RemapM.lift (b.params.mapM env.tryMapBlockParam)).Yields fun _ params =>
      List.Forall₂ (ParamCopied env) b.params params :=
    RemapM.Yields.lift fun _ hp _ => (mapM_eq_ok_iff.mp hp).imp fun _ _ => tryMapBlockParam_copied
  have hexc : (RemapM.lift (b.excEdge.mapM (remapInlineEdge env labelMap))).Yields fun _ excEdge =>
      (b.excEdge = none ∧ excEdge = none) ∨
        ∃ e e', b.excEdge = some e ∧ excEdge = some e' ∧ EdgeCopied env labelMap e e' := by
    refine .lift fun _ he _ => (option_mapM_eq_ok he).imp id ?_
    rintro ⟨e, e', he, he', hee'⟩
    exact ⟨e, e', he, he', remapInlineEdge_copied hee'⟩
  refine (remappedLabel_yields b.label).andThen fun _ => ?_
  refine (tryMapInstrs_yields_of fun i _ => tryMapInstr_yields hcell i).andThen fun body => ?_
  refine (remapInlineTerm_yields hcell b.term).andThen fun tail => ?_
  refine hparams.andThen fun _ => hexc.andThen fun _ => ?_
  exact .pure fun _ hexc hparams hterm hbody hlabel =>
    ⟨hlabel, hparams, hexc, body, tail.1, rfl, hbody, hterm⟩

end

end Soac
