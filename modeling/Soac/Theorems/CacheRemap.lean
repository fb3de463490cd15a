import Soac.Cache.Remap

/-!
# Completeness of the function id remapper

The remapper moves every function id of a module to the new module except those in the fields of the type parameter
operations, which it leaves as they are. So a remapped module is complete exactly when these fields hold only global ids
or ids that are in the new module already.
-/

namespace Soac.Cache

open FunctionIdRemapper

/-- The fields of the operations on type parameters and type aliases. -/
def IdField.isTypeParameterField : IdField → Bool
  | .constructTypeParameterScope | .setFunctionTypeParameters | .createTypeAlias | .createTypeParameter
  | .setTypeParameterDefault => true
  | _ => false

/-- What becomes of a function id: global ids stay, every other one is in the new module under its old local index. -/
def MovedTo (newModuleId : UInt32) (old new : PackedFunctionId) : Prop :=
  old = .global ∧ new = .global ∨ new.moduleId = newModuleId ∧ new.localFunctionId = old.localFunctionId

/-- Every function id of the first module stands in the same place of the second one, moved to the new module. -/
def CompletelyMoved (newModuleId : UInt32) (before after : BlockPyModule) : Prop :=
  List.Forall₂ (fun old new => old.field = new.field ∧ MovedTo newModuleId old.id new.id) before.ids after.ids

namespace FunctionIdRemapper

variable (r : FunctionIdRemapper)

/-- What the remapper does to a function id where it stands. -/
def remapOccurrence (o : IdOccurrence) : IdOccurrence :=
  if o.field.isTypeParameterField then o else { o with id := r.remap o.id }

theorem ids_visitOp (op : Op) : (r.visitOp op).ids = op.ids.map r.remapOccurrence := by
  cases op with
  | createTypeParameter id => cases id <;> rfl
  | _ => rfl

/-- A function on the items of a list that moves their ids moves the ids of the list. -/
theorem flatMap_ids_map {α : Type} {ids : α → List IdOccurrence} {f : α → α}
    (h : ∀ a, ids (f a) = (ids a).map r.remapOccurrence) (as : List α) :
    (as.map f).flatMap ids = (as.flatMap ids).map r.remapOccurrence := by
  rw [List.flatMap_map, List.map_flatMap]
  exact congrArg as.flatMap (funext h)

theorem instrIds_visitInstr (instr : InstrBlockPy) :
    instrIds (r.visitInstr instr) = (instrIds instr).map r.remapOccurrence := by
  rw [instrIds, visitInstr, Rose.labels_map, r.flatMap_ids_map r.ids_visitOp, instrIds]

theorem operands_visitTerm (term : BlockTerm InstrBlockPy) :
    (r.visitTerm term).operands = term.operands.map r.visitInstr := by
  cases term with
  | raise exc => cases exc <;> rfl
  | _ => rfl

theorem blockIds_visitBlock (block : Block InstrBlockPy) :
    blockIds (r.visitBlock block) = (blockIds block).map r.remapOccurrence := by
  rw [blockIds, visitBlock, r.operands_visitTerm, ← List.map_append, r.flatMap_ids_map r.instrIds_visitInstr, blockIds]

theorem ids_remapScope (scope : CallableScopeInfo) : (r.remapScope scope).ids = scope.ids.map r.remapOccurrence := by
  obtain ⟨_ | construction⟩ := scope <;> rfl

theorem ids_remapCounterSite (site : CounterSite) : (r.remapCounterSite site).ids = site.ids.map r.remapOccurrence := by
  cases site with
  | runtime id instrId => cases id <;> rfl
  | _ => rfl

theorem ids_remapFunction (function : BlockPyFunction) :
    (r.remapFunction { function with blocks := function.blocks.map r.visitBlock }).ids =
      function.ids.map r.remapOccurrence := by
  have hpublic : (function.publicScope.map r.remapScope).toList.flatMap CallableScopeInfo.ids =
      (function.publicScope.toList.flatMap CallableScopeInfo.ids).map r.remapOccurrence := by
    rw [Option.toList_map, r.flatMap_ids_map r.ids_remapScope]
  have hblocks := r.flatMap_ids_map r.blockIds_visitBlock function.blocks
  rw [BlockPyFunction.ids, BlockPyFunction.ids, List.map_cons, List.map_append, List.map_append, ← r.ids_remapScope,
    ← hpublic, ← hblocks]
  rfl

end FunctionIdRemapper

/-- The function ids of a remapped module. -/
theorem ids_remapBlockpyModuleFunctionIds (module : BlockPyModule) (moduleNameGen : ModuleNameGen) :
    (remapBlockpyModuleFunctionIds module moduleNameGen).ids =
      module.ids.map (remapOccurrence ⟨moduleNameGen.moduleId⟩) := by
  generalize hr : (⟨moduleNameGen.moduleId⟩ : FunctionIdRemapper) = r
  have hfunctions := r.flatMap_ids_map r.ids_remapFunction module.callableDefs
  have hcounters := r.flatMap_ids_map r.ids_remapCounterSite module.counterDefs
  rw [BlockPyModule.ids, BlockPyModule.ids, List.map_append, ← hfunctions, ← hcounters, ← hr]
  simp only [remapBlockpyModuleFunctionIds, remapBlockpyModuleFunctionIdsWithRemapper, walkModule,
    List.map_map, Function.comp_def]

variable (newModuleId : UInt32) (id : PackedFunctionId)

theorem movedTo_remap : MovedTo newModuleId id (remap ⟨newModuleId⟩ id) := by
  rw [remap]
  split
  · next h => exact .inl ⟨h, h⟩
  · exact .inr ⟨PackedFunctionId.new_moduleId _ _, PackedFunctionId.new_localFunctionId _ _⟩

theorem movedTo_self_iff : MovedTo newModuleId id id ↔ id = .global ∨ id.moduleId = newModuleId := by
  simp [MovedTo]

/-- Remapping moves every function id of a module to the new module exactly when each id in a field of an operation on
type parameters or type aliases is global or in the new module already. -/
theorem remapBlockpyModuleFunctionIds_complete_iff (module : BlockPyModule) (moduleNameGen : ModuleNameGen) :
    CompletelyMoved moduleNameGen.moduleId module (remapBlockpyModuleFunctionIds module moduleNameGen) ↔
      ∀ o ∈ module.ids, o.field.isTypeParameterField = true →
        o.id = .global ∨ o.id.moduleId = moduleNameGen.moduleId := by
  rw [CompletelyMoved, ids_remapBlockpyModuleFunctionIds, List.forall₂_map_right_iff, List.forall₂_same]
  refine forall₂_congr fun o _ => ?_
  rw [remapOccurrence]
  cases hfield : o.field.isTypeParameterField
  · simp [movedTo_remap]
  · simp [movedTo_self_iff]

/-- A stored module whose generic function `1:1` creates its parameters in the scope function `1:2`. -/
def genericModule : BlockPyModule where
  moduleNameGen := ⟨1, 3⟩
  callableDefs := [
    { functionId := .new 1 1, nameGen := ⟨.new 1 1, 1, 0⟩
      blocks := [{
        label := 0
        body := [.node (.constructTypeParameterScope (.new 1 2)) [.node (.makeFunctionWithClosure (.new 1 2)) []]]
        term := .ret (.node (.plain .load) []) }] },
    { functionId := .new 1 2, nameGen := ⟨.new 1 2, 0, 0⟩, blocks := [] }]
  counterDefs := [.blockEntry (.new 1 1) 0]

/-- Moved to module `7`, the operation that constructs the type parameters still names `1:2`, which is no function of the
module any more. -/
theorem remapBlockpyModuleFunctionIds_complete_false :
    ¬ CompletelyMoved 7 genericModule (remapBlockpyModuleFunctionIds genericModule ⟨7, 1⟩) ∧
      ⟨.constructTypeParameterScope, .new 1 2⟩ ∈ (remapBlockpyModuleFunctionIds genericModule ⟨7, 1⟩).ids ∧
      .new 1 2 ∉ (remapBlockpyModuleFunctionIds genericModule ⟨7, 1⟩).callableDefs.map (·.functionId) := by
  refine ⟨?_, by decide, by decide⟩
  intro h
  rw [CompletelyMoved, ids_remapBlockpyModuleFunctionIds, List.forall₂_map_right_iff, List.forall₂_same] at h
  have hstale : MovedTo 7 (.new 1 2) (.new 1 2) := (h ⟨.constructTypeParameterScope, .new 1 2⟩ (by decide)).2
  exact absurd ((movedTo_self_iff _ _).mp hstale) (by decide)

open List

/-! ## Drawing from the recovered generators -/

/-- What a number of draws from a generator give. -/
def draw {G α : Type} (next : G → α × G) : Nat → G → List α
  | 0, _ => []
  | k + 1, gen => (next gen).1 :: draw next k (next gen).2

/-- The functions that are drawn have consecutive numbers as long as the counter does not wrap. -/
theorem draw_nextFunctionNameGen {k : Nat} {gen : ModuleNameGen} (h : gen.nextFunctionId + k < 2 ^ 32) :
    (draw (·.nextFunctionNameGen) k gen).map (·.functionId) =
      (range' gen.nextFunctionId k).map fun n => .new gen.moduleId (.ofNat n) := by
  induction k generalizing gen with
  | zero => rfl
  | succ k ih =>
    have hnext : gen.nextFunctionNameGen.2.nextFunctionId = gen.nextFunctionId + 1 := Nat.mod_eq_of_lt (by omega)
    rw [draw, map_cons, ih (by omega), hnext, range'_succ, map_cons]
    rfl

theorem draw_nextBlockName {k : Nat} {gen : FunctionNameGen} (h : gen.nextBlockId + k < 2 ^ 32) :
    draw (·.nextBlockName) k gen = (range' gen.nextBlockId k).map some := by
  induction k generalizing gen with
  | zero => rfl
  | succ k ih =>
    have hnext : gen.nextBlockName.2.nextBlockId = gen.nextBlockId + 1 := rfl
    rw [draw, ih (by omega), hnext, range'_succ, map_cons]
    exact congrArg (· :: _) (if_pos (by omega))

/-- What the counter is recovered from lies below it, the largest `u32` apart. -/
theorem lt_foldl_max {n start : Nat} {ns : List Nat} (h : saturatingSucc n ∈ ns) (hn : n < fallthroughIndex) :
    n < ns.foldl max start := by
  have hle := le_max?_getD_of_mem (k := start) h
  rw [foldl_max]
  have hsucc : saturatingSucc n = n + 1 := Nat.min_eq_left hn
  omega

variable {module : BlockPyModule} {f : BlockPyFunction}

theorem localFunctionId_lt_next (hf : f ∈ module.callableDefs)
    (hmodule : f.functionId.moduleId = (recoveredModuleNameGen module).moduleId)
    (hlocal : f.functionId.localFunctionId.toNat < fallthroughIndex) :
    f.functionId.localFunctionId.toNat < (recoveredModuleNameGen module).nextFunctionId := by
  refine lt_foldl_max (mem_map.mpr ⟨f.functionId, ?_, rfl⟩) hlocal
  exact mem_filter.mpr ⟨mem_map_of_mem hf, decide_eq_true hmodule⟩

theorem label_lt_next {b : Block InstrBlockPy} (hb : b ∈ f.blocks) (hlabel : b.label < fallthroughIndex) :
    b.label < (recoveredFunctionNameGen f).nextBlockId := by
  refine lt_foldl_max (mem_map_of_mem ?_) hlabel
  exact mem_filter.mpr ⟨mem_map_of_mem hb, decide_eq_true hlabel.ne⟩

/-- Whatever is drawn from the generators of a remapped module, as long as the largest `u32` is not reached, is drawn
once and is no function of the module and no label of the function: the counters are recovered above all of them. -/
theorem generators_fresh (module : BlockPyModule) (gen : ModuleNameGen) :
    let remapped := remapBlockpyModuleFunctionIds module gen
    (∀ k, remapped.moduleNameGen.nextFunctionId + k < 2 ^ 32 →
      let drawn := (draw (·.nextFunctionNameGen) k remapped.moduleNameGen).map (·.functionId)
      drawn.Nodup ∧ ∀ f ∈ remapped.callableDefs, f.functionId ∉ drawn) ∧
    ∀ f ∈ remapped.callableDefs, ∀ k, f.nameGen.nextBlockId + k < 2 ^ 32 →
      let drawn := draw (·.nextBlockName) k f.nameGen
      none ∉ drawn ∧ drawn.Nodup ∧ ∀ b ∈ f.blocks, some b.label ∉ drawn := by
  intro remapped
  refine ⟨fun k hk => ?_, fun f hf k hk => ?_⟩
  · rw [draw_nextFunctionNameGen hk]
    have hlocal : ∀ m n, n ∈ range' remapped.moduleNameGen.nextFunctionId k →
        (PackedFunctionId.new m (.ofNat n)).localFunctionId.toNat = n := by
      intro m n hn
      rw [PackedFunctionId.new_localFunctionId]
      exact Nat.mod_eq_of_lt (by have := mem_range'_1.mp hn; omega)
    refine ⟨(nodup_map_iff_inj_on (nodup_range' _)).mpr fun n hn n' hn' heq => ?_, fun f hf hmem => ?_⟩
    · rw [← hlocal _ n hn, ← hlocal _ n' hn', heq]
    · obtain ⟨n, hn, heq⟩ := mem_map.mp hmem
      have hn' := hlocal remapped.moduleNameGen.moduleId n hn
      have hrange := mem_range'_1.mp hn
      rw [heq] at hn'
      have hmodule : f.functionId.moduleId = remapped.moduleNameGen.moduleId := by
        rw [← heq, PackedFunctionId.new_moduleId]
      have hless := @localFunctionId_lt_next remapped f hf hmodule (by
        rw [hn']
        exact Nat.lt_sub_of_add_lt (by omega))
      rw [hn'] at hless
      exact absurd hless (Nat.not_lt.mpr hrange.1)
  · rw [draw_nextBlockName hk]
    refine ⟨by simp, (nodup_range' _).map (Option.some_injective _), fun b hb hmem => ?_⟩
    obtain ⟨g, -, rfl⟩ := mem_map.mp hf
    obtain ⟨n, hn, heq⟩ := mem_map.mp hmem
    cases heq
    have hrange := mem_range'_1.mp hn
    have hless := label_lt_next hb (Nat.lt_sub_of_add_lt (by omega))
    exact absurd hless (Nat.not_lt.mpr hrange.1)

/-- Two functions drawn after the generic module was moved to module `7`. -/
theorem generators_fresh_generic :
    (draw (·.nextFunctionNameGen) 2 (remapBlockpyModuleFunctionIds genericModule ⟨7, 1⟩).moduleNameGen).map
        (·.functionId) = [.new 7 3, .new 7 4] ∧
      ∀ f ∈ (remapBlockpyModuleFunctionIds genericModule ⟨7, 1⟩).callableDefs,
        f.functionId ∉ [PackedFunctionId.new 7 3, .new 7 4] :=
  ⟨rfl, ((generators_fresh genericModule ⟨7, 1⟩).1 2 (by decide)).2⟩

end Soac.Cache
