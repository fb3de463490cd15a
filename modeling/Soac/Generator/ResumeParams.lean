import Soac.Generator.Binding

/-!
# Parameters of the resume body

The blocks of a resume body keep only the parameters that stand for an exception, an abrupt exit or a resume value.
`prune_term_target_args` drops the arguments of jumps to match, and finds the argument of a parameter at its index. The
arguments of an edge belong to the last parameters of its target, so this can be wrong where an edge passes only some.
-/

namespace Soac.Generator

open List

inductive GeneratorResumeParamRole where
  | selfValue
  | stateValue
  | sendValue
  | resumeExc
  | transportSent
deriving DecidableEq, Repr

def GeneratorResumeParamRole.forKind : FunctionKind → List GeneratorResumeParamRole
  | .function => []
  | .generator | .coroutine => [.selfValue, .stateValue, .sendValue, .resumeExc]
  | .asyncGenerator => [.selfValue, .stateValue, .sendValue, .resumeExc, .transportSent]

section

variable {I : Type} (resumeRole : BlockParam → GeneratorResumeParamRole) (kind : FunctionKind)

/-- The test of `generator_resume_declared_param_indices`; `resumeRole` tells resume parameters apart. -/
def declared (param : BlockParam) : Bool :=
  match param.role with
  | .exception | .enclosingException | .abruptKind | .abruptPayload | .enclosingAbruptPayload => true
  | .generatorResume => (GeneratorResumeParamRole.forKind kind).contains (resumeRole param)
  | .value => false

def generatorResumeDeclaredParamIndices (params : List BlockParam) : List Nat :=
  (params.zipIdx.filter fun (param, _) => declared resumeRole kind param).map Prod.snd

def generatorResumeDeclaredParams (params : List BlockParam) : List BlockParam :=
  (params.zipIdx.filter fun (_, index) => (generatorResumeDeclaredParamIndices resumeRole kind params).contains index).map
    Prod.fst

def pruneTermTargetArgs (blocks : List (Block I)) : BlockTerm I → BlockTerm I
  | .jump edge =>
    match blocks.find? (·.label = edge.target) with
    | none => .jump edge
    | some target =>
      if edge.args.isEmpty then .jump edge
      else
        let indices := generatorResumeDeclaredParamIndices resumeRole kind target.params
        .jump { edge with args := indices.filterMap (edge.args[·]?) }
  | term => term

/-- A jump of the function, with the block it goes to. -/
def JumpsTo (blocks : List (Block I)) (edge : BlockEdge) (target : Block I) : Prop :=
  (∃ b ∈ blocks, b.term = .jump edge) ∧ blocks.find? (·.label = edge.target) = some target

/-- After a jump of the resume body each parameter of its target receives the argument it received before, or its value
by name if it did before. -/
def ResumeEdgesAligned (blocks : List (Block I)) : Prop :=
  ∀ edge edge' target, JumpsTo blocks edge target → pruneTermTargetArgs resumeRole kind blocks (.jump edge) = .jump edge' →
    explicitParams (generatorResumeDeclaredParams resumeRole kind target.params) edge'.args =
        (explicitParams target.params edge.args).filter (declared resumeRole kind ·.1) ∧
      implicitParams (generatorResumeDeclaredParams resumeRole kind target.params) edge'.args =
        (implicitParams target.params edge.args).filter (declared resumeRole kind)

end

/-! ## Kept parameters -/

variable (keep : BlockParam → Bool) (params : List BlockParam) (args : List BlockArg)

/-- The arguments of the parameters that are kept. -/
def keptArgs (pairs : List (BlockParam × BlockArg)) : List BlockArg :=
  (pairs.filter (keep ·.1)).map Prod.snd

theorem filter_contains_indices : (params.zipIdx.filter fun (_, index) =>
    ((params.zipIdx.filter fun (param, _) => keep param).map Prod.snd).contains index).map Prod.fst =
      params.filter keep := by
  have hkept : ∀ p ∈ params.zipIdx,
      ((params.zipIdx.filter fun (param, _) => keep param).map Prod.snd).contains p.2 = keep p.1 := by
    intro p hp
    rw [Bool.eq_iff_iff, contains_iff_mem, mem_map]
    constructor
    · rintro ⟨q, hq, hpq⟩
      obtain ⟨hq, hkeep⟩ := mem_filter.mp hq
      have hget := mem_zipIdx_iff_getElem?.mp hq
      rw [hpq, mem_zipIdx_iff_getElem?.mp hp] at hget
      rw [Option.some.inj hget]
      exact hkeep
    · exact fun hkeep => ⟨p, mem_filter.mpr ⟨hp, hkeep⟩, rfl⟩
  rw [filter_congr hkept]
  nth_rewrite 2 [← zipIdx_map_fst 0 params]
  rw [filter_map]
  rfl

/-- The arguments at the indices of the parameters are those the parameters would have from the first on. -/
theorem filterMap_indices : ((params.zipIdx.filter fun (param, _) => keep param).map Prod.snd).filterMap (args[·]?) =
    keptArgs keep (params.zip args) := by
  have hdrop : ∀ n, (((params.zipIdx n).filter fun (param, _) => keep param).map Prod.snd).filterMap (args[·]?) =
      keptArgs keep (params.zip (args.drop n)) := by
    induction params with
    | nil => exact fun _ => rfl
    | cons p params ih =>
      intro n
      cases hn : args[n]? with
      | none =>
        have hlen := getElem?_eq_none_iff.mp hn
        have hnext := ih (n + 1)
        rw [drop_eq_nil_of_le (by omega)] at hnext ⊢
        cases hd : keep p <;> simp [hd, hn, hnext]
      | some a =>
        obtain ⟨hlt, rfl⟩ := List.getElem?_eq_some_iff.mp hn
        rw [drop_eq_getElem_cons hlt, zip_cons_cons]
        cases hd : keep p <;> simp [keptArgs, hd, ih (n + 1), hn]
  exact hdrop 0

/-- Arguments belong to the last of the kept parameters as they should exactly if they are the arguments of the kept among
the last parameters. -/
theorem aligned_iff {pruned : List BlockArg} (hlen : pruned.length ≤ (params.filter keep).length) :
    (explicitParams (params.filter keep) pruned = (explicitParams params args).filter (keep ·.1) ∧
      implicitParams (params.filter keep) pruned = (implicitParams params args).filter keep) ↔
      pruned = keptArgs keep (explicitParams params args) := by
  constructor
  · rintro ⟨hexplicit, -⟩
    rw [keptArgs, ← hexplicit, explicitParams, map_snd_zip]
    rw [length_drop]
    omega
  · rintro rfl
    have hfst : ((explicitParams params args).filter (keep ·.1)).map Prod.fst =
        (params.drop (params.length - args.length)).filter keep := by
      rw [← explicitParams_map_fst, filter_map]
      rfl
    have hsplit := filter_append (p := keep) (params.take (params.length - args.length))
      (params.drop (params.length - args.length))
    rw [take_append_drop] at hsplit
    have hlength : (params.filter keep).length - (keptArgs keep (explicitParams params args)).length =
        ((params.take (params.length - args.length)).filter keep).length := by
      rw [keptArgs, length_map, hsplit, length_append, ← hfst, length_map, Nat.add_sub_cancel]
    rw [explicitParams, implicitParams, hlength, hsplit, drop_left, take_left, ← hfst, keptArgs, zip_map']
    exact ⟨map_id _, rfl⟩

theorem length_keptArgs_le : (keptArgs keep (params.zip args)).length ≤ (params.filter keep).length := by
  have hlength := ((map_fst_zip_sublist params args).filter keep).length_le
  rw [filter_map, length_map] at hlength
  rwa [keptArgs, length_map]

variable {keep args} {ps qs : List BlockParam}

theorem keptArgs_cons {p : BlockParam} {a : BlockArg} : keptArgs keep ((p :: ps).zip (a :: args)) =
    if keep p then a :: keptArgs keep (ps.zip args) else keptArgs keep (ps.zip args) := by
  cases h : keep p <;> simp [keptArgs, h]

/-- The kept arguments depend on the parameters only by which of them are kept. -/
theorem keptArgs_congr (h : ∀ i < args.length, ps[i]?.map keep = qs[i]?.map keep) :
    keptArgs keep (ps.zip args) = keptArgs keep (qs.zip args) := by
  induction args generalizing ps qs with
  | nil => rw [zip_nil_right, zip_nil_right]
  | cons a args ih =>
    have hhead := h 0 (Nat.zero_lt_succ _)
    cases ps with
    | nil => cases qs with
      | nil => rfl
      | cons q qs => cases hhead
    | cons p ps => cases qs with
      | nil => cases hhead
      | cons q qs =>
        have hkeep : keep p = keep q := Option.some.inj hhead
        rw [keptArgs_cons, keptArgs_cons, hkeep, ih fun i hi => h (i + 1) (Nat.succ_lt_succ hi)]

theorem keptArgs_subset : keptArgs keep (ps.zip args) ⊆ args := by
  intro a ha
  obtain ⟨⟨_, _⟩, hp, rfl⟩ := mem_map.mp ha
  exact (of_mem_zip (mem_of_mem_filter hp)).2

/-- Distinct arguments tell which parameters are kept. -/
theorem kept_of_keptArgs_eq (hn : args.Nodup) (hps : args.length ≤ ps.length) (hqs : args.length ≤ qs.length)
    (h : keptArgs keep (ps.zip args) = keptArgs keep (qs.zip args)) :
    ∀ i < args.length, ps[i]?.map keep = qs[i]?.map keep := by
  induction args generalizing ps qs with
  | nil => exact fun i hi => absurd hi (Nat.not_lt_zero i)
  | cons a args ih =>
    obtain ⟨hnew, hn⟩ := nodup_cons.mp hn
    obtain ⟨p, ps, rfl⟩ := exists_cons_of_length_pos (Nat.zero_lt_of_lt hps)
    obtain ⟨q, qs, rfl⟩ := exists_cons_of_length_pos (Nat.zero_lt_of_lt hqs)
    have hstep : keep p = keep q ∧ keptArgs keep (ps.zip args) = keptArgs keep (qs.zip args) := by
      have hfresh : ∀ rs : List BlockParam, a ∉ keptArgs keep (rs.zip args) := fun _ ha => hnew (keptArgs_subset ha)
      rw [keptArgs_cons, keptArgs_cons] at h
      cases hkp : keep p <;> cases hkq : keep q <;> simp only [hkp, hkq, Bool.false_eq_true, if_true, if_false] at h
      · exact ⟨rfl, h⟩
      · exact absurd (h ▸ mem_cons_self) (hfresh ps)
      · exact absurd (h ▸ mem_cons_self) (hfresh qs)
      · exact ⟨rfl, (cons.inj h).2⟩
    intro i hi
    cases i with
    | zero => exact congrArg some hstep.1
    | succ i => exact ih hn (Nat.le_of_succ_le_succ hps) (Nat.le_of_succ_le_succ hqs) hstep.2 i (Nat.lt_of_succ_lt_succ hi)

/-- What the arguments need of the parameters they are passed to: of a parameter that has an argument, and the one as many
places from the first, both are kept or both dropped. -/
def KeptTogether (keep : BlockParam → Bool) (params : List BlockParam) (count : Nat) : Prop :=
  ∀ i < count, params[i]?.map keep = params[params.length - count + i]?.map keep

theorem KeptTogether.keptArgs_eq (h : KeptTogether keep params args.length) :
    keptArgs keep (params.zip args) = keptArgs keep (explicitParams params args) := by
  refine keptArgs_congr fun i hi => ?_
  rw [h i hi, getElem?_drop]

theorem keptTogether_of_keptArgs_eq (hn : args.Nodup)
    (h : keptArgs keep (params.zip args) = keptArgs keep (explicitParams params args)) :
    KeptTogether keep params args.length := by
  simp only [KeptTogether, ← getElem?_drop]
  rcases Nat.le_total args.length params.length with hle | hle
  · refine kept_of_keptArgs_eq hn hle ?_ h
    rw [length_drop]
    omega
  · intro i _
    rw [Nat.sub_eq_zero_of_le hle, drop_zero]

variable {I : Type} (resumeRole : BlockParam → GeneratorResumeParamRole) (kind : FunctionKind) (blocks : List (Block I))

/-- The pruned jump passes the arguments that stand at the indices of the kept parameters. -/
theorem pruneTermTargetArgs_jump {edge : BlockEdge} {target : Block I} (hjump : JumpsTo blocks edge target) :
    pruneTermTargetArgs resumeRole kind blocks (.jump edge) =
      .jump { edge with args := keptArgs (declared resumeRole kind) (target.params.zip edge.args) } := by
  obtain ⟨label, args⟩ := edge
  rw [pruneTermTargetArgs, hjump.2]
  dsimp only
  rw [generatorResumeDeclaredParamIndices, filterMap_indices]
  cases args with
  | nil => rw [zip_nil_right]; rfl
  | cons a args => rfl

/-- A jump with `k` arguments to a block with `n` parameters is aligned if for each of the first `k` parameters, it and the
one `n - k` places behind it are both kept or both dropped. Where the arguments are distinct this is needed too. -/
theorem resumeEdgesAligned_iff :
    ((∀ edge target, JumpsTo blocks edge target →
        KeptTogether (declared resumeRole kind) target.params edge.args.length) →
      ResumeEdgesAligned resumeRole kind blocks) ∧
    ((∀ edge target, JumpsTo blocks edge target → edge.args.Nodup) → ResumeEdgesAligned resumeRole kind blocks →
      ∀ edge target, JumpsTo blocks edge target →
        KeptTogether (declared resumeRole kind) target.params edge.args.length) := by
  have haligned : ResumeEdgesAligned resumeRole kind blocks ↔ ∀ edge target, JumpsTo blocks edge target →
      keptArgs (declared resumeRole kind) (target.params.zip edge.args) =
        keptArgs (declared resumeRole kind) (explicitParams target.params edge.args) := by
    simp only [ResumeEdgesAligned, generatorResumeDeclaredParams, generatorResumeDeclaredParamIndices,
      filter_contains_indices]
    refine forall_congr' fun edge => ⟨fun h target hjump => ?_, fun h edge' target hjump hedge => ?_⟩
    · have hprune := pruneTermTargetArgs_jump resumeRole kind blocks hjump
      exact (aligned_iff _ _ _ (length_keptArgs_le ..)).mp (h _ target hjump hprune)
    · rw [pruneTermTargetArgs_jump resumeRole kind blocks hjump] at hedge
      cases hedge
      exact (aligned_iff _ _ _ (length_keptArgs_le ..)).mpr (h target hjump)
  rw [haligned]
  refine ⟨fun h edge target hjump => (h edge target hjump).keptArgs_eq, fun hn h edge target hjump => ?_⟩
  exact keptTogether_of_keptArgs_eq _ (hn edge target hjump) (h edge target hjump)

/-- Two exceptions passed to the last two of four parameters, of which every other one is kept. -/
theorem resumeEdgesAligned_alternating : ResumeEdgesAligned (fun _ => .selfValue) .generator
    [{ label := 0, body := ([] : List Unit), term := .jump ⟨1, [.none, .currentException]⟩ },
      { label := 1, params := [⟨"x", .value⟩, ⟨"exc", .exception⟩, ⟨"y", .value⟩, ⟨"outer", .enclosingException⟩]
        body := [], term := .ret () }] := by
  refine (resumeEdgesAligned_iff _ _ _).1 ?_
  rintro edge target ⟨⟨b, hb, hterm⟩, hfind⟩
  have hedge : edge = ⟨1, [.none, .currentException]⟩ := by
    simp only [mem_cons, not_mem_nil, or_false] at hb
    rcases hb with rfl | rfl <;> cases hterm
    rfl
  subst hedge
  cases hfind
  unfold KeptTogether
  decide

/-- A jump that passes an exception to the last of two parameters, of which the first is dropped, loses it. -/
theorem resumeEdgesAligned_false : ¬ResumeEdgesAligned (fun _ => .selfValue) .generator
    [{ label := 0, body := ([] : List Unit), term := .jump ⟨1, [.currentException]⟩ },
      { label := 1, params := [⟨"x", .value⟩, ⟨"exc", .exception⟩], body := [], term := .ret () }] := by
  intro h
  have hexplicit := (h ⟨1, [.currentException]⟩ _ _ ⟨⟨_, mem_cons_self, rfl⟩, rfl⟩ rfl).1
  exact absurd hexplicit (by decide)

end Soac.Generator
