import Soac.Contracts.Validate
import Soac.Theorems.Suppression

/-!
# Normal forms of static types

Normalization splices nested unions into one and sorts their members: no member of a normal form is a union itself.
-/

namespace Soac.Contracts

open Fallible List

/-! ## Members -/

/-- No member is a union itself. -/
structure Flat (t : StaticType) : Prop where
  nonempty : t.members ≠ []
  single : ∀ u ∈ t.members, u.members = [u]

variable {t : StaticType} {ts : List StaticType}

theorem flat_of_single (h : t.members = [t]) : Flat t := by
  constructor
  · rw [h]
    nofun
  · intro u hu
    rw [h, mem_singleton] at hu
    rw [hu, h]

theorem normalizedUnion_cases (ts : List StaticType) :
    (∃ t, collectSet (ts.flatMap StaticType.members) = [t] ∧ normalizedUnion ts = t) ∨
      normalizedUnion ts = .union (collectSet (ts.flatMap StaticType.members)) := by
  unfold normalizedUnion
  split
  · next t h => exact .inl ⟨t, h, rfl⟩
  · exact .inr rfl

theorem members_normalizedUnion (hflat : ∀ t ∈ ts, Flat t) :
    (normalizedUnion ts).members = collectSet (ts.flatMap StaticType.members) := by
  rcases normalizedUnion_cases ts with ⟨t, hset, ht⟩ | hunion
  · have hmem : t ∈ collectSet (ts.flatMap StaticType.members) := by
      rw [hset]
      exact mem_singleton_self t
    obtain ⟨s, hs, hts⟩ := mem_flatMap.mp (mem_collectSet.mp hmem)
    rw [ht, hset, (hflat s hs).single t hts]
  · rw [hunion]
    rfl

theorem mem_members_normalizedUnion (hflat : ∀ t ∈ ts, Flat t) {u : StaticType} :
    u ∈ (normalizedUnion ts).members ↔ ∃ t ∈ ts, u ∈ t.members := by
  rw [members_normalizedUnion hflat, mem_collectSet, mem_flatMap]

theorem flat_normalizedUnion (hflat : ∀ t ∈ ts, Flat t) (hne : ts ≠ []) : Flat (normalizedUnion ts) := by
  constructor
  · obtain ⟨t, ht⟩ := exists_mem_of_ne_nil ts hne
    obtain ⟨u, hu⟩ := exists_mem_of_ne_nil _ (hflat t ht).nonempty
    exact ne_nil_of_mem ((mem_members_normalizedUnion hflat).mpr ⟨t, ht, hu⟩)
  · intro u hu
    obtain ⟨t, ht, hut⟩ := (mem_members_normalizedUnion hflat).mp hu
    exact (hflat t ht).single u hut

theorem flat_none : Flat .none :=
  flat_of_single rfl

/-! ## Induction over static types -/

/-- The types that are not built from others. -/
def StaticType.isLeaf : StaticType → Bool
  | .union _ | .optional _ | .callable _ | .typeVariable _ => false
  | _ => true

def DefaultFact.types {T : Type} : DefaultFact T → List T
  | .value t _ | .factory _ t => [t]
  | .missing | .unknown => []

def ParameterTypeFact.types {T : Type} (p : ParameterTypeFact T) : List T :=
  p.valueType :: p.default.types

def CallableSignature.types {T : Type} (s : CallableSignature T) : List T :=
  s.returnType :: s.parameters.flatMap ParameterTypeFact.types

def TypeVariableFact.types {T : Type} (v : TypeVariableFact T) : List T :=
  v.upperBound.toList ++ v.constraints

section

set_option linter.unusedSectionVars false

variable {P : StaticType → Prop} (leaf : ∀ t, t.isLeaf → P t) (union : ∀ ts, (∀ t ∈ ts, P t) → P (.union ts))
  (optional : ∀ t, P t → P (.optional t)) (callable : ∀ s, (∀ t ∈ s.types, P t) → P (.callable s))
  (typeVariable : ∀ v, (∀ t ∈ v.types, P t) → P (.typeVariable v))

include leaf union optional callable typeVariable

mutual

/-- A property of types that holds when it holds of all types they are built from. -/
theorem StaticType.induction : ∀ t : StaticType, P t
  | .union ts => union ts (typesInduction ts)
  | .optional t => optional t (StaticType.induction t)
  | .callable ⟨parameters, result, origin, uncertainty⟩ => callable ⟨parameters, result, origin, uncertainty⟩
      (forall_mem_cons.mpr ⟨StaticType.induction result, parametersInduction parameters⟩)
  | .typeVariable ⟨id, bound, constraints⟩ => typeVariable ⟨id, bound, constraints⟩
      (forall_mem_append.mpr ⟨boundInduction bound, typesInduction constraints⟩)
  | .none | .exactBuiltin _ | .nominalBuiltin _ _ | .numericWidening _ _ | .nominalClass _ | .exactClass _ | .literal _
  | .structuralProtocol _ | .any | .unknown | .todo | .divergent | .unsupported _ _ => leaf _ rfl

theorem typesInduction : ∀ ts : List StaticType, ∀ t ∈ ts, P t
  | [] => by nofun
  | t :: ts => forall_mem_cons.mpr ⟨StaticType.induction t, typesInduction ts⟩

theorem boundInduction : ∀ (bound : Option StaticType), ∀ t ∈ bound.toList, P t
  | none => by nofun
  | some t => forall_mem_cons.mpr ⟨StaticType.induction t, nofun⟩

theorem parametersInduction : ∀ (ps : List (ParameterTypeFact StaticType)), ∀ t ∈ ps.flatMap ParameterTypeFact.types, P t
  | [] => by nofun
  | p :: ps => by
    rw [flatMap_cons]
    exact forall_mem_append.mpr ⟨parameterInduction p, parametersInduction ps⟩

theorem parameterInduction : ∀ (p : ParameterTypeFact StaticType), ∀ t ∈ p.types, P t
  | ⟨_, _, valueType, _, default⟩ => forall_mem_cons.mpr ⟨StaticType.induction valueType, defaultInduction default⟩

theorem defaultInduction : ∀ (d : DefaultFact StaticType), ∀ t ∈ d.types, P t
  | .missing => by nofun
  | .unknown => by nofun
  | .value t _ => forall_mem_cons.mpr ⟨StaticType.induction t, nofun⟩
  | .factory _ t => forall_mem_cons.mpr ⟨StaticType.induction t, nofun⟩

end

end

/-! ## What normalization does -/

/-- A check of the depth in front of a computation. -/
theorem depth_eq_ok {α : Type} {x : Except ContractError α} {a : α}
    (h : (if 64 < depth then .error tooDeep else x) = .ok a) : x = .ok a := by
  split at h
  · cases h
  · exact h

theorem normalize_union (h : (StaticType.union ts).normalizeAtDepth depth = .ok t') :
    ts ≠ [] ∧ ∃ ts', normalizeTypes ts (depth + 1) = .ok ts' ∧ t' = normalizedUnion ts' := by
  have h := depth_eq_ok h
  split at h
  · cases h
  · next hne =>
    obtain ⟨ts', hts, h⟩ := bind_eq_ok.mp h
    cases h
    exact ⟨fun hnil => hne (by rw [hnil]; rfl), ts', hts, rfl⟩

theorem normalize_optional (h : (StaticType.optional t).normalizeAtDepth depth = .ok t') :
    ∃ s, t.normalizeAtDepth (depth + 2) = .ok s ∧ t' = normalizedUnion [s, .none] := by
  obtain ⟨s, hs, h⟩ := bind_eq_ok.mp (depth_eq_ok (depth_eq_ok h))
  cases h
  exact ⟨s, hs, rfl⟩

theorem normalize_callable {s : CallableSignature StaticType}
    (h : (StaticType.callable s).normalizeAtDepth depth = .ok t') :
    ∃ s', normalizeSignature s (depth + 1) = .ok s' ∧ t' = .callable s' := by
  obtain ⟨s', hs, h⟩ := bind_eq_ok.mp (depth_eq_ok h)
  cases h
  exact ⟨s', hs, rfl⟩

theorem normalize_typeVariable {v : TypeVariableFact StaticType}
    (h : (StaticType.typeVariable v).normalizeAtDepth depth = .ok t') :
    ∃ v', normalizeTypeVariable v (depth + 1) = .ok v' ∧ t' = .typeVariable v' := by
  obtain ⟨v', hv, h⟩ := bind_eq_ok.mp (depth_eq_ok h)
  cases h
  exact ⟨v', hv, rfl⟩

/-- A type that is not built from others stays, but for the literal `None`. -/
theorem normalize_leaf (hleaf : t.isLeaf)
    (h : t.normalizeAtDepth depth = .ok t') : t' = t ∨ (t = .literal .none ∧ t' = .none) := by
  cases t with
  | union ts | optional t | callable s | typeVariable v => cases hleaf
  | literal value =>
    cases value with
    | none =>
      cases depth_eq_ok h
      exact .inr ⟨rfl, rfl⟩
    | bool b | int digits | floatBits bits | str s | bytes s => exact .inl (Except.ok.inj (depth_eq_ok h)).symm
  | _ => exact .inl (Except.ok.inj (depth_eq_ok h)).symm

/-! ## Induction over normalization -/

theorem normalizeTypes_eq_ok_iff {ts' : List StaticType} :
    normalizeTypes ts depth = .ok ts' ↔ List.Forall₂ (fun t t' => t.normalizeAtDepth depth = .ok t') ts ts' := by
  have hmapM : normalizeTypes ts depth = ts.mapM (·.normalizeAtDepth depth) := by
    induction ts with
    | nil => rfl
    | cons t ts ih => rw [normalizeTypes, List.mapM_cons, ih]
  rw [hmapM, mapM_eq_ok_iff]

theorem flat_of_normalize (t : StaticType) (h : t.normalizeAtDepth depth = .ok t') : Flat t' := by
  induction t using StaticType.induction generalizing depth t' with
  | leaf t hleaf =>
    rcases normalize_leaf hleaf h with rfl | ⟨_, rfl⟩
    · refine flat_of_single ?_
      cases t' with
      | union ts => cases hleaf
      | _ => rfl
    · exact flat_none
  | union ts ih =>
    obtain ⟨hne, ts', hts, rfl⟩ := normalize_union h
    have hall := normalizeTypes_eq_ok_iff.mp hts
    refine flat_normalizedUnion ?_ ?_
    · intro t' ht'
      obtain ⟨t, ht, hnorm⟩ := forall₂_mem_right hall ht'
      exact ih t ht hnorm
    · rintro rfl
      exact hne (List.forall₂_nil_right_iff.mp hall)
  | optional t ih =>
    obtain ⟨s, hs, rfl⟩ := normalize_optional h
    refine flat_normalizedUnion (forall_mem_cons.mpr ⟨ih hs, ?_⟩) nofun
    exact forall_mem_cons.mpr ⟨flat_none, nofun⟩
  | callable s =>
    obtain ⟨s', _, rfl⟩ := normalize_callable h
    exact flat_of_single rfl
  | typeVariable v =>
    obtain ⟨v', _, rfl⟩ := normalize_typeVariable h
    exact flat_of_single rfl

end Soac.Contracts
