import Soac.Contracts.NormalForm

/-!
# Normal forms are stable

A normal form is its own normal form, at the depth where it was computed and at every smaller one. A normal form may be
less deep than the type it comes from, since unions inside unions are spliced in; so depths only get smaller.
-/

namespace Soac.Contracts

open Fallible List StaticType

/-! ## Static types -/

variable {t : StaticType} {depth n : Nat} {ts ts' : List StaticType}

theorem depth_le_of_normalize {t' : StaticType} (h : t.normalizeAtDepth depth = .ok t') : depth ≤ 64 := by
  by_contra hdeep
  have herror : t.normalizeAtDepth depth = .error tooDeep := by
    cases t with
    | literal value => cases value <;> exact if_pos (Nat.not_le.mp hdeep)
    | _ => exact if_pos (Nat.not_le.mp hdeep)
  rw [herror] at h
  cases h

/-- A type and its normal form: the same at all smaller depths, and the normal form and its members stay. -/
structure Settled (n : Nat) (t t' : StaticType) : Prop where
  again : ∀ m ≤ n, t.normalizeAtDepth m = .ok t'
  stable : ∀ m ≤ n, t'.normalizeAtDepth m = .ok t'
  members : ∀ m ≤ n, ∀ u ∈ t'.members, u.normalizeAtDepth m = .ok u

/-- What normalization does to a type is settled, at whatever depth it succeeds. -/
def Settles (t : StaticType) : Prop :=
  ∀ n t', t.normalizeAtDepth n = .ok t' → Settled n t t'

theorem settled_of_single {t' : StaticType} (hsingle : t'.members = [t'])
    (hagain : ∀ m ≤ n, t.normalizeAtDepth m = .ok t') (hstable : ∀ m ≤ n, t'.normalizeAtDepth m = .ok t') :
    Settled n t t' := by
  refine ⟨hagain, hstable, fun m hm u hu => ?_⟩
  rw [hsingle, mem_singleton] at hu
  exact hu ▸ hstable m hm

theorem normalize_leaf_self (hleaf : t.isLeaf = true) (hne : t ≠ .literal .none)
    (hdepth : depth ≤ 64) : t.normalizeAtDepth depth = .ok t := by
  have hshallow : ¬ 64 < depth := Nat.not_lt.mpr hdepth
  cases t with
  | union ts | optional t | callable s | typeVariable v => cases hleaf
  | literal value =>
    cases value with
    | none => exact absurd rfl hne
    | _ => exact if_neg hshallow
  | _ => exact if_neg hshallow

theorem normalize_noneLiteral (hdepth : depth ≤ 64) : (literal .none).normalizeAtDepth depth = .ok .none :=
  if_neg (Nat.not_lt.mpr hdepth)

theorem normalizeTypes_self (h : ∀ t ∈ ts, t.normalizeAtDepth depth = .ok t) : normalizeTypes ts depth = .ok ts :=
  normalizeTypes_eq_ok_iff.mpr (List.forall₂_same.mpr h)

theorem normalize_union_of (hdepth : depth ≤ 64) (hne : ts ≠ []) (h : normalizeTypes ts (depth + 1) = .ok ts') :
    (union ts).normalizeAtDepth depth = .ok (normalizedUnion ts') := by
  rw [normalizeAtDepth, if_neg (Nat.not_lt.mpr hdepth), if_neg (by simpa using hne), h]
  rfl

/-- The members of a set of types that are no unions are the types. -/
theorem flatMap_members (h : ∀ t ∈ ts, t.members = [t]) : ts.flatMap members = ts := by
  induction ts with
  | nil => rfl
  | cons t ts ih =>
    rw [forall_mem_cons] at h
    rw [flatMap_cons, h.1, ih h.2]
    rfl

/-- The union of normal forms stays when their members do, one level down. -/
theorem normalizedUnion_stable (hflat : ∀ t ∈ ts, Flat t) (hne : ts ≠ [])
    (hdepth : depth ≤ 64) (hmembers : ∀ m ≤ depth + 1, ∀ t ∈ ts, ∀ u ∈ t.members, u.normalizeAtDepth m = .ok u) :
    (normalizedUnion ts).normalizeAtDepth depth = .ok (normalizedUnion ts) := by
  have hall : ∀ m ≤ depth + 1, ∀ u ∈ (normalizedUnion ts).members, u.normalizeAtDepth m = .ok u := by
    intro m hm u hu
    obtain ⟨t, ht, hut⟩ := (mem_members_normalizedUnion hflat).mp hu
    exact hmembers m hm t ht u hut
  have hunionFlat := flat_normalizedUnion hflat hne
  rcases normalizedUnion_cases ts with ⟨t, hset, ht⟩ | hunion
  · refine hall depth (Nat.le_succ depth) _ ?_
    rw [members_normalizedUnion hflat, hset, ht]
    exact mem_singleton_self t
  · -- The elements of the union are a set already, and none of them is a union.
    have hset : (normalizedUnion ts).members = collectSet (ts.flatMap members) := members_normalizedUnion hflat
    have hself : normalizedUnion (collectSet (ts.flatMap members)) = normalizedUnion ts := by
      have hsingle := hunionFlat.single
      rw [hset] at hsingle
      unfold normalizedUnion
      rw [flatMap_members hsingle, collectSet_collectSet]
    rw [← hset] at hself
    have hstep := normalize_union_of hdepth hunionFlat.nonempty (normalizeTypes_self (hall (depth + 1) (Nat.le_refl _)))
    rw [hself] at hstep
    rw [← hset] at hunion
    rw [← hunion] at hstep
    exact hstep

theorem settled_normalizedUnion (hflat : ∀ t ∈ ts, Flat t)
    (hne : ts ≠ []) (hn : n ≤ 64) (hagain : ∀ m ≤ n, t.normalizeAtDepth m = .ok (normalizedUnion ts))
    (hmembers : ∀ m ≤ n + 1, ∀ t ∈ ts, ∀ u ∈ t.members, u.normalizeAtDepth m = .ok u) :
    Settled n t (normalizedUnion ts) := by
  refine ⟨hagain, ?_, ?_⟩
  · intro m hm
    exact normalizedUnion_stable hflat hne (hm.trans hn) fun k hk => hmembers k (hk.trans (Nat.succ_le_succ hm))
  · intro m hm u hu
    obtain ⟨t, ht, hut⟩ := (mem_members_normalizedUnion hflat).mp hu
    exact hmembers m (hm.trans (Nat.le_succ n)) t ht u hut

/-! ## What is built from types -/

theorem normalizeDefault_settled {d d' : DefaultFact StaticType} (hsettles : ∀ t ∈ d.types, Settles t)
    (h : normalizeDefault d n = .ok d') : ∀ m ≤ n, normalizeDefault d m = .ok d' ∧ normalizeDefault d' m = .ok d' := by
  intro m hm
  cases d with
  | missing | unknown =>
    cases h
    exact ⟨rfl, rfl⟩
  | value t literal | factory implementation t =>
    obtain ⟨t', ht, h⟩ := bind_eq_ok.mp h
    cases h
    have hsettled := hsettles t (mem_singleton_self t) _ t' ht
    constructor
    · rw [normalizeDefault, hsettled.again (m + 1) (Nat.succ_le_succ hm)]
      rfl
    · rw [normalizeDefault, hsettled.stable (m + 1) (Nat.succ_le_succ hm)]
      rfl

theorem normalizeParameter_settled {p p' : ParameterTypeFact StaticType} (hsettles : ∀ t ∈ p.types, Settles t)
    (h : normalizeParameter p n = .ok p') :
    ∀ m ≤ n, normalizeParameter p m = .ok p' ∧ normalizeParameter p' m = .ok p' := by
  intro m hm
  rcases p with ⟨name, kind, valueType, origin, default⟩
  obtain ⟨valueType', hvalue, h⟩ := bind_eq_ok.mp h
  obtain ⟨default', hdefault, h⟩ := bind_eq_ok.mp h
  cases h
  have htypes := forall_mem_cons.mp hsettles
  have hsettled := htypes.1 _ _ hvalue
  have hdefaults := normalizeDefault_settled htypes.2 hdefault m hm
  constructor
  · rw [normalizeParameter, hsettled.again m hm, hdefaults.1]
    rfl
  · rw [normalizeParameter, hsettled.stable m hm, hdefaults.2]
    rfl

theorem normalizeParameters_settled {ps ps' : List (ParameterTypeFact StaticType)}
    (hsettles : ∀ t ∈ ps.flatMap ParameterTypeFact.types, Settles t) (h : normalizeParameters ps n = .ok ps') :
    ∀ m ≤ n, normalizeParameters ps m = .ok ps' ∧ normalizeParameters ps' m = .ok ps' := by
  intro m hm
  induction ps generalizing ps' with
  | nil =>
    cases h
    exact ⟨rfl, rfl⟩
  | cons p ps ih =>
    rw [flatMap_cons, forall_mem_append] at hsettles
    obtain ⟨p', hp, h⟩ := bind_eq_ok.mp h
    obtain ⟨ps', hps, h⟩ := bind_eq_ok.mp h
    cases h
    have hhead := normalizeParameter_settled hsettles.1 hp m hm
    have htail := ih hsettles.2 hps
    constructor
    · rw [normalizeParameters, hhead.1, htail.1]
      rfl
    · rw [normalizeParameters, hhead.2, htail.2]
      rfl

theorem normalizeSignature_settled {s s' : CallableSignature StaticType} (hsettles : ∀ t ∈ s.types, Settles t)
    (h : normalizeSignature s n = .ok s') :
    ∀ m ≤ n, normalizeSignature s m = .ok s' ∧ normalizeSignature s' m = .ok s' := by
  intro m hm
  rcases s with ⟨parameters, result, origin, uncertainty⟩
  obtain ⟨result', hresult, h⟩ := bind_eq_ok.mp h
  obtain ⟨parameters', hparameters, h⟩ := bind_eq_ok.mp h
  cases h
  have htypes := forall_mem_cons.mp hsettles
  have hsettled := htypes.1 _ _ hresult
  have hall := normalizeParameters_settled htypes.2 hparameters (m + 1) (Nat.succ_le_succ hm)
  constructor
  · rw [normalizeSignature, hsettled.again (m + 1) (Nat.succ_le_succ hm), hall.1]
    rfl
  · rw [normalizeSignature, hsettled.stable (m + 1) (Nat.succ_le_succ hm), hall.2]
    rfl

theorem normalizeBound_settled {b b' : Option StaticType} (hsettles : ∀ t ∈ b.toList, Settles t)
    (h : normalizeBound b n = .ok b') : ∀ m ≤ n, normalizeBound b m = .ok b' ∧ normalizeBound b' m = .ok b' := by
  intro m hm
  cases b with
  | none =>
    cases h
    exact ⟨rfl, rfl⟩
  | some t =>
    obtain ⟨t', ht, h⟩ := bind_eq_ok.mp h
    cases h
    have hsettled := hsettles t (mem_singleton_self t) _ t' ht
    constructor
    · rw [normalizeBound, hsettled.again m hm]
      rfl
    · rw [normalizeBound, hsettled.stable m hm]
      rfl

theorem forall₂_settled (hsettles : ∀ t ∈ ts, Settles t)
    (h : normalizeTypes ts n = .ok ts') : List.Forall₂ (Settled n) ts ts' := by
  have hall := normalizeTypes_eq_ok_iff.mp h
  refine List.forall₂_iff_zip.mpr ⟨hall.length_eq, fun hmem => ?_⟩
  exact hsettles _ (of_mem_zip hmem).1 _ _ ((List.forall₂_iff_zip.mp hall).2 hmem)

theorem normalizeTypeVariable_settled {v v' : TypeVariableFact StaticType} (hsettles : ∀ t ∈ v.types, Settles t)
    (h : normalizeTypeVariable v n = .ok v') :
    ∀ m ≤ n, normalizeTypeVariable v m = .ok v' ∧ normalizeTypeVariable v' m = .ok v' := by
  intro m hm
  rcases v with ⟨id, bound, constraints⟩
  obtain ⟨bound', hbound, h⟩ := bind_eq_ok.mp h
  obtain ⟨constraints', hconstraints, h⟩ := bind_eq_ok.mp h
  cases h
  have htypes := forall_mem_append.mp hsettles
  have hbounds := normalizeBound_settled htypes.1 hbound m hm
  have hall := forall₂_settled htypes.2 hconstraints
  constructor
  · have hagain : normalizeTypes constraints m = .ok constraints' :=
      normalizeTypes_eq_ok_iff.mpr (hall.imp fun _ _ hsettled => hsettled.again m hm)
    rw [normalizeTypeVariable, hbounds.1, hagain]
    rfl
  · have hstable : normalizeTypes (collectSet constraints') m = .ok (collectSet constraints') := by
      refine normalizeTypes_self fun t ht => ?_
      obtain ⟨_, _, hsettled⟩ := forall₂_mem_right hall (mem_collectSet.mp ht)
      exact hsettled.stable m hm
    rw [normalizeTypeVariable, hbounds.2, ok_bind, hstable, ok_bind, collectSet_collectSet]
    rfl

theorem settles (t : StaticType) : Settles t := by
  induction t using induction with
  | leaf t hleaf =>
    intro n t' h
    have hn := depth_le_of_normalize h
    rcases normalize_leaf hleaf h with rfl | ⟨rfl, rfl⟩
    · have hne : t' ≠ .literal .none := by
        rintro rfl
        rw [normalize_noneLiteral hn] at h
        cases h
      have hself : ∀ m ≤ n, t'.normalizeAtDepth m = .ok t' := fun m hm => normalize_leaf_self hleaf hne (hm.trans hn)
      refine settled_of_single ?_ hself hself
      cases t' with
      | union ts => cases hleaf
      | _ => rfl
    · exact settled_of_single rfl (fun m hm => normalize_noneLiteral (hm.trans hn))
        fun m hm => normalize_leaf_self rfl nofun (hm.trans hn)
  | union ts ih =>
    intro n t' h
    have hn := depth_le_of_normalize h
    obtain ⟨hne, ts', hts, rfl⟩ := normalize_union h
    have hall := forall₂_settled ih hts
    refine settled_normalizedUnion ?_ ?_ hn ?_ ?_
    · intro t' ht'
      obtain ⟨t, _, hnorm⟩ := forall₂_mem_right (normalizeTypes_eq_ok_iff.mp hts) ht'
      exact flat_of_normalize t hnorm
    · rintro rfl
      exact hne (List.forall₂_nil_right_iff.mp hall)
    · intro m hm
      refine normalize_union_of (hm.trans hn) hne (normalizeTypes_eq_ok_iff.mpr ?_)
      exact hall.imp fun _ _ hsettled => hsettled.again (m + 1) (Nat.succ_le_succ hm)
    · intro m hm t' ht' u hu
      obtain ⟨_, _, hsettled⟩ := forall₂_mem_right hall ht'
      exact hsettled.members m hm u hu
  | optional t ih =>
    intro n t' h
    have hn := depth_le_of_normalize h
    obtain ⟨s, hs, rfl⟩ := normalize_optional h
    have hsettled := ih _ _ hs
    have hdeep := depth_le_of_normalize hs
    refine settled_normalizedUnion ?_ nofun hn ?_ ?_
    · exact forall_mem_cons.mpr ⟨flat_of_normalize t hs, forall_mem_cons.mpr ⟨flat_none, forall_mem_nil _⟩⟩
    · intro m hm
      rw [normalizeAtDepth, if_neg (by omega), if_neg (by omega), hsettled.again (m + 2) (by omega)]
      rfl
    · intro m hm u hu v hv
      rw [mem_cons, mem_singleton] at hu
      rcases hu with rfl | rfl
      · exact hsettled.members m (by omega) v hv
      · rw [mem_singleton.mp hv]
        exact normalize_leaf_self rfl nofun (by omega)
  | callable s ih =>
    intro n t' h
    have hn := depth_le_of_normalize h
    obtain ⟨s', hs, rfl⟩ := normalize_callable h
    have hall := normalizeSignature_settled ih hs
    refine settled_of_single rfl ?_ ?_
    · intro m hm
      rw [normalizeAtDepth, if_neg (by omega), (hall (m + 1) (by omega)).1]
      rfl
    · intro m hm
      rw [normalizeAtDepth, if_neg (by omega), (hall (m + 1) (by omega)).2]
      rfl
  | typeVariable v ih =>
    intro n t' h
    have hn := depth_le_of_normalize h
    obtain ⟨v', hv, rfl⟩ := normalize_typeVariable h
    have hall := normalizeTypeVariable_settled ih hv
    refine settled_of_single rfl ?_ ?_
    · intro m hm
      rw [normalizeAtDepth, if_neg (by omega), (hall (m + 1) (by omega)).1]
      rfl
    · intro m hm
      rw [normalizeAtDepth, if_neg (by omega), (hall (m + 1) (by omega)).2]
      rfl

end Soac.Contracts
