import Soac.Contracts.Artifact
import Soac.Contracts.Stable

/-!
# The canonical form of a module is a normal form

Canonicalization leaves its own results as they are: the catalogs are sorted, the types are in normal form, and the demotion
of the suppressed regions keeps both and finds nothing left to demote.
-/

namespace Soac.Contracts

open Fallible List Function IgnoredDefinitions StaticType Checks ContractError Crates

/-! ## Normal records -/

/-- Normalizing a normal type changes nothing. -/
theorem StaticType.normalized_stable {t t' : StaticType} (h : t.normalized = .ok t') : t'.normalized = .ok t' :=
  (settles t 0 t' h).stable 0 (Nat.le_refl 0)

/-- The same of an optional type. -/
theorem normalizeBound_stable {b b' : Option StaticType} {n : Nat} (h : normalizeBound b n = .ok b') :
    normalizeBound b' n = .ok b' :=
  (normalizeBound_settled (fun t _ => settles t) h n (Nat.le_refl n)).2

/-- The same of a signature. -/
theorem normalizeSignature_stable {s s' : CallableSignature StaticType} {n : Nat} (h : normalizeSignature s n = .ok s') :
    normalizeSignature s' n = .ok s' :=
  (normalizeSignature_settled (fun t _ => settles t) h n (Nat.le_refl n)).2

/-- Normalization of a descriptor normalizes its type and nothing else. -/
theorem DescriptorFact.normalize_eq_ok {d d' : DescriptorFact} : d.normalize = .ok d' ↔
    normalizeBound d.descriptorType 0 = .ok d'.descriptorType ∧ d' = { d with descriptorType := d'.descriptorType } :=
  build_eq_ok fun _ => rfl

/-- A normalized descriptor is normal. -/
theorem DescriptorFact.normalize_stable {d d' : DescriptorFact} (h : d.normalize = .ok d') : d'.normalize = .ok d' :=
  normalize_eq_ok.mpr ⟨normalizeBound_stable (normalize_eq_ok.mp h).1, rfl⟩

theorem GlobalBindingFact.normalize_eq_ok {b b' : GlobalBindingFact} : b.normalize = .ok b' ↔
    b.valueType.normalized = .ok b'.valueType ∧ b' = { b with valueType := b'.valueType } :=
  build_eq_ok fun _ => rfl

/-- A normalized binding is normal and keeps its name, by which the catalog is sorted. -/
theorem GlobalBindingFact.normalize_stable {b b' : GlobalBindingFact} (h : b.normalize = .ok b') :
    b'.name = b.name ∧ b'.normalize = .ok b' := by
  obtain ⟨htype, heq⟩ := normalize_eq_ok.mp h
  exact ⟨congrArg (·.name) heq, normalize_eq_ok.mpr ⟨normalized_stable htype, rfl⟩⟩

/-- Normalization of a field goes through its type, its default and its descriptor, in this order. -/
theorem FieldTypeFact.normalize_eq_ok {f f' : FieldTypeFact} : f.normalize = .ok f' ↔
    f.valueType.normalized = .ok f'.valueType ∧ normalizeDefault f.default 0 = .ok f'.default ∧
      f.descriptor.normalize = .ok f'.descriptor ∧
      f' = { f with valueType := f'.valueType, default := f'.default, descriptor := f'.descriptor } := by
  simp only [FieldTypeFact.normalize, bind_eq_ok]
  constructor
  · rintro ⟨valueType, htype, default, hdefault, descriptor, hdescriptor, ⟨⟩⟩
    exact ⟨htype, hdefault, hdescriptor, rfl⟩
  · rintro ⟨htype, hdefault, hdescriptor, heq⟩
    exact ⟨_, htype, _, hdefault, _, hdescriptor, congrArg Except.ok heq.symm⟩

/-- A normalized field is normal. -/
theorem FieldTypeFact.normalize_stable {f f' : FieldTypeFact} (h : f.normalize = .ok f') : f'.normalize = .ok f' := by
  obtain ⟨htype, hdefault, hdescriptor, _⟩ := normalize_eq_ok.mp h
  exact normalize_eq_ok.mpr
    ⟨normalized_stable htype, (normalizeDefault_settled (fun t _ => settles t) hdefault _ (Nat.le_refl _)).2,
      DescriptorFact.normalize_stable hdescriptor, rfl⟩

theorem MethodTypeFact.normalize_eq_ok {m m' : MethodTypeFact} : m.normalize = .ok m' ↔
    normalizeSignature m.signature 0 = .ok m'.signature ∧ m' = { m with signature := m'.signature } :=
  build_eq_ok fun _ => rfl

/-- A normalized method is normal and keeps its name. -/
theorem MethodTypeFact.normalize_stable {m m' : MethodTypeFact} (h : m.normalize = .ok m') :
    m'.name = m.name ∧ m'.normalize = .ok m' := by
  obtain ⟨hsignature, heq⟩ := normalize_eq_ok.mp h
  exact ⟨congrArg (·.name) heq, normalize_eq_ok.mpr ⟨normalizeSignature_stable hsignature, rfl⟩⟩

/-- Normalization of a member goes through its type and its descriptor. -/
theorem ClassMemberFact.normalize_eq_ok {m m' : ClassMemberFact} : m.normalize = .ok m' ↔
    m.valueType.normalized = .ok m'.valueType ∧ m.descriptor.normalize = .ok m'.descriptor ∧
      m' = { m with valueType := m'.valueType, descriptor := m'.descriptor } := by
  simp only [ClassMemberFact.normalize, bind_eq_ok]
  constructor
  · rintro ⟨valueType, htype, descriptor, hdescriptor, ⟨⟩⟩
    exact ⟨htype, hdescriptor, rfl⟩
  · rintro ⟨htype, hdescriptor, heq⟩
    exact ⟨_, htype, _, hdescriptor, congrArg Except.ok heq.symm⟩

/-- A normalized member is normal and keeps its name. -/
theorem ClassMemberFact.normalize_stable {m m' : ClassMemberFact} (h : m.normalize = .ok m') :
    m'.name = m.name ∧ m'.normalize = .ok m' := by
  obtain ⟨htype, hdescriptor, heq⟩ := normalize_eq_ok.mp h
  refine ⟨congrArg (·.name) heq, normalize_eq_ok.mpr ⟨normalized_stable htype, ?_, rfl⟩⟩
  exact DescriptorFact.normalize_stable hdescriptor

theorem FunctionTypeFact.normalize_eq_ok {f f' : FunctionTypeFact} : f.normalize = .ok f' ↔
    normalizeSignature f.signature 0 = .ok f'.signature ∧ f' = { f with signature := f'.signature } :=
  build_eq_ok fun _ => rfl

/-- A normalized function is normal and keeps its identity. -/
theorem FunctionTypeFact.normalize_stable {f f' : FunctionTypeFact} (h : f.normalize = .ok f') :
    f'.identity = f.identity ∧ f'.normalize = .ok f' := by
  obtain ⟨hsignature, heq⟩ := normalize_eq_ok.mp h
  exact ⟨congrArg (·.identity) heq, normalize_eq_ok.mpr ⟨normalizeSignature_stable hsignature, rfl⟩⟩

/-- Normalization of an attribute site goes through its two types. -/
theorem AttributeSiteFact.normalize_eq_ok {s s' : AttributeSiteFact} : s.normalize = .ok s' ↔
    s.receiverType.normalized = .ok s'.receiverType ∧ normalizeBound s.valueType 0 = .ok s'.valueType ∧
      s' = { s with receiverType := s'.receiverType, valueType := s'.valueType } := by
  simp only [AttributeSiteFact.normalize, bind_eq_ok]
  constructor
  · rintro ⟨receiverType, hreceiver, valueType, hvalue, ⟨⟩⟩
    exact ⟨hreceiver, hvalue, rfl⟩
  · rintro ⟨hreceiver, hvalue, heq⟩
    exact ⟨_, hreceiver, _, hvalue, congrArg Except.ok heq.symm⟩

/-- A normalized attribute site is normal and keeps its identity. -/
theorem AttributeSiteFact.normalize_stable {s s' : AttributeSiteFact} (h : s.normalize = .ok s') :
    s'.identity = s.identity ∧ s'.normalize = .ok s' := by
  obtain ⟨hreceiver, hvalue, heq⟩ := normalize_eq_ok.mp h
  exact ⟨congrArg (·.identity) heq,
    normalize_eq_ok.mpr ⟨normalized_stable hreceiver, normalizeBound_stable hvalue, rfl⟩⟩

/-- A receiver that is there is normal after one normalization. -/
theorem ReceiverTypeFact.normalize_stable {r r' : Option ReceiverTypeFact}
    (h : r.mapM ReceiverTypeFact.normalize = .ok r') : r'.mapM ReceiverTypeFact.normalize = .ok r' := by
  rcases option_mapM_eq_ok h with ⟨rfl, rfl⟩ | ⟨a, a', rfl, rfl, ha⟩
  · rfl
  · obtain ⟨valueType, htype, ha⟩ := bind_eq_ok.mp ha
    cases ha
    change (some <$> ReceiverTypeFact.normalize ⟨valueType, a.uncertainty⟩) = _
    rw [ReceiverTypeFact.normalize, normalized_stable htype]
    rfl

/-- Normalization of a call site also makes a set of its candidate targets. -/
theorem CallSiteFact.normalize_eq_ok {s s' : CallSiteFact} : s.normalize = .ok s' ↔
    s.receiver.mapM ReceiverTypeFact.normalize = .ok s'.receiver ∧ normalizeSignature s.signature 0 = .ok s'.signature ∧
      s.resultType.normalized = .ok s'.resultType ∧ s' = { s with
        receiver := s'.receiver
        candidateTargets := collectSet s.candidateTargets
        signature := s'.signature
        resultType := s'.resultType } := by
  simp only [CallSiteFact.normalize, bind_eq_ok]
  constructor
  · rintro ⟨receiver, hreceiver, signature, hsignature, resultType, hresult, ⟨⟩⟩
    exact ⟨hreceiver, hsignature, hresult, rfl⟩
  · rintro ⟨hreceiver, hsignature, hresult, heq⟩
    exact ⟨_, hreceiver, _, hsignature, _, hresult, congrArg Except.ok heq.symm⟩

/-- A normalized call site is normal and keeps its identity. -/
theorem CallSiteFact.normalize_stable {s s' : CallSiteFact} (h : s.normalize = .ok s') :
    s'.identity = s.identity ∧ s'.normalize = .ok s' := by
  obtain ⟨hreceiver, hsignature, hresult, heq⟩ := normalize_eq_ok.mp h
  refine ⟨congrArg (·.identity) heq, normalize_eq_ok.mpr ⟨ReceiverTypeFact.normalize_stable hreceiver,
    normalizeSignature_stable hsignature, normalized_stable hresult, ?_⟩⟩
  rw [heq, collectSet_collectSet]

theorem StrictDiagnostic.normalize_normalize (d : StrictDiagnostic) : d.normalize.normalize = d.normalize := by
  rw [StrictDiagnostic.normalize, StrictDiagnostic.normalize, collectSet_collectSet]

/-- The fields, methods and members of a class that normalization leaves as it is. -/
structure NormalClass (c : ClassTypeFact) : Prop where
  instanceFields : ∀ f ∈ c.instanceFields, f.normalize = .ok f
  methods : StableCatalog (·.name) MethodTypeFact.normalize c.methods
  classMembers : StableCatalog (·.name) ClassMemberFact.normalize c.classMembers

/-- Normalization leaves such a class as it is. -/
theorem NormalClass.normalize_eq {c : ClassTypeFact} (h : NormalClass c) : c.normalize = .ok c := by
  rw [ClassTypeFact.normalize, mapM_eq_self h.instanceFields, ok_bind, h.methods.mapM_sortBy, ok_bind,
    h.classMembers.mapM_sortBy]
  rfl

/-- What normalization makes of a class is such a class. -/
theorem normalClass_of_normalize {c c' : ClassTypeFact} (h : c.normalize = .ok c') :
    c'.identity = c.identity ∧ NormalClass c' := by
  obtain ⟨instanceFields, hfields, h⟩ := bind_eq_ok.mp h
  obtain ⟨methods, hmethods, h⟩ := bind_eq_ok.mp h
  obtain ⟨classMembers, hmembers, h⟩ := bind_eq_ok.mp h
  cases h
  refine ⟨rfl, ⟨fun f' hf' => ?_, .of_mapM hmethods fun _ _ => MethodTypeFact.normalize_stable,
    .of_mapM hmembers fun _ _ => ClassMemberFact.normalize_stable⟩⟩
  obtain ⟨f, _, hf⟩ := forall₂_mem_right (mapM_eq_ok_iff.mp hfields) hf'
  exact FieldTypeFact.normalize_stable hf

/-- The facts of a module that normalization leaves as they are. -/
structure NormalFacts (facts : ModuleTypeFacts) : Prop where
  classOverrides : SortedBy id facts.languagePolicy.classOverrides
  consumedDependencies : SortedBy (·.module_.moduleName) facts.consumedDependencies
  globalBindings : StableCatalog (·.name) GlobalBindingFact.normalize facts.globalBindings
  classes : StableCatalog (·.identity) ClassTypeFact.normalize facts.classes
  functions : StableCatalog (·.identity) FunctionTypeFact.normalize facts.functions
  nominalBindings : SortedBy id facts.nominalBindings
  attributeSites : StableCatalog (·.identity) AttributeSiteFact.normalize facts.attributeSites
  callSites : StableCatalog (·.identity) CallSiteFact.normalize facts.callSites
  diagnostics : SortedBy id facts.diagnostics
  relatedDefinitions : ∀ d ∈ facts.diagnostics, d.normalize = d

variable {facts : ModuleTypeFacts}

/-- Normalization leaves such facts as they are. -/
theorem NormalFacts.normalize_eq (h : NormalFacts facts) : facts.normalize = .ok facts := by
  have hdiagnostics : facts.diagnostics.map StrictDiagnostic.normalize = facts.diagnostics :=
    (map_congr_left h.relatedDefinitions).trans (map_id _)
  rw [ModuleTypeFacts.normalize, h.globalBindings.mapM_sortBy, ok_bind, h.classes.mapM_sortBy, ok_bind,
    h.functions.mapM_sortBy, ok_bind, h.attributeSites.mapM_sortBy, ok_bind, h.callSites.mapM_sortBy, ok_bind,
    hdiagnostics, h.classOverrides.sortBy_eq, h.consumedDependencies.sortBy_eq, h.nominalBindings.sortBy_eq,
    h.diagnostics.sortBy_eq]
  rfl

/-- What normalization makes of a module are such facts. -/
theorem normalFacts_of_normalize {normal : ModuleTypeFacts} (h : facts.normalize = .ok normal) : NormalFacts normal := by
  obtain ⟨globalBindings, hglobals, h⟩ := bind_eq_ok.mp h
  obtain ⟨classes, hclasses, h⟩ := bind_eq_ok.mp h
  obtain ⟨functions, hfunctions, h⟩ := bind_eq_ok.mp h
  obtain ⟨attributeSites, hattributes, h⟩ := bind_eq_ok.mp h
  obtain ⟨callSites, hcalls, h⟩ := bind_eq_ok.mp h
  cases h
  refine ⟨sortedBy_sortBy _ _, sortedBy_sortBy _ _, .of_mapM hglobals fun _ _ => GlobalBindingFact.normalize_stable,
    .of_mapM hclasses fun c c' hc => ?_, .of_mapM hfunctions fun _ _ => FunctionTypeFact.normalize_stable,
    sortedBy_sortBy _ _, .of_mapM hattributes fun _ _ => AttributeSiteFact.normalize_stable,
    .of_mapM hcalls fun _ _ => CallSiteFact.normalize_stable, sortedBy_sortBy _ _, fun d hd => ?_⟩
  · obtain ⟨hidentity, hnormal⟩ := normalClass_of_normalize hc
    exact ⟨hidentity, hnormal.normalize_eq⟩
  · obtain ⟨d', _, rfl⟩ := mem_map.mp (mem_sortBy.mp hd)
    exact d'.normalize_normalize

/-! ## Demotion keeps normal records -/

namespace IgnoredDefinitions

variable (ignored : IgnoredDefinitions) (full : Bool) {n : Nat}

/-- A value that is demoted becomes unknown, which is normal at every depth. -/
theorem value_normal {t : StaticType} (h : t.normalizeAtDepth n = .ok t) :
    (ignored.value t full).2.normalizeAtDepth n = .ok (ignored.value t full).2 := by
  unfold value
  split
  · exact normalize_leaf_self rfl nofun (depth_le_of_normalize h)
  · exact h

/-- A default that is demoted is normal. -/
theorem default_normal {d : DefaultFact StaticType} (h : normalizeDefault d n = .ok d) :
    normalizeDefault (ignored.default d full).2 n = .ok (ignored.default d full).2 := by
  unfold default
  split
  · rfl
  · split
    · rfl
    · exact h

/-- Demotion keeps parameters normal, one by one. -/
theorem parameters_normal {ps : List (ParameterTypeFact StaticType)} (h : normalizeParameters ps n = .ok ps) :
    normalizeParameters (ps.map fun p => (ignored.parameter p full).2) n =
      .ok (ps.map fun p => (ignored.parameter p full).2) := by
  induction ps with
  | nil => rfl
  | cons p ps ih =>
    rcases p with ⟨name, kind, valueType, origin, default⟩
    obtain ⟨p', hp, h⟩ := bind_eq_ok.mp h
    obtain ⟨ps', hps, h⟩ := bind_eq_ok.mp h
    cases h
    obtain ⟨valueType', hvalue, hp⟩ := bind_eq_ok.mp hp
    obtain ⟨default', hdefault, hp⟩ := bind_eq_ok.mp hp
    cases hp
    change (normalizeParameter ⟨_, _, (ignored.value valueType full).2, _, (ignored.default default full).2⟩ n >>= _) = _
    rw [normalizeParameter, ignored.value_normal full hvalue, ignored.default_normal full hdefault]
    rw [ih hps]
    rfl

/-- Demotion keeps a signature normal. -/
theorem signature_normal {s : CallableSignature StaticType} (h : normalizeSignature s n = .ok s) :
    normalizeSignature (ignored.signature s full).2 n = .ok (ignored.signature s full).2 := by
  rcases s with ⟨parameters, result, origin, uncertainty⟩
  obtain ⟨result', hresult, h⟩ := bind_eq_ok.mp h
  obtain ⟨parameters', hparameters, h⟩ := bind_eq_ok.mp h
  cases h
  rw [signature, map_map]
  change normalizeSignature ⟨parameters.map fun p => (ignored.parameter p full).2, (ignored.value result full).2, _, _⟩ n = _
  rw [normalizeSignature, ignored.value_normal full hresult, ignored.parameters_normal full hparameters]
  rfl

theorem descriptor_normal {d : DescriptorFact} (h : d.normalize = .ok d) :
    (ignored.descriptor d full).2.normalize = .ok (ignored.descriptor d full).2 := by
  unfold descriptor
  split
  · rfl
  · exact h

theorem globalBinding_normal {b : GlobalBindingFact} (h : b.normalize = .ok b) :
    (ignored.globalBinding b).normalize = .ok (ignored.globalBinding b) :=
  GlobalBindingFact.normalize_eq_ok.mpr ⟨ignored.value_normal _ (GlobalBindingFact.normalize_eq_ok.mp h).1, rfl⟩

theorem field_normal {f : FieldTypeFact} (h : f.normalize = .ok f) :
    (ignored.field f full).normalize = .ok (ignored.field f full) := by
  obtain ⟨htype, hdefault, hdescriptor, _⟩ := FieldTypeFact.normalize_eq_ok.mp h
  exact FieldTypeFact.normalize_eq_ok.mpr
    ⟨ignored.value_normal _ htype, ignored.default_normal _ hdefault, ignored.descriptor_normal _ hdescriptor, rfl⟩

theorem method_normal {m : MethodTypeFact} (h : m.normalize = .ok m) :
    (ignored.method m full).normalize = .ok (ignored.method m full) :=
  MethodTypeFact.normalize_eq_ok.mpr ⟨ignored.signature_normal _ (MethodTypeFact.normalize_eq_ok.mp h).1, rfl⟩

theorem member_normal {m : ClassMemberFact} (h : m.normalize = .ok m) :
    (ignored.member m full).normalize = .ok (ignored.member m full) := by
  obtain ⟨htype, hdescriptor, _⟩ := ClassMemberFact.normalize_eq_ok.mp h
  exact ClassMemberFact.normalize_eq_ok.mpr ⟨ignored.value_normal _ htype, ignored.descriptor_normal _ hdescriptor, rfl⟩

/-- Demotion keeps a class normal: its methods and members keep the names they are sorted by. -/
theorem classFact_normal {c : ClassTypeFact} (h : c.normalize = .ok c) :
    (ignored.classFact c).normalize = .ok (ignored.classFact c) := by
  obtain ⟨_, hnormal⟩ := normalClass_of_normalize h
  refine NormalClass.normalize_eq ⟨?_, ?_, ?_⟩
  · refine forall_mem_map.mpr fun f hf => ?_
    exact ignored.field_normal _ (hnormal.instanceFields f hf)
  · exact hnormal.methods.map (fun _ => rfl) fun _ => ignored.method_normal _
  · exact hnormal.classMembers.map (fun _ => rfl) fun _ => ignored.member_normal _

theorem function_normal {f : FunctionTypeFact} (h : f.normalize = .ok f) :
    (ignored.function f).normalize = .ok (ignored.function f) :=
  FunctionTypeFact.normalize_eq_ok.mpr ⟨ignored.signature_normal _ (FunctionTypeFact.normalize_eq_ok.mp h).1, rfl⟩

@[simp]
theorem attributeSite_identity (s : AttributeSiteFact) : (ignored.attributeSite s).identity = s.identity := by
  unfold attributeSite
  split <;> rfl

@[simp]
theorem callSite_identity (s : CallSiteFact) : (ignored.callSite s).identity = s.identity := by
  unfold callSite
  split <;> rfl

/-- A demoted attribute site has only unknown types. -/
theorem attributeSite_normal {s : AttributeSiteFact} (h : s.normalize = .ok s) :
    (ignored.attributeSite s).normalize = .ok (ignored.attributeSite s) := by
  unfold attributeSite
  split
  · refine AttributeSiteFact.normalize_eq_ok.mpr ⟨rfl, ?_, rfl⟩
    cases s.valueType <;> rfl
  · exact h

/-- A demoted call site has an unknown target, receiver and result. -/
theorem callSite_normal {s : CallSiteFact} (h : s.normalize = .ok s) :
    (ignored.callSite s).normalize = .ok (ignored.callSite s) := by
  unfold callSite
  split
  · obtain ⟨_, hsignature, _⟩ := CallSiteFact.normalize_eq_ok.mp h
    refine CallSiteFact.normalize_eq_ok.mpr ⟨?_, ignored.signature_normal _ hsignature, rfl, ?_⟩
    · cases s.receiver <;> rfl
    · rw [collectSet_singleton]
  · exact h

end IgnoredDefinitions

/-- Demotion of the suppressed regions keeps the facts normal. -/
theorem NormalFacts.demoteSuppressedRegions (h : NormalFacts facts) : NormalFacts facts.demoteSuppressedRegions := by
  unfold ModuleTypeFacts.demoteSuppressedRegions
  split
  · exact h
  · exact ⟨h.classOverrides, h.consumedDependencies,
      h.globalBindings.map (fun _ => rfl) fun _ => globalBinding_normal _,
      h.classes.map (fun _ => rfl) fun _ => classFact_normal _,
      h.functions.map (fun _ => rfl) fun _ => function_normal _,
      h.nominalBindings.filter _,
      h.attributeSites.map (fun s => attributeSite_identity _ s)
        fun _ => attributeSite_normal _,
      h.callSites.map (fun s => callSite_identity _ s) fun _ => callSite_normal _,
      h.diagnostics, h.relatedDefinitions⟩

/-! ## Demotion finds nothing left to demote -/

/-- A rewriting that leaves its own results as they are, and reports no change of them that it has not reported before. -/
def Settling {α : Type} (f : α → Bool × α) : Prop :=
  ∀ a, (f (f a).2).2 = (f a).2 ∧ ((f (f a).2).1 = true → (f a).1 = true)

/-- A rewriting that changes nothing, or reports a change and leaves its result as it is. -/
theorem settling_of_cases {α : Type} {f : α → Bool × α}
    (h : ∀ a, f a = (false, a) ∨ ((f a).1 ∧ (f (f a).2).2 = (f a).2)) : Settling f := by
  intro a
  rcases h a with hsame | ⟨haffected, hagain⟩
  · rw [hsame]
    exact ⟨congrArg Prod.snd hsame, fun htrue => by rw [hsame] at htrue; exact htrue⟩
  · exact ⟨hagain, fun _ => haffected⟩

namespace IgnoredDefinitions

variable (ignored : IgnoredDefinitions) (full : Bool)

/-- A reason that is there is not added again. -/
theorem withReason_withReason {uncertainty : List UncertaintyReason} {affected again : Bool}
    (h : again → affected) :
    withReason (withReason uncertainty affected) again = withReason uncertainty affected := by
  cases again with
  | false => rfl
  | true =>
    rw [h rfl]
    exact insert_of_mem mem_insert_self

/-- A demoted value is not demoted again. -/
theorem value_settling : Settling (ignored.value · full) := by
  refine settling_of_cases fun t => ?_
  by_cases h : (full || ignored.valueReferences t)
  · right
    have hvalue : ignored.value t full = (true, .unknown) := if_pos h
    rw [hvalue]
    refine ⟨rfl, ?_⟩
    unfold value
    split <;> rfl
  · exact .inl (if_neg h)

theorem default_settling : Settling (ignored.default · full) := by
  refine settling_of_cases fun d => ?_
  have hunknown : (ignored.default .unknown full).2 = .unknown := by
    unfold default
    dsimp only
    split <;> rfl
  unfold default
  split
  · exact .inl rfl
  · split
    · exact .inr ⟨rfl, hunknown⟩
    · exact .inl rfl

theorem descriptor_settling : Settling (ignored.descriptor · full) := by
  refine settling_of_cases fun d => ?_
  have hunknown : (ignored.descriptor { kind := .unknown } full).2 = { kind := .unknown } := by
    unfold descriptor
    split <;> rfl
  rcases hcase : ignored.descriptor d full with ⟨affected, d'⟩
  unfold descriptor at hcase
  split at hcase
  · cases hcase
    exact .inr ⟨rfl, hunknown⟩
  · cases hcase
    exact .inl rfl

theorem parameter_settling : Settling (ignored.parameter · full) := by
  intro p
  have hvalue := ignored.value_settling full p.valueType
  have hdefault := ignored.default_settling full p.default
  unfold parameter
  dsimp only at hvalue hdefault ⊢
  rw [hvalue.1, hdefault.1]
  refine ⟨rfl, fun h => ?_⟩
  rw [Bool.or_eq_true] at h ⊢
  exact h.imp hvalue.2 hdefault.2

/-- A signature is demoted at once, with all its parameters. -/
theorem signature_settling : Settling (ignored.signature · full) := by
  intro s
  have hvalue := ignored.value_settling full s.returnType
  have hparameters : ∀ p, _ := ignored.parameter_settling full
  have haffected : ((ignored.value (ignored.value s.returnType full).2 full).1 ||
      (s.parameters.map fun p => ignored.parameter (ignored.parameter p full).2 full).any (·.1)) →
      ((ignored.value s.returnType full).1 || (s.parameters.map fun p => ignored.parameter p full).any (·.1)) := by
    intro h
    rw [Bool.or_eq_true, any_map, any_eq_true] at h ⊢
    refine h.imp hvalue.2 fun ⟨p, hp, h⟩ => ⟨p, hp, (hparameters p).2 h⟩
  unfold signature
  simp only [map_map, comp_def] at haffected ⊢
  refine ⟨?_, haffected⟩
  rw [withReason_withReason haffected, hvalue.1]
  simp only [(hparameters _).1]

theorem globalBinding_globalBinding (b : GlobalBindingFact) :
    ignored.globalBinding (ignored.globalBinding b) = ignored.globalBinding b := by
  have hvalue := ignored.value_settling (ignored.wholeModule || b.definition.any ignored.identity) b.valueType
  unfold globalBinding
  dsimp only at hvalue ⊢
  rw [withReason_withReason hvalue.2, hvalue.1]

theorem field_field (f : FieldTypeFact) : ignored.field (ignored.field f full) full = ignored.field f full := by
  unfold field
  dsimp only
  generalize (full || ignored.identity f.declaringClass.definition || f.annotationDefinition.any ignored.identity) = whole
  have hvalue := ignored.value_settling whole f.valueType
  have hdefault := ignored.default_settling whole f.default
  have hdescriptor := ignored.descriptor_settling whole f.descriptor
  rw [withReason_withReason ?_, hvalue.1, hdefault.1, hdescriptor.1]
  · cases whole <;> rfl
  · simp only [Bool.or_eq_true]
    exact Or.imp (Or.imp hvalue.2 hdefault.2) hdescriptor.2

theorem method_method (m : MethodTypeFact) : ignored.method (ignored.method m full) full = ignored.method m full := by
  have hsignature := ignored.signature_settling full m.signature
  unfold method
  rw [withReason_withReason hsignature.2, hsignature.1]
  cases full <;> rfl

theorem member_member (m : ClassMemberFact) : ignored.member (ignored.member m full) full = ignored.member m full := by
  have hvalue := ignored.value_settling full m.valueType
  have hdescriptor := ignored.descriptor_settling full m.descriptor
  unfold member
  rw [withReason_withReason ?_, hvalue.1, hdescriptor.1]
  · cases full <;> rfl
  · simp only [Bool.or_eq_true]
    exact Or.imp hvalue.2 hdescriptor.2

theorem participation_participation (p : ParticipationProposal) : participation (participation p) = participation p := by
  cases p with
  | candidate => rfl
  | dynamic reasons => exact congrArg ParticipationProposal.dynamic (insert_of_mem mem_insert_self)

/-- A class is demoted at once, with its fields, methods and members. -/
theorem classFact_classFact (c : ClassTypeFact) : ignored.classFact (ignored.classFact c) = ignored.classFact c := by
  unfold classFact
  simp only [map_map, comp_def, field_field, method_method, member_member]
  rw [withReason_withReason id]
  cases ignored.identity c.identity with
  | false => rfl
  | true => simp only [if_true, participation_participation]

theorem function_function (f : FunctionTypeFact) : ignored.function (ignored.function f) = ignored.function f := by
  have hsignature := ignored.signature_settling (ignored.identity f.identity) f.signature
  unfold function
  rw [withReason_withReason hsignature.2, hsignature.1]

theorem attributeSite_attributeSite (s : AttributeSiteFact) :
    ignored.attributeSite (ignored.attributeSite s) = ignored.attributeSite s := by
  rcases hcase : ignored.attributeSite s with s'
  unfold attributeSite at hcase
  split at hcase
  · subst hcase
    unfold attributeSite
    split
    · rw [withReason_withReason id, Option.map_map]
      rfl
    · rfl
  · next h =>
    subst hcase
    exact if_neg h

theorem callSite_callSite (s : CallSiteFact) : ignored.callSite (ignored.callSite s) = ignored.callSite s := by
  rcases hcase : ignored.callSite s with s'
  unfold callSite at hcase
  split at hcase
  · subst hcase
    unfold callSite
    split
    · have hsignature := ignored.signature_settling true s.signature
      rw [hsignature.1, Option.map_map]
      simp only [comp_def, withReason_withReason (fun h : true = true => h)]
    · rfl
  · next h =>
    subst hcase
    exact if_neg h

end IgnoredDefinitions

/-! ### The ignored definitions stay -/

/-- Demotion hides neither the bases nor the implementations by which a class is ignored. -/
theorem affectsClass_classFact (ignored ignored' : IgnoredDefinitions) (c : ClassTypeFact) :
    affectsClass ignored (ignored'.classFact c) = affectsClass ignored c := by
  have hbases : (ignored'.classFact c).inheritance.linearizedBases = c.inheritance.linearizedBases := by
    unfold IgnoredDefinitions.classFact
    dsimp only
    split <;> rfl
  have hmethods : ((ignored'.classFact c).methods.any fun method => method.implementation.any ignored.identity) =
      c.methods.any fun method => method.implementation.any ignored.identity :=
    any_map
  unfold affectsClass
  rw [hbases, hmethods]
  rfl

namespace ModuleTypeFacts

/-- The facts with all records demoted. -/
def demoteWith (facts : ModuleTypeFacts) (ignored : IgnoredDefinitions) : ModuleTypeFacts :=
  { facts with
    globalBindings := facts.globalBindings.map ignored.globalBinding
    classes := facts.classes.map ignored.classFact
    functions := facts.functions.map ignored.function
    nominalBindings := facts.nominalBindings.filter ignored.retains
    attributeSites := facts.attributeSites.map ignored.attributeSite
    callSites := facts.callSites.map ignored.callSite }

theorem owners_demoteWith (facts : ModuleTypeFacts) (ignored : IgnoredDefinitions) :
    (facts.demoteWith ignored).owners = facts.owners := by
  simp only [owners, demoteWith, map_map]
  rfl

/-- Demoted facts have the same dependents. -/
theorem dependents_demoteWith (facts : ModuleTypeFacts) (ignored ignored' : IgnoredDefinitions) :
    (facts.demoteWith ignored').dependents ignored = facts.dependents ignored := by
  simp only [dependents, demoteWith, filter_map, map_map, comp_def, affectsClass_classFact]
  rfl

/-- Demoted facts ignore the same definitions, since the diagnostics and the owners of regions stay. -/
theorem ignoredDefinitions_demoteWith (facts : ModuleTypeFacts) (ignored : IgnoredDefinitions) :
    (facts.demoteWith ignored).ignoredDefinitions = facts.ignoredDefinitions := by
  have hseeds : (facts.demoteWith ignored).suppressedDefinitions = facts.suppressedDefinitions := by
    have hstep : (facts.demoteWith ignored).ignoreDiagnostic = facts.ignoreDiagnostic := by
      funext acc d
      unfold ignoreDiagnostic ignoreRegion
      rw [owners_demoteWith]
    unfold suppressedDefinitions
    rw [hstep]
    rfl
  unfold ignoredDefinitions
  rw [hseeds]
  simp only [dependents_demoteWith]
  simp only [demoteWith, length_map]

theorem demoteWith_demoteWith (facts : ModuleTypeFacts) (ignored : IgnoredDefinitions) :
    (facts.demoteWith ignored).demoteWith ignored = facts.demoteWith ignored := by
  simp only [demoteWith, map_map, filter_filter, Bool.and_self, comp_def,
    globalBinding_globalBinding, classFact_classFact,
    function_function, attributeSite_attributeSite,
    callSite_callSite]

/-- Demoting twice is demoting once. -/
theorem demoteSuppressedRegions_idempotent (facts : ModuleTypeFacts) :
    facts.demoteSuppressedRegions.demoteSuppressedRegions = facts.demoteSuppressedRegions := by
  by_cases h : facts.diagnostics.any (·.suppressed)
  · have hdemoted : facts.demoteSuppressedRegions = facts.demoteWith facts.ignoredDefinitions := by
      unfold demoteSuppressedRegions
      rw [h]
      rfl
    have hagain : (facts.demoteWith facts.ignoredDefinitions).demoteSuppressedRegions =
        (facts.demoteWith facts.ignoredDefinitions).demoteWith facts.ignoredDefinitions := by
      unfold demoteSuppressedRegions
      rw [ignoredDefinitions_demoteWith]
      change (if !facts.diagnostics.any (·.suppressed) then _ else _) = _
      rw [h]
      rfl
    rw [hdemoted, hagain, demoteWith_demoteWith]
  · have hsame : facts.demoteSuppressedRegions = facts := by
      unfold demoteSuppressedRegions
      rw [Bool.eq_false_iff.mpr h]
      rfl
    rw [hsame, hsame]

end ModuleTypeFacts

/-! ## Canonical form -/

/-- Canonicalization leaves its own results as they are. -/
theorem canonicalized_stable {canonical : ModuleTypeFacts} (h : facts.canonicalized = .ok canonical) :
    canonical.canonicalized = .ok canonical := by
  obtain ⟨normal, hnormal, h⟩ := bind_eq_ok.mp h
  cases h
  have hnormalForm := (normalFacts_of_normalize hnormal).demoteSuppressedRegions.normalize_eq
  rw [ModuleTypeFacts.canonicalized, hnormalForm, ok_bind, ModuleTypeFacts.demoteSuppressedRegions_idempotent]
  rfl

namespace Crates

variable {crates : Crates} {shard : EncodedModuleShard}

/-- What an encoded shard has passed. -/
theorem encodeModuleShard_eq_ok (h : crates.encodeModuleShard facts = .ok shard) :
    facts.canonicalized = .ok shard.facts ∧ validateModuleFacts crates.sha256 shard.facts none = .ok () ∧
      crates.facts.canonicalBytes shard.facts = .ok shard.bytes ∧
      enforceSize shard.bytes "module shard" maxShardBytes = .ok () ∧ crates.sha256 shard.bytes = shard.digest := by
  obtain ⟨canonical, hcanonical, h⟩ := bind_eq_ok.mp h
  obtain ⟨_, hvalid, h⟩ := bind_eq_ok.mp h
  obtain ⟨bytes, hbytes, h⟩ := bind_eq_ok.mp h
  obtain ⟨_, hsize, h⟩ := bind_eq_ok.mp h
  cases h
  exact ⟨hcanonical, hvalid, hbytes, hsize, rfl⟩

/-- Facts that canonicalization leaves as they are pass the check. -/
theorem checkCanonical_of_stable (h : facts.canonicalized = .ok facts) : checkCanonical facts = .ok () := by
  rw [checkCanonical, h, ok_bind, reject_not_eq_ok]

/-- A shard is accepted with its own index. -/
theorem verifyShard_of_encode (hserde : crates.facts.RoundTrips)
    (h : crates.encodeModuleShard facts = .ok shard) {index : ModuleArtifactIndex}
    (hindex : crates.indexOfShard shard = .ok index) : crates.verifyShard index shard.bytes = .ok shard.facts := by
  obtain ⟨hcanonical, hvalid, hbytes, hsize, hdigest⟩ := encodeModuleShard_eq_ok h
  obtain ⟨policy, hpolicy, hindex⟩ := bind_eq_ok.mp hindex
  cases hindex
  have hshard : reject (crates.sha256 shard.bytes ≠ shard.digest)
      (shardMismatch shard.facts.module_.moduleName) = .ok () := by
    rw [reject_not_eq_ok, hdigest]
  have hfields : reject (decide (shard.facts.module_ ≠ shard.facts.module_) ||
      decide (shard.facts.sourceDigest ≠ shard.facts.sourceDigest) || decide (shard.facts.sourceSize ≠ shard.facts.sourceSize))
      (shardMismatch shard.facts.module_.moduleName) = .ok () := by
    simp
  have hrest : reject (decide (policy ≠ policy) ||
      decide (shard.facts.consumedDependencies ≠ shard.facts.consumedDependencies))
      (shardMismatch shard.facts.module_.moduleName) = .ok () := by
    simp
  unfold verifyShard
  rw [hsize, ok_bind, hshard, ok_bind, hserde.decodeCanonical hbytes, ok_bind, hvalid, ok_bind,
    checkCanonical_of_stable (canonicalized_stable hcanonical), ok_bind, hfields, ok_bind, hpolicy, ok_bind, hrest]
  rfl

end Crates

/-- Canonicalization is idempotent, and so every encoded shard passes the canonical check of its verification. -/
theorem canonicalized_idempotent :
    (∀ facts canonical, ModuleTypeFacts.canonicalized facts = .ok canonical → canonical.canonicalized = .ok canonical) ∧
      ∀ crates : Crates, crates.facts.RoundTrips → ∀ facts shard, crates.encodeModuleShard facts = .ok shard →
        crates.facts.decodeCanonical shard.bytes = .ok shard.facts ∧ checkCanonical shard.facts = .ok () ∧
          ∀ index, crates.indexOfShard shard = .ok index → crates.verifyShard index shard.bytes = .ok shard.facts := by
  refine ⟨fun facts canonical => canonicalized_stable, fun crates hserde facts shard h => ⟨?_, ?_, fun index => ?_⟩⟩
  · exact hserde.decodeCanonical (encodeModuleShard_eq_ok h).2.2.1
  · exact checkCanonical_of_stable (canonicalized_stable (encodeModuleShard_eq_ok h).1)
  · exact verifyShard_of_encode hserde h

/-! ### A module with an unsorted catalog, an optional type and a suppressed region -/

def sampleFunctionFact (name : String) (range : SourceRange) (result : StaticType) (uncertainty : List UncertaintyReason) :
    FunctionTypeFact :=
  ⟨⟨⟨"m", 1⟩, name, range, .function⟩, .synchronous, ⟨[], result, .explicit, uncertainty⟩, [], uncertainty⟩

def sampleShard (name : String) (dependencies : List DependencyFingerprint) (functions : List FunctionTypeFact) :
    ModuleTypeFacts where
  schemaVersion := 7
  module_ := ⟨name, 1⟩
  sourceDigest := 0
  sourceSize := 100
  sourceDialect := .ordinaryPython
  languagePolicy := ⟨false, false, []⟩
  consumedDependencies := dependencies
  globalBindings := []
  classes := []
  functions
  nominalBindings := []
  attributeSites := []
  callSites := []
  diagnostics := [⟨.checkerError, .error, ⟨60, 61⟩, .site ⟨60, 90⟩, [], true, ""⟩]

def unsortedShard : ModuleTypeFacts :=
  sampleShard "m" [] [sampleFunctionFact "g" ⟨60, 90⟩ (.exactBuiltin .int) [],
    sampleFunctionFact "f" ⟨10, 50⟩ (.optional (.exactBuiltin .int)) []]

def canonicalShard : ModuleTypeFacts :=
  sampleShard "m" [] [sampleFunctionFact "f" ⟨10, 50⟩ (.union [.none, .exactBuiltin .int]) [],
    sampleFunctionFact "g" ⟨60, 90⟩ .unknown [.ignoredDiagnostic]]

/-- Encodings of the values of a table: as many zeros as come before the value. -/
def tableSerde {α : Type} [DecidableEq α] (values : List α) : Serde α where
  toValue value := match values.idxOf? value with
    | some i => .ok (.array (replicate i .null))
    | Option.none => .error "unexpected value"
  toVec
    | .array elements => .ok (replicate elements.length 0)
    | _ => .error "unexpected JSON"
  fromSlice bytes := match values[bytes.length]? with
    | some value => .ok value
    | Option.none => .error "unexpected bytes"

theorem length_sortElements (values : List Json) : (sortElements values).length = values.length := by
  induction values with
  | nil => rfl
  | cons value values ih => rw [sortElements, length_cons, length_cons, ih]

/-- What such an encoding writes it reads back. -/
theorem tableSerde_roundTrips {α : Type} [DecidableEq α] (values : List α) : (tableSerde values).RoundTrips := by
  intro value bytes h
  cases hi : values.idxOf? value with
  | none =>
    rw [Serde.canonicalBytes, tableSerde] at h
    simp only [hi] at h
    cases h
  | some i =>
    rw [Serde.canonicalBytes, tableSerde] at h
    simp only [hi] at h
    have hbytes : replicate (sortElements (replicate i .null)).length 0 = bytes := Except.ok.inj h
    have hlength : bytes.length = i := by rw [← hbytes, length_replicate, length_sortElements, length_replicate]
    have hvalue : values[i]? = some value := by
      obtain ⟨hlt, heq, -⟩ := List.findIdx?_eq_some_iff_getElem.mp hi
      rw [List.getElem?_eq_getElem hlt, eq_of_beq heq]
    simp only [tableSerde, hlength, hvalue]

/-- A hash in which every byte counts. -/
def sampleHash (bytes : List UInt8) : Fingerprint :=
  bytes.foldl (fun hash byte => hash * 257 + byte.toNat + 1) 0

/-- A signature of the hash with the key. -/
def sampleSign (key : UInt8) (payload : List UInt8) : Bytes 64 :=
  ⟨replicate 64 (key + .ofNat (sampleHash payload)), length_replicate⟩

def sampleCrates : Crates where
  facts := tableSerde [unsortedShard, canonicalShard]
  policy := tableSerde [canonicalShard.languagePolicy]
  manifest := tableSerde []
  envelope := tableSerde []
  content := tableSerde []
  sha256 := sampleHash
  SigningKey := UInt8
  VerifyingKey := UInt8
  verifyingKey := id
  sign := sampleSign
  verifyStrict key payload signature := sampleSign key payload = signature

/-- Canonicalization sorts the two functions, spells out the optional type and demotes the suppressed one. -/
theorem canonicalized_idempotent_unsorted : unsortedShard.canonicalized = .ok canonicalShard ∧
    canonicalShard.canonicalized = .ok canonicalShard ∧
    sampleCrates.encodeModuleShard unsortedShard = .ok ⟨canonicalShard, [0], 1⟩ ∧
    sampleCrates.verifyShard ⟨⟨"m", 1⟩, 0, 100, 0, 1, []⟩ [0] = .ok canonicalShard := by
  have hcanonical : unsortedShard.canonicalized = .ok canonicalShard := by decide +kernel
  have hshard : sampleCrates.encodeModuleShard unsortedShard = .ok ⟨canonicalShard, [0], 1⟩ := by decide +kernel
  have haccepted := canonicalized_idempotent.2 sampleCrates (tableSerde_roundTrips _) _ _ hshard
  exact ⟨hcanonical, canonicalized_idempotent.1 _ _ hcanonical, hshard, haccepted.2.2 _ (by decide +kernel)⟩

end Soac.Contracts
