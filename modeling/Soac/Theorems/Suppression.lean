import Soac.Contracts.Demote

/-!
# Suppression is closed

The definitions that suppressed diagnostics take with them form a closure: the definitions of the suppressed regions, and
every class and function that depends on one. After the demotion nothing that the facts of a module say refers to a
definition of the closure, and no class that is still a candidate depends on one.
-/

namespace Soac.Contracts

open List

/-! ## What the facts refer to -/

mutual

/-- All definitions that a static type mentions, at any depth. -/
def StaticType.references : StaticType → List SourceIdentity
  | .nominalClass reference | .exactClass reference => [reference.definition]
  | .union elements => typesReferences elements
  | .optional element => element.references
  | .callable signature => signatureReferences signature
  | .typeVariable variable_ => typeVariableReferences variable_
  | .structuralProtocol protocol => protocol.definition.toList.map (·.definition)
  | .none | .exactBuiltin _ | .nominalBuiltin _ _ | .numericWidening _ _ | .literal _ | .any | .unknown | .todo
  | .divergent | .unsupported _ _ => []

def typesReferences : List StaticType → List SourceIdentity
  | [] => []
  | value :: values => value.references ++ typesReferences values

def boundReferences : Option StaticType → List SourceIdentity
  | none => []
  | some value => value.references

def typeVariableReferences : TypeVariableFact StaticType → List SourceIdentity
  | ⟨id, upperBound, constraints⟩ => id :: (boundReferences upperBound ++ typesReferences constraints)

def signatureReferences : CallableSignature StaticType → List SourceIdentity
  | ⟨parameters, returnType, _, _⟩ => returnType.references ++ parametersReferences parameters

def parametersReferences : List (ParameterTypeFact StaticType) → List SourceIdentity
  | [] => []
  | parameter :: parameters => parameterReferences parameter ++ parametersReferences parameters

def parameterReferences : ParameterTypeFact StaticType → List SourceIdentity
  | ⟨_, _, valueType, _, default⟩ => valueType.references ++ defaultReferences default

def defaultReferences : DefaultFact StaticType → List SourceIdentity
  | .value valueType _ => valueType.references
  | .factory implementation returnType => implementation.toList ++ returnType.references
  | .missing | .unknown => []

end

def DescriptorFact.references (d : DescriptorFact) : List SourceIdentity :=
  boundReferences d.descriptorType ++ d.getter.toList ++ d.setter.toList ++ d.deleter.toList

def CallableTargetFact.references : CallableTargetFact → List SourceIdentity
  | .sourceFunction id => [id]
  | .method reference _ implementation => reference.definition :: implementation.toList
  | .generated g => [g.reference.definition]
  | .dynamic => []

def NominalBindingOwner.references : NominalBindingOwner → List SourceIdentity
  | .function f _ => [f]
  | .field r => [r.declaringClass.definition, r.annotationDefinition]

def NominalBindingFact.references (b : NominalBindingFact) : List SourceIdentity :=
  b.owner.references ++ [b.reference.definition, b.binding, b.bindingScope]

def FieldTypeFact.references (f : FieldTypeFact) : List SourceIdentity :=
  f.valueType.references ++ defaultReferences f.default ++ f.descriptor.references

def ClassMemberFact.references (m : ClassMemberFact) : List SourceIdentity :=
  m.valueType.references ++ m.descriptor.references

def ClassTypeFact.references (c : ClassTypeFact) : List SourceIdentity :=
  c.instanceFields.flatMap FieldTypeFact.references ++ c.methods.flatMap (fun m => signatureReferences m.signature) ++
    c.classMembers.flatMap ClassMemberFact.references

def AttributeSiteFact.references (s : AttributeSiteFact) : List SourceIdentity :=
  s.receiverType.references ++ boundReferences s.valueType ++ s.declaringClass.toList.map (·.definition)

def CallSiteFact.references (s : CallSiteFact) : List SourceIdentity :=
  s.receiver.toList.flatMap (fun r => r.valueType.references) ++ s.candidateTargets.flatMap CallableTargetFact.references ++
    signatureReferences s.signature ++ s.resultType.references

/-- All definitions that a static type, a default, a descriptor, a call target or a nominal binding of a module refers to. -/
def ModuleTypeFacts.references (facts : ModuleTypeFacts) : List SourceIdentity :=
  facts.globalBindings.flatMap (fun b => b.valueType.references) ++ facts.classes.flatMap ClassTypeFact.references ++
    facts.functions.flatMap (fun f => signatureReferences f.signature) ++
    facts.nominalBindings.flatMap NominalBindingFact.references ++
    facts.attributeSites.flatMap AttributeSiteFact.references ++ facts.callSites.flatMap CallSiteFact.references

/-! ## The closure -/

/-- What a class depends on: itself, its bases and linearized bases, its metaclass, its decorators, and the functions that
implement its methods. -/
def ClassTypeFact.dependencies (c : ClassTypeFact) : List SourceIdentity :=
  c.identity :: (((c.bases ++ c.inheritance.linearizedBases).filterMap BaseReference.asClass).map (·.definition) ++
    c.metaclass.asClass.toList.map (·.definition) ++
    c.decorators.filterMap (·.definition) ++ c.methods.filterMap (·.implementation))

def FunctionTypeFact.dependencies (f : FunctionTypeFact) : List SourceIdentity :=
  f.identity :: f.decorators.filterMap (·.definition)

/-- The region of a diagnostic, unless it is about the whole module. -/
def StrictDiagnostic.region (d : StrictDiagnostic) : Option SourceRange :=
  match d.scope with
  | .module_ => none
  | .definition id => some id.sourceRange
  | .site range => some range

/-- A class or function of a region: it, or one of its decorators, overlaps the region. -/
def InRegion (range : SourceRange) (owner : SourceIdentity × List DecoratorFact) : Prop :=
  overlaps owner.1.sourceRange range = true ∨ ∃ decorator ∈ owner.2, overlaps decorator.expressionRange range = true

namespace ModuleTypeFacts

/-- The classes and functions with what they depend on. -/
def dependencies (facts : ModuleTypeFacts) : List (SourceIdentity × List SourceIdentity) :=
  facts.classes.map (fun c => (c.identity, c.dependencies)) ++ facts.functions.map fun f => (f.identity, f.dependencies)

/-- A suppressed diagnostic is about the whole module, or about a region without a class or function. -/
def WholeModuleIgnored (facts : ModuleTypeFacts) : Prop :=
  ∃ d ∈ facts.diagnostics, d.suppressed = true ∧
    ∀ range, d.region = some range → ∀ owner ∈ facts.owners, ¬InRegion range owner

/-- The ignored definitions: those of the suppressed regions and those the diagnostics name, and the classes and functions
that depend on an ignored definition or on something that overlaps one. -/
inductive IgnoredDefinition (facts : ModuleTypeFacts) : SourceIdentity → Prop where
  | region {d : StrictDiagnostic} {range : SourceRange} {owner : SourceIdentity × List DecoratorFact} :
      d ∈ facts.diagnostics → d.suppressed = true → d.region = some range → owner ∈ facts.owners → InRegion range owner →
      IgnoredDefinition facts owner.1
  | related {d : StrictDiagnostic} {range : SourceRange} {id : SourceIdentity} :
      d ∈ facts.diagnostics → d.suppressed = true → d.region = some range → id ∈ d.relatedDefinitions →
      IgnoredDefinition facts id
  | wholeModule {owner : SourceIdentity × List SourceIdentity} {id : SourceIdentity} :
      owner ∈ facts.dependencies → id ∈ owner.2 → facts.WholeModuleIgnored → id.module_ = facts.module_ →
      IgnoredDefinition facts owner.1
  | dependent {owner : SourceIdentity × List SourceIdentity} {id : SourceIdentity} :
      owner ∈ facts.dependencies → id ∈ owner.2 → IgnoredDefinition facts id → IgnoredDefinition facts owner.1
  | overlapping {owner : SourceIdentity × List SourceIdentity} {id a : SourceIdentity} :
      owner ∈ facts.dependencies → id ∈ owner.2 → IgnoredDefinition facts a → a.module_ = id.module_ →
      overlaps a.sourceRange id.sourceRange = true → id.definitionKind ≠ .module_ → IgnoredDefinition facts owner.1

/-- The ignored closure: the ignored definitions, what overlaps them, and all of an ignored module. -/
def Ignored (facts : ModuleTypeFacts) (id : SourceIdentity) : Prop :=
  (facts.WholeModuleIgnored ∧ id.module_ = facts.module_) ∨ facts.IgnoredDefinition id ∨
    ∃ a, facts.IgnoredDefinition a ∧ a.module_ = id.module_ ∧ overlaps a.sourceRange id.sourceRange = true ∧
      id.definitionKind ≠ .module_

end ModuleTypeFacts

/-! ## Mentions -/

section

variable (ignored : IgnoredDefinitions)

mutual

/-- A static type mentions an ignored definition exactly if one of its references is ignored. -/
theorem valueReferences_eq : ∀ t : StaticType, ignored.valueReferences t = t.references.any ignored.identity
  | .nominalClass reference | .exactClass reference => by
    simp only [IgnoredDefinitions.valueReferences, StaticType.references, any_cons, any_nil, Bool.or_false]
  | .union elements => by
    rw [IgnoredDefinitions.valueReferences, StaticType.references, valuesReference_eq elements]
  | .optional element => by
    rw [IgnoredDefinitions.valueReferences, StaticType.references, valueReferences_eq element]
  | .callable signature => by
    rw [IgnoredDefinitions.valueReferences, StaticType.references, signatureReferences_eq signature]
  | .typeVariable variable_ => by
    rw [IgnoredDefinitions.valueReferences, StaticType.references, typeVariableReferences_eq variable_]
  | .structuralProtocol ⟨definition, _⟩ => by
    cases definition <;> simp [IgnoredDefinitions.valueReferences, StaticType.references]
  | .none | .exactBuiltin _ | .nominalBuiltin _ _ | .numericWidening _ _ | .literal _ | .any | .unknown | .todo
  | .divergent | .unsupported _ _ => by
    simp only [IgnoredDefinitions.valueReferences, StaticType.references, any_nil]

theorem valuesReference_eq : ∀ ts : List StaticType, ignored.valuesReference ts = (typesReferences ts).any ignored.identity
  | [] => by simp only [IgnoredDefinitions.valuesReference, typesReferences, any_nil]
  | t :: ts => by
    rw [IgnoredDefinitions.valuesReference, typesReferences, any_append, valueReferences_eq t, valuesReference_eq ts]

theorem boundReferences_eq : ∀ t : Option StaticType, ignored.boundReferences t = (boundReferences t).any ignored.identity
  | none => by simp only [IgnoredDefinitions.boundReferences, boundReferences, any_nil]
  | some t => by rw [IgnoredDefinitions.boundReferences, boundReferences, valueReferences_eq t]

theorem typeVariableReferences_eq : ∀ v : TypeVariableFact StaticType,
    ignored.typeVariableReferences v = (typeVariableReferences v).any ignored.identity
  | ⟨id, upperBound, constraints⟩ => by
    rw [IgnoredDefinitions.typeVariableReferences, typeVariableReferences, any_cons, any_append,
      boundReferences_eq upperBound, valuesReference_eq constraints, Bool.or_assoc]

theorem signatureReferences_eq : ∀ s : CallableSignature StaticType,
    ignored.signatureReferences s = (signatureReferences s).any ignored.identity
  | ⟨parameters, returnType, _, _⟩ => by
    rw [IgnoredDefinitions.signatureReferences, signatureReferences, any_append, valueReferences_eq returnType,
      parametersReference_eq parameters]

theorem parametersReference_eq : ∀ ps : List (ParameterTypeFact StaticType),
    ignored.parametersReference ps = (parametersReferences ps).any ignored.identity
  | [] => by simp only [IgnoredDefinitions.parametersReference, parametersReferences, any_nil]
  | p :: ps => by
    rw [IgnoredDefinitions.parametersReference, parametersReferences, any_append, parameterReferences_eq p,
      parametersReference_eq ps]

theorem parameterReferences_eq : ∀ p : ParameterTypeFact StaticType,
    ignored.parameterReferences p = (parameterReferences p).any ignored.identity
  | ⟨_, _, valueType, _, default⟩ => by
    rw [IgnoredDefinitions.parameterReferences, parameterReferences, any_append, valueReferences_eq valueType,
      defaultReferences_eq default]

theorem defaultReferences_eq : ∀ d : DefaultFact StaticType,
    ignored.defaultReferences d = (defaultReferences d).any ignored.identity
  | .value valueType _ => by
    rw [IgnoredDefinitions.defaultReferences, defaultReferences, valueReferences_eq valueType]
  | .factory implementation returnType => by
    rw [IgnoredDefinitions.defaultReferences, defaultReferences, any_append, valueReferences_eq returnType]
    cases implementation <;> simp
  | .missing | .unknown => by simp only [IgnoredDefinitions.defaultReferences, defaultReferences, any_nil]

end

/-! ## Rewriting -/

/-- None of the definitions is ignored. -/
def Clean (ids : List SourceIdentity) : Prop :=
  ∀ id ∈ ids, ignored.identity id = false

variable {ignored}

theorem clean_nil : Clean ignored [] :=
  forall_mem_nil _

theorem clean_cons {id : SourceIdentity} {ids : List SourceIdentity} (h : ignored.identity id = false)
    (hids : Clean ignored ids) : Clean ignored (id :: ids) :=
  forall_mem_cons.mpr ⟨h, hids⟩

theorem clean_singleton {id : SourceIdentity} (h : ignored.identity id = false) : Clean ignored [id] :=
  clean_cons h clean_nil

theorem clean_append {as bs : List SourceIdentity} (ha : Clean ignored as) (hb : Clean ignored bs) :
    Clean ignored (as ++ bs) :=
  forall_mem_append.mpr ⟨ha, hb⟩

theorem clean_flatMap {α : Type} {f : α → List SourceIdentity} {as : List α} (h : ∀ a ∈ as, Clean ignored (f a)) :
    Clean ignored (as.flatMap f) :=
  forall_mem_flatMap.mpr h

theorem clean_flatMap_map {α β : Type} {f : β → List SourceIdentity} {g : α → β} {as : List α}
    (h : ∀ a, Clean ignored (f (g a))) : Clean ignored ((as.map g).flatMap f) :=
  clean_flatMap (forall_mem_map.mpr fun a _ => h a)

theorem clean_of_any {ids : List SourceIdentity} (h : ids.any ignored.identity = false) : Clean ignored ids := by
  intro id hid
  exact Bool.eq_false_iff.mpr (any_eq_false.mp h id hid)

theorem clean_type {t : StaticType} (h : ignored.valueReferences t = false) : Clean ignored t.references :=
  clean_of_any ((valueReferences_eq ignored t).symm.trans h)

theorem clean_toList {id : Option SourceIdentity} (h : id.any ignored.identity = false) : Clean ignored id.toList := by
  cases id with
  | none => exact clean_nil
  | some id => exact clean_singleton h

/-- What becomes of a type refers to nothing that is ignored. -/
theorem clean_value (t : StaticType) (full : Bool) : Clean ignored (ignored.value t full).2.references := by
  unfold IgnoredDefinitions.value
  split
  · exact clean_nil
  · next h =>
    rw [Bool.not_eq_true, Bool.or_eq_false_iff] at h
    exact clean_type h.2

theorem clean_default (d : DefaultFact StaticType) (full : Bool) :
    Clean ignored (defaultReferences (ignored.default d full).2) := by
  unfold IgnoredDefinitions.default
  split
  · exact clean_nil
  · split
    · exact clean_nil
    · next h =>
      rw [Bool.not_eq_true, Bool.or_eq_false_iff] at h
      exact clean_of_any ((defaultReferences_eq ignored _).symm.trans h.2)

theorem clean_parameters (ps : List (ParameterTypeFact StaticType)) (full : Bool) :
    Clean ignored (parametersReferences ((ps.map fun p => ignored.parameter p full).map (·.2))) := by
  induction ps with
  | nil => exact clean_nil
  | cons p ps ih => exact clean_append (clean_append (clean_value p.valueType full) (clean_default p.default full)) ih

/-- A demoted signature refers to nothing that is ignored. -/
theorem clean_signature (s : CallableSignature StaticType) (full : Bool) :
    Clean ignored (signatureReferences (ignored.signature s full).2) :=
  clean_append (clean_value s.returnType full) (clean_parameters s.parameters full)

theorem clean_bound {t : Option StaticType} (h : t.any ignored.valueReferences = false) :
    Clean ignored (boundReferences t) := by
  cases t with
  | none => exact clean_nil
  | some t => exact clean_type h

/-- Nor does a demoted descriptor, -/
theorem clean_descriptor (d : DescriptorFact) (full : Bool) : Clean ignored (ignored.descriptor d full).2.references := by
  unfold IgnoredDefinitions.descriptor
  split
  · exact clean_nil
  · next h =>
    simp only [Bool.not_eq_true, Bool.or_eq_false_iff] at h
    obtain ⟨⟨⟨⟨_, htype⟩, hgetter⟩, hsetter⟩, hdeleter⟩ := h
    exact clean_append (clean_append (clean_append (clean_bound htype) (clean_toList hgetter)) (clean_toList hsetter))
      (clean_toList hdeleter)

/-- a demoted class, -/
theorem clean_classFact (c : ClassTypeFact) : Clean ignored (ignored.classFact c).references := by
  refine clean_append (clean_append ?_ ?_) ?_
  · exact clean_flatMap_map fun f =>
      clean_append (clean_append (clean_value _ _) (clean_default _ _)) (clean_descriptor _ _)
  · exact clean_flatMap_map fun m => clean_signature _ _
  · exact clean_flatMap_map fun m => clean_append (clean_value _ _) (clean_descriptor _ _)

theorem clean_nominalBinding {b : NominalBindingFact} (h : ignored.retains b) : Clean ignored b.references := by
  unfold IgnoredDefinitions.retains at h
  simp only [Bool.and_eq_true, Bool.not_eq_true'] at h
  obtain ⟨⟨⟨howner, hreference⟩, hbinding⟩, hscope⟩ := h
  refine clean_append ?_ (clean_cons hreference (clean_cons hbinding (clean_singleton hscope)))
  cases hb : b.owner with
  | function f annotation =>
    rw [hb] at howner
    exact clean_singleton howner
  | field r =>
    rw [hb] at howner
    simp only [IgnoredDefinitions.ownerIgnored, Bool.or_eq_false_iff] at howner
    exact clean_cons howner.1 (clean_singleton howner.2)

/-- an attribute site -/
theorem clean_attributeSite (s : AttributeSiteFact) : Clean ignored (ignored.attributeSite s).references := by
  unfold IgnoredDefinitions.attributeSite
  split
  · refine clean_append (clean_append clean_nil ?_) clean_nil
    cases s.valueType <;> simp only [Option.map_none, Option.map_some, boundReferences, StaticType.references] <;>
      exact clean_nil
  · next h =>
    simp only [Bool.not_eq_true, Bool.or_eq_false_iff] at h
    obtain ⟨⟨⟨_, hreceiver⟩, hvalue⟩, hclass⟩ := h
    refine clean_append (clean_append (clean_type hreceiver) (clean_bound hvalue)) ?_
    cases hc : s.declaringClass with
    | none => exact clean_nil
    | some reference =>
      rw [hc] at hclass
      exact clean_singleton hclass

theorem clean_target {t : CallableTargetFact} (h : ignored.target t = false) : Clean ignored t.references := by
  cases t with
  | sourceFunction id | generated g => exact clean_singleton h
  | method reference name implementation =>
    simp only [IgnoredDefinitions.target, Bool.or_eq_false_iff] at h
    exact clean_cons h.1 (clean_toList h.2)
  | dynamic => exact clean_nil

/-- or a call site. -/
theorem clean_callSite (s : CallSiteFact) : Clean ignored (ignored.callSite s).references := by
  unfold IgnoredDefinitions.callSite
  split
  · refine clean_append (clean_append (clean_append (clean_flatMap fun r hr => ?_) clean_nil) (clean_signature _ _)) clean_nil
    rw [Option.mem_toList, Option.map_eq_some_iff] at hr
    obtain ⟨_, _, rfl⟩ := hr
    exact clean_nil
  · next h =>
    simp only [Bool.not_eq_true, Bool.or_eq_false_iff] at h
    obtain ⟨⟨⟨⟨_, hreceiver⟩, htargets⟩, hsignature⟩, hresult⟩ := h
    refine clean_append (clean_append (clean_append (clean_flatMap fun r hr => ?_) (clean_flatMap fun t ht => ?_)) ?_)
      (clean_type hresult)
    · rw [Option.mem_toList] at hr
      rw [hr] at hreceiver
      exact clean_type hreceiver
    · exact clean_target (Bool.eq_false_iff.mpr (any_eq_false.mp htargets t ht))
    · exact clean_of_any ((signatureReferences_eq ignored _).symm.trans hsignature)

end

/-! ## The computed set is the closure -/

variable {ignored : IgnoredDefinitions}

/-- When an identity is ignored: by its module, itself, or an ignored definition that overlaps it. -/
theorem identity_eq_true {id : SourceIdentity} :
    ignored.identity id ↔ (ignored.wholeModule ∧ id.module_ = ignored.module_) ∨ id ∈ ignored.definitions ∨
      ∃ a ∈ ignored.definitions, a.module_ = id.module_ ∧ overlaps a.sourceRange id.sourceRange ∧
        id.definitionKind ≠ .module_ := by
  simp only [IgnoredDefinitions.identity, Bool.or_eq_true, Bool.and_eq_true, decide_eq_true_eq, or_assoc]

/-- The loop looks at a class exactly for its dependencies. -/
theorem affectsClass_iff {c : ClassTypeFact} :
    affectsClass ignored c ↔ ∃ id ∈ c.dependencies, ignored.identity id := by
  have hmetaclass : c.metaclass.asClass.any (fun reference => ignored.identity reference.definition) =
      (c.metaclass.asClass.toList.map (·.definition)).any ignored.identity := by
    cases c.metaclass.asClass <;> simp
  have hany : affectsClass ignored c = c.dependencies.any ignored.identity := by
    rw [affectsClass, hmetaclass, ClassTypeFact.dependencies]
    simp only [any_cons, any_append, any_map, any_filterMap, Bool.or_assoc]
    rfl
  rw [hany, any_eq_true]

theorem affectsFunction_iff {f : FunctionTypeFact} :
    affectsFunction ignored f ↔ ∃ id ∈ f.dependencies, ignored.identity id := by
  have hany : affectsFunction ignored f = f.dependencies.any ignored.identity := by
    rw [FunctionTypeFact.dependencies]
    simp only [any_cons, any_filterMap]
    rfl
  rw [hany, any_eq_true]

namespace ModuleTypeFacts

variable (facts : ModuleTypeFacts) {id : SourceIdentity}

/-- One round of the loop adds the owners that depend on something ignored. -/
theorem mem_dependents : id ∈ facts.dependents ignored ↔
      ∃ owner ∈ facts.dependencies, owner.1 = id ∧ ∃ dep ∈ owner.2, ignored.identity dep := by
  simp only [dependents, mem_toFinset, mem_append, mem_map, mem_filter, affectsClass_iff,
    affectsFunction_iff, dependencies]
  constructor
  · rintro (⟨c, ⟨hc, hdep⟩, rfl⟩ | ⟨f, ⟨hf, hdep⟩, rfl⟩)
    · exact ⟨_, .inl ⟨c, hc, rfl⟩, rfl, hdep⟩
    · exact ⟨_, .inr ⟨f, hf, rfl⟩, rfl, hdep⟩
  · rintro ⟨_, ⟨c, hc, rfl⟩ | ⟨f, hf, rfl⟩, rfl, hdep⟩
    · exact .inl ⟨c, ⟨hc, hdep⟩, rfl⟩
    · exact .inr ⟨f, ⟨hf, hdep⟩, rfl⟩

/-- The classes and functions of a region, as the code finds them. -/
theorem mem_found {range : SourceRange} {owner : SourceIdentity × List DecoratorFact} :
    owner ∈ facts.owners.filter (fun owner => overlaps owner.1.sourceRange range ||
      owner.2.any fun decorator => overlaps decorator.expressionRange range) ↔ owner ∈ facts.owners ∧ InRegion range owner := by
  rw [mem_filter, Bool.or_eq_true, any_eq_true]
  rfl

/-- What one suppressed diagnostic ignores. -/
def IgnoredBy (d : StrictDiagnostic) (id : SourceIdentity) : Prop :=
  ∃ range, d.region = some range ∧
    ((∃ owner ∈ facts.owners, InRegion range owner ∧ owner.1 = id) ∨ id ∈ d.relatedDefinitions)

/-- One diagnostic adds the definitions of its region, or the whole module if it has none. -/
theorem ignoreDiagnostic_spec (ignored : IgnoredDefinitions) (d : StrictDiagnostic) :
    (facts.ignoreDiagnostic ignored d).module_ = ignored.module_ ∧
      ((facts.ignoreDiagnostic ignored d).wholeModule ↔ ignored.wholeModule ∨
        ∀ range, d.region = some range → ∀ owner ∈ facts.owners, ¬InRegion range owner) ∧
      ∀ id, id ∈ (facts.ignoreDiagnostic ignored d).definitions ↔ id ∈ ignored.definitions ∨ facts.IgnoredBy d id := by
  have hregion : ∀ range, d.region = some range → facts.ignoreDiagnostic ignored d =
      facts.ignoreRegion ignored range d.relatedDefinitions := by
    intro range hrange
    unfold StrictDiagnostic.region at hrange
    unfold ignoreDiagnostic
    split at hrange <;> cases hrange <;> simp only [*]
  cases hd : d.region with
  | none =>
    have hscope : d.scope = .module_ := by
      unfold StrictDiagnostic.region at hd
      split at hd
      · assumption
      · cases hd
      · cases hd
    have heq : facts.ignoreDiagnostic ignored d = { ignored with wholeModule := true } := by
      rw [ignoreDiagnostic, hscope]
    rw [heq]
    refine ⟨rfl, ⟨fun _ => .inr nofun, fun _ => rfl⟩, ?_⟩
    intro id
    refine ⟨.inl, fun h => h.resolve_right ?_⟩
    rintro ⟨range, hrange, _⟩
    rw [hd] at hrange
    cases hrange
  | some range =>
    rw [hregion range hd]
    refine ⟨rfl, ?_, ?_⟩
    · simp only [ignoreRegion, Bool.or_eq_true, List.isEmpty_iff, List.eq_nil_iff_forall_not_mem, mem_found]
      refine or_congr_right ⟨fun h range' hrange' owner howner hin => ?_, fun h owner howner => ?_⟩
      · cases hrange'
        exact h owner ⟨howner, hin⟩
      · exact h range rfl owner howner.1 howner.2
    · intro id
      simp only [ignoreRegion, Finset.mem_union, mem_toFinset, mem_map, mem_found, or_assoc]
      refine or_congr_right ⟨?_, ?_⟩
      · rintro (⟨owner, ⟨howner, hin⟩, rfl⟩ | hrelated)
        · exact ⟨range, hd, .inl ⟨owner, howner, hin, rfl⟩⟩
        · exact ⟨range, hd, .inr hrelated⟩
      · rintro ⟨range', hrange', h⟩
        rw [hd] at hrange'
        cases hrange'
        rcases h with ⟨owner, howner, hin, rfl⟩ | hrelated
        · exact .inl ⟨owner, ⟨howner, hin⟩, rfl⟩
        · exact .inr hrelated

theorem foldl_ignoreDiagnostic_spec (ds : List StrictDiagnostic) (ignored : IgnoredDefinitions) :
    (ds.foldl facts.ignoreDiagnostic ignored).module_ = ignored.module_ ∧
      ((ds.foldl facts.ignoreDiagnostic ignored).wholeModule ↔ ignored.wholeModule ∨
        ∃ d ∈ ds, ∀ range, d.region = some range → ∀ owner ∈ facts.owners, ¬InRegion range owner) ∧
      ∀ id, id ∈ (ds.foldl facts.ignoreDiagnostic ignored).definitions ↔ id ∈ ignored.definitions ∨
        ∃ d ∈ ds, facts.IgnoredBy d id := by
  induction ds generalizing ignored with
  | nil => simp
  | cons d ds ih =>
    obtain ⟨hmodule, hwhole, hmem⟩ := facts.ignoreDiagnostic_spec ignored d
    obtain ⟨hmodule', hwhole', hmem'⟩ := ih (facts.ignoreDiagnostic ignored d)
    rw [foldl_cons]
    refine ⟨hmodule'.trans hmodule, ?_, fun id => ?_⟩
    · rw [hwhole', hwhole, exists_mem_cons_iff, or_assoc]
    · rw [hmem', hmem, exists_mem_cons_iff, or_assoc]

/-- The loop starts from what the suppressed diagnostics name. -/
theorem suppressedDefinitions_spec :
    facts.suppressedDefinitions.module_ = facts.module_ ∧
      (facts.suppressedDefinitions.wholeModule ↔ facts.WholeModuleIgnored) ∧
      ∀ id, id ∈ facts.suppressedDefinitions.definitions ↔
        ∃ d ∈ facts.diagnostics, d.suppressed ∧ facts.IgnoredBy d id := by
  obtain ⟨hmodule, hwhole, hmem⟩ :=
    facts.foldl_ignoreDiagnostic_spec (facts.diagnostics.filter (·.suppressed)) ⟨facts.module_, false, ∅⟩
  refine ⟨hmodule, ?_, fun id => ?_⟩
  · rw [suppressedDefinitions, hwhole, WholeModuleIgnored]
    simp only [Bool.false_eq_true, false_or, mem_filter, and_assoc]
  · rw [suppressedDefinitions, hmem]
    simp only [Finset.notMem_empty, false_or, mem_filter, and_assoc]

theorem ignoredDefinition_of_suppressed (h : id ∈ facts.suppressedDefinitions.definitions) :
    facts.IgnoredDefinition id := by
  obtain ⟨d, hd, hs, range, hrange, ⟨owner, howner, hin, rfl⟩ | hrelated⟩ := (facts.suppressedDefinitions_spec.2.2 id).mp h
  · exact .region hd hs hrange howner hin
  · exact .related hd hs hrange hrelated

/-- The loop ends, and ends closed under dependence. -/
theorem dependents_subset :
    facts.dependents facts.ignoredDefinitions ⊆ facts.ignoredDefinitions.definitions := by
  let U := (facts.dependencies.map (·.1)).toFinset
  have hU : ∀ definitions, facts.dependents { facts.suppressedDefinitions with definitions } ⊆ U := by
    intro definitions id hid
    obtain ⟨owner, howner, rfl, _⟩ := facts.mem_dependents.mp hid
    exact mem_toFinset.mpr (mem_map_of_mem howner)
  have hcard : U.card ≤ facts.classes.length + facts.functions.length := by
    refine (toFinset_card_le _).trans (Nat.le_of_eq ?_)
    simp only [dependencies, length_map, length_append]
  refine Saturate.saturate_closed hU ?_
  have hsub := Finset.card_le_card (Finset.sdiff_subset (s := U) (t := facts.suppressedDefinitions.definitions))
  omega

/-- What a set of ignored definitions ignores is in the closure. -/
theorem ignored_of_identity {definitions : Finset SourceIdentity} (hdefs : ∀ a ∈ definitions, facts.IgnoredDefinition a)
    (h : IgnoredDefinitions.identity { facts.suppressedDefinitions with definitions } id) : facts.Ignored id := by
  obtain ⟨hmodule, hwhole, _⟩ := facts.suppressedDefinitions_spec
  rcases identity_eq_true.mp h with ⟨hw, hid⟩ | hid | ⟨a, ha, hover⟩
  · exact .inl ⟨hwhole.mp hw, hid.trans hmodule⟩
  · exact .inr (.inl (hdefs id hid))
  · exact .inr (.inr ⟨a, hdefs a ha, hover⟩)

/-- A class or function that depends on something in the closure is ignored. -/
theorem ignoredDefinition_of_dependency {owner : SourceIdentity × List SourceIdentity} (howner : owner ∈ facts.dependencies)
    {dep : SourceIdentity} (hdep : dep ∈ owner.2) (h : facts.Ignored dep) : facts.IgnoredDefinition owner.1 := by
  rcases h with ⟨hw, hmodule⟩ | hd | ⟨a, ha, hmodule, hover, hkind⟩
  · exact .wholeModule howner hdep hw hmodule
  · exact .dependent howner hdep hd
  · exact .overlapping howner hdep ha hmodule hover hkind

/-- The loop adds nothing beyond the closure, -/
theorem ignoredDefinition_of_mem (h : id ∈ facts.ignoredDefinitions.definitions) : facts.IgnoredDefinition id := by
  refine Saturate.saturate_sound ?_ _ (fun id hid => facts.ignoredDefinition_of_suppressed hid) id h
  intro definitions hdefs id hid
  obtain ⟨owner, howner, rfl, dep, hdep, hignored⟩ := facts.mem_dependents.mp hid
  exact facts.ignoredDefinition_of_dependency howner hdep (facts.ignored_of_identity hdefs hignored)

/-- and does not end before it has all of it. -/
theorem mem_of_ignoredDefinition (h : facts.IgnoredDefinition id) : id ∈ facts.ignoredDefinitions.definitions := by
  have hseed : facts.suppressedDefinitions.definitions ⊆ facts.ignoredDefinitions.definitions :=
    Saturate.subset_saturate _ _
  obtain ⟨hmodule, hwhole, hmem⟩ := facts.suppressedDefinitions_spec
  have hclosed : ∀ {owner : SourceIdentity × List SourceIdentity} {dep : SourceIdentity}, owner ∈ facts.dependencies →
      dep ∈ owner.2 → facts.ignoredDefinitions.identity dep → owner.1 ∈ facts.ignoredDefinitions.definitions := by
    intro owner dep howner hdep hignored
    exact facts.dependents_subset (facts.mem_dependents.mpr ⟨owner, howner, rfl, dep, hdep, hignored⟩)
  induction h with
  | region hd hs hrange howner hin =>
    exact hseed ((hmem _).mpr ⟨_, hd, hs, _, hrange, .inl ⟨_, howner, hin, rfl⟩⟩)
  | related hd hs hrange hid => exact hseed ((hmem _).mpr ⟨_, hd, hs, _, hrange, .inr hid⟩)
  | wholeModule howner hdep hw hid =>
    exact hclosed howner hdep (identity_eq_true.mpr (.inl ⟨hwhole.mpr hw, hid.trans hmodule.symm⟩))
  | dependent howner hdep _ ih => exact hclosed howner hdep (identity_eq_true.mpr (.inr (.inl ih)))
  | overlapping howner hdep _ hm hover hkind ih =>
    exact hclosed howner hdep (identity_eq_true.mpr (.inr (.inr ⟨_, ih, hm, hover, hkind⟩)))

/-- The code ignores exactly the definitions of the closure. -/
theorem identity_iff_ignored : facts.ignoredDefinitions.identity id ↔ facts.Ignored id := by
  constructor
  · exact facts.ignored_of_identity fun a ha => facts.ignoredDefinition_of_mem ha
  · obtain ⟨hmodule, hwhole, _⟩ := facts.suppressedDefinitions_spec
    rintro (⟨hw, hid⟩ | hid | ⟨a, ha, hover⟩)
    · exact identity_eq_true.mpr (.inl ⟨hwhole.mpr hw, hid.trans hmodule.symm⟩)
    · exact identity_eq_true.mpr (.inr (.inl (facts.mem_of_ignoredDefinition hid)))
    · exact identity_eq_true.mpr (.inr (.inr ⟨a, facts.mem_of_ignoredDefinition ha, hover⟩))

/-- Without a suppressed diagnostic nothing is ignored. -/
theorem not_ignored_of_unsuppressed (h : facts.diagnostics.any (·.suppressed) = false) (id : SourceIdentity) :
    ¬facts.Ignored id := by
  have hnone : ∀ d ∈ facts.diagnostics, d.suppressed ≠ true := by
    intro d hd hs
    exact Bool.eq_false_iff.mp h (any_eq_true.mpr ⟨d, hd, hs⟩)
  have hwhole : ¬facts.WholeModuleIgnored := by
    rintro ⟨d, hd, hs, _⟩
    exact hnone d hd hs
  have hdefinition : ∀ a, ¬facts.IgnoredDefinition a := by
    intro a ha
    induction ha with
    | region hd hs | related hd hs => exact hnone _ hd hs
    | wholeModule _ _ hw => exact hwhole hw
    | dependent _ _ _ ih | overlapping _ _ _ _ _ _ ih => exact ih
  rintro (⟨hw, _⟩ | hid | ⟨a, ha, _⟩)
  · exact hwhole hw
  · exact hdefinition id hid
  · exact hdefinition a ha

end ModuleTypeFacts

/-! ## After the demotion -/

theorem clean_demoted (facts : ModuleTypeFacts) (h : facts.diagnostics.any (·.suppressed)) :
    Clean facts.ignoredDefinitions facts.demoteSuppressedRegions.references := by
  rw [ModuleTypeFacts.demoteSuppressedRegions, h, Bool.not_true]
  refine clean_append (clean_append (clean_append (clean_append (clean_append ?_ ?_) ?_) ?_) ?_) ?_
  · exact clean_flatMap_map fun b => clean_value _ _
  · exact clean_flatMap_map clean_classFact
  · exact clean_flatMap_map fun f => clean_signature _ _
  · exact clean_flatMap fun b hb => clean_nominalBinding (mem_filter.mp hb).2
  · exact clean_flatMap_map clean_attributeSite
  · exact clean_flatMap_map clean_callSite

/-- The demotion leaves what a class depends on. -/
theorem classFact_dependencies (ignored : IgnoredDefinitions) (c : ClassTypeFact) :
    (ignored.classFact c).dependencies = c.dependencies := by
  have hmethods : (c.methods.map fun m => ignored.method m (ignored.identity c.identity)).filterMap (·.implementation) =
      c.methods.filterMap (·.implementation) := by
    rw [filterMap_map]
    rfl
  have hbases : (ignored.classFact c).inheritance.linearizedBases = c.inheritance.linearizedBases := by
    simp only [IgnoredDefinitions.classFact]
    split <;> rfl
  simp only [ClassTypeFact.dependencies, hbases]
  rw [← hmethods]
  rfl

/-- Suppression is closed: after the demotion no static type, default, descriptor, call target or nominal binding of the
module refers to a definition of the ignored closure, and no class that is still a candidate depends on one. -/
theorem demoteSuppressedRegions_closed (facts : ModuleTypeFacts) :
    (∀ id ∈ facts.demoteSuppressedRegions.references, ¬facts.Ignored id) ∧
      ∀ c ∈ facts.demoteSuppressedRegions.classes, c.participation = .candidate → ∀ id ∈ c.dependencies, ¬facts.Ignored id := by
  cases hs : facts.diagnostics.any (·.suppressed) with
  | false =>
    have hnone := facts.not_ignored_of_unsuppressed hs
    exact ⟨fun id _ => hnone id, fun _ _ _ id _ => hnone id⟩
  | true =>
    constructor
    · intro id hid
      rw [← facts.identity_iff_ignored, clean_demoted facts hs id hid]
      exact Bool.false_ne_true
    · intro c hc hcandidate id hid hignored
      rw [ModuleTypeFacts.demoteSuppressedRegions, hs, Bool.not_true] at hc
      obtain ⟨c₀, hc₀, rfl⟩ := mem_map.mp hc
      rw [classFact_dependencies] at hid
      -- the class is ignored with what it depends on, and an ignored class is no candidate
      have howner : (c₀.identity, c₀.dependencies) ∈ facts.dependencies :=
        mem_append_left _ (mem_map_of_mem hc₀)
      have hfull : facts.ignoredDefinitions.identity c₀.identity = true :=
        facts.identity_iff_ignored.mpr (.inr (.inl (facts.ignoredDefinition_of_dependency howner hid hignored)))
      simp only [IgnoredDefinitions.classFact, hfull, if_true] at hcandidate
      cases hp : c₀.participation <;> rw [hp] at hcandidate <;> cases hcandidate

end Soac.Contracts
