import Soac.Contracts.Validate

/-!
# Accepted facts are closed under references

Every mention of a definition in facts that the validator accepts resolves: in the catalogs of the module, within the bounds
of its source and with its digest, or in a listed dependency with the same identity and digest. The one exception are the
binders of type variables, which need not be in a catalog.
-/

namespace Soac.Contracts

open Checks List Option Fallible Context

/-! ## Mentions -/

/-- A mention of a definition, with what its place asks for. -/
inductive Mention where
  /-- A definition of one of the kinds. -/
  | source (id : SourceIdentity) (kinds : List DefinitionKind)
  /-- A definition of one of the kinds, in the source with the digest. -/
  | digested (id : SourceIdentity) (digest : Fingerprint) (kinds : List DefinitionKind)
  /-- A method of a class. -/
  | method (reference : ClassReference) (name : String) (implementation : Option SourceIdentity)
  /-- A method that a class transform generates. -/
  | generated (fact : GeneratedFunctionFact)
  /-- The binder of a type variable. -/
  | binder (id : SourceIdentity)

def anyKind : List DefinitionKind :=
  [.module_, .class_, .function, .lambda, .assignment, .parameter, .typeAlias]

theorem mem_anyKind (kind : DefinitionKind) : kind ∈ anyKind := by
  cases kind <;> decide

def functionKinds : List DefinitionKind :=
  [.function, .lambda]

def binderKinds : List DefinitionKind :=
  [.parameter, .typeAlias, .assignment]

def ClassReference.mention (r : ClassReference) : Mention :=
  .digested r.definition r.sourceDigest [.class_]

def functionMention (id : SourceIdentity) : Mention :=
  .source id functionKinds

mutual

/-- All mentions in a static type, at any depth. -/
def StaticType.mentions : StaticType → List Mention
  | .nominalClass reference | .exactClass reference => [reference.mention]
  | .union elements => typesMentions elements
  | .optional element => element.mentions
  | .callable signature => signatureMentions signature
  | .typeVariable variable_ => typeVariableMentions variable_
  | .structuralProtocol protocol => protocol.definition.toList.map ClassReference.mention
  | .none | .exactBuiltin _ | .nominalBuiltin _ _ | .numericWidening _ _ | .literal _ | .any | .unknown | .todo
  | .divergent | .unsupported _ _ => []

def typesMentions : List StaticType → List Mention
  | [] => []
  | t :: ts => t.mentions ++ typesMentions ts

def boundMentions : Option StaticType → List Mention
  | none => []
  | some t => t.mentions

def typeVariableMentions : TypeVariableFact StaticType → List Mention
  | ⟨id, upperBound, constraints⟩ => .binder id :: (boundMentions upperBound ++ typesMentions constraints)

def signatureMentions : CallableSignature StaticType → List Mention
  | ⟨parameters, returnType, _, _⟩ => parametersMentions parameters ++ returnType.mentions

def parametersMentions : List (ParameterTypeFact StaticType) → List Mention
  | [] => []
  | p :: ps => parameterMentions p ++ parametersMentions ps

def parameterMentions : ParameterTypeFact StaticType → List Mention
  | ⟨_, _, valueType, _, default⟩ => valueType.mentions ++ defaultMentions default

def defaultMentions : DefaultFact StaticType → List Mention
  | .value t _ => t.mentions
  | .factory implementation t => implementation.toList.map functionMention ++ t.mentions
  | .missing | .unknown => []

end

def DescriptorFact.mentions (d : DescriptorFact) : List Mention :=
  boundMentions d.descriptorType ++ (d.getter.toList ++ d.setter.toList ++ d.deleter.toList).map functionMention

def DecoratorFact.mentions (d : DecoratorFact) : List Mention :=
  match d.definition, d.sourceDigest with
  | some id, some digest => [.digested id digest anyKind]
  | some id, none => [.source id anyKind]
  | none, _ => []

def GeneratedFunctionFact.mentions (g : GeneratedFunctionFact) : List Mention :=
  [g.reference.mention, .generated g]

def FieldTypeFact.mentions (f : FieldTypeFact) : List Mention :=
  f.declaringClass.mention :: (f.annotationDefinition.toList.map (Mention.source · [.assignment]) ++ f.valueType.mentions ++
    defaultMentions f.default ++ f.descriptor.mentions)

def MethodTypeFact.mentions (m : MethodTypeFact) : List Mention :=
  m.declaringClass.mention :: (signatureMentions m.signature ++ m.implementation.toList.map functionMention ++
    m.generated.toList.flatMap GeneratedFunctionFact.mentions)

def ClassMemberFact.mentions (m : ClassMemberFact) : List Mention :=
  m.definition.toList.map (Mention.source · anyKind) ++ m.valueType.mentions ++ m.descriptor.mentions

def ClassTransformFact.mentions (t : ClassTransformFact) : List Mention :=
  t.provenance.toList.map (Mention.source · anyKind)

def ClassTypeFact.mentions (c : ClassTypeFact) : List Mention :=
  .source c.identity [.class_] ::
    (((c.bases ++ c.inheritance.linearizedBases).filterMap BaseReference.asClass).map ClassReference.mention ++
      c.metaclass.asClass.toList.map ClassReference.mention ++ c.decorators.flatMap DecoratorFact.mentions ++
      c.instanceFields.flatMap FieldTypeFact.mentions ++ c.methods.flatMap MethodTypeFact.mentions ++
      c.classMembers.flatMap ClassMemberFact.mentions ++ c.transform.toList.flatMap ClassTransformFact.mentions)

def GlobalBindingFact.mentions (b : GlobalBindingFact) : List Mention :=
  b.definition.toList.map (Mention.source · anyKind) ++ b.valueType.mentions

def FunctionTypeFact.mentions (f : FunctionTypeFact) : List Mention :=
  functionMention f.identity :: (signatureMentions f.signature ++ f.decorators.flatMap DecoratorFact.mentions)

def NominalBindingOwner.mentions : NominalBindingOwner → List Mention
  | .function id _ => [functionMention id]
  | .field r => [r.declaringClass.mention, .source r.annotationDefinition [.assignment]]

def NominalBindingFact.mentions (b : NominalBindingFact) : List Mention :=
  b.owner.mentions ++
    [b.reference.mention, .source b.binding [.class_, .assignment], .source b.bindingScope [.module_, .class_, .function]]

/-- The definition that a site is in, with the digest of the site. -/
def siteMention (enclosing : SourceIdentity) (digest : Fingerprint) : Mention :=
  .digested enclosing digest [.module_, .class_, .function, .lambda]

def AttributeSiteFact.mentions (s : AttributeSiteFact) : List Mention :=
  siteMention s.identity.enclosingFunction s.identity.sourceDigest :: (s.receiverType.mentions ++ boundMentions s.valueType ++
    s.declaringClass.toList.map ClassReference.mention)

def CallableTargetFact.mentions : CallableTargetFact → List Mention
  | .sourceFunction id => [functionMention id]
  | .method reference name implementation =>
    reference.mention :: .method reference name implementation :: implementation.toList.map functionMention
  | .generated g => g.mentions
  | .dynamic => []

def CallSiteFact.mentions (s : CallSiteFact) : List Mention :=
  siteMention s.identity.enclosingFunction s.identity.sourceDigest ::
    (s.receiver.toList.flatMap (fun r => r.valueType.mentions) ++ s.candidateTargets.flatMap CallableTargetFact.mentions ++
      signatureMentions s.signature ++ s.resultType.mentions)

def DiagnosticScope.mentions : DiagnosticScope → List Mention
  | .definition id => [.source id anyKind]
  | .module_ | .site _ => []

def StrictDiagnostic.mentions (d : StrictDiagnostic) : List Mention :=
  d.scope.mentions ++ d.relatedDefinitions.map (Mention.source · anyKind)

/-- All mentions in the facts of a module. -/
def ModuleTypeFacts.mentions (facts : ModuleTypeFacts) : List Mention :=
  facts.globalBindings.flatMap GlobalBindingFact.mentions ++ facts.classes.flatMap ClassTypeFact.mentions ++
    facts.functions.flatMap FunctionTypeFact.mentions ++ facts.nominalBindings.flatMap NominalBindingFact.mentions ++
    facts.attributeSites.flatMap AttributeSiteFact.mentions ++ facts.callSites.flatMap CallSiteFact.mentions ++
    facts.diagnostics.flatMap StrictDiagnostic.mentions

/-! ## Resolution -/

def SourceRange.InBounds (r : SourceRange) (size : Nat) : Prop :=
  r.start ≤ r.stop ∧ r.stop ≤ size

namespace ModuleTypeFacts

variable (facts : ModuleTypeFacts)

/-- A definition in the catalog of its kind: the classes, the functions, or what the module and its records define by the
way. -/
def InCatalog (id : SourceIdentity) : Prop :=
  match id.definitionKind with
  | .class_ => id ∈ facts.classes.map (·.identity)
  | .function | .lambda => id ∈ facts.functions.map (·.identity)
  | .module_ | .assignment | .parameter | .typeAlias => id = facts.moduleBodyIdentity ∨ id ∈ facts.lexicalDefinitions

/-- The two ways in which a definition resolves, to a source with a digest. -/
inductive Resolves (id : SourceIdentity) : Fingerprint → Prop
  | inModule (hmodule : id.module_ = facts.module_) (hbounds : id.sourceRange.InBounds facts.sourceSize)
      (hcatalog : facts.InCatalog id) : Resolves id facts.sourceDigest
  | inDependency (d : DependencyFingerprint) (hd : d ∈ facts.consumedDependencies) (hmodule : d.module_ = id.module_)
      (hbounds : id.sourceRange.InBounds d.sourceSize) : Resolves id d.sourceDigest

end ModuleTypeFacts

/-- A mention resolves to a definition of the right kind. For a method or a generated function of a local class this is the
record of the class that it names. -/
def Mention.Resolves (facts : ModuleTypeFacts) : Mention → Prop
  | .source id kinds => id.definitionKind ∈ kinds ∧ ∃ digest, facts.Resolves id digest
  | .digested id digest kinds => id.definitionKind ∈ kinds ∧ facts.Resolves id digest
  | .method reference name implementation => ∀ c ∈ facts.classes, c.identity = reference.definition →
      ∃ m ∈ c.methods, m.name = name ∧ (implementation = none ∨ implementation = m.implementation)
  | .generated g => ∀ c ∈ facts.classes, c.identity = g.reference.definition →
      ∃ t, c.transform = some t ∧ t.kind = g.transform ∧ g.name ∈ t.generatedMethods
  | .binder id => id.definitionKind ∈ binderKinds ∧
      (id.module_ = facts.module_ ∧ id.sourceRange.InBounds facts.sourceSize ∨ ∃ digest, facts.Resolves id digest)

/-! ## What the checks say -/

/-- All mentions of a list resolve. -/
def AllResolve (facts : ModuleTypeFacts) (ms : List Mention) : Prop :=
  ∀ m ∈ ms, m.Resolves facts

section

variable {facts : ModuleTypeFacts} {ms ms' : List Mention} {m : Mention}

@[simp]
theorem allResolve_nil : AllResolve facts [] := by
  intro m hm
  cases hm

@[simp]
theorem allResolve_cons : AllResolve facts (m :: ms) ↔ m.Resolves facts ∧ AllResolve facts ms :=
  forall_mem_cons

theorem allResolve_singleton : AllResolve facts [m] ↔ m.Resolves facts :=
  forall_mem_singleton

@[simp]
theorem allResolve_append : AllResolve facts (ms ++ ms') ↔ AllResolve facts ms ∧ AllResolve facts ms' :=
  forall_mem_append

@[simp]
theorem allResolve_flatMap {α : Type} {f : α → List Mention} {as : List α} :
    AllResolve facts (as.flatMap f) ↔ ∀ a ∈ as, AllResolve facts (f a) := by
  simp only [AllResolve, mem_flatMap]
  exact ⟨fun h a ha m hm => h m ⟨a, ha, hm⟩, fun h m ⟨a, ha, hm⟩ => h a ha m hm⟩

@[simp]
theorem allResolve_map {α : Type} {f : α → Mention} {as : List α} :
    AllResolve facts (as.map f) ↔ ∀ a ∈ as, (f a).Resolves facts :=
  forall_mem_map

end

/-- The catalogs hold what they are for. -/
structure CatalogKinds (facts : ModuleTypeFacts) : Prop where
  classes : ∀ c ∈ facts.classes, c.identity.definitionKind = .class_
  functions : ∀ f ∈ facts.functions, f.identity.definitionKind ∈ functionKinds

/-- A range that passes its check lies in the source. -/
theorem inBounds_of_validateRange {range : SourceRange} {size : Nat} (h : validateRange range size = .ok ()) :
    range.InBounds size := by
  rw [validateRange, reject_eq_ok, Bool.or_eq_false_iff, decide_eq_false_iff_not, decide_eq_false_iff_not] at h
  exact ⟨Nat.not_lt.mp h.1, Nat.not_lt.mp h.2⟩

/-- A definition of the module is in the catalog of its kind. The set of definitions is built before the kinds are checked,
so this needs the kinds of all classes and functions. -/
theorem inCatalog_of_mem_definitions {facts : ModuleTypeFacts} (hkinds : CatalogKinds facts) {id : SourceIdentity}
    (h : id ∈ facts.definitions) : facts.InCatalog id := by
  rw [ModuleTypeFacts.definitions, mem_cons, mem_append, mem_append, mem_filter] at h
  rcases h with rfl | (hclass | hfunction) | ⟨hlexical, hkind⟩
  · exact .inl rfl
  · obtain ⟨c, hc, rfl⟩ := mem_map.mp hclass
    rw [ModuleTypeFacts.InCatalog, hkinds.classes c hc]
    exact hclass
  · obtain ⟨f, hf, rfl⟩ := mem_map.mp hfunction
    have hk := hkinds.functions f hf
    rw [functionKinds, mem_cons, mem_singleton] at hk
    rcases hk with hk | hk <;> rw [ModuleTypeFacts.InCatalog, hk] <;> exact hfunction
  · cases hk : id.definitionKind <;> rw [hk] at hkind <;> simp [DefinitionKind.hasCatalog] at hkind
    all_goals
      rw [ModuleTypeFacts.InCatalog, hk]
      exact .inr hlexical

namespace Context

variable {ctx : Context} {range : SourceRange}

theorem inBounds_of_localRange (h : ctx.localRange range = .ok ()) : range.InBounds ctx.facts.sourceSize := by
  rw [localRange, seq_eq_ok] at h
  exact inBounds_of_validateRange h.1

variable {id : SourceIdentity}

/-- A local definition is of the module and lies in its source. -/
theorem inBounds_of_localDefinition (h : ctx.localDefinition id = .ok ()) :
    id.module_ = ctx.facts.module_ ∧ id.sourceRange.InBounds ctx.facts.sourceSize := by
  rw [localDefinition, seq_eq_ok, seq_eq_ok, seq_eq_ok, reject_not_eq_ok] at h
  exact ⟨h.1, inBounds_of_localRange h.2.2.1⟩

/-- A check of the class that a name stands for speaks about the class with that identity. -/
theorem of_class? {f : ClassTypeFact → Check} (hnodup : (ctx.facts.classes.map (·.identity)).Nodup)
    (h : ifSome f (ctx.class? id) = .ok ()) {c : ClassTypeFact} (hc : c ∈ ctx.facts.classes) (hid : c.identity = id) :
    f c = .ok () :=
  ifSome_eq_ok.mp h c ((find?_key_eq_some_iff hnodup).mpr ⟨hc, hid⟩)

variable (hkinds : CatalogKinds ctx.facts)

include hkinds

/-- A reference that is accepted is to a definition of the module or of a dependency it lists. -/
theorem resolves_of_reference (h : ctx.reference id = .ok ()) :
    (id.module_ = ctx.facts.module_ ∧ ctx.facts.Resolves id ctx.facts.sourceDigest) ∨
      ∃ d, id.module_ ≠ ctx.facts.module_ ∧ ctx.dependency? id.module_.moduleName = some d ∧ d.module_ = id.module_ ∧
        ctx.facts.Resolves id d.sourceDigest := by
  rw [reference, seq_eq_ok, seq_eq_ok] at h
  obtain ⟨_, _, h⟩ := h
  by_cases hmodule : id.module_ = ctx.facts.module_
  · rw [if_pos hmodule, seq_eq_ok, reject_not_eq_ok] at h
    exact .inl ⟨hmodule, .inModule hmodule (inBounds_of_localRange h.1) (inCatalog_of_mem_definitions hkinds h.2)⟩
  · rw [if_neg hmodule] at h
    cases hd : ctx.dependency? id.module_.moduleName with
    | none =>
      rw [hd] at h
      cases h
    | some d =>
      rw [hd] at h
      rw [seq_eq_ok, reject_not_eq_ok] at h
      have hm : d.module_ = id.module_ := h.1.symm
      exact .inr ⟨d, hmodule, rfl, hm, .inDependency d (mem_of_find?_eq_some hd) hm (inBounds_of_validateRange h.2)⟩

variable {kinds : List DefinitionKind}

/-- So it resolves, if its kind is one that its place asks for. -/
theorem source_of_reference (hkind : id.definitionKind ∈ kinds)
    (h : ctx.reference id = .ok ()) : (Mention.source id kinds).Resolves ctx.facts := by
  rcases resolves_of_reference hkinds h with ⟨_, hr⟩ | ⟨d, _, _, _, hr⟩
  · exact ⟨hkind, _, hr⟩
  · exact ⟨hkind, _, hr⟩

variable {digest : Fingerprint}

/-- With the digest that the module of the definition has, it resolves to that source. -/
theorem digested_of_reference
    (hkind : id.definitionKind ∈ kinds) (h : ctx.reference id = .ok ()) (hdigest : ctx.checkDigest id.module_ digest = .ok ()) :
    (Mention.digested id digest kinds).Resolves ctx.facts := by
  refine ⟨hkind, ?_⟩
  rw [checkDigest] at hdigest
  rcases resolves_of_reference hkinds h with ⟨hmodule, hr⟩ | ⟨d, hmodule, hd, hm, hr⟩
  · rw [expectedDigest, if_pos hmodule] at hdigest
    rw [reject_not_eq_ok] at hdigest
    exact hdigest ▸ hr
  · have hexpected : ctx.expectedDigest id.module_ = some d.sourceDigest := by
      rw [expectedDigest, if_neg hmodule, hd, filter_some, if_pos (decide_eq_true hm), map_some]
    rw [hexpected] at hdigest
    rw [reject_not_eq_ok] at hdigest
    exact hdigest ▸ hr

/-- Where any kind will do it resolves. -/
theorem any_of_reference (h : ctx.reference id = .ok ()) : (Mention.source id anyKind).Resolves ctx.facts :=
  source_of_reference hkinds (mem_anyKind _) h

/-- The class of a class reference resolves, with the digest given. -/
theorem mention_of_classReference {c : ClassReference} (h : ctx.classReference c = .ok ()) :
    c.mention.Resolves ctx.facts := by
  rw [classReference, seq_eq_ok, seq_eq_ok, reject_not_eq_ok] at h
  exact digested_of_reference hkinds (mem_singleton.mpr h.1) h.2.1 h.2.2

/-- The function of a function reference resolves. -/
theorem mention_of_functionReference (h : ctx.functionReference id = .ok ()) :
    (functionMention id).Resolves ctx.facts := by
  rw [functionReference, seq_eq_ok, seq_eq_ok] at h
  refine source_of_reference hkinds ?_ h.2.1
  have hkind := h.1
  cases hk : id.definitionKind <;> rw [hk] at hkind <;> first | decide | cases hkind

/-- The definition around a site resolves. -/
theorem mention_of_site {module_ : ModuleContentId} {enclosing : SourceIdentity}
    (h : ctx.site module_ digest enclosing range = .ok ()) : (siteMention enclosing digest).Resolves ctx.facts := by
  rw [site, seq_eq_ok, seq_eq_ok, seq_eq_ok, seq_eq_ok, reject_eq_ok, reject_eq_ok, Bool.or_eq_false_iff,
    decide_eq_false_iff_not, decide_eq_false_iff_not, not_not, not_not] at h
  obtain ⟨⟨rfl, hmodule⟩, hdigest, hreference, hkind, _⟩ := h
  refine digested_of_reference hkinds ?_ hreference (hmodule.symm ▸ hdigest)
  cases hk : enclosing.definitionKind <;> rw [hk] at hkind <;> first | decide | cases hkind

/-- The binder of a type variable is in the module, or resolves as other references do. -/
theorem binder_of_typeVariableIdentity (h : ctx.typeVariableIdentity id = .ok ()) :
    (Mention.binder id).Resolves ctx.facts := by
  have hkind : (if id.module_ = ctx.facts.module_ then ctx.localDefinition id else ctx.reference id) = .ok () ∧
      id.definitionKind ∈ binderKinds := by
    unfold typeVariableIdentity at h
    by_cases hmodule : id.module_ = ctx.facts.module_
    all_goals
      simp only [hmodule, if_true, if_false, seq_eq_ok, reject_eq_ok] at h ⊢
      refine ⟨h.1, ?_⟩
      have hk := h.2
      cases hkind : id.definitionKind <;> rw [hkind] at hk <;> first | decide | cases hk
  refine ⟨hkind.2, ?_⟩
  by_cases hmodule : id.module_ = ctx.facts.module_
  · exact .inl (inBounds_of_localDefinition (by simpa only [hmodule, if_true] using hkind.1))
  · rw [if_neg hmodule] at hkind
    exact .inr (any_of_reference hkinds hkind.1).2

/-! ### Static types -/

set_option linter.unusedSectionVars false in
mutual

/-- All that a type mentions resolves, by the recursion of its check. -/
theorem mentions_of_staticType : ∀ {t : StaticType} {depth : Nat}, ctx.staticType t depth = .ok () →
    AllResolve ctx.facts t.mentions
  | .nominalClass reference, depth, h | .exactClass reference, depth, h => by
    rw [staticType, seq_eq_ok] at h
    exact allResolve_singleton.mpr (mention_of_classReference hkinds h.2)
  | .union elements, depth, h => by
    rw [staticType, seq_eq_ok, seq_eq_ok] at h
    exact mentions_of_staticTypes h.2.2
  | .optional element, depth, h => by
    rw [staticType, seq_eq_ok] at h
    exact mentions_of_staticType (t := element) h.2
  | .callable s, depth, h => by
    rw [staticType, seq_eq_ok] at h
    exact mentions_of_signature h.2
  | .typeVariable v, depth, h => by
    rw [staticType, seq_eq_ok] at h
    exact mentions_of_typeVariable h.2
  | .structuralProtocol protocol, depth, h => by
    rw [staticType, seq_eq_ok, ifSome_eq_ok] at h
    exact allResolve_map.mpr fun r hr => mention_of_classReference hkinds (h.2 r (mem_toList.mp hr))
  | .none, _, _ | .exactBuiltin _, _, _ | .nominalBuiltin _ _, _, _ | .numericWidening _ _, _, _ | .literal _, _, _
  | .any, _, _ | .unknown, _, _ | .todo, _, _ | .divergent, _, _ | .unsupported _ _, _, _ => allResolve_nil

theorem mentions_of_staticTypes : ∀ {ts : List StaticType} {depth : Nat}, ctx.staticTypes ts depth = .ok () →
    AllResolve ctx.facts (typesMentions ts)
  | [], _, _ => allResolve_nil
  | t :: ts, depth, h => by
    rw [staticTypes, seq_eq_ok] at h
    exact allResolve_append.mpr ⟨mentions_of_staticType h.1, mentions_of_staticTypes h.2⟩

/-- The same of a bound, which may be absent. -/
theorem mentions_of_boundType : ∀ {t : Option StaticType} {depth : Nat}, ctx.boundType t depth = .ok () →
    AllResolve ctx.facts (boundMentions t)
  | none, _, _ => allResolve_nil
  | some t, depth, h => mentions_of_staticType (t := t) (by rwa [boundType] at h)

theorem mentions_of_typeVariable : ∀ {v : TypeVariableFact StaticType} {depth : Nat}, ctx.typeVariable v depth = .ok () →
    AllResolve ctx.facts (typeVariableMentions v)
  | ⟨id, bound, constraints⟩, depth, h => by
    rw [typeVariable, seq_eq_ok, seq_eq_ok] at h
    exact allResolve_cons.mpr ⟨binder_of_typeVariableIdentity hkinds h.1,
      allResolve_append.mpr ⟨mentions_of_boundType h.2.1, mentions_of_staticTypes h.2.2⟩⟩

/-- The same of the result and the parameters of a signature. -/
theorem mentions_of_signature : ∀ {s : CallableSignature StaticType} {depth : Nat}, ctx.signature s depth = .ok () →
    AllResolve ctx.facts (signatureMentions s)
  | ⟨parameters, result, _, _⟩, depth, h => by
    rw [signature, seq_eq_ok, seq_eq_ok] at h
    exact allResolve_append.mpr ⟨mentions_of_signatureParameters h.2.1, mentions_of_staticType h.2.2⟩

theorem mentions_of_signatureParameters : ∀ {ps : List (ParameterTypeFact StaticType)} {s : SignatureState} {depth : Nat},
    ctx.signatureParameters ps s depth = .ok () → AllResolve ctx.facts (parametersMentions ps)
  | [], _, _, _ => allResolve_nil
  | p :: ps, s, depth, h => by
    rw [signatureParameters, bind_eq_ok] at h
    obtain ⟨_, hp, hps⟩ := h
    exact allResolve_append.mpr ⟨mentions_of_parameter hp, mentions_of_signatureParameters hps⟩

theorem mentions_of_parameter : ∀ {p : ParameterTypeFact StaticType} {s s' : SignatureState} {depth : Nat},
    ctx.parameter p s depth = .ok s' → AllResolve ctx.facts (parameterMentions p)
  | ⟨_, _, valueType, _, default⟩, s, s', depth, h => by
    rw [parameter, bind_eq_ok] at h
    obtain ⟨_, _, h⟩ := h
    rw [bind_eq_ok] at h
    obtain ⟨_, ht, h⟩ := h
    rw [bind_eq_ok] at h
    obtain ⟨_, hd, _⟩ := h
    exact allResolve_append.mpr ⟨mentions_of_staticType ht, mentions_of_defaultFact hd⟩

/-- The same of a default. -/
theorem mentions_of_defaultFact : ∀ {d : DefaultFact StaticType} {depth : Nat}, ctx.defaultFact d depth = .ok () →
    AllResolve ctx.facts (defaultMentions d)
  | .value t literal, depth, h => by
    rw [defaultFact, seq_eq_ok] at h
    exact mentions_of_staticType h.1
  | .factory implementation t, depth, h => by
    rw [defaultFact, seq_eq_ok, ifSome_eq_ok] at h
    refine allResolve_append.mpr ⟨allResolve_map.mpr fun f hf => ?_, mentions_of_staticType h.2⟩
    exact mention_of_functionReference hkinds (h.1 f (mem_toList.mp hf))
  | .missing, _, _ | .unknown, _, _ => allResolve_nil

end

/-! ### Records -/

/-- The type and the functions of a descriptor resolve. -/
theorem mentions_of_descriptor {d : DescriptorFact} (h : ctx.descriptor d = .ok ()) : AllResolve ctx.facts d.mentions := by
  rw [descriptor, seq_eq_ok, seq_eq_ok, each_eq_ok] at h
  refine allResolve_append.mpr ⟨mentions_of_boundType hkinds h.1, allResolve_map.mpr fun f hf => ?_⟩
  exact mention_of_functionReference hkinds (h.2.1 f hf)

/-- The definition of a decorator, if there is one, resolves, with the digest given. -/
theorem mentions_of_decorator {d : DecoratorFact} (h : ctx.decorator d = .ok ()) : AllResolve ctx.facts d.mentions := by
  rw [decorator, seq_eq_ok, seq_eq_ok] at h
  have hdefinition := h.2.1
  unfold DecoratorFact.mentions
  cases hid : d.definition with
  | none => exact allResolve_nil
  | some id =>
    cases hdigest : d.sourceDigest with
    | none =>
      rw [hid, hdigest] at hdefinition
      cases hdefinition
    | some digest =>
      rw [hid, hdigest, decoratorDefinition, seq_eq_ok] at hdefinition
      exact allResolve_singleton.mpr (digested_of_reference hkinds (mem_anyKind _) hdefinition.1 hdefinition.2)

theorem mentions_of_decorators {ds : List DecoratorFact} (h : each ctx.decorator ds = .ok ()) :
    AllResolve ctx.facts (ds.flatMap DecoratorFact.mentions) :=
  allResolve_flatMap.mpr fun d hd => mentions_of_decorator hkinds (each_eq_ok.mp h d hd)

/-- A definition that may be absent. -/
theorem mentions_of_ifSome_reference {id : Option SourceIdentity} (h : ifSome ctx.reference id = .ok ()) :
    AllResolve ctx.facts (id.toList.map (Mention.source · anyKind)) :=
  allResolve_map.mpr fun a ha => any_of_reference hkinds (ifSome_eq_ok.mp h a (mem_toList.mp ha))

variable {f : FieldTypeFact}

/-- The annotation of a field is an assignment that resolves. -/
theorem mentions_of_fieldAnnotationDefinition (h : ctx.fieldAnnotationDefinition f = .ok ()) :
    AllResolve ctx.facts (f.annotationDefinition.toList.map (Mention.source · [.assignment])) := by
  rw [fieldAnnotationDefinition, ifSome_eq_ok] at h
  refine allResolve_map.mpr fun id hid => ?_
  have hdefinition := h id (mem_toList.mp hid)
  rw [seq_eq_ok, seq_eq_ok] at hdefinition
  refine source_of_reference hkinds ?_ hdefinition.1
  have hkind := hdefinition.2.1
  cases hk : id.definitionKind <;> simp [hk] at hkind ⊢

variable {owner : ClassTypeFact}

/-- A field mentions its class, its annotation, its type, its default and its descriptor. -/
theorem mentions_of_fieldFact (h : ctx.fieldFact owner f = .ok ()) : AllResolve ctx.facts f.mentions := by
  rw [fieldFact, seq_eq_ok, seq_eq_ok, seq_eq_ok, seq_eq_ok, seq_eq_ok, declaringClass, seq_eq_ok] at h
  obtain ⟨⟨hclass, _⟩, hdefinition, htype, hdefault, hdescriptor, _⟩ := h
  rw [FieldTypeFact.mentions, allResolve_cons, allResolve_append, allResolve_append, allResolve_append]
  exact ⟨mention_of_classReference hkinds hclass,
    ⟨⟨mentions_of_fieldAnnotationDefinition hkinds hdefinition, mentions_of_staticType hkinds htype⟩,
      mentions_of_defaultFact hkinds hdefault⟩, mentions_of_descriptor hkinds hdescriptor⟩

/-- A member mentions its definition, its type and its descriptor. -/
theorem mentions_of_memberFact {m : ClassMemberFact} (h : ctx.memberFact m = .ok ()) : AllResolve ctx.facts m.mentions := by
  rw [memberFact, seq_eq_ok, seq_eq_ok] at h
  rw [ClassMemberFact.mentions, allResolve_append, allResolve_append]
  exact ⟨⟨mentions_of_ifSome_reference hkinds h.1, mentions_of_staticType hkinds h.2.1⟩, mentions_of_descriptor hkinds h.2.2⟩

theorem mentions_of_transformFact {t : ClassTransformFact} (h : ctx.transformFact t = .ok ()) :
    AllResolve ctx.facts t.mentions := by
  rw [transformFact, seq_eq_ok] at h
  exact mentions_of_ifSome_reference hkinds h.1

/-- A function is in the catalog itself; its signature and its decorators resolve. -/
theorem mentions_of_functionFact {f : FunctionTypeFact} (hf : f ∈ ctx.facts.functions) (h : ctx.functionFact f = .ok ()) :
    AllResolve ctx.facts f.mentions := by
  rw [functionFact, seq_eq_ok, seq_eq_ok, seq_eq_ok] at h
  obtain ⟨hlocal, _, hsignature, hdecorators⟩ := h
  obtain ⟨hmodule, hbounds⟩ := inBounds_of_localDefinition hlocal
  have hidentity : (functionMention f.identity).Resolves ctx.facts := by
    have hkind := hkinds.functions f hf
    refine ⟨hkind, _, .inModule hmodule hbounds ?_⟩
    rw [functionKinds, mem_cons, mem_singleton] at hkind
    rcases hkind with hkind | hkind <;> rw [ModuleTypeFacts.InCatalog, hkind] <;> exact mem_map_of_mem hf
  rw [FunctionTypeFact.mentions, allResolve_cons, allResolve_append]
  exact ⟨hidentity, mentions_of_signature hkinds hsignature, mentions_of_decorators hkinds hdecorators⟩

/-- A global binding mentions its definition and its type. -/
theorem mentions_of_globalBinding {b : GlobalBindingFact} (h : ctx.globalBinding b = .ok ()) :
    AllResolve ctx.facts b.mentions := by
  rw [globalBinding, seq_eq_ok, seq_eq_ok] at h
  exact allResolve_append.mpr ⟨mentions_of_ifSome_reference hkinds h.1, mentions_of_staticType hkinds h.2.1⟩

/-- An attribute site mentions what is around it, its types and the declaring class. -/
theorem mentions_of_attributeSite {s : AttributeSiteFact} (h : ctx.attributeSite s = .ok ()) :
    AllResolve ctx.facts s.mentions := by
  simp only [attributeSite, seq_eq_ok, ifSome_eq_ok] at h
  obtain ⟨hsite, _, hreceiver, hvalue, hclass⟩ := h
  rw [AttributeSiteFact.mentions, allResolve_cons, allResolve_append, allResolve_append, allResolve_map]
  exact ⟨mention_of_site hkinds hsite, ⟨mentions_of_staticType hkinds hreceiver, mentions_of_boundType hkinds hvalue⟩,
    fun r hr => mention_of_classReference hkinds (hclass r (mem_toList.mp hr))⟩

/-- A diagnostic mentions its scope and the definitions related to it. -/
theorem mentions_of_diagnostic {d : StrictDiagnostic} (h : ctx.diagnostic d = .ok ()) :
    AllResolve ctx.facts d.mentions := by
  simp only [diagnostic, seq_eq_ok, each_eq_ok] at h
  obtain ⟨_, hscope, hrelated, _⟩ := h
  refine allResolve_append.mpr ⟨?_, allResolve_map.mpr fun id hid => any_of_reference hkinds (hrelated id hid)⟩
  unfold diagnosticScope at hscope
  cases hd : d.scope with
  | module_ | site range => exact allResolve_nil
  | definition id =>
    rw [hd] at hscope
    rw [seq_eq_ok, seq_eq_ok] at hscope
    exact allResolve_singleton.mpr (any_of_reference hkinds hscope.2.1)

theorem mentions_of_fieldReference {r : FieldReference} (h : ctx.fieldReference r = .ok f) :
    AllResolve ctx.facts (NominalBindingOwner.field r).mentions := by
  rw [fieldReference, bind_eq_ok] at h
  obtain ⟨_, hclass, h⟩ := h
  rw [bind_eq_ok] at h
  obtain ⟨_, hdefinition, h⟩ := h
  rw [bind_eq_ok] at h
  obtain ⟨_, _, h⟩ := h
  refine allResolve_cons.mpr ⟨mention_of_classReference hkinds hclass, allResolve_singleton.mpr ?_⟩
  cases hc : ctx.class? r.declaringClass.definition with
  | none =>
    rw [hc] at h
    cases h
  | some c =>
    rw [hc] at h
    dsimp only at h
    cases hf : c.instanceFields.find? fun f => f.name = r.name && f.declaringClass = r.declaringClass &&
        f.annotationDefinition = some r.annotationDefinition with
    | none =>
      rw [hf] at h
      cases h
    | some f' =>
      rw [hf] at h
      rw [bind_eq_ok] at h
      obtain ⟨_, hannotation, _⟩ := h
      have hid : f'.annotationDefinition = some r.annotationDefinition := by
        have := List.find?_some hf
        simp only [Bool.and_eq_true, decide_eq_true_eq] at this
        exact this.2
      have hall := mentions_of_fieldAnnotationDefinition hkinds hannotation
      rw [hid] at hall
      exact (allResolve_cons.mp hall).1

/-- The owner of a nominal binding resolves, whichever kind of annotation it has. -/
theorem mentions_of_annotationOf {owner : NominalBindingOwner} {a : Annotation} (h : ctx.annotationOf owner = .ok a) :
    AllResolve ctx.facts owner.mentions := by
  cases owner with
  | function id target =>
    rw [annotationOf, bind_eq_ok] at h
    obtain ⟨_, hfunction, _⟩ := h
    exact allResolve_singleton.mpr (mention_of_functionReference hkinds hfunction)
  | field r =>
    rw [annotationOf, bind_eq_ok] at h
    obtain ⟨_, hfield, _⟩ := h
    exact mentions_of_fieldReference hkinds hfield

/-- A nominal binding mentions its owner, its class, and what binds the name and where. -/
theorem mentions_of_nominalBinding {b : NominalBindingFact} (h : ctx.nominalBinding b = .ok ()) :
    AllResolve ctx.facts b.mentions := by
  rw [nominalBinding, bind_eq_ok] at h
  obtain ⟨a, howner, h⟩ := h
  simp only [seq_eq_ok, nominalScope] at h
  obtain ⟨⟨_, _, _, _, _, hclass, hbinding, hscope, hinvalid, _⟩, _⟩ := h
  rw [reject_eq_ok, invalidBindingScope] at hinvalid
  refine allResolve_append.mpr ⟨mentions_of_annotationOf hkinds howner, ?_⟩
  simp only [Bool.or_eq_false_iff] at hinvalid
  obtain ⟨⟨⟨⟨⟨⟨_, hkind⟩, hscopeKind⟩, _⟩, _⟩, _⟩, _⟩ := hinvalid
  have hb : b.binding.definitionKind ∈ [DefinitionKind.class_, .assignment] := by
    cases hk : b.binding.definitionKind <;> rw [hk] at hkind <;> first | decide | cases hkind
  have hs : b.bindingScope.definitionKind ∈ [DefinitionKind.module_, .class_, .function] := by
    cases hk : b.bindingScope.definitionKind <;> rw [hk] at hscopeKind <;> first | decide | cases hscopeKind
  exact allResolve_cons.mpr ⟨mention_of_classReference hkinds hclass, allResolve_cons.mpr
    ⟨source_of_reference hkinds hb hbinding, allResolve_singleton.mpr (source_of_reference hkinds hs hscope)⟩⟩

variable (hnodup : (ctx.facts.classes.map (·.identity)).Nodup)

include hnodup

/-- A generated function is in the record of its class. -/
theorem mentions_of_generatedFunction {g : GeneratedFunctionFact} (h : ctx.generatedFunction g = .ok ()) :
    AllResolve ctx.facts g.mentions := by
  rw [generatedFunction, seq_eq_ok, seq_eq_ok] at h
  refine allResolve_cons.mpr ⟨mention_of_classReference hkinds h.1, allResolve_singleton.mpr ?_⟩
  intro c hc hid
  have htransform := of_class? hnodup h.2.2 hc hid
  rw [reject_eq_ok, Bool.not_eq_false', Option.any_eq_true] at htransform
  obtain ⟨t, ht, hgenerated⟩ := htransform
  rw [Bool.and_eq_true, decide_eq_true_eq, contains_iff_mem] at hgenerated
  exact ⟨t, ht, hgenerated⟩

/-- What a method comes from, written or generated, resolves. -/
theorem mentions_of_methodOrigin {m : MethodTypeFact} (h : ctx.methodOrigin m = .ok ()) :
    AllResolve ctx.facts (m.implementation.toList.map functionMention) ∧
      AllResolve ctx.facts (m.generated.toList.flatMap GeneratedFunctionFact.mentions) := by
  unfold methodOrigin at h
  cases himplementation : m.implementation with
  | none =>
    refine ⟨allResolve_nil, ?_⟩
    cases hgenerated : m.generated with
    | none => exact allResolve_nil
    | some g =>
      rw [himplementation, hgenerated] at h
      rw [seq_eq_ok] at h
      exact allResolve_append.mpr ⟨mentions_of_generatedFunction hkinds hnodup h.1, allResolve_nil⟩
  | some f =>
    cases hgenerated : m.generated with
    | none =>
      rw [himplementation, hgenerated] at h
      exact ⟨allResolve_singleton.mpr (mention_of_functionReference hkinds h), allResolve_nil⟩
    | some g =>
      rw [himplementation, hgenerated] at h
      cases h

/-- A method mentions its class, its signature and what it comes from. -/
theorem mentions_of_methodFact {m : MethodTypeFact} (h : ctx.methodFact owner m = .ok ()) :
    AllResolve ctx.facts m.mentions := by
  rw [methodFact, seq_eq_ok, seq_eq_ok, seq_eq_ok, declaringClass, seq_eq_ok] at h
  obtain ⟨⟨hclass, _⟩, hsignature, _, horigin⟩ := h
  obtain ⟨himplementation, hgenerated⟩ := mentions_of_methodOrigin hkinds hnodup horigin
  rw [MethodTypeFact.mentions, allResolve_cons, allResolve_append, allResolve_append]
  exact ⟨mention_of_classReference hkinds hclass, ⟨mentions_of_signature hkinds hsignature, himplementation⟩, hgenerated⟩

theorem mentions_of_classFact {c : ClassTypeFact} (hc : c ∈ ctx.facts.classes) (h : ctx.classFact c = .ok ()) :
    AllResolve ctx.facts c.mentions := by
  simp only [classFact, seq_eq_ok, reject_eq_ok, inheritance, each_eq_ok, eachUnique_eq_ok, ifSome_eq_ok] at h
  obtain ⟨hlocal, _, ⟨_, _, _, hbases⟩, hmetaclass, hdecorators, _, hfields, hmethods, hmembers, htransform⟩ := h
  obtain ⟨hmodule, hbounds⟩ := inBounds_of_localDefinition hlocal
  have hidentity : (Mention.source c.identity [.class_]).Resolves ctx.facts := by
    have hkind := hkinds.classes c hc
    refine ⟨mem_singleton.mpr hkind, _, .inModule hmodule hbounds ?_⟩
    rw [ModuleTypeFacts.InCatalog, hkind]
    exact mem_map_of_mem hc
  simp only [ClassTypeFact.mentions, allResolve_cons, allResolve_append, allResolve_map, allResolve_flatMap,
    mem_toList]
  exact ⟨hidentity, ⟨⟨⟨⟨⟨fun b hb => mention_of_classReference hkinds (hbases b hb).1,
    fun r hr => mention_of_classReference hkinds (hmetaclass r hr)⟩,
    fun d hd => mentions_of_decorator hkinds (hdecorators d hd)⟩,
    fun f hf => mentions_of_fieldFact hkinds (hfields.2 f hf).2⟩,
    fun m hm => mentions_of_methodFact hkinds hnodup (hmethods.2 m hm).2⟩,
    fun m hm => mentions_of_memberFact hkinds (hmembers.2 m hm).2⟩,
    fun t ht => mentions_of_transformFact hkinds (htransform t ht)⟩

theorem mentions_of_callTarget {binding : CallBindingFact} {t : CallableTargetFact}
    (h : ctx.callTarget binding t = .ok ()) : AllResolve ctx.facts t.mentions := by
  cases t with
  | sourceFunction id => exact allResolve_singleton.mpr (mention_of_functionReference hkinds h)
  | method reference name implementation =>
    simp only [callTarget, seq_eq_ok] at h
    obtain ⟨hclass, _, himplementation, hmethod⟩ := h
    rw [CallableTargetFact.mentions, allResolve_cons, allResolve_cons, allResolve_map]
    refine ⟨mention_of_classReference hkinds hclass, ?_, fun f hf =>
      mention_of_functionReference hkinds (ifSome_eq_ok.mp himplementation f (mem_toList.mp hf))⟩
    intro c hc hid
    have htarget := of_class? hnodup hmethod hc hid
    unfold methodTarget at htarget
    cases hfind : c.methods.find? (·.name = name) with
    | none =>
      rw [hfind] at htarget
      cases htarget
    | some m =>
      rw [hfind] at htarget
      rw [seq_eq_ok] at htarget
      refine ⟨m, mem_of_find?_eq_some hfind, by simpa using List.find?_some hfind, ?_⟩
      cases implementation with
      | none => exact .inl rfl
      | some f => exact .inr (by simpa using htarget.1)
  | generated g => exact mentions_of_generatedFunction hkinds hnodup h
  | dynamic => exact allResolve_nil

theorem mentions_of_callSite {s : CallSiteFact} (h : ctx.callSite s = .ok ()) : AllResolve ctx.facts s.mentions := by
  simp only [callSite, seq_eq_ok, ifSome_eq_ok, each_eq_ok] at h
  obtain ⟨hsite, hreceiver, _, htargets, _, _, _, hsignature, hresult⟩ := h
  simp only [CallSiteFact.mentions, allResolve_cons, allResolve_append, allResolve_flatMap, mem_toList]
  exact ⟨mention_of_site hkinds hsite, ⟨⟨fun r hr => mentions_of_staticType hkinds (hreceiver r hr),
    fun t ht => mentions_of_callTarget hkinds hnodup (htargets t ht)⟩, mentions_of_signature hkinds hsignature⟩,
    mentions_of_staticType hkinds hresult⟩

end Context

/-! ## The module -/

theorem catalogKinds_of_records {ctx : Context} (h : ctx.records = .ok ()) : CatalogKinds ctx.facts := by
  simp only [records, seq_eq_ok, each_eq_ok, classFact, functionFact, reject_eq_ok] at h
  obtain ⟨_, hclasses, _, hfunctions, _⟩ := h
  constructor
  · intro c hc
    simpa using (hclasses c hc).2.1
  · intro f hf
    have hkind := (hfunctions f hf).2.1
    cases hk : f.identity.definitionKind <;> rw [hk] at hkind <;> first | decide | cases hkind

/-- Every mention of a definition in accepted facts resolves, to a definition of the right kind. -/
theorem validateModuleFacts_mentions_resolve {sha256 : List UInt8 → Fingerprint} {facts : ModuleTypeFacts}
    {source : Option (List UInt8)} (h : validateModuleFacts sha256 facts source = .ok ()) :
    ∀ m ∈ facts.mentions, m.Resolves facts := by
  rw [validateModuleFacts, seq_eq_ok, seq_eq_ok, seq_eq_ok] at h
  obtain ⟨_, hcatalogs, hrecords, _⟩ := h
  have hkinds : CatalogKinds facts := catalogKinds_of_records hrecords
  have hnodup : (facts.classes.map (·.identity)).Nodup := by
    rw [checkCatalogs, seq_eq_ok, eachUnique_eq_ok] at hcatalogs
    exact hcatalogs.1.1
  simp only [records, seq_eq_ok, each_eq_ok, eachUnique_eq_ok] at hrecords
  obtain ⟨hglobals, hclasses, _, hfunctions, hnominal, hattributes, hcalls, hdiagnostics⟩ := hrecords
  change AllResolve facts facts.mentions
  simp only [ModuleTypeFacts.mentions, allResolve_append, allResolve_flatMap]
  exact ⟨⟨⟨⟨⟨⟨fun b hb => mentions_of_globalBinding hkinds (hglobals.2 b hb).2,
    fun c hc => mentions_of_classFact hkinds hnodup hc (hclasses c hc)⟩,
    fun f hf => mentions_of_functionFact hkinds hf (hfunctions f hf)⟩,
    fun b hb => mentions_of_nominalBinding hkinds (hnominal.2 b hb).2⟩,
    fun s hs => mentions_of_attributeSite hkinds (hattributes.2 s hs).2⟩,
    fun s hs => mentions_of_callSite hkinds hnodup (hcalls.2 s hs).2⟩,
    fun d hd => mentions_of_diagnostic hkinds (hdiagnostics d hd)⟩

/-! ### A module with a class, its method, and a generic function -/

def sampleClass : SourceIdentity := ⟨⟨"m", 1⟩, "A", ⟨0, 40⟩, .class_⟩

def sampleMethod : SourceIdentity := ⟨⟨"m", 1⟩, "A.go", ⟨10, 30⟩, .function⟩

def sampleFunction : SourceIdentity := ⟨⟨"m", 1⟩, "f", ⟨50, 90⟩, .function⟩

/-- The binder of `T` in `def f[T](x: A | T)`. -/
def sampleBinder : SourceIdentity := ⟨⟨"m", 1⟩, "f.T", ⟨52, 53⟩, .parameter⟩

def sampleSignature (parameters : List (ParameterTypeFact StaticType)) : CallableSignature StaticType :=
  ⟨parameters, .none, .absent, []⟩

def sampleFacts : ModuleTypeFacts where
  schemaVersion := 7
  module_ := ⟨"m", 1⟩
  sourceDigest := 7
  sourceSize := 100
  sourceDialect := .ordinaryPython
  languagePolicy := ⟨false, false, []⟩
  consumedDependencies := [⟨⟨"lib", 2⟩, 9, 30, 0, 0, none, none⟩]
  globalBindings := [⟨"A", .unknown, .unknown, some sampleClass, []⟩]
  classes := [{
    identity := sampleClass
    bases := [.ofClass ⟨⟨⟨"lib", 2⟩, "Base", ⟨0, 20⟩, .class_⟩, 9⟩]
    metaclass := .builtinType
    decorators := []
    participation := .dynamic [.unknownBase]
    dictionary := .unknown
    instanceFields := []
    methods := [{
      name := "go"
      declaringClass := ⟨sampleClass, 7⟩
      binding := .instance_
      signature := sampleSignature []
      declaredFinal := false
      overridePolicy := .dynamic
      implementation := some sampleMethod
      generated := none
      uncertainty := [] }]
    classMembers := []
    inheritance := ⟨[], false⟩
    openness := .unknown
    transform := none
    uncertainty := [] }]
  functions := [
    ⟨sampleMethod, .synchronous, sampleSignature [], [], []⟩,
    ⟨sampleFunction, .synchronous, sampleSignature [⟨"x", .positionalOrKeyword,
      .union [.nominalClass ⟨sampleClass, 7⟩, .typeVariable ⟨sampleBinder, none, []⟩], .explicit, .missing⟩], [], []⟩]
  nominalBindings := []
  attributeSites := []
  callSites := [{
    identity := ⟨⟨"m", 1⟩, 7, sampleFunction, ⟨60, 70⟩, .attributeCall⟩
    receiver := some ⟨.nominalClass ⟨sampleClass, 7⟩, []⟩
    attributeName := some "go"
    candidateTargets := [.method ⟨sampleClass, 7⟩ "go" (some sampleMethod)]
    binding := .boundInstanceMethod
    signature := sampleSignature []
    resultType := .none
    uncertainty := .openSubclassFamily }]
  diagnostics := []

theorem sampleFacts_mentions_resolve : validateModuleFacts (fun _ => 0) sampleFacts none = .ok () ∧
    sampleFacts.mentions.length = 14 ∧ ∀ m ∈ sampleFacts.mentions, m.Resolves sampleFacts :=
  ⟨by decide +kernel, by decide +kernel, validateModuleFacts_mentions_resolve
    (show validateModuleFacts (fun _ => 0) sampleFacts none = .ok () by decide +kernel)⟩

/-- The binder of a type variable is no definition of a catalog, so a binder of the module need not resolve the way the other
mentions do. -/
theorem validateModuleFacts_binders_resolve_false : ¬ ∀ (sha256 : List UInt8 → Fingerprint) (facts : ModuleTypeFacts)
    (source : Option (List UInt8)), validateModuleFacts sha256 facts source = .ok () →
      ∀ id, Mention.binder id ∈ facts.mentions → ∃ digest, facts.Resolves id digest := by
  intro h
  have hmention : Mention.binder sampleBinder ∈ sampleFacts.mentions := by
    simp [ModuleTypeFacts.mentions, sampleFacts, FunctionTypeFact.mentions, sampleSignature, signatureMentions,
      parametersMentions, parameterMentions, StaticType.mentions, typesMentions, typeVariableMentions]
  obtain ⟨digest, hresolves⟩ := h (fun _ => 0) sampleFacts none (by decide +kernel) sampleBinder hmention
  cases hresolves with
  | inModule _ _ hcatalog =>
    have hnot : ¬ (sampleBinder = sampleFacts.moduleBodyIdentity ∨ sampleBinder ∈ sampleFacts.lexicalDefinitions) := by
      decide +kernel
    exact hnot hcatalog
  | inDependency d hd hmodule _ =>
    have hnot : ∀ d ∈ sampleFacts.consumedDependencies, d.module_ ≠ sampleBinder.module_ := by decide +kernel
    exact hnot d hd hmodule

end Soac.Contracts
