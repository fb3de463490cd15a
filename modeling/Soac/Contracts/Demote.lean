import Soac.Contracts.Facts
import Soac.Lib.Saturate

/-!
# Suppressed regions

`diagnostics.rs`. A suppressed diagnostic takes the proposals about its region out of the facts of a module: the
definitions in the region are ignored, with all that depends on them, and every static type, default, descriptor, call and
annotation that mentions an ignored definition becomes unknown.
-/

namespace Soac.Contracts

def overlaps (left right : SourceRange) : Bool :=
  if left.start = left.stop then right.start ≤ left.start && left.start < right.stop
  else if right.start = right.stop then left.start ≤ right.start && right.start < left.stop
  else left.start < right.stop && right.start < left.stop

structure IgnoredDefinitions where
  module_ : ModuleContentId
  wholeModule : Bool
  definitions : Finset SourceIdentity

namespace IgnoredDefinitions

def identity (ignored : IgnoredDefinitions) (id : SourceIdentity) : Bool :=
  (ignored.wholeModule && id.module_ = ignored.module_) || id ∈ ignored.definitions ||
    decide (∃ a ∈ ignored.definitions, a.module_ = id.module_ ∧ overlaps a.sourceRange id.sourceRange = true ∧
      id.definitionKind ≠ .module_)

/-! ## Mentions of ignored definitions -/

section

variable (ignored : IgnoredDefinitions)

mutual

def valueReferences : StaticType → Bool
  | .nominalClass reference | .exactClass reference => ignored.identity reference.definition
  | .union elements => valuesReference elements
  | .optional element => valueReferences element
  | .callable signature => signatureReferences signature
  | .typeVariable variable_ => typeVariableReferences variable_
  | .structuralProtocol protocol => protocol.definition.any fun reference => ignored.identity reference.definition
  | .none | .exactBuiltin _ | .nominalBuiltin _ _ | .numericWidening _ _ | .literal _ | .any | .unknown | .todo
  | .divergent | .unsupported _ _ => false

def valuesReference : List StaticType → Bool
  | [] => false
  | value :: values => valueReferences value || valuesReference values

def boundReferences : Option StaticType → Bool
  | none => false
  | some value => valueReferences value

def typeVariableReferences : TypeVariableFact StaticType → Bool
  | ⟨id, upperBound, constraints⟩ => ignored.identity id || boundReferences upperBound || valuesReference constraints

def signatureReferences : CallableSignature StaticType → Bool
  | ⟨parameters, returnType, _, _⟩ => valueReferences returnType || parametersReference parameters

def parametersReference : List (ParameterTypeFact StaticType) → Bool
  | [] => false
  | parameter :: parameters => parameterReferences parameter || parametersReference parameters

def parameterReferences : ParameterTypeFact StaticType → Bool
  | ⟨_, _, valueType, _, default⟩ => valueReferences valueType || defaultReferences default

def defaultReferences : DefaultFact StaticType → Bool
  | .value valueType _ => valueReferences valueType
  | .factory implementation returnType => implementation.any ignored.identity || valueReferences returnType
  | .missing | .unknown => false

end

def target : CallableTargetFact → Bool
  | .sourceFunction id => ignored.identity id
  | .method reference _ implementation => ignored.identity reference.definition || implementation.any ignored.identity
  | .generated generated => ignored.identity generated.reference.definition
  | .dynamic => false

/-! ## Rewriting

Each function says whether it took anything away. -/

def value (t : StaticType) (full : Bool) : Bool × StaticType :=
  if full || ignored.valueReferences t then (true, .unknown) else (false, t)

/-- A missing default stays missing. -/
def default (d : DefaultFact StaticType) (full : Bool) : Bool × DefaultFact StaticType :=
  match d with
  | .missing => (false, .missing)
  | d => if full || ignored.defaultReferences d then (true, .unknown) else (false, d)

def parameter (p : ParameterTypeFact StaticType) (full : Bool) : Bool × ParameterTypeFact StaticType :=
  ((ignored.value p.valueType full).1 || (ignored.default p.default full).1,
    { p with valueType := (ignored.value p.valueType full).2, default := (ignored.default p.default full).2 })

def withReason (uncertainty : List UncertaintyReason) (affected : Bool) : List UncertaintyReason :=
  if affected then uncertainty.insert .ignoredDiagnostic else uncertainty

def signature (s : CallableSignature StaticType) (full : Bool) : Bool × CallableSignature StaticType :=
  let parameters := s.parameters.map fun p => ignored.parameter p full
  let affected := (ignored.value s.returnType full).1 || parameters.any (·.1)
  (affected,
    { s with
      parameters := parameters.map (·.2)
      returnType := (ignored.value s.returnType full).2
      uncertainty := withReason s.uncertainty affected })

def descriptor (d : DescriptorFact) (full : Bool) : Bool × DescriptorFact :=
  if full || d.descriptorType.any ignored.valueReferences || d.getter.any ignored.identity ||
      d.setter.any ignored.identity || d.deleter.any ignored.identity then
    (true, { kind := .unknown })
  else (false, d)

def globalBinding (b : GlobalBindingFact) : GlobalBindingFact :=
  let full := ignored.wholeModule || b.definition.any ignored.identity
  { b with
    valueType := (ignored.value b.valueType full).2
    uncertainty := withReason b.uncertainty (ignored.value b.valueType full).1 }

def field (f : FieldTypeFact) (full : Bool) : FieldTypeFact :=
  let full := full || ignored.identity f.declaringClass.definition || f.annotationDefinition.any ignored.identity
  let affected := (ignored.value f.valueType full).1 || (ignored.default f.default full).1 ||
    (ignored.descriptor f.descriptor full).1
  { f with
    valueType := (ignored.value f.valueType full).2
    default := (ignored.default f.default full).2
    descriptor := (ignored.descriptor f.descriptor full).2
    fieldKind := if full then .dynamic else f.fieldKind
    readPolicy := if full then .pythonAttribute else f.readPolicy
    writePolicy := if full then .dynamic else f.writePolicy
    initialization := if full then .unknown else f.initialization
    uncertainty := withReason f.uncertainty affected }

def method (m : MethodTypeFact) (full : Bool) : MethodTypeFact :=
  { m with
    signature := (ignored.signature m.signature full).2
    uncertainty := withReason m.uncertainty (ignored.signature m.signature full).1
    overridePolicy := if full then .dynamic else m.overridePolicy }

def member (m : ClassMemberFact) (full : Bool) : ClassMemberFact :=
  { m with
    valueType := (ignored.value m.valueType full).2
    descriptor := (ignored.descriptor m.descriptor full).2
    uncertainty := withReason m.uncertainty ((ignored.value m.valueType full).1 || (ignored.descriptor m.descriptor full).1)
    kind := if full then .dynamic else m.kind }

def participation : ParticipationProposal → ParticipationProposal
  | .candidate => .dynamic [.ignoredDiagnostic]
  | .dynamic reasons => .dynamic (reasons.insert .ignoredDiagnostic)

def classFact (c : ClassTypeFact) : ClassTypeFact :=
  let full := ignored.identity c.identity
  { c with
    participation := if full then participation c.participation else c.participation
    dictionary := if full then .unknown else c.dictionary
    inheritance := if full then { c.inheritance with complete := false } else c.inheritance
    openness := if full then .unknown else c.openness
    uncertainty := withReason c.uncertainty full
    instanceFields := c.instanceFields.map fun f => ignored.field f full
    methods := c.methods.map fun m => ignored.method m full
    classMembers := c.classMembers.map fun m => ignored.member m full }

def function (f : FunctionTypeFact) : FunctionTypeFact :=
  { f with
    signature := (ignored.signature f.signature (ignored.identity f.identity)).2
    uncertainty := withReason f.uncertainty (ignored.signature f.signature (ignored.identity f.identity)).1 }

def ownerIgnored : NominalBindingOwner → Bool
  | .function function _ => ignored.identity function
  | .field field => ignored.identity field.declaringClass.definition || ignored.identity field.annotationDefinition

/-- Whether a nominal binding stays. -/
def retains (b : NominalBindingFact) : Bool :=
  !ignored.ownerIgnored b.owner && !ignored.identity b.reference.definition && !ignored.identity b.binding &&
    !ignored.identity b.bindingScope

def attributeSite (s : AttributeSiteFact) : AttributeSiteFact :=
  if ignored.identity s.identity.enclosingFunction || ignored.valueReferences s.receiverType ||
      s.valueType.any ignored.valueReferences || s.declaringClass.any (fun reference => ignored.identity reference.definition) then
    { s with
      receiverType := .unknown
      valueType := s.valueType.map fun _ => .unknown
      declaringClass := none
      uncertainty := withReason s.uncertainty true }
  else s

def callSite (s : CallSiteFact) : CallSiteFact :=
  if ignored.identity s.identity.enclosingFunction || s.receiver.any (fun r => ignored.valueReferences r.valueType) ||
      s.candidateTargets.any ignored.target || ignored.signatureReferences s.signature ||
      ignored.valueReferences s.resultType then
    { s with
      receiver := s.receiver.map fun r => ⟨.unknown, withReason r.uncertainty true⟩
      candidateTargets := [.dynamic]
      binding := .dynamic
      signature := (ignored.signature s.signature true).2
      resultType := .unknown
      uncertainty := .dynamic }
  else s

end

end IgnoredDefinitions

/-! ## The ignored definitions -/

namespace ModuleTypeFacts

variable (facts : ModuleTypeFacts)

/-- The classes and functions of a module, with their decorators. -/
def owners : List (SourceIdentity × List DecoratorFact) :=
  facts.classes.map (fun c => (c.identity, c.decorators)) ++ facts.functions.map (fun f => (f.identity, f.decorators))

/-- The classes and functions of a region: without one, the whole module is ignored. -/
def ignoreRegion (ignored : IgnoredDefinitions) (range : SourceRange)
    (related : List SourceIdentity) : IgnoredDefinitions :=
  let found := facts.owners.filter fun owner => overlaps owner.1.sourceRange range ||
    owner.2.any fun decorator => overlaps decorator.expressionRange range
  { ignored with
    wholeModule := ignored.wholeModule || found.isEmpty
    definitions := ignored.definitions ∪ (found.map (·.1)).toFinset ∪ related.toFinset }

def ignoreDiagnostic (ignored : IgnoredDefinitions) (d : StrictDiagnostic) : IgnoredDefinitions :=
  match d.scope with
  | .module_ => { ignored with wholeModule := true }
  | .definition id => facts.ignoreRegion ignored id.sourceRange d.relatedDefinitions
  | .site range => facts.ignoreRegion ignored range d.relatedDefinitions

/-- What the suppressed diagnostics ignore themselves. -/
def suppressedDefinitions : IgnoredDefinitions :=
  (facts.diagnostics.filter (·.suppressed)).foldl facts.ignoreDiagnostic ⟨facts.module_, false, ∅⟩

end ModuleTypeFacts

def affectsClass (ignored : IgnoredDefinitions) (c : ClassTypeFact) : Bool :=
  ignored.identity c.identity ||
    ((c.bases ++ c.inheritance.linearizedBases).filterMap BaseReference.asClass).any (fun base => ignored.identity base.definition) ||
    c.metaclass.asClass.any (fun reference => ignored.identity reference.definition) ||
    c.decorators.any (fun decorator => decorator.definition.any ignored.identity) ||
    c.methods.any fun method => method.implementation.any ignored.identity

def affectsFunction (ignored : IgnoredDefinitions) (f : FunctionTypeFact) : Bool :=
  ignored.identity f.identity || f.decorators.any fun decorator => decorator.definition.any ignored.identity

namespace ModuleTypeFacts

variable (facts : ModuleTypeFacts)

/-- One round of the loop: the classes and functions that depend on an ignored definition. -/
def dependents (ignored : IgnoredDefinitions) : Finset SourceIdentity :=
  ((facts.classes.filter (affectsClass ignored)).map (·.identity) ++
    (facts.functions.filter (affectsFunction ignored)).map (·.identity)).toFinset

/-- All ignored definitions. A round that changes something adds a class or a function, so there are no more rounds than
those, and one to see that nothing changes. -/
def ignoredDefinitions : IgnoredDefinitions :=
  let seeds := facts.suppressedDefinitions
  { seeds with
    definitions := Saturate.saturate (fun definitions => facts.dependents { seeds with definitions })
      (facts.classes.length + facts.functions.length + 1) seeds.definitions }

def demoteSuppressedRegions : ModuleTypeFacts :=
  if !facts.diagnostics.any (·.suppressed) then facts
  else
    let ignored := facts.ignoredDefinitions
    { facts with
      globalBindings := facts.globalBindings.map ignored.globalBinding
      classes := facts.classes.map ignored.classFact
      functions := facts.functions.map ignored.function
      nominalBindings := facts.nominalBindings.filter ignored.retains
      attributeSites := facts.attributeSites.map ignored.attributeSite
      callSites := facts.callSites.map ignored.callSite }

end ModuleTypeFacts

end Soac.Contracts
