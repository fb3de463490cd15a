import Mathlib.Data.List.Basic

/-!
# Facts about a module

The records of `facts.rs` and `identity.rs`: what a checker proposes about the globals, classes, functions and sites of a
module. Records that hold static types are generic in them, so that the type of static types can be built from them. A
`BTreeSet` is the list of its elements.
-/

namespace Soac.Contracts

/-! ## Identities -/

structure ModuleContentId where
  moduleName : String
  sourceHash : UInt64
deriving DecidableEq, Repr

/-- A content fingerprint, as a number. -/
abbrev Fingerprint := Nat

structure SourceRange where
  start : Nat
  stop : Nat
deriving DecidableEq, Repr

def SourceRange.contains (r other : SourceRange) : Bool :=
  r.start ≤ other.start && other.stop ≤ r.stop

inductive DefinitionKind where
  | module_
  | class_
  | function
  | lambda
  | assignment
  | parameter
  | typeAlias
deriving DecidableEq, Repr

/-- A lexical definition in the source. -/
structure SourceIdentity where
  module_ : ModuleContentId
  lexicalQualname : String
  sourceRange : SourceRange
  definitionKind : DefinitionKind
deriving DecidableEq, Repr

structure ClassReference where
  definition : SourceIdentity
  sourceDigest : Fingerprint
deriving DecidableEq, Repr

/-! ## Static types -/

inductive BuiltinType where
  | object
  | bool
  | int
  | float
  | complex
  | str
  | bytes
  | byteArray
  | tuple
  | list
  | dict
  | set
  | frozenSet
  | type
deriving DecidableEq, Repr

inductive LiteralValue where
  | none
  | bool (value : Bool)
  | int (digits : String)
  | floatBits (bits : UInt64)
  | str (value : String)
  | bytes (value : List UInt8)
deriving DecidableEq, Repr

inductive UncertaintyReason where
  | any
  | unknown
  | checkerTodo
  | ignoredDiagnostic
  | unresolvedImport
  | dynamicDecorator
  | dynamicMetaclass
  | dynamicDescriptor
  | unsafeNarrowing
  | unsupportedType
  | openWorld
  | partialInitialization
deriving DecidableEq, Repr

inductive AnnotationOrigin where
  | explicit
  | inferred
  | absent
  | unresolved
deriving DecidableEq, Repr

inductive ParameterKind where
  | positionalOnly
  | positionalOrKeyword
  | varArgs
  | keywordOnly
  | varKeywords
deriving DecidableEq, Repr

inductive UnsupportedTypeKind where
  | mutableGeneric
  | genericAlias
  | intersection
  | typeGuard
  | typeIs
  | typedDict
  | newType
  | recursiveType
  | customInstanceCheck
  | other
deriving DecidableEq, Repr

inductive UnsupportedReasonCode where
  | noRuntimeEnforcement
  | aliasedMutableContents
  | unresolvedTypeArguments
  | checkerNotImplemented
  | unsafeNarrowing
  | userCodeRequired
  | unknownProvenance
deriving DecidableEq, Repr

inductive DefaultFact (T : Type) where
  | missing
  | value (valueType : T) (literal : Option LiteralValue)
  | factory (implementation : Option SourceIdentity) (returnType : T)
  | unknown
deriving DecidableEq

structure ParameterTypeFact (T : Type) where
  name : String
  kind : ParameterKind
  valueType : T
  annotationOrigin : AnnotationOrigin
  default : DefaultFact T
deriving DecidableEq

/-- A signature, its parameters in binding order. -/
structure CallableSignature (T : Type) where
  parameters : List (ParameterTypeFact T)
  returnType : T
  returnAnnotationOrigin : AnnotationOrigin
  uncertainty : List UncertaintyReason
deriving DecidableEq

structure TypeVariableFact (T : Type) where
  identity : SourceIdentity
  upperBound : Option T
  constraints : List T
deriving DecidableEq

structure ProtocolFact where
  definition : Option ClassReference
  runtimeCheckable : Bool
deriving DecidableEq, Repr

inductive StaticType where
  | none
  | exactBuiltin (builtin : BuiltinType)
  | nominalBuiltin (builtin : BuiltinType) (allowSubclasses : Bool)
  | numericWidening (target : BuiltinType) (accepted : List BuiltinType)
  | nominalClass (reference : ClassReference)
  | exactClass (reference : ClassReference)
  | union (elements : List StaticType)
  | optional (element : StaticType)
  | callable (signature : CallableSignature StaticType)
  | literal (value : LiteralValue)
  | typeVariable (variable_ : TypeVariableFact StaticType)
  | structuralProtocol (protocol : ProtocolFact)
  | any
  | unknown
  | todo
  | divergent
  | unsupported (kind : UnsupportedTypeKind) (reason : UnsupportedReasonCode)

/-! ### Equality of static types -/

mutual

def StaticType.beq : StaticType → StaticType → Bool
  | .none, .none | .any, .any | .unknown, .unknown | .todo, .todo | .divergent, .divergent => true
  | .exactBuiltin a, .exactBuiltin b => a = b
  | .nominalBuiltin a allow, .nominalBuiltin b allow' => a = b && allow = allow'
  | .numericWidening a accepted, .numericWidening b accepted' => a = b && accepted = accepted'
  | .nominalClass a, .nominalClass b | .exactClass a, .exactClass b => a = b
  | .union as, .union bs => beqTypes as bs
  | .optional a, .optional b => a.beq b
  | .callable a, .callable b => beqSignature a b
  | .literal a, .literal b => a = b
  | .typeVariable a, .typeVariable b => beqTypeVariable a b
  | .structuralProtocol a, .structuralProtocol b => a = b
  | .unsupported kind reason, .unsupported kind' reason' => kind = kind' && reason = reason'
  | _, _ => false

def beqTypes : List StaticType → List StaticType → Bool
  | [], [] => true
  | a :: as, b :: bs => a.beq b && beqTypes as bs
  | _, _ => false

def beqBound : Option StaticType → Option StaticType → Bool
  | none, none => true
  | some a, some b => a.beq b
  | _, _ => false

def beqTypeVariable : TypeVariableFact StaticType → TypeVariableFact StaticType → Bool
  | ⟨id, bound, constraints⟩, ⟨id', bound', constraints'⟩ => id = id' && beqBound bound bound' && beqTypes constraints constraints'

def beqSignature : CallableSignature StaticType → CallableSignature StaticType → Bool
  | ⟨parameters, result, origin, uncertainty⟩, ⟨parameters', result', origin', uncertainty'⟩ =>
    beqParameters parameters parameters' && result.beq result' && origin = origin' && uncertainty = uncertainty'

def beqParameters : List (ParameterTypeFact StaticType) → List (ParameterTypeFact StaticType) → Bool
  | [], [] => true
  | a :: as, b :: bs => beqParameter a b && beqParameters as bs
  | _, _ => false

def beqParameter : ParameterTypeFact StaticType → ParameterTypeFact StaticType → Bool
  | ⟨name, kind, valueType, origin, default⟩, ⟨name', kind', valueType', origin', default'⟩ =>
    name = name' && kind = kind' && valueType.beq valueType' && origin = origin' && beqDefault default default'

def beqDefault : DefaultFact StaticType → DefaultFact StaticType → Bool
  | .missing, .missing | .unknown, .unknown => true
  | .value a literal, .value b literal' => a.beq b && literal = literal'
  | .factory implementation a, .factory implementation' b => implementation = implementation' && a.beq b
  | _, _ => false

end

mutual

theorem StaticType.beq_iff : ∀ a b : StaticType, a.beq b ↔ a = b
  | .none, b | .exactBuiltin _, b | .nominalBuiltin _ _, b | .numericWidening _ _, b | .nominalClass _, b | .exactClass _, b
  | .literal _, b | .structuralProtocol _, b | .any, b | .unknown, b | .todo, b | .divergent, b | .unsupported _ _, b => by
    cases b <;> simp [StaticType.beq]
  | .union as, b => by cases b <;> simp [StaticType.beq, beqTypes_iff as]
  | .optional a, b => by cases b <;> simp [StaticType.beq, StaticType.beq_iff a]
  | .callable a, b => by cases b <;> simp [StaticType.beq, beqSignature_iff a]
  | .typeVariable a, b => by cases b <;> simp [StaticType.beq, beqTypeVariable_iff a]

theorem beqTypes_iff : ∀ as bs : List StaticType, beqTypes as bs ↔ as = bs
  | [], bs => by cases bs <;> simp [beqTypes]
  | a :: as, bs => by cases bs <;> simp [beqTypes, StaticType.beq_iff a, beqTypes_iff as]

theorem beqBound_iff : ∀ a b : Option StaticType, beqBound a b ↔ a = b
  | none, b => by cases b <;> simp [beqBound]
  | some a, b => by cases b <;> simp [beqBound, StaticType.beq_iff a]

theorem beqTypeVariable_iff : ∀ a b : TypeVariableFact StaticType, beqTypeVariable a b ↔ a = b
  | ⟨_, bound, constraints⟩, ⟨_, _, _⟩ => by
    simp [beqTypeVariable, beqBound_iff bound, beqTypes_iff constraints, and_assoc]

theorem beqSignature_iff : ∀ a b : CallableSignature StaticType, beqSignature a b ↔ a = b
  | ⟨parameters, result, _, _⟩, ⟨_, _, _, _⟩ => by
    simp [beqSignature, beqParameters_iff parameters, StaticType.beq_iff result, and_assoc]

theorem beqParameters_iff : ∀ as bs : List (ParameterTypeFact StaticType), beqParameters as bs ↔ as = bs
  | [], bs => by cases bs <;> simp [beqParameters]
  | a :: as, bs => by cases bs <;> simp [beqParameters, beqParameter_iff a, beqParameters_iff as]

theorem beqParameter_iff : ∀ a b : ParameterTypeFact StaticType, beqParameter a b ↔ a = b
  | ⟨_, _, valueType, _, default⟩, ⟨_, _, _, _, _⟩ => by
    simp [beqParameter, StaticType.beq_iff valueType, beqDefault_iff default, and_assoc]

theorem beqDefault_iff : ∀ a b : DefaultFact StaticType, beqDefault a b ↔ a = b
  | .missing, b | .unknown, b => by cases b <;> simp [beqDefault]
  | .value t _, b => by cases b <;> simp [beqDefault, StaticType.beq_iff t]
  | .factory _ t, b => by cases b <;> simp [beqDefault, StaticType.beq_iff t]

end

instance : DecidableEq StaticType := fun a b => decidable_of_iff _ (StaticType.beq_iff a b)

/-! ## Globals, functions and annotations -/

inductive GlobalMutability where
  | finalAfterSeal
  | explicitlyMutable
  | lateAppendOnly
  | unknown
deriving DecidableEq, Repr

structure GlobalBindingFact where
  name : String
  mutability : GlobalMutability
  valueType : StaticType
  definition : Option SourceIdentity
  uncertainty : List UncertaintyReason
deriving DecidableEq

inductive FunctionKind where
  | synchronous
  | coroutine
  | generator
  | asyncGenerator
deriving DecidableEq, Repr

inductive DecoratorKind where
  | stdlibDataclass
  | typingFinal
  | staticMethod
  | classMethod
  | property
  | stdlibCachedProperty
  | dataclassTransform
  | other
  | unknown
deriving DecidableEq, Repr

structure DecoratorFact where
  kind : DecoratorKind
  expressionRange : SourceRange
  definition : Option SourceIdentity
  sourceDigest : Option Fingerprint
  arguments : List (String × LiteralValue)
  uncertainty : List UncertaintyReason
deriving DecidableEq, Repr

structure FunctionTypeFact where
  identity : SourceIdentity
  functionKind : FunctionKind
  signature : CallableSignature StaticType
  decorators : List DecoratorFact
  uncertainty : List UncertaintyReason
deriving DecidableEq

inductive AnnotationTarget where
  | parameter (index : Nat)
  | return_
deriving DecidableEq, Repr

structure FieldReference where
  declaringClass : ClassReference
  annotationDefinition : SourceIdentity
  name : String
deriving DecidableEq, Repr

inductive NominalBindingOwner where
  | function (function : SourceIdentity) ( annotation : AnnotationTarget)
  | field (field : FieldReference)
deriving DecidableEq, Repr

/-- The lexical binding behind one class name of an annotation. -/
structure NominalBindingFact where
  owner : NominalBindingOwner
  expressionRange : SourceRange
  name : String
  reference : ClassReference
  binding : SourceIdentity
  bindingScope : SourceIdentity
deriving DecidableEq, Repr

/-! ## Classes -/

inductive DynamicClassReason where
  | policyOptOut
  | nonParticipatingMetaclass
  | unknownDecorator
  | frameworkManaged
  | unknownBase
  | mutableBase
  | unsupportedDescriptor
  | customAttributeHooks
  | conflictingLayout
  | ignoredDiagnostic
  | unresolvedAnalysis
deriving DecidableEq, Repr

inductive ParticipationProposal where
  | candidate
  | dynamic (reasons : List DynamicClassReason)
deriving DecidableEq, Repr

inductive ClassDictionarySemantics where
  | dictionaryBearing
  | explicitSlots
  | unknown
deriving DecidableEq, Repr

inductive ClassOpenness where
  | openSubclassFamily
  | declaredFinal
  | unknown
deriving DecidableEq, Repr

inductive MetaclassFact where
  | builtinType
  | ofClass (reference : ClassReference)
  | dynamic
deriving DecidableEq, Repr

def MetaclassFact.asClass : MetaclassFact → Option ClassReference
  | .ofClass reference => some reference
  | .builtinType | .dynamic => none

inductive BaseReference where
  | ofClass (reference : ClassReference)
  | builtin (builtin : BuiltinType)
deriving DecidableEq, Repr

def BaseReference.asClass : BaseReference → Option ClassReference
  | .ofClass reference => some reference
  | .builtin _ => none

structure InheritanceFact where
  linearizedBases : List BaseReference
  complete : Bool
deriving DecidableEq, Repr

inductive FieldKind where
  | instanceField
  | callableInstanceField
  | shadowableClassDefault
  | cachedDescriptorField
  | classVariable
  | initOnly
  | frameworkPrivate
  | dynamic
deriving DecidableEq, Repr

inductive FieldReadPolicy where
  | pythonAttribute
  | instanceThenClassDefault
  | descriptorFirst
  | cachedDescriptor
deriving DecidableEq, Repr

inductive FieldWritePolicy where
  | pythonAttribute
  | declaredField
  | descriptor
  | classVariableRejected
  | initOnly
  | dynamic
deriving DecidableEq, Repr

inductive InitializationPolicy where
  | mayBeAbsent
  | initializedByConstructor
  | descriptorManaged
  | unknown
deriving DecidableEq, Repr

inductive DescriptorKind where
  | none
  | property
  | nonData
  | data
  | stdlibCachedProperty
  | unknown
deriving DecidableEq, Repr

structure DescriptorFact where
  kind : DescriptorKind := .none
  descriptorType : Option StaticType := none
  getter : Option SourceIdentity := none
  setter : Option SourceIdentity := none
  deleter : Option SourceIdentity := none
deriving DecidableEq

structure FieldTypeFact where
  name : String
  declaringClass : ClassReference
  valueType : StaticType
  annotationOrigin : AnnotationOrigin
  annotationDefinition : Option SourceIdentity
  fieldKind : FieldKind
  readPolicy : FieldReadPolicy
  writePolicy : FieldWritePolicy
  initialization : InitializationPolicy
  default : DefaultFact StaticType
  descriptor : DescriptorFact
  uncertainty : List UncertaintyReason
deriving DecidableEq

inductive MethodBinding where
  | instance_
  | class_
  | static
  | propertyGetter
  | descriptor
deriving DecidableEq, Repr

inductive OverridePolicy where
  | compatibleSignatureRequired
  | declaredFinal
  | dynamic
deriving DecidableEq, Repr

inductive TransformKind where
  | stdlibDataclass
  | dataclassTransform
  | unsupportedFramework
deriving DecidableEq, Repr

structure GeneratedFunctionFact where
  reference : ClassReference
  transform : TransformKind
  name : String
deriving DecidableEq, Repr

structure MethodTypeFact where
  name : String
  declaringClass : ClassReference
  binding : MethodBinding
  signature : CallableSignature StaticType
  declaredFinal : Bool
  overridePolicy : OverridePolicy
  implementation : Option SourceIdentity
  generated : Option GeneratedFunctionFact
  uncertainty : List UncertaintyReason
deriving DecidableEq

inductive ClassMemberKind where
  | classVariable
  | shadowableDefault
  | nestedClass
  | descriptor
  | dynamic
deriving DecidableEq, Repr

structure ClassMemberFact where
  name : String
  kind : ClassMemberKind
  valueType : StaticType
  definition : Option SourceIdentity
  descriptor : DescriptorFact
  uncertainty : List UncertaintyReason
deriving DecidableEq

structure DataclassOptions where
  init : Bool := true
  repr : Bool := true
  eq : Bool := true
  order : Bool := false
  unsafeHash : Bool := false
  frozen : Bool := false
  matchArgs : Bool := true
  kwOnly : Bool := false
  slots : Bool := false
  weakrefSlot : Bool := false
deriving DecidableEq, Repr

structure ClassTransformFact where
  kind : TransformKind
  provenance : Option SourceIdentity
  dataclassOptions : Option DataclassOptions
  generatedMethods : List String
deriving DecidableEq, Repr

structure ClassTypeFact where
  identity : SourceIdentity
  bases : List BaseReference
  metaclass : MetaclassFact
  decorators : List DecoratorFact
  participation : ParticipationProposal
  dictionary : ClassDictionarySemantics
  instanceFields : List FieldTypeFact
  methods : List MethodTypeFact
  classMembers : List ClassMemberFact
  inheritance : InheritanceFact
  openness : ClassOpenness
  transform : Option ClassTransformFact
  uncertainty : List UncertaintyReason
deriving DecidableEq

/-! ## Sites -/

inductive CallExpressionKind where
  | call
  | attributeCall
  | superCall
deriving DecidableEq, Repr

structure CallSiteIdentity where
  module_ : ModuleContentId
  sourceDigest : Fingerprint
  enclosingFunction : SourceIdentity
  expressionRange : SourceRange
  expressionKind : CallExpressionKind
deriving DecidableEq, Repr

structure AttributeSiteIdentity where
  module_ : ModuleContentId
  sourceDigest : Fingerprint
  enclosingFunction : SourceIdentity
  expressionRange : SourceRange
deriving DecidableEq, Repr

structure ReceiverTypeFact where
  valueType : StaticType
  uncertainty : List UncertaintyReason
deriving DecidableEq

inductive CallBindingFact where
  | unboundFunction
  | boundInstanceMethod
  | boundClassMethod
  | staticMethod
  | callableInstanceField
  | descriptor
  | dynamic
deriving DecidableEq, Repr

inductive CallableTargetFact where
  | sourceFunction (identity : SourceIdentity)
  | method (reference : ClassReference) (name : String) (implementation : Option SourceIdentity)
  | generated (generated : GeneratedFunctionFact)
  | dynamic
deriving DecidableEq, Repr

inductive CallUncertainty where
  | exactStaticTarget
  | openSubclassFamily
  | finiteUnion
  | callableInstanceField
  | customDescriptor
  | structuralProtocol
  | dynamic
deriving DecidableEq, Repr

structure CallSiteFact where
  identity : CallSiteIdentity
  receiver : Option ReceiverTypeFact
  attributeName : Option String
  candidateTargets : List CallableTargetFact
  binding : CallBindingFact
  signature : CallableSignature StaticType
  resultType : StaticType
  uncertainty : CallUncertainty
deriving DecidableEq

inductive AttributeAccess where
  | read
  | write
  | delete
deriving DecidableEq, Repr

structure AttributeSiteFact where
  identity : AttributeSiteIdentity
  name : String
  access : AttributeAccess
  receiverType : StaticType
  valueType : Option StaticType
  declaringClass : Option ClassReference
  uncertainty : List UncertaintyReason
deriving DecidableEq

/-! ## Diagnostics and the module -/

inductive DiagnosticCode where
  | strictFinalGlobalRebind
  | strictFinalGlobalDelete
  | strictClassMutation
  | strictFinalClassSubclass
  | strictFinalMethodOverride
  | strictInstanceMethodShadow
  | strictClassvarInstanceWrite
  | strictUndeclaredField
  | strictIncompatibleFieldWrite
  | strictIncompatibleOverride
  | strictDictReplacement
  | strictUnsupportedMetaclass
  | strictUnsupportedDecorator
  | strictUnsupportedDescriptor
  | strictLayoutInheritanceConflict
  | strictUncheckedDynamicType
  | strictConstructionContractMismatch
  | checkerError
deriving DecidableEq, Repr

inductive DiagnosticSeverity where
  | information
  | warning
  | error
deriving DecidableEq, Repr

inductive DiagnosticScope where
  | module_
  | definition (identity : SourceIdentity)
  | site (range : SourceRange)
deriving DecidableEq, Repr

structure StrictDiagnostic where
  code : DiagnosticCode
  severity : DiagnosticSeverity
  sourceRange : SourceRange
  scope : DiagnosticScope
  relatedDefinitions : List SourceIdentity
  suppressed : Bool
  message : String
deriving DecidableEq, Repr

inductive SourceDialect where
  | ordinaryPython
  | soacStrict
deriving DecidableEq, Repr

/-- A source comment on one class declaration. -/
structure ClassPolicyOverride where
  classRange : SourceRange
  checkedAttr : Bool
deriving DecidableEq, Repr

structure ResolvedStrictPolicy where
  strictAssign : Bool
  checkedAttr : Bool
  classOverrides : List ClassPolicyOverride
deriving DecidableEq, Repr

namespace ResolvedStrictPolicy

def isSelected (policy : ResolvedStrictPolicy) : Bool :=
  policy.strictAssign || policy.checkedAttr || policy.classOverrides.any (·.checkedAttr)

def checkedAttributes (policy : ResolvedStrictPolicy) (classRange : SourceRange) : Bool :=
  ((policy.classOverrides.find? (·.classRange = classRange)).map (·.checkedAttr)).getD policy.checkedAttr

end ResolvedStrictPolicy

/-- What a shard says about a module it depends on. -/
structure DependencyFingerprint where
  module_ : ModuleContentId
  sourceDigest : Fingerprint
  sourceSize : Nat
  importResolution : Fingerprint
  effectiveConfiguration : Fingerprint
  strictPolicy : Option Fingerprint
  typeContract : Option Fingerprint
deriving DecidableEq, Repr

structure ModuleTypeFacts where
  schemaVersion : Nat
  module_ : ModuleContentId
  sourceDigest : Fingerprint
  sourceSize : Nat
  sourceDialect : SourceDialect
  languagePolicy : ResolvedStrictPolicy
  consumedDependencies : List DependencyFingerprint
  globalBindings : List GlobalBindingFact
  classes : List ClassTypeFact
  functions : List FunctionTypeFact
  nominalBindings : List NominalBindingFact
  attributeSites : List AttributeSiteFact
  callSites : List CallSiteFact
  diagnostics : List StrictDiagnostic
deriving DecidableEq

/-- The definition of the module itself. -/
def ModuleTypeFacts.moduleBodyIdentity (facts : ModuleTypeFacts) : SourceIdentity where
  module_ := facts.module_
  lexicalQualname := "<module>"
  sourceRange := ⟨0, facts.sourceSize⟩
  definitionKind := .module_

end Soac.Contracts
