import Soac.Contracts.Demote
import Soac.Lib.TokenOrder

/-!
# The canonical form of the facts of a module

`canonicalize_module` of `validation.rs`: the catalogs are sorted, the static types normalized, and the suppressed regions
demoted. The orders are the derived ones of the records.
-/

namespace Soac.Contracts

/-- The errors of `error.rs`. -/
inductive ContractError where
  | encoding (message : String)
  | sizeLimit (kind : String) (limit : Nat)
  | nonCanonicalEncoding
  | versionMismatch (kind : String) (expected found : Nat)
  | untrustedSignature
  | generationMismatch
  | environmentMismatch (field : String)
  | invalidPolicy (message : String)
  | invalidStructure (message : String)
  | invalidSourceIdentity (message : String)
  | invalidType (message : String)
  | blockingDiagnostic (message : String)
  | sourceMismatch (moduleName : String)
  | dependencyMismatch (moduleName : String)
  | shardMismatch (moduleName : String)
deriving DecidableEq, Repr

/-! ## Orders

The derived orders: a record by its fields, a variant by its place in the declaration and then by its fields. -/

open Tokens (tokens)

instance : Tokens DefinitionKind := ⟨fun a => [a.ctorIdx]⟩

instance : Tokens BuiltinType := ⟨fun a => [a.ctorIdx]⟩

instance : Tokens UncertaintyReason := ⟨fun a => [a.ctorIdx]⟩

instance : Tokens AnnotationOrigin := ⟨fun a => [a.ctorIdx]⟩

instance : Tokens ParameterKind := ⟨fun a => [a.ctorIdx]⟩

instance : Tokens UnsupportedTypeKind := ⟨fun a => [a.ctorIdx]⟩

instance : Tokens UnsupportedReasonCode := ⟨fun a => [a.ctorIdx]⟩

instance : Tokens TransformKind := ⟨fun a => [a.ctorIdx]⟩

instance : Tokens CallExpressionKind := ⟨fun a => [a.ctorIdx]⟩

instance : Tokens DiagnosticCode := ⟨fun a => [a.ctorIdx]⟩

instance : Tokens DiagnosticSeverity := ⟨fun a => [a.ctorIdx]⟩

instance : Tokens ModuleContentId := ⟨fun m => tokens m.moduleName ++ tokens m.sourceHash⟩

instance : Tokens SourceRange := ⟨fun r => [r.start, r.stop]⟩

instance : Tokens SourceIdentity :=
  ⟨fun id => tokens id.module_ ++ tokens id.lexicalQualname ++ tokens id.sourceRange ++ tokens id.definitionKind⟩

instance : Tokens ClassReference := ⟨fun r => tokens r.definition ++ [r.sourceDigest]⟩

instance : Tokens LiteralValue :=
  ⟨fun
    | .none => [0]
    | .bool value => 1 :: tokens value
    | .int digits => 2 :: tokens digits
    | .floatBits bits => 3 :: tokens bits
    | .str value => 4 :: tokens value
    | .bytes value => 5 :: tokens value⟩

instance : Tokens ProtocolFact := ⟨fun p => tokens p.definition ++ tokens p.runtimeCheckable⟩

mutual

def typeTokens : StaticType → List Nat
  | .none => [0]
  | .exactBuiltin builtin => 1 :: tokens builtin
  | .nominalBuiltin builtin allowSubclasses => 2 :: (tokens builtin ++ tokens allowSubclasses)
  | .numericWidening target accepted => 3 :: (tokens target ++ tokens accepted)
  | .nominalClass reference => 4 :: tokens reference
  | .exactClass reference => 5 :: tokens reference
  | .union elements => 6 :: typesTokens elements
  | .optional element => 7 :: typeTokens element
  | .callable signature => 8 :: signatureTokens signature
  | .literal value => 9 :: tokens value
  | .typeVariable variable_ => 10 :: typeVariableTokens variable_
  | .structuralProtocol protocol => 11 :: tokens protocol
  | .any => [12]
  | .unknown => [13]
  | .todo => [14]
  | .divergent => [15]
  | .unsupported kind reason => 16 :: (tokens kind ++ tokens reason)

def typesTokens : List StaticType → List Nat
  | [] => [0]
  | t :: ts => 1 :: (typeTokens t ++ typesTokens ts)

def boundTokens : Option StaticType → List Nat
  | none => [0]
  | some t => 1 :: typeTokens t

def typeVariableTokens : TypeVariableFact StaticType → List Nat
  | ⟨id, bound, constraints⟩ => tokens id ++ boundTokens bound ++ typesTokens constraints

def signatureTokens : CallableSignature StaticType → List Nat
  | ⟨parameters, result, origin, uncertainty⟩ =>
    parametersTokens parameters ++ typeTokens result ++ tokens origin ++ tokens uncertainty

def parametersTokens : List (ParameterTypeFact StaticType) → List Nat
  | [] => [0]
  | p :: ps => 1 :: (parameterTokens p ++ parametersTokens ps)

def parameterTokens : ParameterTypeFact StaticType → List Nat
  | ⟨name, kind, valueType, origin, default⟩ =>
    tokens name ++ tokens kind ++ typeTokens valueType ++ tokens origin ++ defaultTokens default

def defaultTokens : DefaultFact StaticType → List Nat
  | .missing => [0]
  | .value t literal => 1 :: (typeTokens t ++ tokens literal)
  | .factory implementation t => 2 :: (tokens implementation ++ typeTokens t)
  | .unknown => [3]

end

instance : Tokens StaticType := ⟨typeTokens⟩

instance : Tokens AnnotationTarget :=
  ⟨fun
    | .parameter index => [0, index]
    | .return_ => [1]⟩

instance : Tokens FieldReference := ⟨fun f => tokens f.declaringClass ++ tokens f.annotationDefinition ++ tokens f.name⟩

instance : Tokens NominalBindingOwner :=
  ⟨fun
    | .function function target => 0 :: (tokens function ++ tokens target)
    | .field field => 1 :: tokens field⟩

instance : Tokens NominalBindingFact :=
  ⟨fun b => tokens b.owner ++ tokens b.expressionRange ++ tokens b.name ++ tokens b.reference ++ tokens b.binding ++
    tokens b.bindingScope⟩

instance : Tokens GeneratedFunctionFact := ⟨fun g => tokens g.reference ++ tokens g.transform ++ tokens g.name⟩

instance : Tokens CallableTargetFact :=
  ⟨fun
    | .sourceFunction id => 0 :: tokens id
    | .method reference name implementation => 1 :: (tokens reference ++ tokens name ++ tokens implementation)
    | .generated generated => 2 :: tokens generated
    | .dynamic => [3]⟩

instance : Tokens CallSiteIdentity :=
  ⟨fun s => tokens s.module_ ++ [s.sourceDigest] ++ tokens s.enclosingFunction ++ tokens s.expressionRange ++
    tokens s.expressionKind⟩

instance : Tokens AttributeSiteIdentity :=
  ⟨fun s => tokens s.module_ ++ [s.sourceDigest] ++ tokens s.enclosingFunction ++ tokens s.expressionRange⟩

instance : Tokens DiagnosticScope :=
  ⟨fun
    | .module_ => [0]
    | .definition id => 1 :: tokens id
    | .site range => 2 :: tokens range⟩

instance : Tokens StrictDiagnostic :=
  ⟨fun d => tokens d.code ++ tokens d.severity ++ tokens d.sourceRange ++ tokens d.scope ++ tokens d.relatedDefinitions ++
    tokens d.suppressed ++ tokens d.message⟩

instance : Tokens ClassPolicyOverride := ⟨fun o => tokens o.classRange ++ tokens o.checkedAttr⟩

/-! ## Static types -/

/-- The members of a union, or the type itself. -/
def StaticType.members : StaticType → List StaticType
  | .union elements => elements
  | t => [t]

/-- The union of normalized types: nested unions are spliced in, and a single member stands for itself. -/
def normalizedUnion (normalized : List StaticType) : StaticType :=
  match collectSet (normalized.flatMap StaticType.members) with
  | [t] => t
  | ts => .union ts

def tooDeep : ContractError :=
  .invalidType "type nesting exceeds 64"

mutual

def StaticType.normalizeAtDepth : StaticType → Nat → Except ContractError StaticType
  | .optional element, depth =>
    if 64 < depth then .error tooDeep
    -- The type is normalized as a union with `None`, one level down.
    else if 64 < depth + 1 then .error tooDeep
    else do
      let element ← element.normalizeAtDepth (depth + 2)
      return normalizedUnion [element, .none]
  | .union elements, depth =>
    if 64 < depth then .error tooDeep
    else if elements.isEmpty then .error (.invalidType "empty union")
    else do
      let elements ← normalizeTypes elements (depth + 1)
      return normalizedUnion elements
  | .literal .none, depth => if 64 < depth then .error tooDeep else .ok .none
  | .callable signature, depth =>
    if 64 < depth then .error tooDeep
    else do
      let signature ← normalizeSignature signature (depth + 1)
      return .callable signature
  | .typeVariable variable_, depth =>
    if 64 < depth then .error tooDeep
    else do
      let variable_ ← normalizeTypeVariable variable_ (depth + 1)
      return .typeVariable variable_
  | t, depth => if 64 < depth then .error tooDeep else .ok t

def normalizeTypes : List StaticType → Nat → Except ContractError (List StaticType)
  | [], _ => .ok []
  | t :: ts, depth => do
    let t ← t.normalizeAtDepth depth
    let ts ← normalizeTypes ts depth
    return t :: ts

def normalizeBound : Option StaticType → Nat → Except ContractError (Option StaticType)
  | none, _ => .ok none
  | some t, depth => do
    let t ← t.normalizeAtDepth depth
    return some t

def normalizeTypeVariable : TypeVariableFact StaticType → Nat → Except ContractError (TypeVariableFact StaticType)
  | ⟨id, bound, constraints⟩, depth => do
    let bound ← normalizeBound bound depth
    let constraints ← normalizeTypes constraints depth
    return ⟨id, bound, collectSet constraints⟩

def normalizeSignature : CallableSignature StaticType → Nat → Except ContractError (CallableSignature StaticType)
  | ⟨parameters, result, origin, uncertainty⟩, depth => do
    let result ← result.normalizeAtDepth (depth + 1)
    let parameters ← normalizeParameters parameters (depth + 1)
    return ⟨parameters, result, origin, uncertainty⟩

def normalizeParameters :
    List (ParameterTypeFact StaticType) → Nat → Except ContractError (List (ParameterTypeFact StaticType))
  | [], _ => .ok []
  | p :: ps, depth => do
    let p ← normalizeParameter p depth
    let ps ← normalizeParameters ps depth
    return p :: ps

def normalizeParameter : ParameterTypeFact StaticType → Nat → Except ContractError (ParameterTypeFact StaticType)
  | ⟨name, kind, valueType, origin, default⟩, depth => do
    let valueType ← valueType.normalizeAtDepth depth
    let default ← normalizeDefault default depth
    return ⟨name, kind, valueType, origin, default⟩

def normalizeDefault : DefaultFact StaticType → Nat → Except ContractError (DefaultFact StaticType)
  | .value t literal, depth => do
    let t ← t.normalizeAtDepth (depth + 1)
    return .value t literal
  | .factory implementation t, depth => do
    let t ← t.normalizeAtDepth (depth + 1)
    return .factory implementation t
  | .missing, _ => .ok .missing
  | .unknown, _ => .ok .unknown

end

def StaticType.normalized (t : StaticType) : Except ContractError StaticType :=
  t.normalizeAtDepth 0

/-! ## Records -/

def DescriptorFact.normalize (d : DescriptorFact) : Except ContractError DescriptorFact := do
  let descriptorType ← normalizeBound d.descriptorType 0
  return { d with descriptorType }

def GlobalBindingFact.normalize (b : GlobalBindingFact) : Except ContractError GlobalBindingFact := do
  let valueType ← b.valueType.normalized
  return { b with valueType }

def FieldTypeFact.normalize (f : FieldTypeFact) : Except ContractError FieldTypeFact := do
  let valueType ← f.valueType.normalized
  let default ← normalizeDefault f.default 0
  let descriptor ← f.descriptor.normalize
  return { f with valueType, default, descriptor }

def MethodTypeFact.normalize (m : MethodTypeFact) : Except ContractError MethodTypeFact := do
  let signature ← normalizeSignature m.signature 0
  return { m with signature }

def ClassMemberFact.normalize (m : ClassMemberFact) : Except ContractError ClassMemberFact := do
  let valueType ← m.valueType.normalized
  let descriptor ← m.descriptor.normalize
  return { m with valueType, descriptor }

def ClassTypeFact.normalize (c : ClassTypeFact) : Except ContractError ClassTypeFact := do
  let instanceFields ← c.instanceFields.mapM FieldTypeFact.normalize
  let methods ← (sortBy (·.name) c.methods).mapM MethodTypeFact.normalize
  let classMembers ← (sortBy (·.name) c.classMembers).mapM ClassMemberFact.normalize
  return { c with instanceFields, methods, classMembers }

def FunctionTypeFact.normalize (f : FunctionTypeFact) : Except ContractError FunctionTypeFact := do
  let signature ← normalizeSignature f.signature 0
  return { f with signature }

def AttributeSiteFact.normalize (s : AttributeSiteFact) : Except ContractError AttributeSiteFact := do
  let receiverType ← s.receiverType.normalized
  let valueType ← normalizeBound s.valueType 0
  return { s with receiverType, valueType }

def ReceiverTypeFact.normalize (r : ReceiverTypeFact) : Except ContractError ReceiverTypeFact := do
  let valueType ← r.valueType.normalized
  return { r with valueType }

def CallSiteFact.normalize (s : CallSiteFact) : Except ContractError CallSiteFact := do
  let receiver ← s.receiver.mapM ReceiverTypeFact.normalize
  let signature ← normalizeSignature s.signature 0
  let resultType ← s.resultType.normalized
  return { s with receiver, candidateTargets := collectSet s.candidateTargets, signature, resultType }

def StrictDiagnostic.normalize (d : StrictDiagnostic) : StrictDiagnostic :=
  { d with relatedDefinitions := collectSet d.relatedDefinitions }

namespace ModuleTypeFacts

/-- The catalogs in order and all types normalized. -/
def normalize (facts : ModuleTypeFacts) : Except ContractError ModuleTypeFacts := do
  let globalBindings ← (sortBy (·.name) facts.globalBindings).mapM GlobalBindingFact.normalize
  let classes ← (sortBy (·.identity) facts.classes).mapM ClassTypeFact.normalize
  let functions ← (sortBy (·.identity) facts.functions).mapM FunctionTypeFact.normalize
  let attributeSites ← (sortBy (·.identity) facts.attributeSites).mapM AttributeSiteFact.normalize
  let callSites ← (sortBy (·.identity) facts.callSites).mapM CallSiteFact.normalize
  return { facts with
    languagePolicy := { facts.languagePolicy with classOverrides := sortBy id facts.languagePolicy.classOverrides }
    consumedDependencies := sortBy (·.module_.moduleName) facts.consumedDependencies
    globalBindings
    classes
    functions
    nominalBindings := sortBy id facts.nominalBindings
    attributeSites
    callSites
    diagnostics := sortBy id (facts.diagnostics.map StrictDiagnostic.normalize) }

/-- `canonicalize_module`. -/
def canonicalized (facts : ModuleTypeFacts) : Except ContractError ModuleTypeFacts := do
  let facts ← facts.normalize
  return facts.demoteSuppressedRegions

end ModuleTypeFacts

end Soac.Contracts
