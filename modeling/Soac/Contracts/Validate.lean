import Mathlib.Algebra.GroupWithZero.Nat
import Soac.Contracts.Canonical
import Soac.Lib.Checks

/-!
# Validation of the facts of a module

`validate_module_facts` of `validation.rs`: the schema, the identities and ranges, and every reference from one record to
another. The digest of a source is a parameter.
-/

namespace Soac.Contracts

open Checks

/-- A check of the validator. -/
abbrev Check := Except ContractError Unit

def structure_ (message : String) : ContractError :=
  .invalidStructure message

def sourceIdentity (message : String) : ContractError :=
  .invalidSourceIdentity message

/-! ## Names, ranges and literals -/

def isControl (c : Char) : Bool :=
  c.toNat ≤ 0x1f || (0x7f ≤ c.toNat && c.toNat ≤ 0x9f)

def nameIsValid (name : String) : Bool :=
  !(name.isEmpty || 4096 < name.utf8ByteSize ||
    name.toList.any fun c => isControl c || c == '/' || c == '\\' || c == '.')

def validateName (name : String) : Check :=
  reject (!nameIsValid name) (structure_ "invalid member or parameter name")

def validateModuleName (name : String) : Check :=
  reject (4096 < name.utf8ByteSize || (name.toList.splitOn '.').any fun component => !nameIsValid (String.ofList component))
    (sourceIdentity "invalid canonical module name")

def validateQualname (name : String) : Check :=
  reject (name.isEmpty || 16384 < name.utf8ByteSize || name.toList.any isControl)
    (sourceIdentity "invalid lexical qualified name")

def validateRange (range : SourceRange) (sourceSize : Nat) : Check :=
  reject (range.stop < range.start || sourceSize < range.stop) (sourceIdentity "byte range is outside its source")

def validateDefinitionRange (id : SourceIdentity) : Check :=
  reject (id.definitionKind ≠ .module_ && id.sourceRange.start = id.sourceRange.stop)
    (sourceIdentity "source definition has an empty range")

/-- The digits of an integer literal, without its sign. -/
def literalDigits (value : List Char) : List Char :=
  match value with
  | '-' :: digits => digits
  | digits => digits

def validateLiteral : LiteralValue → Check
  | .int value =>
    let digits := literalDigits value.toList
    reject (digits.isEmpty || !digits.all Char.isDigit || (1 < digits.length && digits.head? = some '0') || value = "-0")
      (.invalidType "integer literal is not canonical decimal")
  | .none | .bool _ | .floatBits _ | .str _ | .bytes _ => .ok ()

def validateDependencies (dependencies : List DependencyFingerprint) (owner : String) : Check :=
  eachUnique (·.module_.moduleName)
    (fun dependency => do
      validateModuleName dependency.module_.moduleName
      reject (dependency.module_.moduleName = owner) (structure_ "a shard must not list itself as an external dependency"))
    (fun dependency => .dependencyMismatch dependency.module_.moduleName) (fun _ => .ok ()) [] dependencies

/-! ## The context -/

/-- The facts that references are resolved in, and the source if it is at hand. -/
structure Context where
  facts : ModuleTypeFacts
  source : Option (List UInt8)

variable (facts : ModuleTypeFacts)

/-- The definitions that records introduce without a catalog of their own. -/
def ModuleTypeFacts.lexicalDefinitions : List SourceIdentity :=
  facts.globalBindings.filterMap (·.definition) ++
    facts.classes.flatMap (fun c => c.classMembers.filterMap (·.definition)) ++
    facts.classes.flatMap (fun c => c.instanceFields.filterMap (·.annotationDefinition)) ++
    facts.nominalBindings.map (·.binding)

/-- Classes and functions have a catalog: a reference to one has to be found there. -/
def DefinitionKind.hasCatalog : DefinitionKind → Bool
  | .class_ | .function | .lambda => true
  | .module_ | .assignment | .parameter | .typeAlias => false

/-- All definitions of the module. -/
def ModuleTypeFacts.definitions : List SourceIdentity :=
  facts.moduleBodyIdentity :: (facts.classes.map (·.identity) ++ facts.functions.map (·.identity) ++
    facts.lexicalDefinitions.filter fun id => id.module_ = facts.module_ && !id.definitionKind.hasCatalog)

/-- `str::is_char_boundary` on the bytes of the text. -/
def isCharBoundary (bytes : List UInt8) (index : Nat) : Bool :=
  match bytes[index]? with
  | some b => index = 0 || b &&& 0xc0 ≠ 0x80
  | none => index = bytes.length

namespace Context

variable (ctx : Context) (id : SourceIdentity)

def class? : Option ClassTypeFact :=
  ctx.facts.classes.find? (·.identity = id)

/-- The names of the dependencies are distinct. -/
def dependency? (moduleName : String) : Option DependencyFingerprint :=
  ctx.facts.consumedDependencies.find? (·.module_.moduleName = moduleName)

def localRange (range : SourceRange) : Check := do
  validateRange range ctx.facts.sourceSize
  ifSome (fun source => reject (!isCharBoundary source range.start || !isCharBoundary source range.stop)
    (sourceIdentity "source range splits a UTF-8 code point")) ctx.source

def localDefinition : Check := do
  reject (id.module_ ≠ ctx.facts.module_) (sourceIdentity "source definition belongs to a different module")
  validateQualname id.lexicalQualname
  ctx.localRange id.sourceRange
  validateDefinitionRange id

def reference : Check := do
  validateQualname id.lexicalQualname
  validateDefinitionRange id
  if id.module_ = ctx.facts.module_ then do
    ctx.localRange id.sourceRange
    reject (id ∉ ctx.facts.definitions) (sourceIdentity ("unresolved local definition " ++ id.lexicalQualname))
  else
    match ctx.dependency? id.module_.moduleName with
    | none => .error (.dependencyMismatch id.module_.moduleName)
    | some dependency => do
      reject (id.module_ ≠ dependency.module_) (.dependencyMismatch id.module_.moduleName)
      validateRange id.sourceRange dependency.sourceSize

/-- The digest that references to a module have to carry. -/
def expectedDigest (module_ : ModuleContentId) : Option Fingerprint :=
  if module_ = ctx.facts.module_ then some ctx.facts.sourceDigest
  else ((ctx.dependency? module_.moduleName).filter fun dependency => dependency.module_ = module_).map (·.sourceDigest)

def checkDigest (module_ : ModuleContentId) (digest : Fingerprint) : Check :=
  match ctx.expectedDigest module_ with
  | none => .error (.dependencyMismatch module_.moduleName)
  | some expected => reject (expected ≠ digest) (.sourceMismatch module_.moduleName)

def classReference (c : ClassReference) : Check := do
  reject (c.definition.definitionKind ≠ .class_) (structure_ "class reference must identify a class definition")
  ctx.reference c.definition
  ctx.checkDigest c.definition.module_ c.sourceDigest

def functionReference : Check := do
  reject (id.definitionKind ≠ .function && id.definitionKind ≠ .lambda)
    (structure_ "callable implementation must identify a source function")
  ctx.reference id
  reject (id.module_ = ctx.facts.module_ && !ctx.facts.functions.any (·.identity = id))
    (structure_ "function reference has no function facts")

/-- The enclosing definition and the range of an attribute or call site. -/
def site (module_ : ModuleContentId) (digest : Fingerprint) (enclosing : SourceIdentity) (range : SourceRange) : Check := do
  reject (module_ ≠ ctx.facts.module_ || enclosing.module_ ≠ ctx.facts.module_)
    (structure_ "site and enclosing definition must belong to their shard")
  ctx.checkDigest module_ digest
  ctx.reference enclosing
  reject (enclosing.definitionKind ≠ .module_ && !enclosing.definitionKind.hasCatalog)
    (structure_ "site must have a source execution owner")
  ctx.localRange range
  reject (range.start = range.stop || !enclosing.sourceRange.contains range)
    (structure_ "expression range is not inside its enclosing definition")

/-! ## Static types -/

/-- The types that a widening to a numeric type accepts. -/
def acceptedNumeric : BuiltinType → Option (List BuiltinType)
  | .float => some [.int, .float]
  | .complex => some [.int, .float, .complex]
  | _ => none

def checkWidening (target : BuiltinType) (accepted : List BuiltinType) : Check :=
  match acceptedNumeric target with
  | none => .error (.invalidType "unsupported numeric widening target")
  | some expected => reject (accepted ≠ expected) (.invalidType "numeric widening must preserve typing's acceptance set")

/-- The binder of a type variable is a source fact: it need not be a definition of the module. -/
def typeVariableIdentity : Check := do
  if id.module_ = ctx.facts.module_ then ctx.localDefinition id else ctx.reference id
  reject (id.definitionKind ≠ .parameter && id.definitionKind ≠ .typeAlias && id.definitionKind ≠ .assignment)
    (structure_ "type variable requires a binder definition")

end Context

/-- The place of a parameter kind in Python's binding order. -/
def ParameterKind.rank : ParameterKind → Nat
  | .positionalOnly => 0
  | .positionalOrKeyword => 1
  | .varArgs => 2
  | .keywordOnly => 3
  | .varKeywords => 4

def DefaultFact.isMissing {T : Type} : DefaultFact T → Bool
  | .missing => true
  | .value _ _ | .factory _ _ | .unknown => false

/-- What the loop over the parameters of a signature has seen. -/
structure SignatureState where
  names : List String := []
  previousKind : ParameterKind := .positionalOnly
  hasVarargs : Bool := false
  hasVarkw : Bool := false
  positionalDefault : Bool := false

/-- The name, the kind and the default of the next parameter. -/
def SignatureState.next (s : SignatureState) (name : String) (kind : ParameterKind) (hasDefault : Bool) :
    Except ContractError SignatureState := do
  validateName name
  reject (name ∈ s.names) (structure_ "duplicate signature parameter")
  reject (kind.rank < s.previousKind.rank) (structure_ "signature parameters are not in Python binding order")
  let s := { s with names := name :: s.names, previousKind := kind }
  match kind with
  | .varArgs => do
    reject (s.hasVarargs || hasDefault) (structure_ "invalid variadic positional parameter")
    return { s with hasVarargs := true }
  | .varKeywords => do
    reject (s.hasVarkw || hasDefault) (structure_ "invalid variadic keyword parameter")
    return { s with hasVarkw := true }
  | .positionalOnly | .positionalOrKeyword => do
    reject (s.positionalDefault && !hasDefault) (structure_ "required positional parameter follows a default")
    return { s with positionalDefault := s.positionalDefault || hasDefault }
  | .keywordOnly => return s

namespace Context

variable (ctx : Context)

mutual

def staticType : StaticType → Nat → Check
  | .nominalClass reference, depth | .exactClass reference, depth => do
    reject (64 < depth) tooDeep
    ctx.classReference reference
  | .union elements, depth => do
    reject (64 < depth) tooDeep
    reject elements.isEmpty (.invalidType "empty union")
    staticTypes elements (depth + 1)
  | .optional element, depth => do
    reject (64 < depth) tooDeep
    staticType element (depth + 1)
  | .callable s, depth => do
    reject (64 < depth) tooDeep
    signature s (depth + 1)
  | .literal value, depth => do
    reject (64 < depth) tooDeep
    validateLiteral value
  | .typeVariable variable_, depth => do
    reject (64 < depth) tooDeep
    typeVariable variable_ (depth + 1)
  | .structuralProtocol protocol, depth => do
    reject (64 < depth) tooDeep
    ifSome ctx.classReference protocol.definition
  | .numericWidening target accepted, depth => do
    reject (64 < depth) tooDeep
    checkWidening target accepted
  | .none, depth | .exactBuiltin _, depth | .nominalBuiltin _ _, depth | .any, depth | .unknown, depth | .todo, depth
  | .divergent, depth | .unsupported _ _, depth => reject (64 < depth) tooDeep

def staticTypes : List StaticType → Nat → Check
  | [], _ => .ok ()
  | t :: ts, depth => do
    staticType t depth
    staticTypes ts depth

def boundType : Option StaticType → Nat → Check
  | none, _ => .ok ()
  | some t, depth => staticType t depth

def typeVariable : TypeVariableFact StaticType → Nat → Check
  | ⟨id, bound, constraints⟩, depth => do
    ctx.typeVariableIdentity id
    boundType bound depth
    staticTypes constraints depth

def signature : CallableSignature StaticType → Nat → Check
  | ⟨parameters, result, _, _⟩, depth => do
    reject (64 < depth) (.invalidType "signature nesting exceeds 64")
    signatureParameters parameters {} (depth + 1)
    staticType result (depth + 1)

def signatureParameters : List (ParameterTypeFact StaticType) → SignatureState → Nat → Check
  | [], _, _ => .ok ()
  | p :: ps, s, depth => do
    let s ← parameter p s depth
    signatureParameters ps s depth

def parameter : ParameterTypeFact StaticType → SignatureState → Nat → Except ContractError SignatureState
  | ⟨name, kind, valueType, _, default⟩, s, depth => do
    let s ← s.next name kind (!default.isMissing)
    staticType valueType depth
    defaultFact default depth
    return s

def defaultFact : DefaultFact StaticType → Nat → Check
  | .value t literal, depth => do
    staticType t (depth + 1)
    ifSome validateLiteral literal
  | .factory implementation t, depth => do
    ifSome ctx.functionReference implementation
    staticType t (depth + 1)
  | .missing, _ | .unknown, _ => .ok ()

end

/-! ## Classes -/

def descriptor (d : DescriptorFact) : Check := do
  ctx.boundType d.descriptorType 0
  each ctx.functionReference (d.getter.toList ++ d.setter.toList ++ d.deleter.toList)
  reject (d.kind = .none && (d.getter.isSome || d.setter.isSome || d.deleter.isSome))
    (structure_ "non-descriptor cannot name descriptor accessors")
  reject ((d.kind = .nonData || d.kind = .stdlibCachedProperty) && (d.setter.isSome || d.deleter.isSome))
    (structure_ "non-data descriptor cannot claim setter/deleter slots")

def decoratorDefinition (definition : Option SourceIdentity) (digest : Option Fingerprint) : Check :=
  match definition, digest with
  | some id, some digest => do
    ctx.reference id
    ctx.checkDigest id.module_ digest
  | none, none => .ok ()
  | _, _ => .error (structure_ "decorator definition and source digest must be paired")

def decorator (d : DecoratorFact) : Check := do
  ctx.localRange d.expressionRange
  ctx.decoratorDefinition d.definition d.sourceDigest
  each (fun argument => do
    validateName argument.1
    validateLiteral argument.2) d.arguments

def generatedFunction (g : GeneratedFunctionFact) : Check := do
  ctx.classReference g.reference
  validateName g.name
  ifSome (fun c : ClassTypeFact =>
    reject (!c.transform.any fun transform => transform.kind = g.transform && transform.generatedMethods.contains g.name)
      (structure_ "generated function is absent from its class transform")) (ctx.class? g.reference.definition)

/-- The declaring class of a field or method: the class itself or one it inherits from. -/
def declaringClass (owner : ClassTypeFact) (declaring : ClassReference) : Check := do
  ctx.classReference declaring
  reject (declaring.definition ≠ owner.identity &&
      !(owner.bases ++ owner.inheritance.linearizedBases).any fun base => base.asClass = some declaring)
    (structure_ "member's declaring class is outside its logical inheritance")

def fieldAnnotationDefinition (f : FieldTypeFact) : Check :=
  ifSome (fun definition => do
    ctx.reference definition
    reject (definition.definitionKind ≠ .assignment || definition.module_ ≠ f.declaringClass.definition.module_ ||
        definition.sourceRange = f.declaringClass.definition.sourceRange ||
        !f.declaringClass.definition.sourceRange.contains definition.sourceRange)
      (structure_ "field annotation must identify an assignment in its declaring class")
    reject (definition.module_ = ctx.facts.module_ && ctx.facts.classes.any fun c =>
        c.identity ≠ f.declaringClass.definition &&
        f.declaringClass.definition.sourceRange.contains c.identity.sourceRange &&
        c.identity.sourceRange.contains definition.sourceRange)
      (structure_ "field annotation skips its actual declaring class")) f.annotationDefinition

def fieldFact (owner : ClassTypeFact) (f : FieldTypeFact) : Check := do
  ctx.declaringClass owner f.declaringClass
  ctx.fieldAnnotationDefinition f
  ctx.staticType f.valueType 0
  ctx.defaultFact f.default 0
  ctx.descriptor f.descriptor
  reject (f.fieldKind = .initOnly && f.writePolicy ≠ .initOnly) (structure_ "InitVar must retain its init-only field policy")

def methodOrigin (m : MethodTypeFact) : Check :=
  match m.implementation, m.generated with
  | some implementation, none => ctx.functionReference implementation
  | none, some generated => do
    ctx.generatedFunction generated
    reject (generated.reference ≠ m.declaringClass || generated.name ≠ m.name)
      (structure_ "generated method does not match its declaring class and name")
  | none, none => reject m.uncertainty.isEmpty (structure_ "method requires one implementation origin or explicit uncertainty")
  | some _, some _ => .error (structure_ "method requires one implementation origin or explicit uncertainty")

def methodFact (owner : ClassTypeFact) (m : MethodTypeFact) : Check := do
  ctx.declaringClass owner m.declaringClass
  ctx.signature m.signature 0
  reject (m.overridePolicy = .declaredFinal && !m.declaredFinal)
    (structure_ "final override policy requires a declared-final method")
  ctx.methodOrigin m

def memberFact (m : ClassMemberFact) : Check := do
  ifSome ctx.reference m.definition
  ctx.staticType m.valueType 0
  ctx.descriptor m.descriptor

def transformFact (t : ClassTransformFact) : Check := do
  ifSome ctx.reference t.provenance
  reject (t.kind = .stdlibDataclass && t.dataclassOptions.isNone)
    (structure_ "stdlib dataclass transform requires resolved options")
  ifSome (fun options : DataclassOptions =>
    reject ((options.weakrefSlot && !options.slots) || (options.order && !options.eq))
      (structure_ "invalid stdlib dataclass options")) t.dataclassOptions
  each validateName t.generatedMethods

/-- The bases of a class, and that `object` ends its linearization. -/
def inheritance (c : ClassTypeFact) : Check := do
  reject (!decide c.bases.Nodup || !decide c.inheritance.linearizedBases.Nodup)
    (structure_ "duplicate direct base or MRO entry")
  reject (c.inheritance.complete && !c.bases.all (c.inheritance.linearizedBases.contains ·))
    (structure_ "complete logical MRO omits a direct base")
  reject (c.inheritance.complete && (c.inheritance.linearizedBases.idxOf? (.builtin .object)).any fun index =>
      index + 1 ≠ c.inheritance.linearizedBases.length)
    (structure_ "builtin object must terminate a complete logical MRO")
  each (fun base : ClassReference => do
    ctx.classReference base
    reject (base.definition = c.identity) (structure_ "class must not appear in its own base list or MRO"))
    ((c.bases ++ c.inheritance.linearizedBases).filterMap BaseReference.asClass)

/-- A decorator whose effect on a class is not modelled. -/
def unmodeledDecorator (d : DecoratorFact) : Bool :=
  d.kind = .other || d.kind = .unknown || d.kind = .dataclassTransform || !d.uncertainty.isEmpty ||
    (d.kind = .stdlibDataclass && d.definition.isNone)

def uncertainProvenance : UncertaintyReason → Bool
  | .ignoredDiagnostic | .dynamicDecorator | .dynamicMetaclass | .unsafeNarrowing => true
  | _ => false

def participation (c : ClassTypeFact) : Check :=
  match c.participation with
  | .candidate => do
    reject (!ctx.facts.languagePolicy.checkedAttributes c.identity.sourceRange)
      (.invalidPolicy "a class opted out of checked_attr cannot propose participation")
    reject (ctx.facts.sourceDialect ≠ .soacStrict || c.metaclass ≠ .builtinType || !c.inheritance.complete)
      (structure_ "candidate participation requires selected checked_attr, builtin type, and resolved inheritance")
    reject (c.decorators.any unmodeledDecorator) (structure_ "unmodeled decorators must retain dynamic classification")
    reject (c.uncertainty.any uncertainProvenance) (structure_ "uncertain class provenance cannot propose participation")
    reject (c.transform.any (·.kind ≠ .stdlibDataclass)) (structure_ "unadapted framework transforms must remain dynamic")
  | .dynamic reasons => reject reasons.isEmpty (structure_ "dynamic classification must retain its reason")

def classFact (c : ClassTypeFact) : Check := do
  ctx.localDefinition c.identity
  reject (c.identity.definitionKind ≠ .class_) (structure_ "class facts must identify a source class")
  ctx.inheritance c
  ifSome ctx.classReference c.metaclass.asClass
  each ctx.decorator c.decorators
  ctx.participation c
  eachUnique (·.name) (fun f => validateName f.name) (fun _ => structure_ "duplicate logical class field")
    (ctx.fieldFact c) [] c.instanceFields
  eachUnique (·.name) (fun m => validateName m.name) (fun _ => structure_ "duplicate logical method")
    (ctx.methodFact c) [] c.methods
  eachUnique (·.name) (fun m => validateName m.name) (fun _ => structure_ "duplicate class member")
    ctx.memberFact [] c.classMembers
  ifSome ctx.transformFact c.transform

end Context

/-! ## Inheritance without cycles -/

/-- A class on the stack: to be entered, or with its bases done. -/
structure Visit where
  identity : SourceIdentity
  exiting : Bool

/-- The classes that have not been entered yet, and those that have been left. -/
structure VisitState where
  fresh : List SourceIdentity
  left : List SourceIdentity

/-- The loop over the stack. A class that is neither fresh nor left is being visited. -/
def visitBases (bases : SourceIdentity → List SourceIdentity) :
    Nat → VisitState → List Visit → Option (Except ContractError VisitState)
  | 0, _, _ => none
  | _ + 1, s, [] => some (.ok s)
  | fuel + 1, s, v :: stack =>
    if v.exiting then visitBases bases fuel { s with left := v.identity :: s.left } stack
    else if v.identity ∈ s.left then visitBases bases fuel s stack
    else if v.identity ∉ s.fresh then some (.error (structure_ "cyclic logical class inheritance"))
    else
      visitBases bases fuel { s with fresh := s.fresh.erase v.identity }
        ((bases v.identity).map (⟨·, false⟩) ++ ⟨v.identity, true⟩ :: stack)

/-- How many steps are left at most: what is on the stack, and what the fresh classes can put there. -/
def visitBound (bases : SourceIdentity → List SourceIdentity) (s : VisitState) (stack : List Visit) : Nat :=
  stack.length + (s.fresh.map fun id => (bases id).length + 1).sum

/-- The loop ends. -/
theorem visitBases_ne_none {bases : SourceIdentity → List SourceIdentity} {fuel : Nat} {s : VisitState} {stack : List Visit}
    (h : visitBound bases s stack < fuel) : visitBases bases fuel s stack ≠ none := by
  induction fuel generalizing s stack with
  | zero => omega
  | succ fuel ih =>
    cases stack with
    | nil =>
      nofun
    | cons v stack =>
      have hrest : visitBound bases s stack < fuel := by
        simp only [visitBound, List.length_cons] at h ⊢
        omega
      rw [visitBases]
      split
      · exact ih hrest
      · split
        · exact ih hrest
        · split
          · nofun
          · next hfresh =>
            refine ih ?_
            have hsum := ((List.perm_cons_erase (not_not.mp hfresh)).map fun id => (bases id).length + 1).sum_nat
            rw [List.map_cons, List.sum_cons] at hsum
            simp only [visitBound, List.length_cons, List.length_append, List.length_map] at h ⊢
            omega

namespace Context

variable (ctx : Context)

/-- The classes of the module among the bases of a class. -/
def localBases (id : SourceIdentity) : List SourceIdentity :=
  ((ctx.class? id).toList.flatMap fun c => (c.bases.filterMap BaseReference.asClass).map (·.definition)).filter fun base =>
    (ctx.class? base).isSome

/-- The keys of the map of classes, in order. -/
def classKeys : List SourceIdentity :=
  sortBy id (ctx.facts.classes.map (·.identity))

def inheritanceGraph : Check := do
  let _ ← ctx.classKeys.foldlM (fun s id =>
    if id ∈ s.left then .ok s
    else (visitBases ctx.localBases (visitBound ctx.localBases s [⟨id, false⟩] + 1) s [⟨id, false⟩]).getD (.ok s))
    { fresh := ctx.classKeys, left := [] }
  return ()

end Context

/-! ## Nominal bindings -/

namespace StaticType

mutual

def containsUncertainty : StaticType → Bool
  | .any | .unknown | .todo | .divergent | .unsupported _ _ | .typeVariable _ | .structuralProtocol _ => true
  | .union elements => anyUncertainty elements
  | .optional element => element.containsUncertainty
  | .callable s => signatureUncertainty s
  | .none | .exactBuiltin _ | .nominalBuiltin _ _ | .numericWidening _ _ | .nominalClass _ | .exactClass _ | .literal _ => false

def anyUncertainty : List StaticType → Bool
  | [] => false
  | t :: ts => t.containsUncertainty || anyUncertainty ts

def signatureUncertainty : CallableSignature StaticType → Bool
  | ⟨parameters, result, _, _⟩ => result.containsUncertainty || parametersUncertainty parameters

def parametersUncertainty : List (ParameterTypeFact StaticType) → Bool
  | [] => false
  | p :: ps => parameterUncertainty p || parametersUncertainty ps

def parameterUncertainty : ParameterTypeFact StaticType → Bool
  | ⟨_, _, valueType, _, _⟩ => valueType.containsUncertainty

end

mutual

/-- Whether a runtime predicate can represent the type. -/
def hasSupportedValueShape : StaticType → Bool
  | .none | .exactBuiltin _ | .nominalBuiltin _ _ | .numericWidening _ _ | .nominalClass _ | .exactClass _ => true
  | .union elements => !elements.isEmpty && allSupported elements
  | .optional element => element.hasSupportedValueShape
  | .callable _ | .literal _ | .typeVariable _ | .structuralProtocol _ | .any | .unknown | .todo | .divergent
  | .unsupported _ _ => false

def allSupported : List StaticType → Bool
  | [] => true
  | t :: ts => t.hasSupportedValueShape && allSupported ts

end

mutual

def containsNominalClass (c : ClassReference) : StaticType → Bool
  | .nominalClass reference | .exactClass reference => reference = c
  | .union elements => anyNominalClass c elements
  | .optional element => element.containsNominalClass c
  | .none | .exactBuiltin _ | .nominalBuiltin _ _ | .numericWidening _ _ | .callable _ | .literal _ | .typeVariable _
  | .structuralProtocol _ | .any | .unknown | .todo | .divergent | .unsupported _ _ => false

def anyNominalClass (c : ClassReference) : List StaticType → Bool
  | [] => false
  | t :: ts => t.containsNominalClass c || anyNominalClass c ts

end

end StaticType

/-- The annotation of a nominal binding: where it is, its type and its origin. -/
structure Annotation where
  definition : SourceIdentity
  valueType : StaticType
  origin : AnnotationOrigin

namespace Context

variable (ctx : Context)

def fieldReference (r : FieldReference) : Except ContractError FieldTypeFact := do
  ctx.classReference r.declaringClass
  ctx.reference r.annotationDefinition
  validateName r.name
  match ctx.class? r.declaringClass.definition with
  | none => .error (structure_ "nominal field owner is not a local declaring class")
  | some c =>
    match c.instanceFields.find? fun f =>
        f.name = r.name && f.declaringClass = r.declaringClass && f.annotationDefinition = some r.annotationDefinition with
    | none => .error (structure_ "nominal field owner does not match its exact declaration catalog")
    | some f => do
      ctx.fieldAnnotationDefinition f
      return f

def annotationOfTarget (f : FunctionTypeFact) : AnnotationTarget → Except ContractError Annotation
  | .parameter index =>
    match f.signature.parameters[index]? with
    | none => .error (structure_ "nominal annotation parameter index is invalid")
    | some p => .ok ⟨f.identity, p.valueType, p.annotationOrigin⟩
  | .return_ => .ok ⟨f.identity, f.signature.returnType, f.signature.returnAnnotationOrigin⟩

/-- The annotation that owns a nominal binding. -/
def annotationOf : NominalBindingOwner → Except ContractError Annotation
  | .function id target => do
    ctx.functionReference id
    match ctx.facts.functions.find? (·.identity = id) with
    | none => .error (structure_ "nominal function owner is not local")
    | some f => annotationOfTarget f target
  | .field r => do
    let f ← ctx.fieldReference r
    return ⟨r.annotationDefinition, f.valueType, f.annotationOrigin⟩

/-- The bytes of the source in a range. -/
def sourceText (source : List UInt8) (range : SourceRange) : List UInt8 :=
  (source.drop range.start).take (range.stop - range.start)

variable (b : NominalBindingFact) (definition : SourceIdentity)

/-- The scope of a binding holds both the binding and the annotation. -/
def invalidBindingScope : Bool :=
  b.binding.module_ ≠ ctx.facts.module_ || b.bindingScope.module_ ≠ ctx.facts.module_ ||
    (b.binding.definitionKind ≠ .class_ && b.binding.definitionKind ≠ .assignment) ||
    (b.bindingScope.definitionKind ≠ .module_ && b.bindingScope.definitionKind ≠ .class_ &&
      b.bindingScope.definitionKind ≠ .function) ||
    b.bindingScope = b.binding || !b.bindingScope.sourceRange.contains b.binding.sourceRange ||
    !b.bindingScope.sourceRange.contains definition.sourceRange || b.bindingScope = definition

/-- A class or function between the scope of a binding and the binding. -/
def skipsOwner : Bool :=
  (ctx.facts.classes.map (·.identity) ++ ctx.facts.functions.map (·.identity)).any fun scope =>
    scope ≠ b.bindingScope && scope ≠ b.binding && scope.sourceRange ≠ b.bindingScope.sourceRange &&
      b.bindingScope.sourceRange.contains scope.sourceRange && scope.sourceRange.contains b.binding.sourceRange

/-- A method between the class whose namespace is used and the annotation of a field. -/
def capturesNamespace : Bool :=
  match b.owner with
  | .function _ _ => false
  | .field _ => b.bindingScope.definitionKind = .class_ && ctx.facts.functions.any fun f =>
      b.bindingScope.sourceRange.contains f.identity.sourceRange && f.identity.sourceRange.contains definition.sourceRange

/-- The lexical side of a nominal binding, without its annotation's type. -/
def nominalScope : Check := do
  reject (definition.module_ ≠ ctx.facts.module_) (structure_ "nominal annotation belongs to another module")
  ctx.localRange b.expressionRange
  reject (b.expressionRange.start = b.expressionRange.stop || !definition.sourceRange.contains b.expressionRange)
    (structure_ "nominal annotation leaf is outside its source definition")
  validateName b.name
  ifSome (fun source => reject (sourceText source b.expressionRange ≠ b.name.toUTF8.toList)
    (structure_ "nominal annotation name does not match its source bytes")) ctx.source
  ctx.classReference b.reference
  ctx.reference b.binding
  ctx.reference b.bindingScope
  reject (ctx.invalidBindingScope b definition) (structure_ "nominal annotation has an invalid lexical binding scope")
  reject (ctx.skipsOwner b) (structure_ "nominal binding scope skips its actual lexical owner")
  reject (b.bindingScope.definitionKind = .module_ && !ctx.facts.globalBindings.any fun global =>
      global.name = b.name && global.definition = some b.binding)
    (structure_ "nominal global binding does not match the module catalog")
  reject (ctx.capturesNamespace b definition)
    (structure_ "a method-local field annotation cannot capture a class namespace alias")

def nominalBinding : Check := do
  let annotation_ ← ctx.annotationOf b.owner
  ctx.nominalScope b annotation_.definition
  reject (annotation_.origin ≠ .explicit || !annotation_.valueType.hasSupportedValueShape ||
      !annotation_.valueType.containsNominalClass b.reference)
    (structure_ "nominal annotation leaf does not match an explicit supported contract")

/-! ## Sites -/

def attributeSite (s : AttributeSiteFact) : Check := do
  ctx.site s.identity.module_ s.identity.sourceDigest s.identity.enclosingFunction s.identity.expressionRange
  validateName s.name
  ctx.staticType s.receiverType 0
  ctx.boundType s.valueType 0
  ifSome ctx.classReference s.declaringClass

end Context

/-- Whether a call can be bound to a method in a way. -/
def CallBindingFact.compatible : CallBindingFact → MethodBinding → Bool
  | .unboundFunction, binding => binding = .instance_ || binding = .static
  | .boundInstanceMethod, binding => binding = .instance_
  | .boundClassMethod, binding => binding = .class_
  | .staticMethod, binding => binding = .static
  | .callableInstanceField, _ => false
  | .descriptor, binding => binding = .propertyGetter || binding = .descriptor
  | .dynamic, _ => true

namespace Context

variable (ctx : Context)

/-- The target of a call in the catalog of its class. -/
def methodTarget (binding : CallBindingFact) (name : String) (implementation : Option SourceIdentity) (c : ClassTypeFact) :
    Check :=
  match c.methods.find? (·.name = name) with
  | none => .error (structure_ "call target names an absent logical method")
  | some m => do
    reject (implementation.isSome && implementation ≠ m.implementation)
      (structure_ "call target implementation disagrees with its method facts")
    reject (!binding.compatible m.binding) (structure_ "call binding disagrees with its logical method binding")

def callTarget (binding : CallBindingFact) : CallableTargetFact → Check
  | .sourceFunction id => ctx.functionReference id
  | .method reference name implementation => do
    ctx.classReference reference
    validateName name
    ifSome ctx.functionReference implementation
    ifSome (methodTarget binding name implementation) (ctx.class? reference.definition)
  | .generated g => ctx.generatedFunction g
  | .dynamic => .ok ()

/-- What rules out that a call has one exact target. -/
def inexactTarget (s : CallSiteFact) : Bool :=
  s.candidateTargets.length ≠ 1 || s.candidateTargets.head? = some .dynamic || s.binding = .dynamic ||
    s.binding = .descriptor || s.receiver.any fun r => r.valueType.containsUncertainty || !r.uncertainty.isEmpty

def callSite (s : CallSiteFact) : Check := do
  ctx.site s.identity.module_ s.identity.sourceDigest s.identity.enclosingFunction s.identity.expressionRange
  ifSome (fun r : ReceiverTypeFact => ctx.staticType r.valueType 0) s.receiver
  ifSome validateName s.attributeName
  each (ctx.callTarget s.binding) s.candidateTargets
  reject (s.uncertainty = .exactStaticTarget && inexactTarget s)
    (structure_ "an exact logical call target requires one non-dynamic target")
  reject ((s.binding = .boundInstanceMethod || s.binding = .boundClassMethod || s.binding = .callableInstanceField) &&
      (s.receiver.isNone || s.attributeName.isNone))
    (structure_ "a bound attribute call requires a receiver and member name")
  reject (s.uncertainty = .callableInstanceField && s.binding ≠ .callableInstanceField)
    (structure_ "callable instance fields must not acquire method receiver binding")
  ctx.signature s.signature 0
  ctx.staticType s.resultType 0

end Context

/-! ## Diagnostics -/

/-- The name of a code, as it stands in the source. -/
def DiagnosticCode.debug : DiagnosticCode → String
  | .strictFinalGlobalRebind => "StrictFinalGlobalRebind"
  | .strictFinalGlobalDelete => "StrictFinalGlobalDelete"
  | .strictClassMutation => "StrictClassMutation"
  | .strictFinalClassSubclass => "StrictFinalClassSubclass"
  | .strictFinalMethodOverride => "StrictFinalMethodOverride"
  | .strictInstanceMethodShadow => "StrictInstanceMethodShadow"
  | .strictClassvarInstanceWrite => "StrictClassvarInstanceWrite"
  | .strictUndeclaredField => "StrictUndeclaredField"
  | .strictIncompatibleFieldWrite => "StrictIncompatibleFieldWrite"
  | .strictIncompatibleOverride => "StrictIncompatibleOverride"
  | .strictDictReplacement => "StrictDictReplacement"
  | .strictUnsupportedMetaclass => "StrictUnsupportedMetaclass"
  | .strictUnsupportedDecorator => "StrictUnsupportedDecorator"
  | .strictUnsupportedDescriptor => "StrictUnsupportedDescriptor"
  | .strictLayoutInheritanceConflict => "StrictLayoutInheritanceConflict"
  | .strictUncheckedDynamicType => "StrictUncheckedDynamicType"
  | .strictConstructionContractMismatch => "StrictConstructionContractMismatch"
  | .checkerError => "CheckerError"

def StrictDiagnostic.debug (d : StrictDiagnostic) : String :=
  d.code.debug ++ " at " ++ toString d.sourceRange.start ++ ".." ++ toString d.sourceRange.stop ++ " (suppressed=" ++
    toString d.suppressed ++ ")"

namespace Context

variable (ctx : Context)

def diagnosticScope (d : StrictDiagnostic) : Check :=
  match d.scope with
  | .module_ => .ok ()
  | .definition id => do
    ctx.localDefinition id
    ctx.reference id
    reject (!id.sourceRange.contains d.sourceRange) (sourceIdentity "diagnostic is outside its definition scope")
  | .site range => do
    ctx.localRange range
    reject (!range.contains d.sourceRange) (sourceIdentity "diagnostic is outside its site scope")

def diagnostic (d : StrictDiagnostic) : Check := do
  ctx.localRange d.sourceRange
  ctx.diagnosticScope d
  each ctx.reference d.relatedDefinitions
  reject (d.severity = .error && !d.suppressed) (.blockingDiagnostic d.debug)

/-! ## The module -/

def globalBinding (b : GlobalBindingFact) : Check := do
  ifSome ctx.reference b.definition
  ctx.staticType b.valueType 0
  reject (!ctx.facts.languagePolicy.strictAssign && b.mutability ≠ .unknown)
    (structure_ "strict global restrictions require strict_assign")

def functionFact (f : FunctionTypeFact) : Check := do
  ctx.localDefinition f.identity
  reject (f.identity.definitionKind ≠ .function && f.identity.definitionKind ≠ .lambda)
    (structure_ "function facts must identify a source function or lambda")
  ctx.signature f.signature 0
  each ctx.decorator f.decorators

def records : Check := do
  eachUnique (·.name) (fun b => validateName b.name) (fun _ => structure_ "duplicate global binding") ctx.globalBinding []
    ctx.facts.globalBindings
  each ctx.classFact ctx.facts.classes
  ctx.inheritanceGraph
  each ctx.functionFact ctx.facts.functions
  eachUnique (fun b => (b.owner, b.expressionRange)) (fun _ => .ok ())
    (fun _ => structure_ "duplicate nominal annotation leaf") ctx.nominalBinding [] ctx.facts.nominalBindings
  eachUnique (·.identity) (fun _ => .ok ()) (fun _ => structure_ "duplicate attribute site identity") ctx.attributeSite []
    ctx.facts.attributeSites
  eachUnique (·.identity) (fun _ => .ok ()) (fun _ => structure_ "duplicate call site identity") ctx.callSite []
    ctx.facts.callSites
  each ctx.diagnostic ctx.facts.diagnostics

end Context

def artifactSchemaVersion : Nat := 7

/-- The FNV-1a hash of a source. -/
def legacySourceHash (source : List UInt8) : UInt64 :=
  source.foldl (fun hash byte => (hash ^^^ byte.toUInt64) * 0x00000100000001b3) 0xcbf29ce484222325

variable (sha256 : List UInt8 → Fingerprint)

/-- The source has the size and the digests that the facts say, and is UTF-8 text. -/
def checkSource (facts : ModuleTypeFacts) (source : List UInt8) : Check := do
  reject (facts.sourceSize ≠ source.length || sha256 source ≠ facts.sourceDigest ||
      legacySourceHash source ≠ facts.module_.sourceHash)
    (.sourceMismatch facts.module_.moduleName)
  reject (!(ByteArray.mk source.toArray).validateUTF8) (sourceIdentity "SOAC source must be valid UTF-8")

/-- The schema, the dependencies, the policy and the source. -/
def checkHeader (facts : ModuleTypeFacts) (source : Option (List UInt8)) : Check := do
  reject (facts.schemaVersion ≠ artifactSchemaVersion)
    (.versionMismatch "module shard schema" artifactSchemaVersion facts.schemaVersion)
  validateModuleName facts.module_.moduleName
  validateDependencies facts.consumedDependencies facts.module_.moduleName
  reject ((facts.sourceDialect = .soacStrict) ≠ facts.languagePolicy.isSelected)
    (.invalidPolicy "source admission must match the resolved comment rules")
  ifSome (checkSource sha256 facts) source

/-- The catalogs of classes and functions, and the class rules of the policy. -/
def checkCatalogs : Check := do
  eachUnique (·.identity) (fun _ => .ok ()) (fun _ => structure_ "duplicate class source identity") (fun _ => .ok ()) []
    facts.classes
  eachUnique (·.classRange) (fun _ => .ok ())
    (fun _ => .invalidPolicy "class rules must uniquely identify an actual source class")
    (fun rule => reject (!facts.classes.any (·.identity.sourceRange = rule.classRange))
      (.invalidPolicy "class rules must uniquely identify an actual source class")) [] facts.languagePolicy.classOverrides
  eachUnique (·.identity) (fun _ => .ok ()) (fun _ => structure_ "duplicate function source identity") (fun _ => .ok ()) []
    facts.functions

def validateModuleFacts (facts : ModuleTypeFacts) (source : Option (List UInt8)) : Check := do
  checkHeader sha256 facts source
  checkCatalogs facts
  Context.records ⟨facts, source⟩
  reject (facts.diagnostics.any (·.suppressed) && facts.demoteSuppressedRegions ≠ facts)
    (.blockingDiagnostic "suppressed regions retain precise class, value, or call proposals")

end Soac.Contracts
