import Soac.Contracts.Validate

/-!
# Artifacts

`artifact.rs`: the facts of each module are a shard, a canonical encoding of the facts, and a signed manifest lists the
shards of a generation. JSON, SHA-256 and Ed25519 come from other crates and are parameters.
-/

namespace Soac.Contracts

open Checks

/-! ## Canonical encodings -/

inductive Json where
  | null
  | bool (value : Bool)
  | number (text : String)
  | string (value : String)
  | array (elements : List Json)
  | object (members : List (String × Json))

mutual

/-- The members of all objects in the order of their keys. -/
def Json.sortObjects : Json → Json
  | .object members => .object (sortBy (·.1) (sortMembers members))
  | .array elements => .array (sortElements elements)
  | .null => .null
  | .bool value => .bool value
  | .number text => .number text
  | .string value => .string value

def sortElements : List Json → List Json
  | [] => []
  | value :: values => value.sortObjects :: sortElements values

def sortMembers : List (String × Json) → List (String × Json)
  | [] => []
  | (key, value) :: members => (key, value.sortObjects) :: sortMembers members

end

/-- How `serde_json` writes and reads the values of a type. -/
structure Serde (α : Type) where
  toValue : α → Except String Json
  toVec : Json → Except String (List UInt8)
  fromSlice : List UInt8 → Except String α

namespace Serde

variable {α : Type} (serde : Serde α)

def canonicalBytes (value : α) : Except ContractError (List UInt8) := do
  let json ← (serde.toValue value).mapError .encoding
  (serde.toVec json.sortObjects).mapError .encoding

/-- Reads a value, and refuses every encoding of it but the canonical one. -/
def decodeCanonical (bytes : List UInt8) : Except ContractError α := do
  let value ← (serde.fromSlice bytes).mapError .encoding
  let canonical ← serde.canonicalBytes value
  if canonical = bytes then return value else .error .nonCanonicalEncoding

/-- What is written decodes to the same value. -/
def RoundTrips : Prop :=
  ∀ value bytes, serde.canonicalBytes value = .ok bytes → serde.fromSlice bytes = .ok value

theorem RoundTrips.decodeCanonical {serde : Serde α} (h : serde.RoundTrips) {value : α} {bytes : List UInt8}
    (hbytes : serde.canonicalBytes value = .ok bytes) : serde.decodeCanonical bytes = .ok value := by
  rw [Serde.decodeCanonical, h value bytes hbytes]
  change (serde.canonicalBytes value >>= fun canonical => if canonical = bytes then _ else _) = _
  rw [hbytes, Fallible.ok_bind, if_pos rfl]
  rfl

theorem canonicalBytes_of_decodeCanonical {serde : Serde α} {value : α} {bytes : List UInt8}
    (h : serde.decodeCanonical bytes = .ok value) : serde.canonicalBytes value = .ok bytes := by
  obtain ⟨value', _, h⟩ := Fallible.bind_eq_ok.mp h
  obtain ⟨canonical, hcanonical, h⟩ := Fallible.bind_eq_ok.mp h
  by_cases heq : canonical = bytes
  · rw [if_pos heq] at h
    cases h
    exact heq ▸ hcanonical
  · rw [if_neg heq] at h
    cases h

end Serde

def enforceSize (bytes : List UInt8) (kind : String) (limit : Nat) : Check :=
  reject (limit < bytes.length) (.sizeLimit kind limit)

/-! ## Hexadecimal digits -/

/-- An array of bytes. -/
abbrev Bytes (n : Nat) := { bytes : List UInt8 // bytes.length = n }

def hexChar (nibble : UInt8) : Char :=
  ['0', '1', '2', '3', '4', '5', '6', '7', '8', '9', 'a', 'b', 'c', 'd', 'e', 'f'].getD nibble.toNat '0'

def encodeHex (bytes : List UInt8) : String :=
  String.ofList (bytes.flatMap fun byte : UInt8 => [hexChar (byte >>> 4), hexChar (byte &&& 0xf)])

/-- The UTF-8 bytes of a text. -/
def utf8 (value : String) : List UInt8 :=
  value.toList.flatMap String.utf8EncodeChar

def hexDigit (byte : UInt8) : Option UInt8 :=
  if 0x30 ≤ byte ∧ byte ≤ 0x39 then some (byte - 0x30)
  else if 0x61 ≤ byte ∧ byte ≤ 0x66 then some (byte - 0x61 + 10)
  else none

/-- Two digits at a time. -/
def decodePairs : List UInt8 → Option (List UInt8)
  | high :: low :: digits => do
    let high ← hexDigit high
    let low ← hexDigit low
    let bytes ← decodePairs digits
    return ((high <<< 4) ||| low) :: bytes
  | _ => some []

theorem length_of_decodePairs {digits bytes : List UInt8} (h : decodePairs digits = some bytes) :
    bytes.length = digits.length / 2 := by
  induction digits using decodePairs.induct generalizing bytes with
  | case1 high low digits ih =>
    simp only [decodePairs, Option.bind_eq_bind, Option.bind_eq_some_iff] at h
    obtain ⟨_, _, _, _, bytes', hbytes, h⟩ := h
    cases h
    rw [List.length_cons, ih hbytes, List.length_cons, List.length_cons]
    omega
  | case2 digits hshort =>
    match digits, hshort with
    | [], _ =>
      cases h
      rfl
    | [_], _ =>
      cases h
      simp
    | high :: low :: rest, hshort => exact absurd rfl (hshort high low rest)

def decodeHex (n : Nat) (value : String) : Except ContractError (Bytes n) :=
  if hlength : (utf8 value).length = n * 2 then
    match hbytes : decodePairs (utf8 value) with
    | some bytes => .ok ⟨bytes, by rw [length_of_decodePairs hbytes, hlength]; omega⟩
    | none => .error (.encoding "fingerprints and signatures require lower-case hexadecimal")
  else .error (.encoding ("expected " ++ toString (n * 2) ++ " lower-case hexadecimal digits"))

/-! ## Shards and manifests -/

/-- Deterministically encoded facts. -/
structure EncodedModuleShard where
  facts : ModuleTypeFacts
  bytes : List UInt8
  digest : Fingerprint
deriving DecidableEq

structure ModuleArtifactIndex where
  module_ : ModuleContentId
  sourceDigest : Fingerprint
  sourceSize : Nat
  effectivePolicy : Fingerprint
  shardDigest : Fingerprint
  consumedDependencies : List DependencyFingerprint
deriving DecidableEq, Repr

structure ArtifactVersions where
  schemaVersion : Nat := artifactSchemaVersion
  strictContractVersion : Nat := 3
  dialectVersion : Nat := 2
deriving DecidableEq, Repr

/-- The inputs of the offline analysis. -/
structure ArtifactEnvironment where
  tyRevision : String
  checkerSourceFingerprint : Fingerprint
  exporterRevision : String
  pythonMajor : Nat
  pythonMinor : Nat
  pythonPlatform : String
  cpythonAbiFingerprint : Fingerprint
  normalizedProjectPolicy : Fingerprint
  resolvedTypecheckerConfiguration : Fingerprint
  importSearchPath : Fingerprint
  typeshedFingerprint : Fingerprint
  installedStubFingerprint : Fingerprint
  installedDependencyFingerprint : Fingerprint
  strictEqualitySemantics : Bool
  strictGenericNarrowing : Bool
deriving DecidableEq, Repr

structure TypeArtifactManifest where
  versions : ArtifactVersions
  generation : Fingerprint
  environment : ArtifactEnvironment
  modules : List ModuleArtifactIndex
deriving DecidableEq, Repr

structure SignedManifestEnvelope where
  manifest : TypeArtifactManifest
  signature : String
deriving DecidableEq

/-- What the loader expects of a manifest. -/
structure ArtifactExpectations where
  generation : Fingerprint
  environment : ArtifactEnvironment

structure VerifiedTypeArtifactManifest where
  manifest : TypeArtifactManifest
  manifestDigest : Fingerprint
deriving DecidableEq

/-- What the artifacts take from other crates: the encodings of their values, SHA-256 and Ed25519. -/
structure Crates where
  facts : Serde ModuleTypeFacts
  policy : Serde ResolvedStrictPolicy
  manifest : Serde TypeArtifactManifest
  envelope : Serde SignedManifestEnvelope
  /-- The part of a manifest that its generation is computed from. -/
  content : Serde (ArtifactVersions × ArtifactEnvironment × List ModuleArtifactIndex)
  sha256 : List UInt8 → Fingerprint
  SigningKey : Type
  VerifyingKey : Type
  verifyingKey : SigningKey → VerifyingKey
  sign : SigningKey → List UInt8 → Bytes 64
  verifyStrict : VerifyingKey → List UInt8 → Bytes 64 → Bool

def maxManifestBytes : Nat := 64 * 1024 * 1024

def maxShardBytes : Nat := 16 * 1024 * 1024

def canonicalizeDependencies (dependencies : List DependencyFingerprint) : List DependencyFingerprint :=
  sortBy (·.module_.moduleName) dependencies

def canonicalizeManifest (manifest : TypeArtifactManifest) : TypeArtifactManifest :=
  { manifest with
    modules := (sortBy (·.module_.moduleName) manifest.modules).map fun index =>
      { index with consumedDependencies := canonicalizeDependencies index.consumedDependencies } }

/-! ### Validation of manifests -/

def validateVersions (versions : ArtifactVersions) : Check := do
  reject (versions.schemaVersion ≠ artifactSchemaVersion)
    (.versionMismatch "artifact schema" artifactSchemaVersion versions.schemaVersion)
  reject (versions.strictContractVersion ≠ 3) (.versionMismatch "strict contract" 3 versions.strictContractVersion)
  reject (versions.dialectVersion ≠ 2) (.versionMismatch "strict dialect" 2 versions.dialectVersion)

def validateEnvironment (environment : ArtifactEnvironment) : Check := do
  each (fun (name, value) =>
    reject (value.isEmpty || 256 < value.utf8ByteSize || value.toList.any isControl) (structure_ ("invalid " ++ name)))
    [("ty revision", environment.tyRevision), ("exporter revision", environment.exporterRevision),
      ("Python platform", environment.pythonPlatform)]
  reject (environment.pythonMajor ≠ 3 || environment.pythonMinor < 7) (structure_ "invalid Python version")
  reject (!environment.strictEqualitySemantics || !environment.strictGenericNarrowing)
    (.invalidPolicy "type-fact production requires conservative equality and generic narrowing")

/-- Two fingerprints that are both there and differ. -/
def conflict (left right : Option Fingerprint) : Bool :=
  match left, right with
  | some left, some right => left ≠ right
  | _, _ => false

/-- A dependency that another module has consumed too has to be the same. -/
def mergeConsumed (previous dependency : DependencyFingerprint) : Except ContractError DependencyFingerprint := do
  reject (previous.module_ ≠ dependency.module_ || previous.sourceDigest ≠ dependency.sourceDigest ||
      previous.sourceSize ≠ dependency.sourceSize || previous.importResolution ≠ dependency.importResolution ||
      previous.effectiveConfiguration ≠ dependency.effectiveConfiguration ||
      conflict previous.strictPolicy dependency.strictPolicy || conflict previous.typeContract dependency.typeContract)
    (.dependencyMismatch dependency.module_.moduleName)
  return { previous with
    strictPolicy := previous.strictPolicy.or dependency.strictPolicy
    typeContract := previous.typeContract.or dependency.typeContract }

/-- A dependency on a module of the manifest has to be what the manifest says. -/
def checkProducer (dependency : DependencyFingerprint) (producer : ModuleArtifactIndex) : Check :=
  reject (producer.module_ ≠ dependency.module_ || producer.sourceDigest ≠ dependency.sourceDigest ||
      producer.sourceSize ≠ dependency.sourceSize || dependency.typeContract.any (· ≠ producer.shardDigest) ||
      dependency.strictPolicy.any (· ≠ producer.effectivePolicy))
    (.dependencyMismatch dependency.module_.moduleName)

/-- One consumed dependency, with what the modules before it have consumed. -/
def consume (modules : List ModuleArtifactIndex) (consumed : String → Option DependencyFingerprint)
    (dependency : DependencyFingerprint) : Except ContractError (String → Option DependencyFingerprint) := do
  let name := dependency.module_.moduleName
  let merged ← match consumed name with
    | some previous => mergeConsumed previous dependency
    | none => .ok dependency
  ifSome (checkProducer dependency) (modules.find? (·.module_.moduleName = name))
  return fun other => if other = name then some merged else consumed other

namespace Crates

variable (crates : Crates) (manifest : TypeArtifactManifest)

def contentGeneration : Except ContractError Fingerprint := do
  let content ← crates.content.canonicalBytes (manifest.versions, manifest.environment, manifest.modules)
  return crates.sha256 (utf8 "SOAC-TYPE-CONTRACT-GENERATION\x00v1\x00" ++ content)

def validateManifest : Check := do
  validateVersions manifest.versions
  validateEnvironment manifest.environment
  eachUnique (·.module_.moduleName) (fun index => validateModuleName index.module_.moduleName)
    (fun index => structure_ ("duplicate manifest module " ++ index.module_.moduleName))
    (fun index => validateDependencies index.consumedDependencies index.module_.moduleName) [] manifest.modules
  let _ ← (manifest.modules.flatMap (·.consumedDependencies)).foldlM (consume manifest.modules) fun _ => none
  let generation ← crates.contentGeneration manifest
  reject (generation ≠ manifest.generation) .generationMismatch

/-- `TypeArtifactManifest::new`. -/
def newManifest (environment : ArtifactEnvironment) (modules : List ModuleArtifactIndex) :
    Except ContractError TypeArtifactManifest := do
  let manifest := canonicalizeManifest { versions := {}, generation := crates.sha256 [], environment, modules }
  let generation ← crates.contentGeneration manifest
  let manifest := { manifest with generation }
  crates.validateManifest manifest
  return manifest

def signaturePayload : Except ContractError (List UInt8) := do
  let bytes ← crates.manifest.canonicalBytes manifest
  return utf8 "SOAC-TYPE-CONTRACT-MANIFEST\x00v6\x00" ++ bytes

def signManifest (signingKey : crates.SigningKey) : Except ContractError (List UInt8) := do
  let manifest := canonicalizeManifest manifest
  crates.validateManifest manifest
  let payload ← crates.signaturePayload manifest
  let bytes ← crates.envelope.canonicalBytes ⟨manifest, encodeHex (crates.sign signingKey payload).1⟩
  enforceSize bytes "manifest" maxManifestBytes
  return bytes

/-- The first field in which the environments differ. -/
def compareEnvironment (actual expected : ArtifactEnvironment) : Check := do
  validateEnvironment expected
  each (fun (field, differs) => reject differs (.environmentMismatch field))
    [("ty_revision", decide (actual.tyRevision ≠ expected.tyRevision)),
      ("checker_source_fingerprint", decide (actual.checkerSourceFingerprint ≠ expected.checkerSourceFingerprint)),
      ("exporter_revision", decide (actual.exporterRevision ≠ expected.exporterRevision)),
      ("python_version", decide ((actual.pythonMajor, actual.pythonMinor) ≠ (expected.pythonMajor, expected.pythonMinor))),
      ("python_platform", decide (actual.pythonPlatform ≠ expected.pythonPlatform)),
      ("cpython_abi_fingerprint", decide (actual.cpythonAbiFingerprint ≠ expected.cpythonAbiFingerprint)),
      ("normalized_project_policy", decide (actual.normalizedProjectPolicy ≠ expected.normalizedProjectPolicy)),
      ("resolved_typechecker_configuration",
        decide (actual.resolvedTypecheckerConfiguration ≠ expected.resolvedTypecheckerConfiguration)),
      ("import_search_path", decide (actual.importSearchPath ≠ expected.importSearchPath)),
      ("typeshed_fingerprint", decide (actual.typeshedFingerprint ≠ expected.typeshedFingerprint)),
      ("installed_stub_fingerprint", decide (actual.installedStubFingerprint ≠ expected.installedStubFingerprint)),
      ("installed_dependency_fingerprint",
        decide (actual.installedDependencyFingerprint ≠ expected.installedDependencyFingerprint)),
      ("analysis", decide ((actual.strictEqualitySemantics, actual.strictGenericNarrowing) ≠
        (expected.strictEqualitySemantics, expected.strictGenericNarrowing)))]

def verifyManifest (bytes : List UInt8) (trustAnchor : crates.VerifyingKey) (expected : ArtifactExpectations) :
    Except ContractError VerifiedTypeArtifactManifest := do
  enforceSize bytes "manifest" maxManifestBytes
  let envelope ← crates.envelope.decodeCanonical bytes
  let signature ← decodeHex 64 envelope.signature
  let payload ← crates.signaturePayload envelope.manifest
  reject (!crates.verifyStrict trustAnchor payload signature) .untrustedSignature
  crates.validateManifest envelope.manifest
  reject (canonicalizeManifest envelope.manifest ≠ envelope.manifest) .nonCanonicalEncoding
  reject (envelope.manifest.generation ≠ expected.generation) .generationMismatch
  compareEnvironment envelope.manifest.environment expected.environment
  return ⟨envelope.manifest, crates.sha256 bytes⟩

/-! ### Shards -/

def policyFingerprint (policy : ResolvedStrictPolicy) : Except ContractError Fingerprint := do
  let bytes ← crates.policy.canonicalBytes policy
  return crates.sha256 bytes

def encodeModuleShard (facts : ModuleTypeFacts) : Except ContractError EncodedModuleShard := do
  let facts ← facts.canonicalized
  validateModuleFacts crates.sha256 facts none
  let bytes ← crates.facts.canonicalBytes facts
  enforceSize bytes "module shard" maxShardBytes
  return ⟨facts, bytes, crates.sha256 bytes⟩

/-- `ModuleArtifactIndex::from_shard`. -/
def indexOfShard (shard : EncodedModuleShard) : Except ContractError ModuleArtifactIndex := do
  let effectivePolicy ← crates.policyFingerprint shard.facts.languagePolicy
  return {
    module_ := shard.facts.module_
    sourceDigest := shard.facts.sourceDigest
    sourceSize := shard.facts.sourceSize
    effectivePolicy
    shardDigest := shard.digest
    consumedDependencies := shard.facts.consumedDependencies }

/-- The facts of a shard are in canonical form. -/
def checkCanonical (facts : ModuleTypeFacts) : Check := do
  let canonical ← facts.canonicalized
  reject (facts ≠ canonical) .nonCanonicalEncoding

def verifyShard (index : ModuleArtifactIndex) (shardBytes : List UInt8) : Except ContractError ModuleTypeFacts := do
  enforceSize shardBytes "module shard" maxShardBytes
  reject (crates.sha256 shardBytes ≠ index.shardDigest) (.shardMismatch index.module_.moduleName)
  let facts ← crates.facts.decodeCanonical shardBytes
  validateModuleFacts crates.sha256 facts none
  checkCanonical facts
  reject (facts.module_ ≠ index.module_ || facts.sourceDigest ≠ index.sourceDigest || facts.sourceSize ≠ index.sourceSize)
    (.shardMismatch index.module_.moduleName)
  let policy ← crates.policyFingerprint facts.languagePolicy
  reject (policy ≠ index.effectivePolicy || facts.consumedDependencies ≠ index.consumedDependencies)
    (.shardMismatch index.module_.moduleName)
  return facts

/-- Every shard of a generation is there and matches its index. -/
def verifyCompleteGeneration (manifest : VerifiedTypeArtifactManifest)
    (readShard : Fingerprint → Except ContractError (List UInt8)) : Check :=
  each (fun index => do
    let bytes ← readShard index.shardDigest
    let _ ← crates.verifyShard index bytes
    return ()) manifest.manifest.modules

end Crates

end Soac.Contracts
