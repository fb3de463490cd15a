import Soac.Theorems.CanonicalForm

/-!
# Signed manifests

A manifest that was built from the indexes of its modules verifies after it has been signed, whatever order the indexes were
in. And what verifies is the canonical encoding of a manifest that is bound to its content: its generation is the hash of
the versions, the environment and the modules, and the one that was expected.
-/

namespace Soac.Contracts

open Checks Fallible List Crates ContractError

/-! ## Hexadecimal digits -/

/-- The bytes of the two digits of a byte. -/
def hexPair (byte : UInt8) : List UInt8 :=
  [hexChar (byte >>> 4), hexChar (byte &&& 0xf)].flatMap String.utf8EncodeChar

theorem decodePairs_hexPair (byte : UInt8) : (hexPair byte).length = 2 ∧ decodePairs (hexPair byte) = some [byte] := by
  have hall : ∀ i : Fin 256, (hexPair (UInt8.ofNat i)).length = 2 ∧
      decodePairs (hexPair (UInt8.ofNat i)) = some [UInt8.ofNat i] := by
    decide +kernel
  have hbyte := hall ⟨byte.toNat, byte.toNat_lt⟩
  rwa [UInt8.ofNat_toNat] at hbyte

theorem decodePairs_append {digits rest : List UInt8} {byte : UInt8} (hlength : digits.length = 2)
    (h : decodePairs digits = some [byte]) : decodePairs (digits ++ rest) = (decodePairs rest).map (byte :: ·) := by
  match digits, hlength with
  | [high, low], _ =>
    simp only [decodePairs, Option.bind_eq_bind, Option.bind_eq_some_iff] at h
    obtain ⟨high', hhigh, low', hlow, _, hnil, h⟩ := h
    cases hnil
    cases h
    change (do
      let high ← hexDigit high
      let low ← hexDigit low
      let bytes ← decodePairs rest
      return ((high <<< 4) ||| low) :: bytes) = _
    rw [hhigh, hlow]
    cases decodePairs rest <;> rfl

variable (bytes : List UInt8)

theorem utf8_encodeHex : utf8 (encodeHex bytes) = bytes.flatMap hexPair := by
  rw [utf8, encodeHex, String.toList_ofList, flatMap_assoc]
  rfl

theorem decodePairs_encodeHex : decodePairs (utf8 (encodeHex bytes)) = some bytes := by
  rw [utf8_encodeHex]
  induction bytes with
  | nil => rfl
  | cons byte bytes ih =>
    rw [flatMap_cons, decodePairs_append (decodePairs_hexPair byte).1 (decodePairs_hexPair byte).2, ih]
    rfl

theorem length_utf8_encodeHex : (utf8 (encodeHex bytes)).length = bytes.length * 2 := by
  rw [utf8_encodeHex]
  induction bytes with
  | nil => rfl
  | cons byte bytes ih =>
    rw [flatMap_cons, length_append, (decodePairs_hexPair byte).1, length_cons]
    omega

/-- The digits of a signature are read back as the signature. -/
theorem decodeHex_encodeHex {n : Nat} (bytes : Bytes n) : decodeHex n (encodeHex bytes.1) = .ok bytes := by
  have hlength : (utf8 (encodeHex bytes.1)).length = n * 2 := by rw [length_utf8_encodeHex, bytes.2]
  unfold decodeHex
  rw [dif_pos hlength]
  split
  · next decoded hdecoded =>
    rw [decodePairs_encodeHex] at hdecoded
    cases hdecoded
    rfl
  · next hnone =>
    rw [decodePairs_encodeHex] at hnone
    cases hnone

/-! ## Canonical manifests -/

variable (manifest : TypeArtifactManifest)

theorem canonicalizeManifest_idempotent :
    canonicalizeManifest (canonicalizeManifest manifest) = canonicalizeManifest manifest := by
  unfold canonicalizeManifest
  have hsorted : SortedBy (fun index : ModuleArtifactIndex => index.module_.moduleName)
      ((sortBy (·.module_.moduleName) manifest.modules).map fun index =>
        { index with consumedDependencies := canonicalizeDependencies index.consumedDependencies }) := by
    refine (sortedBy_sortBy (fun index : ModuleArtifactIndex => index.module_.moduleName) manifest.modules).of_forall₂
      (R := fun index index' =>
        index' = { index with consumedDependencies := canonicalizeDependencies index.consumedDependencies }) ?_ ?_
    · exact List.forall₂_map_right_iff.mpr (List.forall₂_same.mpr fun _ _ => rfl)
    · rintro index _ rfl
      rfl
  have hdependencies : ∀ dependencies, canonicalizeDependencies (canonicalizeDependencies dependencies) =
      canonicalizeDependencies dependencies := fun dependencies => (sortedBy_sortBy _ dependencies).sortBy_eq
  rw [hsorted.sortBy_eq, map_map]
  simp only [Function.comp_def, hdependencies]

theorem compareEnvironment_self {environment : ArtifactEnvironment} (h : validateEnvironment environment = .ok ()) :
    compareEnvironment environment environment = .ok () := by
  rw [compareEnvironment, h, ok_bind, each_eq_ok]
  intro field hfield
  simp only [mem_cons, not_mem_nil, or_false] at hfield
  rcases hfield with rfl | rfl | rfl | rfl | rfl | rfl | rfl | rfl | rfl | rfl | rfl | rfl | rfl <;> simp

theorem environment_eq_of_compare {actual expected : ArtifactEnvironment}
    (h : compareEnvironment actual expected = .ok ()) : actual = expected := by
  rw [compareEnvironment, seq_eq_ok] at h
  obtain ⟨_, h⟩ := h
  simp only [each, seq_eq_ok, reject_not_eq_ok, Prod.mk.injEq] at h
  rcases actual with ⟨⟩
  rcases expected with ⟨⟩
  grind

namespace Crates

variable {crates : Crates}
  {environment : ArtifactEnvironment} {modules : List ModuleArtifactIndex} {manifest : TypeArtifactManifest}
  {key : crates.SigningKey} {bytes : List UInt8}

theorem newManifest_eq_ok (h : crates.newManifest environment modules = .ok manifest) :
    crates.validateManifest manifest = .ok () ∧ manifest.environment = environment ∧
      ∃ generation, crates.contentGeneration (canonicalizeManifest ⟨{}, crates.sha256 [], environment, modules⟩) =
        .ok generation ∧
        manifest = { canonicalizeManifest ⟨{}, crates.sha256 [], environment, modules⟩ with generation } := by
  obtain ⟨generation, hgeneration, h⟩ := bind_eq_ok.mp h
  obtain ⟨_, hvalid, h⟩ := bind_eq_ok.mp h
  cases h
  exact ⟨hvalid, rfl, generation, hgeneration, rfl⟩

/-- A built manifest is canonical. -/
theorem canonicalizeManifest_of_new (h : crates.newManifest environment modules = .ok manifest) :
    canonicalizeManifest manifest = manifest := by
  obtain ⟨_, _, generation, _, rfl⟩ := newManifest_eq_ok h
  have hidempotent := canonicalizeManifest_idempotent ⟨{}, crates.sha256 [], environment, modules⟩
  exact congrArg (fun m : TypeArtifactManifest => { m with generation }) hidempotent

/-- What a valid manifest has been checked for. -/
theorem validateManifest_eq_ok (h : crates.validateManifest manifest = .ok ()) :
    validateEnvironment manifest.environment = .ok () ∧ (manifest.modules.map (·.module_.moduleName)).Nodup ∧
      crates.contentGeneration manifest = .ok manifest.generation := by
  obtain ⟨_, _, h⟩ := bind_eq_ok.mp h
  obtain ⟨_, henvironment, h⟩ := bind_eq_ok.mp h
  obtain ⟨_, hmodules, h⟩ := bind_eq_ok.mp h
  obtain ⟨_, _, h⟩ := bind_eq_ok.mp h
  obtain ⟨generation, hgeneration, h⟩ := bind_eq_ok.mp h
  rw [reject_not_eq_ok] at h
  exact ⟨henvironment, (eachUnique_eq_ok.mp hmodules).1, h ▸ hgeneration⟩

/-- The order of the indexes does not matter. -/
theorem newManifest_of_perm {modules' : List ModuleArtifactIndex}
    (h : crates.newManifest environment modules = .ok manifest)
    (hperm : modules'.Perm modules) : crates.newManifest environment modules' = .ok manifest := by
  obtain ⟨hvalid, _, generation, _, hmanifest⟩ := newManifest_eq_ok h
  have hnodup : (modules.map (·.module_.moduleName)).Nodup := by
    have hnames := (validateManifest_eq_ok hvalid).2.1
    rw [hmanifest, canonicalizeManifest, map_map] at hnames
    exact ((sortBy_perm _ modules).map _).nodup_iff.mp hnames
  have hcanonical : canonicalizeManifest ⟨{}, crates.sha256 [], environment, modules'⟩ =
      canonicalizeManifest ⟨{}, crates.sha256 [], environment, modules⟩ := by
    unfold canonicalizeManifest
    rw [sortBy_eq_of_perm (fun _ _ => Tokens.tokens_string_injective) hnodup hperm]
  rw [newManifest] at h ⊢
  rw [hcanonical]
  exact h

theorem signManifest_of_encoding (hcanonical : canonicalizeManifest manifest = manifest)
    (hvalid : crates.validateManifest manifest = .ok ()) {payload : List UInt8}
    (hpayload : crates.signaturePayload manifest = .ok payload)
    (hbytes : crates.envelope.canonicalBytes ⟨manifest, encodeHex (crates.sign key payload).1⟩ = .ok bytes)
    (hsize : bytes.length ≤ maxManifestBytes) : crates.signManifest manifest key = .ok bytes := by
  have henforced : enforceSize bytes "manifest" maxManifestBytes = .ok () := by
    rw [enforceSize, reject_eq_ok, decide_eq_false_iff_not]
    exact Nat.not_lt.mpr hsize
  unfold signManifest
  dsimp only
  rw [hcanonical, hvalid, ok_bind, hpayload, ok_bind, hbytes, ok_bind, henforced]
  rfl

theorem signManifest_eq_ok (h : crates.signManifest manifest key = .ok bytes) : ∃ payload,
      crates.signaturePayload (canonicalizeManifest manifest) = .ok payload ∧
      crates.envelope.canonicalBytes ⟨canonicalizeManifest manifest, encodeHex (crates.sign key payload).1⟩ = .ok bytes ∧
      enforceSize bytes "manifest" maxManifestBytes = .ok () := by
  obtain ⟨_, _, h⟩ := bind_eq_ok.mp h
  obtain ⟨payload, hpayload, h⟩ := bind_eq_ok.mp h
  obtain ⟨bytes', hbytes, h⟩ := bind_eq_ok.mp h
  obtain ⟨_, hsize, h⟩ := bind_eq_ok.mp h
  cases h
  exact ⟨payload, hpayload, hbytes, hsize⟩

/-- Ed25519 verifies its own signatures. -/
def VerifiesSignatures (crates : Crates) : Prop :=
  ∀ key payload, crates.verifyStrict (crates.verifyingKey key) payload (crates.sign key payload) = true

/-- A canonical valid manifest passes under the key it was signed with. -/
theorem verifyManifest_of_sign (hserde : crates.envelope.RoundTrips) (hsignature : crates.VerifiesSignatures)
    (hcanonical : canonicalizeManifest manifest = manifest) (hvalid : crates.validateManifest manifest = .ok ())
    (h : crates.signManifest manifest key = .ok bytes) :
    crates.verifyManifest bytes (crates.verifyingKey key) ⟨manifest.generation, manifest.environment⟩ =
      .ok ⟨manifest, crates.sha256 bytes⟩ := by
  obtain ⟨payload, hpayload, hbytes, hsize⟩ := signManifest_eq_ok h
  rw [hcanonical] at hpayload hbytes
  have hverified : reject (!crates.verifyStrict (crates.verifyingKey key) payload (crates.sign key payload))
      untrustedSignature = .ok () := by
    rw [hsignature]
    rfl
  have hform : reject (canonicalizeManifest manifest ≠ manifest) nonCanonicalEncoding = .ok () := by
    rw [reject_not_eq_ok, hcanonical]
  have hgeneration : reject (manifest.generation ≠ manifest.generation) generationMismatch = .ok () := by
    rw [reject_not_eq_ok]
  unfold verifyManifest
  rw [hsize, ok_bind, hserde.decodeCanonical hbytes, ok_bind]
  rw [decodeHex_encodeHex, ok_bind, hpayload, ok_bind, hverified, ok_bind, hvalid, ok_bind, hform, ok_bind, hgeneration,
    ok_bind, compareEnvironment_self (validateManifest_eq_ok hvalid).1]
  rfl

/-- The generation is the hash of the encoded versions, environment and modules, under the domain of generations. -/
def BoundToContent (crates : Crates) (manifest : TypeArtifactManifest) : Prop :=
  ∃ content, crates.content.canonicalBytes (manifest.versions, manifest.environment, manifest.modules) = .ok content ∧
    manifest.generation = crates.sha256 (utf8 "SOAC-TYPE-CONTRACT-GENERATION\x00v1\x00" ++ content)

theorem boundToContent_of_valid (h : crates.validateManifest manifest = .ok ()) : BoundToContent crates manifest := by
  obtain ⟨content, hcontent, hgeneration⟩ := bind_eq_ok.mp (validateManifest_eq_ok h).2.2
  exact ⟨content, hcontent, (Except.ok.inj hgeneration).symm⟩

/-- What a manifest that passes is known to be. -/
theorem verifyManifest_eq_ok {anchor : crates.VerifyingKey} {expected : ArtifactExpectations}
    {verified : VerifiedTypeArtifactManifest} (h : crates.verifyManifest bytes anchor expected = .ok verified) :
    (∃ signature, crates.envelope.canonicalBytes ⟨verified.manifest, signature⟩ = .ok bytes) ∧
      canonicalizeManifest verified.manifest = verified.manifest ∧ BoundToContent crates verified.manifest ∧
      verified.manifest.generation = expected.generation ∧ verified.manifest.environment = expected.environment := by
  obtain ⟨_, _, h⟩ := bind_eq_ok.mp h
  obtain ⟨envelope, henvelope, h⟩ := bind_eq_ok.mp h
  obtain ⟨signature, _, h⟩ := bind_eq_ok.mp h
  obtain ⟨payload, _, h⟩ := bind_eq_ok.mp h
  obtain ⟨_, _, h⟩ := bind_eq_ok.mp h
  obtain ⟨_, hvalid, h⟩ := bind_eq_ok.mp h
  obtain ⟨_, hcanonical, h⟩ := bind_eq_ok.mp h
  obtain ⟨_, hgeneration, h⟩ := bind_eq_ok.mp h
  obtain ⟨_, henvironment, h⟩ := bind_eq_ok.mp h
  cases h
  rw [reject_not_eq_ok] at hcanonical hgeneration
  exact ⟨⟨envelope.signature, Serde.canonicalBytes_of_decodeCanonical henvelope⟩, hcanonical,
    boundToContent_of_valid hvalid, hgeneration, environment_eq_of_compare henvironment⟩

/-- The index of an encoded shard is canonical already. -/
theorem canonicalizeDependencies_of_index {facts : ModuleTypeFacts} {shard : EncodedModuleShard}
    (h : crates.encodeModuleShard facts = .ok shard) {index : ModuleArtifactIndex}
    (hindex : crates.indexOfShard shard = .ok index) :
    canonicalizeDependencies index.consumedDependencies = index.consumedDependencies := by
  obtain ⟨hcanonical, _⟩ := encodeModuleShard_eq_ok h
  obtain ⟨normal, hnormal, hcanonical⟩ := bind_eq_ok.mp hcanonical
  obtain ⟨_, _, hindex⟩ := bind_eq_ok.mp hindex
  cases hindex
  have hfacts := (normalFacts_of_normalize hnormal).demoteSuppressedRegions
  rw [Except.ok.inj hcanonical] at hfacts
  exact hfacts.consumedDependencies.sortBy_eq

/-- A generation whose shards are stored under their digests is complete: every shard of the manifest matches its index. -/
theorem verifyCompleteGeneration_of_encoded (hserde : crates.facts.RoundTrips) {indexes : List ModuleArtifactIndex}
    (hmanifest : crates.newManifest environment indexes = .ok manifest)
    {readShard : Fingerprint → Except ContractError (List UInt8)}
    (hshards : ∀ index ∈ indexes, ∃ facts shard, crates.encodeModuleShard facts = .ok shard ∧
      crates.indexOfShard shard = .ok index ∧ readShard shard.digest = .ok shard.bytes) {digest : Fingerprint} :
    crates.verifyCompleteGeneration ⟨manifest, digest⟩ readShard = .ok () := by
  rw [verifyCompleteGeneration, each_eq_ok]
  intro index' hindex'
  obtain ⟨_, _, generation, _, rfl⟩ := newManifest_eq_ok hmanifest
  obtain ⟨index, hindex, rfl⟩ := mem_map.mp hindex'
  obtain ⟨facts, shard, hshard, hof, hread⟩ := hshards index (mem_sortBy.mp hindex)
  rw [canonicalizeDependencies_of_index hshard hof]
  have hdigest : index.shardDigest = shard.digest := by
    obtain ⟨_, _, hof⟩ := bind_eq_ok.mp hof
    cases hof
    rfl
  change (readShard index.shardDigest >>= fun bytes => crates.verifyShard index bytes >>= fun _ => pure ()) = .ok ()
  rw [hdigest, hread, ok_bind, verifyShard_of_encode hserde hshard hof]
  rfl

end Crates

/-- Signing and verifying a manifest, and what is bound by it. -/
theorem signedManifest_roundTrip_and_binding (crates : Crates) (hserde : crates.envelope.RoundTrips)
    (hsignature : crates.VerifiesSignatures) :
    (∀ environment modules manifest key, crates.newManifest environment modules = .ok manifest →
      canonicalizeManifest manifest = manifest ∧ BoundToContent crates manifest ∧
      (∀ modules', modules'.Perm modules → crates.newManifest environment modules' = .ok manifest) ∧
      (∀ payload bytes, crates.signaturePayload manifest = .ok payload →
        crates.envelope.canonicalBytes ⟨manifest, encodeHex (crates.sign key payload).1⟩ = .ok bytes →
        bytes.length ≤ maxManifestBytes → crates.signManifest manifest key = .ok bytes) ∧
      ∀ bytes, crates.signManifest manifest key = .ok bytes →
        crates.verifyManifest bytes (crates.verifyingKey key) ⟨manifest.generation, environment⟩ =
          .ok ⟨manifest, crates.sha256 bytes⟩) ∧
    ∀ bytes anchor expected verified, crates.verifyManifest bytes anchor expected = .ok verified →
      (∃ signature, crates.envelope.canonicalBytes ⟨verified.manifest, signature⟩ = .ok bytes) ∧
      canonicalizeManifest verified.manifest = verified.manifest ∧ BoundToContent crates verified.manifest ∧
      verified.manifest.generation = expected.generation ∧ verified.manifest.environment = expected.environment := by
  refine ⟨fun environment modules manifest key h => ?_, fun bytes anchor expected verified => verifyManifest_eq_ok⟩
  have hcanonical := canonicalizeManifest_of_new h
  obtain ⟨hvalid, henvironment, _⟩ := newManifest_eq_ok h
  refine ⟨hcanonical, boundToContent_of_valid hvalid, fun modules' => newManifest_of_perm h,
    fun payload bytes => signManifest_of_encoding hcanonical hvalid, fun bytes hbytes => ?_⟩
  have hverified := verifyManifest_of_sign hserde hsignature hcanonical hvalid hbytes
  rw [henvironment] at hverified
  exact hverified

/-! ### A manifest of two modules, of which one depends on the other -/

def sampleEnvironment : ArtifactEnvironment :=
  ⟨"ty", 1, "exporter", 3, 14, "linux", 2, 3, 4, 5, 6, 7, 8, true, true⟩

/-- What the module `n` has consumed of the module `m`. -/
def sampleDependency : DependencyFingerprint :=
  ⟨⟨"m", 1⟩, 0, 100, 21, 22, some 0, some 1⟩

def dependentShard : ModuleTypeFacts :=
  sampleShard "n" [sampleDependency] []

def producerIndex : ModuleArtifactIndex :=
  ⟨⟨"m", 1⟩, 0, 100, 0, 1, []⟩

def consumerIndex : ModuleArtifactIndex :=
  ⟨⟨"n", 1⟩, 0, 100, 0, 258, [sampleDependency]⟩

/-- The manifest whose content is encoded as the given bytes. -/
def sampleManifest (modules : List ModuleArtifactIndex) (content : List UInt8) : TypeArtifactManifest :=
  ⟨{}, sampleHash (utf8 "SOAC-TYPE-CONTRACT-GENERATION\x00v1\x00" ++ content), sampleEnvironment, modules⟩

def oneModule : TypeArtifactManifest :=
  sampleManifest [producerIndex] []

def twoModules : TypeArtifactManifest :=
  sampleManifest [producerIndex, consumerIndex] [0]

/-- The envelope of a manifest that is encoded as the given bytes, signed with the key `7`. -/
def sampleEnvelope (manifest : TypeArtifactManifest) (bytes : List UInt8) : SignedManifestEnvelope :=
  ⟨manifest, encodeHex (sampleSign 7 (utf8 "SOAC-TYPE-CONTRACT-MANIFEST\x00v6\x00" ++ bytes)).1⟩

def manifestCrates : Crates :=
  { sampleCrates with
    facts := tableSerde [unsortedShard, canonicalShard, dependentShard]
    manifest := tableSerde [oneModule, twoModules]
    envelope := tableSerde [sampleEnvelope oneModule [], sampleEnvelope twoModules [0]]
    content := tableSerde [({}, sampleEnvironment, [producerIndex]),
      ({}, sampleEnvironment, [producerIndex, consumerIndex])] }

theorem newManifest_twoModules :
    manifestCrates.newManifest sampleEnvironment [consumerIndex, producerIndex] = .ok twoModules := by
  decide +kernel

/-- The signed manifest verifies; under another key, or where the manifest of one module is expected, it does not. -/
theorem signedManifest_two_modules :
    manifestCrates.signManifest twoModules (7 : UInt8) = .ok [0] ∧
    manifestCrates.verifyManifest [0] (7 : UInt8) ⟨twoModules.generation, sampleEnvironment⟩ = .ok ⟨twoModules, 1⟩ ∧
    BoundToContent manifestCrates twoModules ∧
    manifestCrates.verifyManifest [0] (8 : UInt8) ⟨twoModules.generation, sampleEnvironment⟩ = .error .untrustedSignature ∧
    manifestCrates.verifyManifest [0] (7 : UInt8) ⟨oneModule.generation, sampleEnvironment⟩ =
      .error .generationMismatch := by
  have hsign : manifestCrates.signManifest twoModules (7 : UInt8) = .ok [0] := by decide +kernel
  have htheorem := signedManifest_roundTrip_and_binding manifestCrates (tableSerde_roundTrips _)
    fun _ _ => decide_eq_true rfl
  have hverified := (htheorem.1 _ _ _ (7 : UInt8) newManifest_twoModules).2.2.2.2 [0] hsign
  exact ⟨hsign, hverified, (htheorem.2 _ _ _ _ hverified).2.2.1, by decide +kernel, by decide +kernel⟩

/-- The shards of the two modules, of which the first was encoded from facts that are not in order. -/
theorem verifyCompleteGeneration_unsorted : manifestCrates.verifyCompleteGeneration ⟨twoModules, 1⟩
    (fun digest => if digest = 1 then .ok [0] else .ok [0, 0]) = .ok () := by
  refine Crates.verifyCompleteGeneration_of_encoded (tableSerde_roundTrips _) newManifest_twoModules ?_
  refine forall_mem_cons.mpr ⟨?_, forall_mem_singleton.mpr ?_⟩
  · exact ⟨dependentShard, ⟨dependentShard, [0, 0], 258⟩, by decide +kernel, by decide +kernel, rfl⟩
  · exact ⟨unsortedShard, ⟨canonicalShard, [0], 1⟩, by decide +kernel, by decide +kernel, rfl⟩

end Soac.Contracts
