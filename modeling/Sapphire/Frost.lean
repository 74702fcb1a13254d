import Sapphire.Maps

/-!
# The FROST surface the protocol is generic over

The repository is generic over a `frost_core` ciphersuite and calls its keys,
rounds and aggregation as a library. A `Ciphersuite` lists those types and
calls; nothing is assumed of them here. What a result needs of a call is a
hypothesis of that result, named below.
-/

namespace Sapphire

/-- `Vec<u8>` and `&[u8]`. -/
abbrev Bytes := List UInt8

structure Ciphersuite where
  /-- Totally ordered, as the key of every `BTreeMap`. -/
  Identifier : Type
  [identifierOrder : LinearOrder Identifier]
  identifierDebug : Identifier → String
  Error : Type
  errorToString : Error → String
  /-- The caller's random number generator, `R: RngCore + CryptoRng`. -/
  Rng : Type
  KeyPackage : Type
  identifier : KeyPackage → Identifier
  SigningShare : Type
  signingShare : KeyPackage → SigningShare
  /-- Group elements: `VerifyingKey`s, written additively. -/
  VerifyingKey : Type
  [verifyingKeyGroup : AddCommGroup VerifyingKey]
  [verifyingKeyDecEq : DecidableEq VerifyingKey]
  generator : VerifyingKey
  VerifyingShare : Type
  [verifyingShareDecEq : DecidableEq VerifyingShare]
  PublicKeyPackage : Type
  verifyingKey : PublicKeyPackage → VerifyingKey
  verifyingShares : PublicKeyPackage → BTreeMap Identifier VerifyingShare
  SigningNonces : Type
  SigningCommitments : Type
  commit : SigningShare → Rng → (SigningNonces × SigningCommitments) × Rng
  SigningPackage : Type
  /-- `SigningPackage::new`, with its two getters. -/
  signingPackage : BTreeMap Identifier SigningCommitments → Bytes → SigningPackage
  packageCommitments : SigningPackage → BTreeMap Identifier SigningCommitments
  packageMessage : SigningPackage → Bytes
  SignatureShare : Type
  Signature : Type
  verify : VerifyingKey → Bytes → Signature → Bool
  Randomizer : Type
  [randomizerAction : SMul Randomizer VerifyingKey]
  RandomizedParams : Type
  fromRandomizer : VerifyingKey → Randomizer → RandomizedParams
  randomizedVerifyingKey : RandomizedParams → VerifyingKey
  sign : SigningPackage → SigningNonces → KeyPackage → Randomizer → Except Error SignatureShare
  aggregate : SigningPackage → BTreeMap Identifier SignatureShare → PublicKeyPackage → RandomizedParams →
    Except Error Signature
  Round1Secret : Type
  Round1Package : Type
  Round2Secret : Type
  Round2Package : Type
  /-- `dkg::part1(identifier, max_signers, min_signers, rng)`. -/
  part1 : Identifier → UInt16 → UInt16 → Rng → Except Error (Round1Secret × Round1Package) × Rng
  part2 : Round1Secret → BTreeMap Identifier Round1Package →
    Except Error (Round2Secret × BTreeMap Identifier Round2Package)
  part3 : Round2Secret → BTreeMap Identifier Round1Package → BTreeMap Identifier Round2Package →
    Except Error (KeyPackage × PublicKeyPackage)

attribute [instance] Ciphersuite.identifierOrder Ciphersuite.verifyingKeyGroup Ciphersuite.verifyingKeyDecEq
  Ciphersuite.verifyingShareDecEq Ciphersuite.randomizerAction

namespace Ciphersuite

variable (C : Ciphersuite)

-- by name for each kind of key and value, so that maps over them carry one term
instance (priority := high) : Std.TransCmp (compare : C.Identifier → C.Identifier → Ordering) := inferInstance

instance (priority := high) : Std.LawfulEqCmp (compare : C.Identifier → C.Identifier → Ordering) := inferInstance

instance (priority := high) :
    Std.TransCmp (compare : C.Identifier ×ₗ C.Identifier → C.Identifier ×ₗ C.Identifier → Ordering) := inferInstance

instance (priority := high) : LawfulBEq C.VerifyingShare := inferInstance

/-- Packages agree when verifying key and verifying shares do, which is all the chain compares. -/
def Agree (p q : C.PublicKeyPackage) : Prop :=
  C.verifyingKey p = C.verifyingKey q ∧ C.verifyingShares p = C.verifyingShares q

instance (p q : C.PublicKeyPackage) : Decidable (C.Agree p q) := by
  unfold Agree; infer_instance

variable {C}

theorem Agree.refl (p : C.PublicKeyPackage) : C.Agree p p := ⟨rfl, rfl⟩

theorem Agree.symm {p q : C.PublicKeyPackage} (h : C.Agree p q) : C.Agree q p := ⟨h.1.symm, h.2.symm⟩

theorem Agree.trans {p q r : C.PublicKeyPackage} (h : C.Agree p q) (h' : C.Agree q r) : C.Agree p r :=
  ⟨h.1.trans h'.1, h.2.trans h'.2⟩

end Ciphersuite

/-- A signing package returns the commitments and the message it was built from. -/
structure PackageLaws (C : Ciphersuite) : Prop where
  message : ∀ cs msg, C.packageMessage (C.signingPackage cs msg) = msg
  commitments : ∀ cs msg, C.packageCommitments (C.signingPackage cs msg) = cs

/-- Aggregation checks the signature it returns against the message of the
signing package and the rerandomized key `vk + randomizer·G`. -/
structure AggregateSound (C : Ciphersuite) : Prop where
  randomized : ∀ vk r, C.randomizedVerifyingKey (C.fromRandomizer vk r) = vk + r • C.generator
  verified : ∀ pkg shares pkp rp sig, C.aggregate pkg shares pkp rp = .ok sig →
    C.verify (C.randomizedVerifyingKey rp) (C.packageMessage pkg) sig = true

end Sapphire
