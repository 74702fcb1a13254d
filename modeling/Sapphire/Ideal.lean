import Sapphire.Chain

/-!
# An ideal ciphersuite

FROST with records in place of group elements: a share says who signed what
under which key, and aggregation succeeds exactly on matching shares. It
satisfies the hypotheses the results are stated under, and is executable.
-/

namespace Sapphire.Ideal

structure KeyPackage where
  identifier : Nat
  groupKey : Int
  minSigners : Nat
deriving DecidableEq

structure PublicKeyPackage where
  key : Int
  shares : BTreeMap Nat Int
  minSigners : Nat
deriving DecidableEq

structure SigningPackage where
  commitments : BTreeMap Nat Nat
  message : Bytes
deriving DecidableEq

/-- A share or, without signer and nonce, a signature: `message` under `key`. -/
structure Signed where
  key : Int
  message : Bytes
deriving DecidableEq

structure SignatureShare where
  signer : Nat
  nonces : Nat
  signed : Signed
deriving DecidableEq

structure Round1Secret where
  identifier : Nat
  total : Nat
  minSigners : Nat
  coefficient : Int

def commit (_ : Nat) (rng : Nat) : (Nat × Nat) × Nat := ((rng, rng), rng + 1)

def sign (pkg : SigningPackage) (nonces : Nat) (kp : KeyPackage) (r : Int) : Except String SignatureShare :=
  if pkg.commitments.size < kp.minSigners then .error "Incorrect number of commitments."
  else if pkg.commitments[kp.identifier]? ≠ some nonces then
    .error "The Signing Package must contain the signer's commitment."
  else .ok { signer := kp.identifier, nonces, signed := { key := kp.groupKey + r, message := pkg.message } }

def aggregate (pkg : SigningPackage) (shares : BTreeMap Nat SignatureShare) (pkp : PublicKeyPackage) (rk : Int) :
    Except String Signed :=
  let signed : Signed := { key := rk, message := pkg.message }
  let expected := pkg.commitments.toList.map fun (i, n) => (i, SignatureShare.mk i n signed)
  if shares.toList ≠ expected then .error "Invalid signature share."
  else if pkg.commitments.size < pkp.minSigners then .error "Invalid signature."
  else .ok signed

def part1 (i : Nat) (maxSigners minSigners : UInt16) (rng : Nat) : Except String (Round1Secret × Int) × Nat :=
  if minSigners < 2 ∨ maxSigners < minSigners then (.error "Invalid min signers.", rng)
  else (.ok ({ identifier := i, total := maxSigners.toNat, minSigners := minSigners.toNat, coefficient := rng }, rng),
    rng + 1)

def part2 (secret : Round1Secret) (others : BTreeMap Nat Int) :
    Except String (Round1Secret × BTreeMap Nat (Int × Nat)) :=
  if others.size + 1 ≠ secret.total then .error "Incorrect number of packages."
  else .ok (secret, others.map fun i _ => (secret.coefficient, i))

/-- The group key is the sum of the coefficients, checked against the packages received. -/
def part3 (secret : Round1Secret) (others : BTreeMap Nat Int) (received : BTreeMap Nat (Int × Nat)) :
    Except String (KeyPackage × PublicKeyPackage) :=
  if received ≠ others.map (fun _ a => (a, secret.identifier)) then .error "Invalid secret share."
  else
    let all := others.insert secret.identifier secret.coefficient
    let key := (all.toList.map Prod.snd).sum
    .ok ({ identifier := secret.identifier, groupKey := key, minSigners := secret.minSigners },
      { key, shares := all, minSigners := secret.minSigners })

@[reducible] def suite : Ciphersuite where
  Identifier := Nat
  identifierDebug i := "Identifier(" ++ toString i ++ ")"
  Error := String
  errorToString e := e
  Rng := Nat
  KeyPackage := KeyPackage
  identifier := KeyPackage.identifier
  SigningShare := Nat
  signingShare := KeyPackage.identifier
  VerifyingKey := Int
  generator := 1
  VerifyingShare := Int
  PublicKeyPackage := PublicKeyPackage
  verifyingKey := PublicKeyPackage.key
  verifyingShares := PublicKeyPackage.shares
  SigningNonces := Nat
  SigningCommitments := Nat
  commit := commit
  SigningPackage := SigningPackage
  signingPackage := SigningPackage.mk
  packageCommitments := SigningPackage.commitments
  packageMessage := SigningPackage.message
  SignatureShare := SignatureShare
  Signature := Signed
  verify key message sig := decide (sig = { key, message })
  Randomizer := Int
  RandomizedParams := Int
  fromRandomizer key r := key + r
  randomizedVerifyingKey rp := rp
  sign := sign
  aggregate := aggregate
  Round1Secret := Round1Secret
  Round1Package := Int
  Round2Secret := Round1Secret
  Round2Package := Int × Nat
  part1 := part1
  part2 := part2
  part3 := part3

def id0 : Uuid := ⟨Vector.replicate 16 0⟩

theorem packageLaws : PackageLaws suite := ⟨fun _ _ => rfl, fun _ _ => rfl⟩

theorem aggregateSound : AggregateSound suite where
  randomized key r := by
    show key + r = key + r • (1 : Int)
    simp
  verified pkg shares pkp rp sig h := by
    change aggregate pkg shares pkp rp = .ok sig at h
    unfold aggregate at h
    simp only at h
    split at h
    · cases h
    · split at h
      · cases h
      · cases h; simp

end Sapphire.Ideal
