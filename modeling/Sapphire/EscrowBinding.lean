import Sapphire.Escrow

/-!
# What binds a witness

`HashPreimage` compares the witness's digest with the condition and nothing
else. So a witness is bound to a condition, and to an escrow only where no other
escrow has the same one.
-/

namespace Sapphire

/-- `HashPreimage`, over SHA-256. -/
def hashPreimage (digest : Bytes → Vector UInt8 32) : ConditionVerifier Bytes :=
  { verify := fun terms witness => terms.condition == (digest witness).toList }

variable {digest : Bytes → Vector UInt8 32}

theorem hashPreimage_verify {terms : EscrowTerms} {witness : Bytes} :
    (hashPreimage digest).verify terms witness = true ↔ terms.condition = (digest witness).toList := by
  simp [hashPreimage]

/-- A witness that releases the first escrow does not release the second, whatever the payments. -/
def WitnessBound (digest : Bytes → Vector UInt8 32) (first second : EscrowTerms) : Prop :=
  ∀ intent intent' : SettlementIntent Bytes, intent.witness = intent'.witness →
    validateSettlement first intent (hashPreimage digest) = .ok () →
      validateSettlement second intent' (hashPreimage digest) ≠ .ok ()

def EscrowTerms.release (terms : EscrowTerms) (witness : Bytes) : SettlementIntent Bytes :=
  { payment := { amount := terms.amount, recipient := terms.payee }, witness }

theorem release_ok {terms : EscrowTerms} {witness : Bytes} (h : terms.condition = (digest witness).toList) :
    validateSettlement terms (terms.release witness) (hashPreimage digest) = .ok () :=
  validateSettlement_ok.mpr ⟨rfl, hashPreimage_verify.mpr h⟩

theorem condition_eq {first second : EscrowTerms} {intent intent' : SettlementIntent Bytes}
    (hsame : intent.witness = intent'.witness) (h : validateSettlement first intent (hashPreimage digest) = .ok ())
    (h' : validateSettlement second intent' (hashPreimage digest) = .ok ()) :
    first.condition = second.condition ∧ first.condition = (digest intent.witness).toList := by
  have hfirst := hashPreimage_verify.mp (validateSettlement_ok.mp h).2
  have hsecond := hashPreimage_verify.mp (validateSettlement_ok.mp h').2
  rw [← hsame] at hsecond
  exact ⟨hfirst.trans hsecond.symm, hfirst⟩

/-- A witness is bound to its escrow against another one exactly when their
conditions differ, or nothing opens them. -/
theorem witness_bound_iff (digest : Bytes → Vector UInt8 32) (first second : EscrowTerms) :
    WitnessBound digest first second ↔
      first.condition ≠ second.condition ∨ ∀ witness, first.condition ≠ (digest witness).toList := by
  constructor
  · intro hbound
    by_contra hcond
    push Not at hcond
    obtain ⟨hsame, witness, hopens⟩ := hcond
    exact hbound (first.release witness) (second.release witness) rfl (release_ok hopens) (release_ok (hsame ▸ hopens))
  · intro hcond intent intent' hsame h h'
    obtain ⟨hconditions, hopens⟩ := condition_eq hsame h h'
    rcases hcond with hne | hclosed
    · exact hne hconditions
    · exact hclosed _ hopens

/-- On a node: where the registered conditions all differ, a witness approved for one escrow is approved for no other. -/
theorem approved_bound {hex : Hex} {fromSlice : Bytes → Except String (ReleaseProposal Bytes)}
    {policy : EscrowPolicy Bytes}
    (hverifier : policy.verifier = hashPreimage digest)
    (hdistinct : ∀ (id id' : EscrowId) terms terms', policy.escrows[id]? = some terms → policy.escrows[id']? = some terms' →
      id ≠ id' → terms.condition ≠ terms'.condition)
    {message message' : Bytes} {proposal proposal' : ReleaseProposal Bytes} (hp : fromSlice message = .ok proposal)
    (hp' : fromSlice message' = .ok proposal') (hid : proposal.escrowId ≠ proposal'.escrowId)
    (hsame : proposal.intent.witness = proposal'.intent.witness) (h : policy.approve hex fromSlice message = .ok ()) :
    policy.approve hex fromSlice message' ≠ .ok () := by
  intro h'
  obtain ⟨p, terms, hslice, hterms, hpay, hverify⟩ := approve_ok.mp h
  obtain ⟨p', terms', hslice', hterms', hpay', hverify'⟩ := approve_ok.mp h'
  rw [hp] at hslice
  rw [hp'] at hslice'
  cases hslice
  cases hslice'
  rw [hverifier] at hverify hverify'
  have hconditions := condition_eq hsame (validateSettlement_ok.mpr ⟨hpay, hverify⟩)
    (validateSettlement_ok.mpr ⟨hpay', hverify'⟩)
  exact hdistinct _ _ _ _ hterms hterms' hid hconditions.1

namespace Ideal

def emptyDigest : Vector UInt8 32 :=
  #v[0xe3, 0xb0, 0xc4, 0x42, 0x98, 0xfc, 0x1c, 0x14, 0x9a, 0xfb, 0xf4, 0xc8, 0x99, 0x6f, 0xb9, 0x24,
    0x27, 0xae, 0x41, 0xe4, 0x64, 0x9b, 0x93, 0x4c, 0xa4, 0x95, 0x99, 0x1b, 0x78, 0x52, 0xb8, 0x55]

/-- SHA-256 as far as the empty string. -/
def sha256 : Bytes → Vector UInt8 32
  | [] => emptyDigest
  | _ => Vector.replicate 32 0

def lockedTerms (id : UInt8) : EscrowTerms where
  escrowId := ⟨Vector.replicate 32 id⟩
  amount := ⟨800000000⟩
  payee := ⟨"u_alice"⟩
  refundTo := ⟨"u_bob"⟩
  timeoutHeight := 1000
  condition := emptyDigest.toList

end Ideal

theorem witness_not_bound : ¬ ∀ first second : EscrowTerms, first.escrowId ≠ second.escrowId →
    WitnessBound Ideal.sha256 first second := by
  intro h
  have hid : (Ideal.lockedTerms 1).escrowId ≠ (Ideal.lockedTerms 2).escrowId := by decide
  exact h _ _ hid ((Ideal.lockedTerms 1).release []) ((Ideal.lockedTerms 2).release []) rfl (release_ok rfl) (release_ok rfl)

end Sapphire
