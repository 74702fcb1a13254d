import Sapphire.Node
import Sapphire.Hex

/-!
# Escrow releases

`sapphire-escrow` and the signing policy of `sapphire-node`: a node looks up
its own terms for the escrow a message names, and signs when the payment is
the one of the terms and the verifier accepts the witness. Decoding a message
is serde's part, and a parameter, as is the `hex` crate.
-/

namespace Sapphire

structure EscrowId where
  bytes : Vector UInt8 32
deriving Repr

instance : LinearOrder EscrowId :=
  LinearOrder.lift' (fun e => e.bytes.toList.map UInt8.toNat) (by
    intro a b h
    cases a; cases b
    simpa [Vector.toList_inj, UInt8.toNat_inj, List.map_inj_right] using h)

structure Address where
  encoded : String
deriving DecidableEq, Repr

structure Zatoshis where
  value : UInt64
deriving DecidableEq, Repr

structure EscrowTerms where
  escrowId : EscrowId
  amount : Zatoshis
  payee : Address
  refundTo : Address
  timeoutHeight : UInt64
  condition : Bytes

structure PaymentLeg where
  amount : Zatoshis
  recipient : Address
deriving DecidableEq, Repr

variable {W : Type}

structure SettlementIntent (W : Type) where
  payment : PaymentLeg
  witness : W

structure ReleaseProposal (W : Type) where
  escrowId : EscrowId
  intent : SettlementIntent W

structure ConditionVerifier (W : Type) where
  verify : EscrowTerms → W → Bool

def acceptAllVerifier : ConditionVerifier Unit := { verify := fun _ _ => true }

inductive EscrowError where
  | amountMismatch (want got : Zatoshis)
  | payeeMismatch
  | conditionNotMet
deriving DecidableEq, Repr

def Zatoshis.debug (z : Zatoshis) : String := "Zatoshis(" ++ toString z.value.toNat ++ ")"

def EscrowError.display : EscrowError → String
  | .amountMismatch want got => "payment moves " ++ got.debug ++ ", escrow holds " ++ want.debug
  | .payeeMismatch => "release pays the wrong recipient"
  | .conditionNotMet => "release condition is not satisfied"

def validateSettlement (terms : EscrowTerms) (intent : SettlementIntent W) (verifier : ConditionVerifier W) :
    Except EscrowError Unit :=
  if intent.payment.amount ≠ terms.amount then .error (.amountMismatch terms.amount intent.payment.amount)
  else if intent.payment.recipient ≠ terms.payee then .error .payeeMismatch
  else if verifier.verify terms intent.witness = false then .error .conditionNotMet
  else .ok ()

/-! ## The policy -/

structure EscrowPolicy (W : Type) where
  escrows : BTreeMap EscrowId EscrowTerms
  verifier : ConditionVerifier W

namespace EscrowPolicy

def new (verifier : ConditionVerifier W) : EscrowPolicy W := { escrows := ∅, verifier }

def withEscrow (policy : EscrowPolicy W) (terms : EscrowTerms) : EscrowPolicy W :=
  { policy with escrows := policy.escrows.insert terms.escrowId terms }

/-- `EscrowPolicy::approve`, over the decoder of messages. -/
def approve (hex : Hex) (fromSlice : Bytes → Except String (ReleaseProposal W))
    (policy : EscrowPolicy W) : SignPolicy :=
  fun message =>
    match fromSlice message with
    | .error e => .error ("message is not a release proposal: " ++ e)
    | .ok proposal =>
      match policy.escrows[proposal.escrowId]? with
      | none => .error ("unknown escrow " ++ hex.encode proposal.escrowId.bytes.toList)
      | some terms => (validateSettlement terms proposal.intent policy.verifier).mapError EscrowError.display

end EscrowPolicy

/-! ## What is approved -/

/-- The message is a release proposal for registered terms, moves exactly their
amount to their payee, and carries a witness the verifier accepts for them. -/
def Authorized (fromSlice : Bytes → Except String (ReleaseProposal W)) (policy : EscrowPolicy W) (message : Bytes) :
    Prop :=
  ∃ proposal terms, fromSlice message = .ok proposal ∧ policy.escrows[proposal.escrowId]? = some terms ∧
    proposal.intent.payment = { amount := terms.amount, recipient := terms.payee } ∧
    policy.verifier.verify terms proposal.intent.witness = true

theorem validateSettlement_ok {terms : EscrowTerms} {intent : SettlementIntent W} {verifier : ConditionVerifier W} :
    validateSettlement terms intent verifier = .ok () ↔
      intent.payment = { amount := terms.amount, recipient := terms.payee } ∧
        verifier.verify terms intent.witness = true := by
  obtain ⟨⟨amount, recipient⟩, witness⟩ := intent
  unfold validateSettlement
  by_cases ha : amount = terms.amount
  · by_cases hr : recipient = terms.payee
    · cases verifier.verify terms witness <;> simp [ha, hr]
    · simp [ha, hr]
  · simp [ha]

theorem approve_ok {hex : Hex} {fromSlice : Bytes → Except String (ReleaseProposal W)} {policy : EscrowPolicy W}
    {message : Bytes} :
    policy.approve hex fromSlice message = .ok () ↔ Authorized fromSlice policy message := by
  unfold EscrowPolicy.approve Authorized
  cases hp : fromSlice message with
  | error e => simp
  | ok proposal =>
    cases ht : policy.escrows[proposal.escrowId]? with
    | none => simp [ht]
    | some terms =>
      have hmap : (validateSettlement terms proposal.intent policy.verifier).mapError EscrowError.display = .ok () ↔
          validateSettlement terms proposal.intent policy.verifier = .ok () := by
        cases validateSettlement terms proposal.intent policy.verifier <;> simp [Except.mapError]
      simp [ht, hmap, validateSettlement_ok]

end Sapphire
