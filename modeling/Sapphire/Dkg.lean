import Sapphire.Node

/-!
# A participant of the chain-driven DKG

`sapphire-node`'s `DkgParticipant`: it drives its part of a ceremony one round
at a time from the state it is shown. Box encryption and serde are parameters.
-/

namespace Sapphire

variable {C : Ciphersuite}

inductive EnvelopeError where
  | tooShort
  | decrypt
deriving DecidableEq, Repr

/-- What round-2 packages travel through: X25519 boxes and serde. The random
draws of sealing, the nonce included, are part of `Rng`. -/
structure DkgWire (C : Ciphersuite) where
  EncSecretKey : Type
  generate : C.Rng → EncSecretKey × C.Rng
  publicKey : EncSecretKey → EncPublicKey
  sealEnvelope : C.Rng → EncPublicKey → Bytes → Sealed × C.Rng
  openEnvelope : EncSecretKey → Sealed → Except EnvelopeError Bytes
  toVec : C.Round2Package → Except String Bytes
  fromSlice : Bytes → Except String C.Round2Package

variable {D : DkgWire C}

structure DkgParticipant (D : DkgWire C) where
  identifier : C.Identifier
  encSecret : D.EncSecretKey
  encPublic : EncPublicKey
  secretR1 : Option C.Round1Secret
  secretR2 : Option C.Round2Secret
  submittedR1 : Bool
  submittedR2 : Bool
  submittedFinalize : Bool
  keyPackage : Option C.KeyPackage
  publicKeyPackage : Option C.PublicKeyPackage

inductive DkgError where
  | frost (e : String)
  | envelope (e : EnvelopeError)
  | serde (e : String)
  | inconsistent (what : String)
deriving DecidableEq, Repr

/-- A returned error, or a panic in a test of the ceremony. -/
inductive DkgFault where
  | err (e : DkgError)
  | ceremony (f : Fault)
deriving DecidableEq, Repr

structure DkgCtx (D : DkgWire C) where
  participant : DkgParticipant D
  rng : C.Rng

namespace DkgParticipant

def new (identifier : C.Identifier) (rng : C.Rng) : DkgParticipant D × C.Rng :=
  let generated := D.generate rng
  let participant : DkgParticipant D :=
    { identifier, encSecret := generated.1, encPublic := D.publicKey generated.1, secretR1 := none, secretR2 := none,
      submittedR1 := false, submittedR2 := false, submittedFinalize := false, keyPackage := none,
      publicKeyPackage := none }
  (participant, generated.2)

def othersR1 (participant : DkgParticipant D) (ceremony : DkgCeremony C) : BTreeMap C.Identifier C.Round1Package :=
  Std.ExtTreeMap.ofList (ceremony.round1.toList.filter fun entry => entry.1 ≠ participant.identifier)

end DkgParticipant

namespace DkgCtx

def modify (ctx : DkgCtx D) (f : DkgParticipant D → DkgParticipant D) : DkgCtx D :=
  { ctx with participant := f ctx.participant }

/-- Seal each package of `part2` to its recipient, in identifier order. -/
def sealAll (D : DkgWire C) (sender : C.Identifier) (ceremony : DkgCeremony C) (rng : C.Rng) (out : List (Tx C)) :
    List (C.Identifier × C.Round2Package) → Except DkgFault (List (Tx C)) × C.Rng
  | [] => (.ok out, rng)
  | (recipient, pkg) :: rest =>
    match ceremony.validators[recipient]? with
    | none => (.error (.err (.inconsistent "recipient has no enc pubkey")), rng)
    | some recipientPk =>
      match D.toVec pkg with
      | .error e => (.error (.err (.serde e)), rng)
      | .ok plaintext =>
        let boxed := D.sealEnvelope rng recipientPk plaintext
        sealAll D sender ceremony boxed.2 (out ++ [.dkgRound2 sender recipient boxed.1]) rest

/-- Open every envelope addressed to the participant, in key order. -/
def openAll (participant : DkgParticipant D) (received : BTreeMap C.Identifier C.Round2Package) :
    List ((C.Identifier ×ₗ C.Identifier) × Sealed) → Except DkgFault (BTreeMap C.Identifier C.Round2Package)
  | [] => .ok received
  | (key, boxed) :: rest =>
    if (ofLex key).2 ≠ participant.identifier then openAll participant received rest
    else
      match D.openEnvelope participant.encSecret boxed with
      | .error e => .error (.err (.envelope e))
      | .ok plaintext =>
        match D.fromSlice plaintext with
        | .error e => .error (.err (.serde e))
        | .ok pkg => openAll participant (received.insert (ofLex key).1 pkg) rest

def reactFinalize (ctx : DkgCtx D) (ceremony : DkgCeremony C) : Except DkgFault (List (Tx C)) × DkgCtx D :=
  let self := ctx.participant
  match ceremony.r2Complete with
  | .error f => (.error (.ceremony f), ctx)
  | .ok false => (.ok [], ctx)
  | .ok true =>
    if self.submittedFinalize then (.ok [], ctx)
    else if self.identifier ∈ ceremony.finalize then (.ok [], ctx.modify ({ · with submittedFinalize := true }))
    else
      match openAll self ∅ ceremony.round2.toList with
      | .error f => (.error f, ctx)
      | .ok receivedR2 =>
        match self.secretR2 with
        | none => (.error (.err (.inconsistent "missing r2 secret for finalize")), ctx)
        | some secretR2 =>
          let ctx := ctx.modify ({ · with secretR2 := none })
          match C.part3 secretR2 (self.othersR1 ceremony) receivedR2 with
          | .error e => (.error (.err (.frost (C.errorToString e))), ctx)
          | .ok (keyPkg, pkp) =>
            (.ok [.dkgFinalize self.identifier pkp],
              ctx.modify ({ · with keyPackage := some keyPkg, publicKeyPackage := some pkp, submittedFinalize := true }))

def reactRound2 (ctx : DkgCtx D) (ceremony : DkgCeremony C) : Except DkgFault (List (Tx C)) × DkgCtx D :=
  let self := ctx.participant
  if ceremony.r1Complete = false then (.ok [], ctx)
  else if self.submittedR2 then ctx.reactFinalize ceremony
  else
    match self.secretR1 with
    | none => (.error (.err (.inconsistent "missing r1 secret for r2")), ctx)
    | some secretR1 =>
      let ctx := ctx.modify ({ · with secretR1 := none })
      match C.part2 secretR1 (self.othersR1 ceremony) with
      | .error e => (.error (.err (.frost (C.errorToString e))), ctx)
      | .ok (secretR2, sentR2) =>
        let ctx := ctx.modify ({ · with secretR2 := some secretR2 })
        match sealAll D self.identifier ceremony ctx.rng [] sentR2.toList with
        | (.error f, rng) => (.error f, { ctx with rng })
        | (.ok out, rng) => (.ok out, { ctx with rng }.modify ({ · with submittedR2 := true }))

def reactRound1 (ctx : DkgCtx D) (ceremony : DkgCeremony C) : Except DkgFault (List (Tx C)) × DkgCtx D :=
  let self := ctx.participant
  if self.submittedR1 then ctx.reactRound2 ceremony
  else if self.identifier ∈ ceremony.round1 then (ctx.modify ({ · with submittedR1 := true })).reactRound2 ceremony
  else
    match C.part1 self.identifier ceremony.params.total ceremony.params.threshold ctx.rng with
    | (.error e, rng) => (.error (.err (.frost (C.errorToString e))), { ctx with rng })
    | (.ok (secretR1, packageR1), rng) =>
      (.ok [.dkgRound1 self.identifier packageR1],
        { ctx with rng }.modify ({ · with secretR1 := some secretR1, submittedR1 := true }))

def react (ctx : DkgCtx D) (s : State C) : Except DkgFault (List (Tx C)) × DkgCtx D :=
  if s.group.isSome then (.ok [], ctx)
  else
    match s.ceremony with
    | none => (.ok [], ctx)
    | some ceremony =>
      if ctx.participant.identifier ∉ ceremony.validators then (.ok [], ctx)
      else ctx.reactRound1 ceremony

end DkgCtx

end Sapphire
