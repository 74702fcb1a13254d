import Sapphire.Serde
import Sapphire.Hex
import Sapphire.CeremonyOrder

/-!
# The chain state as a document

`State` and every type it is made of derive `Serialize` and `Deserialize`; an
identifier of a request is written by hand, in hex. A document is what
`serde_json` writes. The keys of `round2` are pairs, which are written as
arrays, so a state can be written until the first sealed envelope is accepted
and again once the ceremony is over.
-/

namespace Sapphire

open Serde Replay

variable {C : Ciphersuite}

/-! ## The chain's own types -/

namespace Uuid

def toHex (hex : Hex) (u : Uuid) : String := hex.encode u.bytes.toList

def codec (hex : Hex) : Codec Uuid where
  serialize u := Codec.string.serialize (u.toHex hex)
  deserialize j := do
    let s ← Codec.string.deserialize j
    let bytes ← (hex.decode s).mapError Serde.Error.custom
    if h : bytes.length = 16 then .ok ⟨⟨bytes.toArray, Codec.length_toArray h⟩⟩
    else .error (.custom "Uuid must be 16 bytes")

theorem codec_string (hex : Hex) (u : Uuid) : ∃ s, (codec hex).serialize u = .ok (.string s) := ⟨u.toHex hex, rfl⟩

theorem codec_lawful {hex : Hex} (hhex : hex.Lawful) : (codec hex).Lawful where
  sound := by
    intro u j hj
    cases hj
    change ((hex.decode (hex.encode u.bytes.toList)).mapError _ >>= _) = _
    rw [hhex]
    apply (dif_pos (Vector.length_toList)).trans
    rfl
  total := fun u => ⟨.string (u.toHex hex), rfl⟩

end Uuid

def MpcParams.codec : Codec MpcParams :=
  .struct (.field "threshold" .uint16 <| .field "total" .uint16 .nil) (fun p => (p.threshold, p.total, ()))
    (fun (threshold, total, _) => { threshold, total })

def EncPublicKey.codec : Codec EncPublicKey := .newtype (.array .uint8 32) EncPublicKey.bytes EncPublicKey.mk

def Sealed.codec : Codec Sealed := .newtype (.vec .uint8) Sealed.bytes Sealed.mk

theorem MpcParams.codec_lawful : MpcParams.codec.Lawful := by
  apply Codec.Lawful.struct _ fun _ => rfl
  apply Record.Lawful.field Codec.uint16_lawful _ (by simp)
  exact .field Codec.uint16_lawful Record.nil_lawful (by simp)

theorem EncPublicKey.codec_lawful : EncPublicKey.codec.Lawful := (Codec.uint8_lawful.array 32).newtype fun _ => rfl

theorem Sealed.codec_lawful : Sealed.codec.Lawful := Codec.uint8_lawful.vec.newtype fun _ => rfl

/-- The implementations of `frost_core`, for the values that the chain stores, and the `hex` crate. -/
structure ForeignSerde (C : Ciphersuite) where
  hex : Hex
  identifier : Codec C.Identifier
  round1Package : Codec C.Round1Package
  publicKeyPackage : Codec C.PublicKeyPackage
  randomizer : Codec C.Randomizer
  signingCommitments : Codec C.SigningCommitments
  signingPackage : Codec C.SigningPackage
  signatureShare : Codec C.SignatureShare
  signature : Codec C.Signature

/-- Every value is written and read back, identifiers as strings. -/
structure ForeignSerde.Lawful (F : ForeignSerde C) : Prop where
  hex : F.hex.Lawful
  identifier : F.identifier.Lawful
  identifierString : ∀ v, ∃ s, F.identifier.serialize v = .ok (.string s)
  round1Package : F.round1Package.Lawful
  publicKeyPackage : F.publicKeyPackage.Lawful
  randomizer : F.randomizer.Lawful
  signingCommitments : F.signingCommitments.Lawful
  signingPackage : F.signingPackage.Lawful
  signatureShare : F.signatureShare.Lawful
  signature : F.signature.Lawful

section

variable (F : ForeignSerde C)

/-- A tuple is written as an array. -/
def ForeignSerde.edge : Codec (C.Identifier ×ₗ C.Identifier) := (Codec.pair F.identifier F.identifier).newtype ofLex toLex

def DkgCeremony.codec : Codec (DkgCeremony C) :=
  .struct
    (.field "params" MpcParams.codec <| .field "validators" (.map F.identifier EncPublicKey.codec) <|
      .field "round1" (.map F.identifier F.round1Package) <| .field "round2" (.map F.edge Sealed.codec) <|
      .field "finalize" (.map F.identifier F.publicKeyPackage) .nil)
    (fun c => (c.params, c.validators, c.round1, c.round2, c.finalize, ()))
    (fun (params, validators, round1, round2, finalize, _) => { params, validators, round1, round2, finalize })

def GroupConfig.codec : Codec (GroupConfig C) :=
  .struct (.field "params" MpcParams.codec <| .field "pkp" F.publicKeyPackage <|
      .field "validators" (.set F.identifier) .nil)
    (fun g => (g.params, g.pkp, g.validators, ())) (fun (params, pkp, validators, _) => { params, pkp, validators })

namespace RequestStatus

def awaitingCodec : Codec (BTreeMap C.Identifier C.SigningCommitments) :=
  .struct (.field "commitments" (.map F.identifier F.signingCommitments) .nil)
    (fun commitments => (commitments, ())) Prod.fst

def signingCodec : Codec (C.SigningPackage × Finset C.Identifier × BTreeMap C.Identifier C.SignatureShare) :=
  .struct
    (.field "signing_package" F.signingPackage <| .field "participants" (.set F.identifier) <|
      .field "shares" (.map F.identifier F.signatureShare) .nil)
    (fun (package, participants, shares) => (package, participants, shares, ()))
    (fun (package, participants, shares, _) => (package, participants, shares))

def completedCodec : Codec (Finset C.Identifier × C.Signature) :=
  .struct (.field "participants" (.set F.identifier) <| .field "signature" F.signature .nil)
    (fun (participants, signature) => (participants, signature, ()))
    (fun (participants, signature, _) => (participants, signature))

def failedCodec : Codec String := .struct (.field "reason" .string .nil) (fun reason => (reason, ())) Prod.fst

def variant : RequestStatus C → String
  | awaitingCommitments _ => "AwaitingCommitments"
  | signing _ _ _ => "Signing"
  | completed _ _ => "Completed"
  | failed _ => "Failed"

def content : RequestStatus C → Except Serde.Error Json
  | awaitingCommitments commitments => (awaitingCodec F).serialize commitments
  | signing package participants shares => (signingCodec F).serialize (package, participants, shares)
  | completed participants signature => (completedCodec F).serialize (participants, signature)
  | failed reason => failedCodec.serialize reason

def read (name : String) (j : Json) : Except Serde.Error (RequestStatus C) :=
  if name = "AwaitingCommitments" then awaitingCommitments <$> (awaitingCodec F).deserialize j
  else if name = "Signing" then (fun (package, participants, shares) => signing package participants shares) <$>
    (signingCodec F).deserialize j
  else if name = "Completed" then (fun (participants, signature) => completed participants signature) <$>
    (completedCodec F).deserialize j
  else if name = "Failed" then failed <$> failedCodec.deserialize j
  else .error (.unknownVariant name)

def codec : Codec (RequestStatus C) := .enum variant (content F) (read F)

end RequestStatus

def RequestEntry.codec : Codec (RequestEntry C) :=
  .struct
    (.field "request_id" (Uuid.codec F.hex) <| .field "message" (.vec .uint8) <| .field "randomizer" F.randomizer <|
      .field "status" (RequestStatus.codec F) .nil)
    (fun e => (e.requestId, e.message, e.randomizer, e.status, ()))
    (fun (requestId, message, randomizer, status, _) => { requestId, message, randomizer, status })

def State.codec : Codec (State C) :=
  .struct
    (.field "ceremony" (.option (DkgCeremony.codec F)) <| .field "group" (.option (GroupConfig.codec F)) <|
      .field "requests" (.map (Uuid.codec F.hex) (RequestEntry.codec F)) .nil)
    (fun s => (s.ceremony, s.group, s.requests, ()))
    (fun (ceremony, group, requests, _) => { ceremony, group, requests })

end

/-! ## What is written and read back -/

section

variable {F : ForeignSerde C} (hF : F.Lawful)
include hF

theorem ForeignSerde.Lawful.map {V : Type} {value : Codec V} (hvalue : value.Lawful) :
    (Codec.map F.identifier value).Lawful := .map hF.identifier.sound hF.identifierString hvalue

theorem GroupConfig.codec_lawful : (GroupConfig.codec F).Lawful := by
  apply Codec.Lawful.struct _ fun _ => rfl
  apply Record.Lawful.field MpcParams.codec_lawful _ (by simp)
  apply Record.Lawful.field hF.publicKeyPackage _ (by simp)
  exact .field hF.identifier.set Record.nil_lawful (by simp)

theorem RequestStatus.awaitingCodec_lawful : (awaitingCodec F).Lawful := by
  apply Codec.Lawful.struct _ fun _ => rfl
  exact .field (hF.map hF.signingCommitments) Record.nil_lawful (by simp)

theorem RequestStatus.signingCodec_lawful : (signingCodec F).Lawful := by
  apply Codec.Lawful.struct _ fun _ => rfl
  apply Record.Lawful.field hF.signingPackage _ (by simp)
  apply Record.Lawful.field hF.identifier.set _ (by simp)
  exact .field (hF.map hF.signatureShare) Record.nil_lawful (by simp)

theorem RequestStatus.completedCodec_lawful : (completedCodec F).Lawful := by
  apply Codec.Lawful.struct _ fun _ => rfl
  apply Record.Lawful.field hF.identifier.set _ (by simp)
  exact .field hF.signature Record.nil_lawful (by simp)

omit hF in
theorem RequestStatus.failedCodec_lawful : failedCodec.Lawful := by
  apply Codec.Lawful.struct _ fun _ => rfl
  exact .field Codec.string_lawful Record.nil_lawful (by simp)

theorem RequestStatus.codec_lawful : (RequestStatus.codec F).Lawful where
  sound := by
    apply Codec.Sound.enum
    intro status j hj
    cases status with
    | awaitingCommitments commitments =>
      have hread := (awaitingCodec_lawful hF).sound _ _ hj
      simp [read, variant, hread]
    | signing package participants shares =>
      have hread := (signingCodec_lawful hF).sound _ _ hj
      simp [read, variant, hread]
    | completed participants signature =>
      have hread := (completedCodec_lawful hF).sound _ _ hj
      simp [read, variant, hread]
    | failed reason =>
      have hread := failedCodec_lawful.sound _ _ hj
      simp [read, variant, hread]
  total := by
    intro status
    apply Codec.enum_serializes.mpr
    cases status with
    | awaitingCommitments commitments => exact (awaitingCodec_lawful hF).total _
    | signing package participants shares => exact (signingCodec_lawful hF).total _
    | completed participants signature => exact (completedCodec_lawful hF).total _
    | failed reason => exact failedCodec_lawful.total _

theorem RequestEntry.codec_lawful : (RequestEntry.codec F).Lawful := by
  apply Codec.Lawful.struct _ fun _ => rfl
  apply Record.Lawful.field (Uuid.codec_lawful hF.hex) _ (by simp)
  apply Record.Lawful.field Codec.uint8_lawful.vec _ (by simp)
  apply Record.Lawful.field hF.randomizer _ (by simp)
  exact .field (RequestStatus.codec_lawful hF) Record.nil_lawful (by simp)

omit hF in
theorem ForeignSerde.edge_not_writesKey (k : C.Identifier ×ₗ C.Identifier) : ¬ F.edge.WritesKey k :=
  Codec.not_writesKey_pair _ _ (ofLex k)

theorem DkgCeremony.codec_sound : (DkgCeremony.codec F).Sound := by
  have hround2 : (Codec.map F.edge Sealed.codec).Sound := by
    apply Codec.Sound.map _ Sealed.codec_lawful.sound
    intro k j text hj htext
    exact absurd ⟨j, hj, text, htext⟩ (F.edge_not_writesKey k)
  apply Codec.Sound.struct _ fun _ => rfl
  apply Record.Sound.field MpcParams.codec_lawful.sound _ (by simp)
  apply Record.Sound.field (hF.map EncPublicKey.codec_lawful).sound _ (by simp)
  apply Record.Sound.field (hF.map hF.round1Package).sound _ (by simp)
  apply Record.Sound.field hround2 _ (by simp)
  exact .field (hF.map hF.publicKeyPackage).sound Record.nil_sound (by simp)

/-- Every other part is written, and of `round2` nothing but the empty map. -/
theorem DkgCeremony.codec_serializes (c : DkgCeremony C) : (DkgCeremony.codec F).Serializes c ↔ c.round2 = ∅ := by
  have hparams := MpcParams.codec_lawful.total c.params
  have hvalidators := (hF.map EncPublicKey.codec_lawful).total c.validators
  have hround1 := (hF.map hF.round1Package).total c.round1
  have hround2 : (Codec.map F.edge Sealed.codec).Serializes c.round2 ↔ c.round2 = ∅ :=
    Codec.map_serializes_iff_empty F.edge_not_writesKey
  have hfinalize := (hF.map hF.publicKeyPackage).total c.finalize
  unfold DkgCeremony.codec
  simp only [Codec.struct_serializes, Record.field_serializes, hparams, hvalidators, hround1, hround2, hfinalize,
    Record.nil_serializes, true_and, and_true]

theorem ForeignSerde.edge_key (k : C.Identifier ×ₗ C.Identifier) :
    ∃ j, F.edge.serialize k = .ok j ∧ j.keyText = .error .keyMustBeAString := by
  obtain ⟨j, hj⟩ := hF.identifier.total (ofLex k).1
  obtain ⟨j', hj'⟩ := hF.identifier.total (ofLex k).2
  exact ⟨.array [j, j'], (bind_of_ok hj).trans (bind_of_ok hj'), rfl⟩

theorem DkgCeremony.codec_error {c : DkgCeremony C} (hne : c.round2 ≠ ∅) :
    (DkgCeremony.codec F).serialize c = .error .keyMustBeAString := by
  apply Codec.struct_error
  apply Record.field_error_later (MpcParams.codec_lawful.total _)
  apply Record.field_error_later ((hF.map EncPublicKey.codec_lawful).total _)
  apply Record.field_error_later ((hF.map hF.round1Package).total _)
  apply Record.field_error
  exact Codec.map_serialize_error (ForeignSerde.edge_key hF) hne

theorem State.codec_sound : (State.codec F).Sound := by
  have hceremony : (Codec.option (DkgCeremony.codec F)).Sound := (DkgCeremony.codec_sound hF).option Codec.struct_ne_null
  have hgroup : (Codec.option (GroupConfig.codec F)).Sound := (GroupConfig.codec_lawful hF).sound.option Codec.struct_ne_null
  have hrequests : (Codec.map (Uuid.codec F.hex) (RequestEntry.codec F)).Lawful :=
    .map (Uuid.codec_lawful hF.hex).sound (Uuid.codec_string F.hex) (RequestEntry.codec_lawful hF)
  apply Codec.Sound.struct _ fun _ => rfl
  apply Record.Sound.field hceremony _ (by simp)
  apply Record.Sound.field hgroup _ (by simp)
  exact .field hrequests.sound Record.nil_sound (by simp)

end

/-- No sealed envelope is stored. -/
def State.Unsealed (s : State C) : Prop := ∀ c, s.ceremony = some c → c.round2 = ∅

theorem State.codec_serializes {F : ForeignSerde C} (hF : F.Lawful) (s : State C) :
    (State.codec F).Serializes s ↔ s.Unsealed := by
  have hceremony : (Codec.option (DkgCeremony.codec F)).Serializes s.ceremony ↔ s.Unsealed := by
    rw [Codec.option_serializes]
    simp only [DkgCeremony.codec_serializes hF, State.Unsealed]
  have hgroup : (Codec.option (GroupConfig.codec F)).Serializes s.group :=
    Codec.option_serializes.mpr fun g _ => (GroupConfig.codec_lawful hF).total g
  have hrequests : (Codec.map (Uuid.codec F.hex) (RequestEntry.codec F)).Serializes s.requests :=
    (Codec.Lawful.map (Uuid.codec_lawful hF.hex).sound (Uuid.codec_string F.hex) (RequestEntry.codec_lawful hF)).total _
  unfold State.codec
  simp only [Codec.struct_serializes, Record.field_serializes, hceremony, hgroup, hrequests, Record.nil_serializes,
    and_true]

theorem State.roundTrips_iff {F : ForeignSerde C} (hF : F.Lawful) (s : State C) :
    (State.codec F).RoundTrips s ↔ s.Unsealed := by
  rw [(State.codec_sound hF).roundTrips_iff, State.codec_serializes hF]

/-- With an envelope stored nothing is written. -/
theorem State.codec_error {F : ForeignSerde C} (hF : F.Lawful) {s : State C} (hs : ¬ s.Unsealed) :
    (State.codec F).serialize s = .error .keyMustBeAString := by
  unfold Unsealed at hs
  push Not at hs
  obtain ⟨c, hc, hne⟩ := hs
  apply Codec.struct_error
  apply Record.field_error
  change (Codec.option (DkgCeremony.codec F)).serialize s.ceremony = _
  rw [hc]
  exact DkgCeremony.codec_error hF hne

/-! ## Over runs -/

def Tx.isDkgRound2 : Tx C → Bool
  | .dkgRound2 _ _ _ => true
  | _ => false

theorem State.unsealed_iff {s : State C} {c : DkgCeremony C} (hc : s.ceremony = some c) :
    s.Unsealed ↔ c.round2 = ∅ := by
  unfold Unsealed
  rw [hc]
  simp

theorem State.unsealed_of_none {s : State C} (hc : s.ceremony = none) : s.Unsealed := by
  intro c hc'
  rw [hc] at hc'
  cases hc'

/-- Until a group is committed, an envelope stays. -/
theorem applyTx_unsealed {s s' : State C} {tx : Tx C} (ha : applyTx s tx = .ok s') (hg : s'.group = none) :
    s.group = none ∧ (s'.Unsealed ↔ s.Unsealed ∧ tx.isDkgRound2 = false) := by
  cases hid : tx.requestId? with
  | some id =>
    obtain ⟨g, e, hgroup, _, rfl⟩ := (applyTx_request_ok hid).mp ha
    rw [State.withRequest_group, hgroup] at hg
    cases hg
  | none =>
    cases tx with
    | initGroup params pkp validators =>
      obtain ⟨_, _, _, rfl⟩ := applyInitGroup_ok.mp ha
      cases hg
    | dkgBegin params validators =>
      obtain ⟨hgroup, hc, _, rfl⟩ := applyDkgBegin_ok.mp ha
      have hbefore := State.unsealed_of_none hc
      refine ⟨hgroup, ?_⟩
      rw [State.unsealed_iff rfl]
      exact iff_of_true rfl ⟨hbefore, rfl⟩
    | dkgRound1 v package =>
      obtain ⟨c, hc, _, _, rfl⟩ := applyDkgRound1_ok.mp ha
      refine ⟨hg, ?_⟩
      rw [State.unsealed_iff rfl, State.unsealed_iff hc]
      simp [Tx.isDkgRound2]
    | dkgRound2 v w sealed =>
      obtain ⟨c, hc, _, _, _, _, _, rfl⟩ := applyDkgRound2_ok.mp ha
      refine ⟨hg, ?_⟩
      rw [State.unsealed_iff rfl]
      simp [Tx.isDkgRound2]
    | dkgFinalize v pkp =>
      obtain ⟨c, hc, _, _, _, _, hfin⟩ := applyDkgFinalize_ok.mp ha
      cases hfin with
      | extended hd =>
        refine ⟨hg, ?_⟩
        rw [State.unsealed_iff rfl, State.unsealed_iff hc]
        simp [Tx.isDkgRound2]
      | promoted hd hp => cases hg
    | _ => cases hid

/-- Before a group is committed, a state is unsealed while no envelope has been accepted. -/
def Awaits (h : List (Tx C)) (s : State C) : Prop :=
  s.group = none → (s.Unsealed ↔ ∀ tx ∈ h, tx.isDkgRound2 = false)

theorem Awaits.step {h : List (Tx C)} {s s' : State C} {tx : Tx C} (hs : Awaits h s) (ha : applyTx s tx = .ok s') :
    Awaits (h ++ [tx]) s' := by
  intro hg
  obtain ⟨hgroup, hun⟩ := applyTx_unsealed ha hg
  rw [hun, hs hgroup]
  simp [or_imp, forall_and]

theorem reached_unsealed_iff (txs : List (Tx C)) : (reached txs).Unsealed ↔
    (reached txs).group.isSome ∨ ∀ tx ∈ accepted applyTx State.default txs, tx.isDkgRound2 = false := by
  have hbegin : Awaits [] (State.default : State C) := fun _ => iff_of_true (State.unsealed_of_none rfl) (by simp)
  have hrun : Awaits (accepted applyTx State.default txs) (reached txs) :=
    accepted_invariant (fun _ _ _ _ => Awaits.step) hbegin txs
  cases hg : (reached txs).group with
  | none => simpa using hrun hg
  | some g => exact iff_of_true (State.unsealed_of_none ((reached_valid txs).no_ceremony hg)) (Or.inl rfl)

/-- A reached state survives unless its ceremony has accepted a sealed envelope and is not over. -/
theorem reached_roundTrips_iff {F : ForeignSerde C} (hF : F.Lawful) (txs : List (Tx C)) :
    (State.codec F).RoundTrips (reached txs) ↔
      (reached txs).group.isSome ∨ ∀ tx ∈ accepted applyTx State.default txs, tx.isDkgRound2 = false := by
  rw [State.roundTrips_iff hF, reached_unsealed_iff]

namespace Ideal

def natCodec : Codec Nat := .newtype .string (fun n => String.ofList (List.replicate n '1')) String.length

def intCodec : Codec Int :=
  .newtype (.pair natCodec natCodec) (fun i => (i.toNat, (-i).toNat)) (fun (plus, minus) => (plus : Int) - minus)

def publicKeyPackageCodec : Codec PublicKeyPackage :=
  .struct
    (.field "key" intCodec <| .field "shares" (.map natCodec intCodec) <| .field "min_signers" natCodec .nil)
    (fun p => (p.key, p.shares, p.minSigners, ())) (fun (key, shares, minSigners, _) => { key, shares, minSigners })

def signingPackageCodec : Codec SigningPackage :=
  .struct (.field "signing_commitments" (.map natCodec natCodec) <| .field "message" (.vec .uint8) .nil)
    (fun p => (p.commitments, p.message, ())) (fun (commitments, message, _) => { commitments, message })

def signedCodec : Codec Signed :=
  .struct (.field "key" intCodec <| .field "message" (.vec .uint8) .nil) (fun s => (s.key, s.message, ()))
    (fun (key, message, _) => { key, message })

def signatureShareCodec : Codec SignatureShare :=
  .struct (.field "signer" natCodec <| .field "nonces" natCodec <| .field "signed" signedCodec .nil)
    (fun s => (s.signer, s.nonces, s.signed, ())) (fun (signer, nonces, signed, _) => { signer, nonces, signed })

@[reducible] def foreignSerde : ForeignSerde suite where
  hex := hex
  identifier := natCodec
  round1Package := intCodec
  publicKeyPackage := publicKeyPackageCodec
  randomizer := intCodec
  signingCommitments := natCodec
  signingPackage := signingPackageCodec
  signatureShare := signatureShareCodec
  signature := signedCodec

theorem natCodec_lawful : natCodec.Lawful := Codec.string_lawful.newtype fun n => by simp

theorem natCodec_string (n : Nat) : ∃ s, natCodec.serialize n = .ok (.string s) := ⟨_, rfl⟩

theorem intCodec_lawful : intCodec.Lawful := by
  apply (natCodec_lawful.pair natCodec_lawful).newtype
  intro i
  simp only
  omega

theorem publicKeyPackageCodec_lawful : publicKeyPackageCodec.Lawful := by
  apply Codec.Lawful.struct _ fun _ => rfl
  apply Record.Lawful.field intCodec_lawful _ (by simp)
  apply Record.Lawful.field (.map natCodec_lawful.sound natCodec_string intCodec_lawful) _ (by simp)
  exact .field natCodec_lawful Record.nil_lawful (by simp)

theorem signingPackageCodec_lawful : signingPackageCodec.Lawful := by
  apply Codec.Lawful.struct _ fun _ => rfl
  apply Record.Lawful.field (.map natCodec_lawful.sound natCodec_string natCodec_lawful) _ (by simp)
  exact .field Codec.uint8_lawful.vec Record.nil_lawful (by simp)

theorem signedCodec_lawful : signedCodec.Lawful := by
  apply Codec.Lawful.struct _ fun _ => rfl
  apply Record.Lawful.field intCodec_lawful _ (by simp)
  exact .field Codec.uint8_lawful.vec Record.nil_lawful (by simp)

theorem signatureShareCodec_lawful : signatureShareCodec.Lawful := by
  apply Codec.Lawful.struct _ fun _ => rfl
  apply Record.Lawful.field natCodec_lawful _ (by simp)
  apply Record.Lawful.field natCodec_lawful _ (by simp)
  exact .field signedCodec_lawful Record.nil_lawful (by simp)

theorem foreignSerde_lawful : foreignSerde.Lawful where
  hex := hex_lawful
  identifier := natCodec_lawful
  identifierString := natCodec_string
  round1Package := intCodec_lawful
  publicKeyPackage := publicKeyPackageCodec_lawful
  randomizer := intCodec_lawful
  signingCommitments := natCodec_lawful
  signingPackage := signingPackageCodec_lawful
  signatureShare := signatureShareCodec_lawful
  signature := signedCodec_lawful

/-- The ceremony of `duoRun` up to its first envelope. -/
def duoSealed : List (Tx suite) := [duoBegin, duoRound1 1, duoRound1 2, duoRound2 1 2]

end Ideal

/-- A finished ceremony has left no envelope behind. -/
theorem reached_roundTrips_duo : (State.codec Ideal.foreignSerde).RoundTrips (reached Ideal.duoRun) :=
  (reached_roundTrips_iff Ideal.foreignSerde_lawful Ideal.duoRun).mpr (Or.inl rfl)

/-- The key `(1, 2)` of the first envelope is an array, and no text is written. -/
theorem sealed_not_written :
    (State.codec Ideal.foreignSerde).serialize (reached Ideal.duoSealed) = .error .keyMustBeAString ∧
      ¬ ∀ (C : Ciphersuite) (F : ForeignSerde C) (txs : List (Tx C)),
        F.Lawful → (State.codec F).RoundTrips (reached txs) := by
  have herror : (State.codec Ideal.foreignSerde).serialize (reached Ideal.duoSealed) = .error .keyMustBeAString := rfl
  refine ⟨herror, ?_⟩
  intro h
  obtain ⟨j, hj, _⟩ := h _ _ Ideal.duoSealed Ideal.foreignSerde_lawful
  rw [herror] at hj
  cases hj

end Sapphire
