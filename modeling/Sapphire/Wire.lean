import Sapphire.Persistence
import Sapphire.Handover
import Sapphire.Impersonation

/-!
# Transactions on the wire

A frame of the mesh is what `serde_json::to_vec` writes of one `Tx`, and the
caller reads it back and applies it. Unlike the state, a transaction can always
be written: pairs of identifiers are two fields there. So a node that follows
another over a connection is in a state that the other has been in.
-/

namespace Sapphire

open Serde Replay Mesh

variable {C : Ciphersuite}

/-! ## The derived implementations -/

namespace Tx

section

variable (F : ForeignSerde C)

def initGroupCodec : Codec (MpcParams × C.PublicKeyPackage × List C.Identifier) :=
  .fields₃ "params" "pkp" "validators" MpcParams.codec F.publicKeyPackage (.vec F.identifier)

def dkgBeginCodec : Codec (MpcParams × BTreeMap C.Identifier EncPublicKey) :=
  .fields₂ "params" "validators" MpcParams.codec (.map F.identifier EncPublicKey.codec)

def dkgRound1Codec : Codec (C.Identifier × C.Round1Package) := .fields₂ "from" "package" F.identifier F.round1Package

def dkgRound2Codec : Codec (C.Identifier × C.Identifier × Sealed) :=
  .fields₃ "from" "to" "sealed" F.identifier F.identifier Sealed.codec

def dkgFinalizeCodec : Codec (C.Identifier × C.PublicKeyPackage) :=
  .fields₂ "from" "pkp" F.identifier F.publicKeyPackage

def submitRequestCodec : Codec (Uuid × Bytes × C.Randomizer) :=
  .fields₃ "request_id" "message" "randomizer" (Uuid.codec F.hex) (.vec .uint8) F.randomizer

def submitCommitmentCodec : Codec (Uuid × C.Identifier × C.SigningCommitments) :=
  .fields₃ "request_id" "validator" "commitments" (Uuid.codec F.hex) F.identifier F.signingCommitments

def submitShareCodec : Codec (Uuid × C.Identifier × C.SignatureShare) :=
  .fields₃ "request_id" "validator" "share" (Uuid.codec F.hex) F.identifier F.signatureShare

def variant : Tx C → String
  | initGroup _ _ _ => "InitGroup"
  | dkgBegin _ _ => "DkgBegin"
  | dkgRound1 _ _ => "DkgRound1"
  | dkgRound2 _ _ _ => "DkgRound2"
  | dkgFinalize _ _ => "DkgFinalize"
  | submitRequest _ _ _ => "SubmitRequest"
  | submitCommitment _ _ _ => "SubmitCommitment"
  | submitShare _ _ _ => "SubmitShare"

def content : Tx C → Except Serde.Error Json
  | initGroup params pkp validators => (initGroupCodec F).serialize (params, pkp, validators)
  | dkgBegin params validators => (dkgBeginCodec F).serialize (params, validators)
  | dkgRound1 sender package => (dkgRound1Codec F).serialize (sender, package)
  | dkgRound2 sender recipient sealed => (dkgRound2Codec F).serialize (sender, recipient, sealed)
  | dkgFinalize sender pkp => (dkgFinalizeCodec F).serialize (sender, pkp)
  | submitRequest requestId message randomizer => (submitRequestCodec F).serialize (requestId, message, randomizer)
  | submitCommitment requestId validator commitments =>
    (submitCommitmentCodec F).serialize (requestId, validator, commitments)
  | submitShare requestId validator share => (submitShareCodec F).serialize (requestId, validator, share)

def read (name : String) (j : Json) : Except Serde.Error (Tx C) :=
  if name = "InitGroup" then (fun (params, pkp, validators) => initGroup params pkp validators) <$>
    (initGroupCodec F).deserialize j
  else if name = "DkgBegin" then (fun (params, validators) => dkgBegin params validators) <$>
    (dkgBeginCodec F).deserialize j
  else if name = "DkgRound1" then (fun (sender, package) => dkgRound1 sender package) <$>
    (dkgRound1Codec F).deserialize j
  else if name = "DkgRound2" then (fun (sender, recipient, sealed) => dkgRound2 sender recipient sealed) <$>
    (dkgRound2Codec F).deserialize j
  else if name = "DkgFinalize" then (fun (sender, pkp) => dkgFinalize sender pkp) <$>
    (dkgFinalizeCodec F).deserialize j
  else if name = "SubmitRequest" then
    (fun (requestId, message, randomizer) => submitRequest requestId message randomizer) <$>
      (submitRequestCodec F).deserialize j
  else if name = "SubmitCommitment" then
    (fun (requestId, validator, commitments) => submitCommitment requestId validator commitments) <$>
      (submitCommitmentCodec F).deserialize j
  else if name = "SubmitShare" then (fun (requestId, validator, share) => submitShare requestId validator share) <$>
    (submitShareCodec F).deserialize j
  else .error (.unknownVariant name)

def codec : Codec (Tx C) := .enum variant (content F) (read F)

end

section

variable {F : ForeignSerde C} (hF : F.Lawful)
include hF

theorem initGroupCodec_lawful : (initGroupCodec F).Lawful :=
  .fields₃ MpcParams.codec_lawful hF.publicKeyPackage hF.identifier.vec (by simp)

theorem dkgBeginCodec_lawful : (dkgBeginCodec F).Lawful :=
  .fields₂ MpcParams.codec_lawful (hF.map EncPublicKey.codec_lawful) (by simp)

theorem dkgRound1Codec_lawful : (dkgRound1Codec F).Lawful := .fields₂ hF.identifier hF.round1Package (by simp)

theorem dkgRound2Codec_lawful : (dkgRound2Codec F).Lawful :=
  .fields₃ hF.identifier hF.identifier Sealed.codec_lawful (by simp)

theorem dkgFinalizeCodec_lawful : (dkgFinalizeCodec F).Lawful := .fields₂ hF.identifier hF.publicKeyPackage (by simp)

theorem submitRequestCodec_lawful : (submitRequestCodec F).Lawful :=
  .fields₃ (Uuid.codec_lawful hF.hex) Codec.uint8_lawful.vec hF.randomizer (by simp)

theorem submitCommitmentCodec_lawful : (submitCommitmentCodec F).Lawful :=
  .fields₃ (Uuid.codec_lawful hF.hex) hF.identifier hF.signingCommitments (by simp)

theorem submitShareCodec_lawful : (submitShareCodec F).Lawful :=
  .fields₃ (Uuid.codec_lawful hF.hex) hF.identifier hF.signatureShare (by simp)

theorem codec_lawful : (codec F).Lawful where
  sound := by
    apply Codec.Sound.enum
    intro tx j hj
    cases tx with
    | initGroup params pkp validators =>
      have hread := (initGroupCodec_lawful hF).sound _ _ hj
      simp [read, variant, hread]
    | dkgBegin params validators =>
      have hread := (dkgBeginCodec_lawful hF).sound _ _ hj
      simp [read, variant, hread]
    | dkgRound1 sender package =>
      have hread := (dkgRound1Codec_lawful hF).sound _ _ hj
      simp [read, variant, hread]
    | dkgRound2 sender recipient sealed =>
      have hread := (dkgRound2Codec_lawful hF).sound _ _ hj
      simp [read, variant, hread]
    | dkgFinalize sender pkp =>
      have hread := (dkgFinalizeCodec_lawful hF).sound _ _ hj
      simp [read, variant, hread]
    | submitRequest requestId message randomizer =>
      have hread := (submitRequestCodec_lawful hF).sound _ _ hj
      simp [read, variant, hread]
    | submitCommitment requestId validator commitments =>
      have hread := (submitCommitmentCodec_lawful hF).sound _ _ hj
      simp [read, variant, hread]
    | submitShare requestId validator share =>
      have hread := (submitShareCodec_lawful hF).sound _ _ hj
      simp [read, variant, hread]
  total := by
    intro tx
    apply Codec.enum_serializes.mpr
    cases tx with
    | initGroup params pkp validators => exact (initGroupCodec_lawful hF).total _
    | dkgBegin params validators => exact (dkgBeginCodec_lawful hF).total _
    | dkgRound1 sender package => exact (dkgRound1Codec_lawful hF).total _
    | dkgRound2 sender recipient sealed => exact (dkgRound2Codec_lawful hF).total _
    | dkgFinalize sender pkp => exact (dkgFinalizeCodec_lawful hF).total _
    | submitRequest requestId message randomizer => exact (submitRequestCodec_lawful hF).total _
    | submitCommitment requestId validator commitments => exact (submitCommitmentCodec_lawful hF).total _
    | submitShare requestId validator share => exact (submitShareCodec_lawful hF).total _

end

end Tx

/-! ## Frames -/

/-- The text of a document, from `serde_json`. -/
structure JsonText where
  toVec : Json → Bytes
  fromSlice : Bytes → Except Serde.Error Json

inductive FrameError where
  | serde (e : Serde.Error)
  | chain (e : Fault)

section

variable (F : ForeignSerde C) (text : JsonText)

def Tx.toVec (tx : Tx C) : Except Serde.Error Bytes := text.toVec <$> (Tx.codec F).serialize tx

def Tx.fromSlice (frame : Bytes) : Except Serde.Error (Tx C) := do (Tx.codec F).deserialize (← text.fromSlice frame)

/-- What the caller does with a frame of the mesh. -/
def State.receive (s : State C) (frame : Bytes) : Except FrameError (State C) := do
  let tx ← (Tx.fromSlice F text frame).mapError .serde
  (applyTx s tx).mapError .chain

/-- The text of the transaction is read as its document. -/
def Tx.Readable (tx : Tx C) : Prop := ∀ j, (Tx.codec F).serialize tx = .ok j → text.fromSlice (text.toVec j) = .ok j

end

section

variable {F : ForeignSerde C} {text : JsonText}

theorem Tx.fromSlice_toVec (hF : F.Lawful) {tx : Tx C} (htext : tx.Readable F text) {frame : Bytes}
    (h : tx.toVec F text = .ok frame) : Tx.fromSlice F text frame = .ok tx := by
  unfold Tx.toVec at h
  cases hj : (Tx.codec F).serialize tx with
  | error e => rw [hj] at h; cases h
  | ok j =>
    rw [hj] at h
    cases h
    exact (bind_of_ok (htext j hj)).trans ((Tx.codec_lawful hF).sound tx j hj)

/-- The wire between validators, `display` being what `serde_json` calls its errors. -/
def ForeignSerde.txWire (F : ForeignSerde C) (text : JsonText) (display : Serde.Error → String) : TxWire C where
  toVec tx := (tx.toVec F text).mapError display
  fromSlice frame := (Tx.fromSlice F text frame).mapError display

theorem ForeignSerde.Lawful.txWire_decodes (hF : F.Lawful) (htext : ∀ tx : Tx C, tx.Readable F text)
    (display : Serde.Error → String) : (F.txWire text display).Decodes := by
  intro tx bytes h
  unfold ForeignSerde.txWire at h ⊢
  simp only at h ⊢
  cases hbytes : tx.toVec F text with
  | error e => rw [hbytes] at h; cases h
  | ok frame =>
    rw [hbytes] at h
    cases h
    rw [Tx.fromSlice_toVec hF (htext tx) hbytes]
    rfl

theorem State.receive_ok {s s' : State C} {tx : Tx C} {frame : Bytes} (hread : Tx.fromSlice F text frame = .ok tx)
    (happly : applyTx s tx = .ok s') : s.receive F text frame = .ok s' := by
  unfold State.receive
  rw [hread]
  change (applyTx s tx).mapError FrameError.chain = .ok s'
  rw [happly]
  rfl

/-- Frames that are read as transactions do to a state what these do. -/
theorem State.run_receive {frames : List Bytes} {txs : List (Tx C)} {s t : State C}
    (hread : List.Forall₂ (fun frame tx => Tx.fromSlice F text frame = .ok tx) frames txs)
    (hrun : run applyTx s txs = .ok t) : run (State.receive F text) s frames = .ok t := by
  induction hread generalizing s with
  | nil =>
    cases hrun; rfl
  | cons hhead hrest ih =>
    obtain ⟨m, hm, ht⟩ := run_cons.mp hrun
    exact run_cons.mpr ⟨m, State.receive_ok hhead hm, ih ht⟩

/-- What was run to its end was run up to every point. -/
theorem run_take {txs : List (Tx C)} {s : State C} (h : run applyTx State.default txs = .ok s) (k : Nat) :
    run applyTx State.default (txs.take k) = .ok (reached (txs.take k)) := by
  rw [← List.take_append_drop k txs] at h
  obtain ⟨m, hm, _⟩ := run_append.mp h
  rw [hm, ← replay_of_run hm]

end

/-! ## Following a node over a connection -/

section

variable {N : Noise} {H : Handshake N} {publicOf : Vector UInt8 32 → StaticKey}
  {Linked : N.State → N.State → List (Bytes × Bytes) → Prop} {Exhausted : N.State → Prop}
  {F : ForeignSerde C} {text : JsonText}

/-- Where one side broadcasts transactions, the other is handed frames that are
read as the first of them. If the one applies them all, the other that applies
what it has been handed fails at none and is in the state the one was in then. -/
theorem follower_in_step (hN : NoiseLaws N Linked Exhausted) (hH : HandshakeLaws H publicOf Linked) (hF : F.Lawful)
    (party : Side → Party) (entropy : Side → H.Entropy) {events : List (Side × PeerAction)} (side : Side)
    {txs : List (Tx C)} (htext : ∀ tx ∈ txs, tx.Readable F text)
    (hsent : txs.mapM (Tx.toVec F text) = .ok (broadcastsOf side events))
    (hfits : EachStep (Channel.step party) (fun channel event => event.1 = side → (channel.peer event.1).Fits event.2)
      (Channel.start H party entropy) events)
    {frames : List Bytes} (hframes : ((Channel.run party entropy events).peer side.other).incoming = frames) :
    frames.mapM (Tx.fromSlice F text) = .ok (txs.take frames.length) ∧
      ∀ s, run applyTx State.default txs = .ok s →
        run (State.receive F text) State.default frames = .ok (reached (txs.take frames.length)) := by
  obtain ⟨course, conn, u, t, _, _, hgap, h⟩ := Channel.run_matches hN hH party entropy (fun here => here = side) hfits
  have hprefix : frames <+: broadcastsOf side events := by
    rw [← hframes]
    apply h.received
    rw [hgap]
  have hwritten : List.Forall₂ (fun tx frame => Tx.fromSlice F text frame = .ok tx) txs (broadcastsOf side events) := by
    have hall := mapM_ok.mp hsent
    rw [List.forall₂_iff_get] at hall ⊢
    refine ⟨hall.1, fun i hi hi' => ?_⟩
    exact Tx.fromSlice_toVec hF (htext _ (List.get_mem txs ⟨i, hi⟩)) (hall.2 i hi hi')
  have hread : List.Forall₂ (fun frame tx => Tx.fromSlice F text frame = .ok tx) frames (txs.take frames.length) := by
    have hpart := List.forall₂_take frames.length hwritten
    rw [← List.prefix_iff_eq_take.mp hprefix] at hpart
    exact hpart.flip
  exact ⟨mapM_ok.mpr hread, fun s hrun => State.run_receive hread (run_take hrun frames.length)⟩

end

/-! ## Transactions that two nodes exchange -/

namespace Ideal

def quoted (s : String) : Bytes :=
  34 :: s.toUTF8.data.toList.flatMap (fun b => if b = 34 ∨ b = 92 then [92, b] else [b]) ++ [34]

mutual

/-- The compact text of a document without control characters. -/
def compact : Json → Bytes
  | .null => "null".toUTF8.data.toList
  | .bool b => (toString b).toUTF8.data.toList
  | .number n => (toString n.toNat).toUTF8.data.toList
  | .string s => quoted s
  | .array items => 91 :: (compactItems items).drop 1 ++ [93]
  | .object entries => 123 :: (compactEntries entries).drop 1 ++ [125]

/-- Each after a comma. -/
def compactItems : List Json → Bytes
  | [] => []
  | j :: items => 44 :: compact j ++ compactItems items

def compactEntries : List (String × Json) → Bytes
  | [] => []
  | entry :: entries => 44 :: compactEntry entry ++ compactEntries entries

def compactEntry : String × Json → Bytes
  | (name, j) => quoted name ++ 58 :: compact j

end

def document (tx : Tx suite) : Json :=
  match (Tx.codec foreignSerde).serialize tx with
  | .ok j => j
  | .error _ => .null

/-- Of texts only those of the first two transactions of `duoRun` are read. -/
def jsonText : JsonText where
  toVec := compact
  fromSlice frame :=
    if frame = compact (document duoBegin) then .ok (document duoBegin)
    else if frame = compact (document (duoRound1 1)) then .ok (document (duoRound1 1))
    else .error (.custom "expected value")

theorem serialize_document (tx : Tx suite) : (Tx.codec foreignSerde).serialize tx = .ok (document tx) := by
  obtain ⟨j, hj⟩ := (Tx.codec_lawful foreignSerde_lawful).total tx
  unfold document
  rw [hj]

theorem toVec_document (tx : Tx suite) : tx.toVec foreignSerde jsonText = .ok (compact (document tx)) := by
  unfold Tx.toVec
  rw [serialize_document]
  rfl

theorem duoRun_readable : ∀ tx ∈ duoRun.take 2, tx.Readable foreignSerde jsonText := by
  intro tx htx j hj
  obtain rfl := Except.ok.inj (hj.symm.trans (serialize_document tx))
  rcases List.mem_pair.mp htx with rfl | rfl
  · simp only [jsonText, ↓reduceIte]
  · have hne : compact (document (duoRound1 1)) ≠ compact (document duoBegin) := by decide +kernel
    simp only [jsonText, hne, ↓reduceIte]

def duoFrames : List Bytes := (duoRun.take 2).map fun tx => compact (document tx)

/-- The first opens a ceremony and takes part before its handshake begins, and is heard after it. -/
def duoFollowing : List (Side × PeerAction) :=
  (duoFrames.map fun frame => (.initiator, .act (.broadcast frame))) ++
    (duoShakes 300 ++ duoFrames.flatMap fun frame => duoPass frame.length)

theorem duoFrames_fit : ∀ frame ∈ duoFrames, frame.length ≤ maxPayload := by decide +kernel

theorem duoFollowing_silent :
    broadcastsOf .initiator (duoShakes 300 ++ duoFrames.flatMap fun frame => duoPass frame.length) = [] := by
  rw [broadcastsOf_append, broadcastsOf_duoShakes, List.nil_append]
  refine List.filterMap_eq_nil_iff.mpr fun event hevent => ?_
  obtain ⟨frame, _, hpass⟩ := List.mem_flatMap.mp hevent
  exact List.filterMap_eq_nil_iff.mp (broadcastsOf_duoPass frame.length) event hpass

theorem duoFollowing_fits :
    EachStep (Channel.step (H := handshake) duoParty)
      (fun channel event => event.1 = .initiator → (channel.peer event.1).Fits event.2)
      (Channel.start handshake duoParty fun _ => ()) duoFollowing := by
  refine ⟨fun _ _ _ => ⟨?_, by decide⟩, fun _ _ _ => ⟨?_, ?_⟩, Channel.silent_fits duoFollowing_silent _⟩
  · exact duoFrames_fit _ List.mem_cons_self
  · exact duoFrames_fit _ (List.mem_cons_of_mem _ List.mem_cons_self)
  · change 1 < broadcastCapacity
    decide

end Ideal

set_option maxRecDepth 8000 in
theorem follower_in_step_duo :
    ((Channel.run (H := Ideal.handshake) Ideal.duoParty (fun _ => ()) Ideal.duoFollowing).peer
        (.other .initiator)).incoming = Ideal.duoFrames ∧
      run (State.receive Ideal.foreignSerde Ideal.jsonText) State.default Ideal.duoFrames =
        .ok (reached [Ideal.duoBegin, Ideal.duoRound1 1]) := by
  have hheard : ((Channel.run (H := Ideal.handshake) Ideal.duoParty (fun _ => ()) Ideal.duoFollowing).peer
      (.other .initiator)).incoming = Ideal.duoFrames := by decide +kernel
  have hsent : (Ideal.duoRun.take 2).mapM (Tx.toVec Ideal.foreignSerde Ideal.jsonText) =
      .ok (broadcastsOf .initiator Ideal.duoFollowing) := by
    rw [Ideal.duoFollowing, broadcastsOf_append, Ideal.duoFollowing_silent, mapM_ok]
    exact .cons (Ideal.toVec_document _) (.cons (Ideal.toVec_document _) .nil)
  exact ⟨hheard, (follower_in_step Ideal.noise_laws Ideal.handshake_laws Ideal.foreignSerde_lawful Ideal.duoParty
    (fun _ => ()) .initiator Ideal.duoRun_readable hsent Ideal.duoFollowing_fits hheard).2 _ rfl⟩

end Sapphire
