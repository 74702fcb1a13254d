import Sapphire.DkgSim

/-!
# Sealed envelopes

`dkg_envelope` over a box whose two ends agree: what is sealed opens, and what
opens was laid out as an envelope. So the box meets what the ceremony assumes
of its wire.
-/

namespace Sapphire

variable {C : Ciphersuite}

abbrev Nonce := Vector UInt8 24

/-- `crypto_box`, with the AEAD calls of its boxes. -/
structure CryptoBox (Rng : Type) where
  SecretKey : Type
  generate : Rng → SecretKey × Rng
  publicKey : SecretKey → EncPublicKey
  ChaChaBox : Type
  new : EncPublicKey → SecretKey → ChaChaBox
  encrypt : ChaChaBox → Nonce → Bytes → Except Unit Bytes
  decrypt : ChaChaBox → Nonce → Bytes → Except Unit Bytes

/-- The boxes of a pair of keys decrypt alike, and decryption inverts encryption. -/
structure BoxLaws {Rng : Type} (B : CryptoBox Rng) : Prop where
  agree : ∀ ephemeral secret nonce ct, B.decrypt (B.new (B.publicKey ephemeral) secret) nonce ct =
    B.decrypt (B.new (B.publicKey secret) ephemeral) nonce ct
  inverts : ∀ cbox nonce plaintext, ∃ ct, B.encrypt cbox nonce plaintext = .ok ct ∧ B.decrypt cbox nonce ct = .ok plaintext

inductive OpenFault where
  | err (e : EnvelopeError)
  | panic (msg : String)
deriving DecidableEq, Repr

/-- `split_at` panics beyond the end. -/
def splitAt (mid : Nat) (bytes : Bytes) : Except OpenFault (Bytes × Bytes) :=
  if mid ≤ bytes.length then .ok (bytes.take mid, bytes.drop mid) else .error (.panic "mid > len")

theorem size_toArray {n : Nat} {bytes : Bytes} (h : bytes.length = n) : bytes.toArray.size = n :=
  List.size_toArray.trans h

/-- `try_into` of a slice to `[u8; n]`, with `expect`. -/
def expectArray (n : Nat) (msg : String) (bytes : Bytes) : Except OpenFault (Vector UInt8 n) :=
  if h : bytes.length = n then .ok ⟨bytes.toArray, size_toArray h⟩ else .error (.panic msg)

theorem splitAt_append {n : Nat} {bytes more : Bytes} (h : bytes.length = n) :
    splitAt n (bytes ++ more) = .ok (bytes, more) := by
  subst h
  unfold splitAt
  rw [if_pos (by simp), List.take_left, List.drop_left]

theorem expectArray_toList {n : Nat} (msg : String) (v : Vector UInt8 n) : expectArray n msg v.toList = .ok v := by
  unfold expectArray
  rw [dif_pos (by simp)]
  congr 1

theorem exists_vector {n : Nat} {bytes : Bytes} (h : bytes.length = n) : ∃ v : Vector UInt8 n, v.toList = bytes :=
  ⟨⟨bytes.toArray, size_toArray h⟩, by simp⟩

namespace CryptoBox

variable {Rng : Type}

/-- The nonce is drawn from the system's generator, not from `rng`. -/
def sealEnvelope (B : CryptoBox Rng) (rng : Rng) (nonce : Nonce) (recipient : EncPublicKey) (plaintext : Bytes) :
    Except String (Sealed × Rng) :=
  let generated := B.generate rng
  let cbox := B.new recipient generated.1
  match B.encrypt cbox nonce plaintext with
  | .error _ => .error "XChaCha20-Poly1305 encrypt is infallible on valid keys"
  | .ok ct => .ok (⟨(B.publicKey generated.1).bytes.toList ++ nonce.toList ++ ct⟩, generated.2)

def openEnvelope (B : CryptoBox Rng) (secret : B.SecretKey) (boxed : Sealed) : Except OpenFault Bytes :=
  if boxed.bytes.length < 32 + 24 then .error (.err .tooShort)
  else do
    let (ephPubBytes, rest) ← splitAt 32 boxed.bytes
    let (nonceBytes, ct) ← splitAt 24 rest
    let ephPub ← expectArray 32 "split_at guarantees length 32" ephPubBytes
    let cbox := B.new ⟨ephPub⟩ secret
    let nonce ← expectArray 24 "nonce slice length" nonceBytes
    match B.decrypt cbox nonce ct with
    | .error _ => .error (.err .decrypt)
    | .ok plaintext => .ok plaintext

variable {B : CryptoBox Rng}

theorem openEnvelope_short {secret : B.SecretKey} {boxed : Sealed} (h : boxed.bytes.length < 56) :
    B.openEnvelope secret boxed = .error (.err .tooShort) := by
  unfold openEnvelope
  rw [if_pos h]

theorem exists_layout {boxed : Sealed} (h : 56 ≤ boxed.bytes.length) :
    ∃ (ephPub : EncPublicKey) (nonce : Nonce) (ct : Bytes), boxed.bytes = ephPub.bytes.toList ++ nonce.toList ++ ct := by
  obtain ⟨key, hkey⟩ := exists_vector (n := 32) (List.length_take_of_le (le_trans (by decide) h))
  obtain ⟨nonce, hnonce⟩ : ∃ v : Nonce, v.toList = (boxed.bytes.drop 32).take 24 := by
    apply exists_vector
    rw [List.length_take, List.length_drop]
    omega
  refine ⟨⟨key⟩, nonce, (boxed.bytes.drop 32).drop 24, ?_⟩
  rw [hkey, hnonce, List.append_assoc, List.take_append_drop, List.take_append_drop]

theorem openEnvelope_layout {secret : B.SecretKey} {boxed : Sealed} {ephPub : EncPublicKey} {nonce : Nonce} {ct : Bytes}
    (h : boxed.bytes = ephPub.bytes.toList ++ nonce.toList ++ ct) : B.openEnvelope secret boxed =
      match B.decrypt (B.new ephPub secret) nonce ct with
      | .error _ => .error (.err .decrypt)
      | .ok plaintext => .ok plaintext := by
  have hlong : ¬ boxed.bytes.length < 32 + 24 := by
    rw [h]
    simp
    omega
  unfold openEnvelope
  rw [if_neg hlong, h, List.append_assoc, splitAt_append (by simp)]
  simp only [bind, Except.bind]
  rw [splitAt_append (by simp)]
  simp only [expectArray_toList]

theorem openEnvelope_long {secret : B.SecretKey} {boxed : Sealed} (h : 56 ≤ boxed.bytes.length) :
    B.openEnvelope secret boxed = .error (.err .decrypt) ∨ ∃ plaintext, B.openEnvelope secret boxed = .ok plaintext := by
  obtain ⟨ephPub, nonce, ct, hlayout⟩ := exists_layout h
  rw [openEnvelope_layout hlayout]
  cases B.decrypt (B.new ephPub secret) nonce ct with
  | error e => exact Or.inl rfl
  | ok plaintext => exact Or.inr ⟨plaintext, rfl⟩

theorem openEnvelope_no_panic (secret : B.SecretKey) (boxed : Sealed) (msg : String) :
    B.openEnvelope secret boxed ≠ .error (.panic msg) := by
  intro h
  rcases Nat.lt_or_ge boxed.bytes.length 56 with hlt | hge
  · rw [openEnvelope_short hlt] at h
    cases h
  · rcases openEnvelope_long hge with he | ⟨plaintext, hok⟩
    · rw [he] at h; cases h
    · rw [hok] at h; cases h

theorem openEnvelope_tooShort {secret : B.SecretKey} {boxed : Sealed} :
    B.openEnvelope secret boxed = .error (.err .tooShort) ↔ boxed.bytes.length < 56 := by
  constructor
  · intro h
    by_contra hge
    rcases openEnvelope_long (not_lt.mp hge) with he | ⟨plaintext, hok⟩
    · rw [he] at h; cases h
    · rw [hok] at h; cases h
  · exact openEnvelope_short

theorem openEnvelope_ok {secret : B.SecretKey} {boxed : Sealed} {plaintext : Bytes} :
    B.openEnvelope secret boxed = .ok plaintext ↔ ∃ (ephPub : EncPublicKey) (nonce : Nonce) (ct : Bytes),
      boxed.bytes = ephPub.bytes.toList ++ nonce.toList ++ ct ∧
        B.decrypt (B.new ephPub secret) nonce ct = .ok plaintext := by
  constructor
  · intro h
    have hlong : 56 ≤ boxed.bytes.length := by
      by_contra hlt
      rw [openEnvelope_short (not_le.mp hlt)] at h
      cases h
    obtain ⟨ephPub, nonce, ct, hlayout⟩ := exists_layout hlong
    refine ⟨ephPub, nonce, ct, hlayout, ?_⟩
    rw [openEnvelope_layout hlayout] at h
    cases hdec : B.decrypt (B.new ephPub secret) nonce ct with
    | error e => rw [hdec] at h; cases h
    | ok m => rw [hdec] at h; cases h; rfl
  · intro hbox
    obtain ⟨ephPub, nonce, ct, hlayout, hdec⟩ := hbox
    rw [openEnvelope_layout hlayout, hdec]

theorem openEnvelope_seal (hB : BoxLaws B) (secret : B.SecretKey) (rng : Rng) (nonce : Nonce) (plaintext : Bytes) :
    ∃ boxed rng', B.sealEnvelope rng nonce (B.publicKey secret) plaintext = .ok (boxed, rng') ∧
      B.openEnvelope secret boxed = .ok plaintext := by
  obtain ⟨ct, henc, hdec⟩ := hB.inverts (B.new (B.publicKey secret) (B.generate rng).1) nonce plaintext
  refine ⟨⟨(B.publicKey (B.generate rng).1).bytes.toList ++ nonce.toList ++ ct⟩, (B.generate rng).2, ?_, ?_⟩
  · simp only [sealEnvelope, henc]
  · rw [openEnvelope_ok]
    exact ⟨_, nonce, ct, rfl, by rw [hB.agree, hdec]⟩

/-- What is sealed opens; opening never panics, and accepts nothing but an envelope. -/
theorem envelope_round_trip (hB : BoxLaws B) :
    (∀ (secret : B.SecretKey) rng nonce plaintext,
      ∃ boxed rng', B.sealEnvelope rng nonce (B.publicKey secret) plaintext = .ok (boxed, rng') ∧
        B.openEnvelope secret boxed = .ok plaintext) ∧
      ∀ (secret : B.SecretKey) boxed, (∀ msg, B.openEnvelope secret boxed ≠ .error (.panic msg)) ∧
        (B.openEnvelope secret boxed = .error (.err .tooShort) ↔ boxed.bytes.length < 56) ∧
        ∀ plaintext, B.openEnvelope secret boxed = .ok plaintext ↔ ∃ (ephPub : EncPublicKey) (nonce : Nonce) (ct : Bytes),
          boxed.bytes = ephPub.bytes.toList ++ nonce.toList ++ ct ∧
            B.decrypt (B.new ephPub secret) nonce ct = .ok plaintext := by
  refine ⟨openEnvelope_seal hB, fun secret boxed => ⟨openEnvelope_no_panic secret boxed, openEnvelope_tooShort, ?_⟩⟩
  intro plaintext
  exact openEnvelope_ok

end CryptoBox

/-! ## An ideal box -/

/-- One key for both directions, and a tag that names it. -/
@[reducible] def Ideal.cryptoBox : CryptoBox Nat where
  SecretKey := UInt8
  generate rng := (UInt8.ofNat rng, rng + 1)
  publicKey secret := ⟨Vector.replicate 32 secret⟩
  ChaChaBox := UInt8
  new pk secret := pk.bytes[0] + secret
  encrypt key _ plaintext := .ok (List.replicate 16 key ++ plaintext)
  decrypt key _ ct := if ct.take 16 = List.replicate 16 key then .ok (ct.drop 16) else .error ()

theorem Ideal.cryptoBox_laws : BoxLaws Ideal.cryptoBox where
  agree := by
    intro (ephemeral : UInt8) (secret : UInt8) nonce ct
    simp only [Vector.getElem_replicate, UInt8.add_comm ephemeral secret]
  inverts := by
    intro (key : UInt8) nonce plaintext
    refine ⟨List.replicate 16 key ++ plaintext, rfl, ?_⟩
    simp

theorem CryptoBox.envelope_round_trip_ideal :
    ∃ boxed rng', Ideal.cryptoBox.sealEnvelope 5 (Vector.replicate 24 0) (Ideal.cryptoBox.publicKey (9 : UInt8)) [1, 2] =
      .ok (boxed, rng') ∧ Ideal.cryptoBox.openEnvelope (9 : UInt8) boxed = .ok [1, 2] :=
  (CryptoBox.envelope_round_trip Ideal.cryptoBox_laws).1 (9 : UInt8) 5 (Vector.replicate 24 0) [1, 2]

/-! ## The wire of a ceremony -/

/-- Envelopes by the box. Neither fallback is ever taken. -/
def CryptoBox.wire (B : CryptoBox C.Rng) (generateNonce : C.Rng → Nonce × C.Rng)
    (toVec : C.Round2Package → Except String Bytes)
    (fromSlice : Bytes → Except String C.Round2Package) : DkgWire C where
  EncSecretKey := B.SecretKey
  generate := B.generate
  publicKey := B.publicKey
  sealEnvelope rng recipient plaintext :=
    let drawn := generateNonce rng
    match B.sealEnvelope drawn.2 drawn.1 recipient plaintext with
    | .ok result => result
    | .error _ => (⟨[]⟩, drawn.2)
  openEnvelope secret boxed :=
    match B.openEnvelope secret boxed with
    | .ok plaintext => .ok plaintext
    | .error (.err e) => .error e
    | .error (.panic _) => .error .decrypt
  toVec := toVec
  fromSlice := fromSlice

/-- The ceremony's assumption on its wire is met by any lawful box. -/
theorem CryptoBox.wire_laws {B : CryptoBox C.Rng} (hB : BoxLaws B) (generateNonce : C.Rng → Nonce × C.Rng)
    {toVec : C.Round2Package → Except String Bytes} {fromSlice : Bytes → Except String C.Round2Package}
    (hserde : ∀ pkg, ∃ plaintext, toVec pkg = .ok plaintext ∧ fromSlice plaintext = .ok pkg) :
    WireLaws (B.wire generateNonce toVec fromSlice) where
  opened := by
    intro secret rng plaintext
    obtain ⟨boxed, rng', hseal, hopen⟩ := openEnvelope_seal hB secret (generateNonce rng).2 (generateNonce rng).1 plaintext
    simp only [wire, hseal, hopen]
  decoded := hserde

end Sapphire
