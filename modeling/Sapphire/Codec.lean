import Sapphire.Gaps

/-!
# The codec on a chunked stream

`read_exact` fills its buffer from as many reads as it takes, so a source is the
list of what its reads give, and then the end. Frames come back whole however
the stream is chunked; a truncated stream gives its complete frames and an error.
-/

namespace Framing

/-- `read_exact`: the bytes and what is left of the source, or nothing at its end. -/
def readExact (n : Nat) : List (List UInt8) → Option (List UInt8 × List (List UInt8))
  | [] => if n = 0 then some ([], []) else none
  | chunk :: chunks =>
    if n ≤ chunk.length then some (chunk.take n, chunk.drop n :: chunks)
    else
      match readExact (n - chunk.length) chunks with
      | none => none
      | some (got, rest) => some (chunk ++ got, rest)

theorem readExact_some {n : Nat} {chunks rest : List (List UInt8)} {got : List UInt8}
    (h : readExact n chunks = some (got, rest)) : got.length = n ∧ chunks.flatten = got ++ rest.flatten := by
  induction chunks generalizing n got with
  | nil =>
    rw [readExact] at h
    split at h
    · cases h
      rename_i hn
      exact ⟨hn.symm, rfl⟩
    · cases h
  | cons chunk chunks ih =>
    rw [readExact] at h
    split at h
    · rename_i hn
      cases h
      refine ⟨List.length_take_of_le hn, ?_⟩
      rw [List.flatten_cons, List.flatten_cons, ← List.append_assoc, List.take_append_drop]
    · rename_i hn
      cases hr : readExact (n - chunk.length) chunks with
      | none => rw [hr] at h; cases h
      | some r =>
        rw [hr] at h
        cases h
        obtain ⟨hlen, hflat⟩ := ih hr
        refine ⟨?_, by rw [List.flatten_cons, hflat, List.append_assoc]⟩
        rw [List.length_append, hlen]
        omega

theorem readExact_none {n : Nat} {chunks : List (List UInt8)} :
    readExact n chunks = none ↔ chunks.flatten.length < n := by
  induction chunks generalizing n with
  | nil =>
    rw [readExact]
    by_cases hn : n = 0
    · simp [hn]
    · simp [hn]
      omega
  | cons chunk chunks ih =>
    rw [readExact, List.flatten_cons, List.length_append]
    by_cases hn : n ≤ chunk.length
    · rw [if_pos hn]
      constructor
      · intro h
        cases h
      · omega
    · rw [if_neg hn]
      have hiff : (match readExact (n - chunk.length) chunks with
          | none => none
          | some (got, rest) => some (chunk ++ got, rest)) = none ↔ readExact (n - chunk.length) chunks = none := by
        cases readExact (n - chunk.length) chunks <;> simp
      rw [hiff, ih]
      omega

theorem readExact_append {chunks : List (List UInt8)} {body more : List UInt8} (h : chunks.flatten = body ++ more) :
    ∃ rest, readExact body.length chunks = some (body, rest) ∧ rest.flatten = more := by
  cases hr : readExact body.length chunks with
  | none =>
    rw [readExact_none, h, List.length_append] at hr
    omega
  | some r =>
    obtain ⟨got, rest⟩ := r
    obtain ⟨hlen, hflat⟩ := readExact_some hr
    rw [h] at hflat
    obtain ⟨hgot, hrest⟩ := List.append_inj hflat hlen.symm
    exact ⟨rest, by rw [hgot], hrest.symm⟩

end Framing

namespace Sapphire.Mesh

open Framing

variable {N : Noise}

/-- The rest of `read_frame_bytes` once the length is read. -/
def readFrameBytes (chunks : List Bytes) : Except IoError (Bytes × List Bytes) :=
  match readExact 4 chunks with
  | none => .error (.unexpectedEof "early eof")
  | some (lenBuf, chunks) =>
    let n := (fromBeBytes lenBuf).toNat
    if maxPayload + 16 < n then
      .error (.invalidData ("frame " ++ toString n ++ " exceeds " ++ toString (maxPayload + 16)))
    else
      match readExact n chunks with
      | none => .error (.unexpectedEof "early eof")
      | some result => .ok result

theorem readFrameBytes_ok {chunks rest : List Bytes} {ct : Bytes} (h : readFrameBytes chunks = .ok (ct, rest)) :
    ct.length ≤ maxPayload + 16 ∧ ∃ lenBuf, lenBuf.length = 4 ∧ (fromBeBytes lenBuf).toNat = ct.length ∧
      chunks.flatten = lenBuf ++ ct ++ rest.flatten := by
  unfold readFrameBytes at h
  cases hhead : readExact 4 chunks with
  | none => rw [hhead] at h; cases h
  | some head =>
    obtain ⟨lenBuf, tail⟩ := head
    simp only [hhead] at h
    split at h
    · cases h
    · rename_i hmax
      cases hbody : readExact (fromBeBytes lenBuf).toNat tail with
      | none => rw [hbody] at h; cases h
      | some body =>
        rw [hbody] at h
        cases h
        obtain ⟨hlen, hflat⟩ := readExact_some hhead
        obtain ⟨hct, htail⟩ := readExact_some hbody
        refine ⟨by omega, lenBuf, hlen, hct.symm, ?_⟩
        rw [hflat, htail, List.append_assoc]

theorem frame_length (ct : Bytes) : (frame ct).length = ct.length + 4 := by
  simp [frame, toBeBytes]

theorem lenBuf_length (ct : Bytes) : (toBeBytes (UInt32.ofNat ct.length)).length = 4 := rfl

theorem lenBuf_toNat {ct : Bytes} (h : ct.length ≤ maxPayload + 16) :
    (fromBeBytes (toBeBytes (UInt32.ofNat ct.length))).toNat = ct.length := by
  rw [fromBeBytes_toBeBytes, UInt32.toNat_ofNat']
  exact Nat.mod_eq_of_lt (lt_of_le_of_lt h (by decide))

theorem readFrameBytes_frame {chunks : List Bytes} {ct more : Bytes} (hmax : ct.length ≤ maxPayload + 16)
    (h : chunks.flatten = frame ct ++ more) : ∃ rest, readFrameBytes chunks = .ok (ct, rest) ∧ rest.flatten = more := by
  rw [frame, List.append_assoc] at h
  obtain ⟨tail, hhead, htail⟩ := readExact_append h
  obtain ⟨rest, hbody, hrest⟩ := readExact_append htail
  refine ⟨rest, ?_, hrest⟩
  rw [lenBuf_length] at hhead
  unfold readFrameBytes
  simp only [hhead, lenBuf_toNat hmax, if_neg (not_lt.mpr hmax), hbody]

theorem readFrameBytes_cut {chunks : List Bytes} {ct : Bytes} {k : Nat} (hmax : ct.length ≤ maxPayload + 16)
    (hk : k < (frame ct).length) (h : chunks.flatten = (frame ct).take k) :
    readFrameBytes chunks = .error (.unexpectedEof "early eof") := by
  have hlen := congrArg List.length h
  rw [List.length_take_of_le hk.le] at hlen
  rw [frame_length] at hk
  unfold readFrameBytes
  by_cases h4 : k < 4
  · rw [readExact_none.mpr (by rw [hlen]; exact h4)]
  · have hsplit : chunks.flatten = toBeBytes (UInt32.ofNat ct.length) ++ ct.take (k - 4) := by
      rw [h, frame, List.take_append, lenBuf_length, List.take_of_length_le (by rw [lenBuf_length]; omega)]
    obtain ⟨tail, hhead, htail⟩ := readExact_append hsplit
    rw [lenBuf_length] at hhead
    have hnone : readExact ct.length tail = none := by
      rw [readExact_none, htail, List.length_take]
      omega
    simp only [hhead, lenBuf_toNat hmax, if_neg (not_lt.mpr hmax), hnone]

/-! ## A sender and a receiver -/

/-- `encrypt_frame` and `write_frame_bytes` on one payload after the other. -/
def sendAll : N.State → List Bytes → Except IoError (Bytes × N.State)
  | transport, [] => .ok ([], transport)
  | transport, payload :: payloads =>
    match encryptFrame transport payload with
    | .error e => .error e
    | .ok (ct, transport) =>
      match sendAll transport payloads with
      | .error e => .error e
      | .ok (written, transport) => .ok (frame ct ++ written, transport)

/-- `read_frame_bytes` and `decrypt_frame` until one of them fails. -/
def receiveAll (transport : N.State) (chunks : List Bytes) : List Bytes × IoError :=
  match _hread : readFrameBytes chunks with
  | .error e => ([], e)
  | .ok (ct, rest) =>
    match decryptFrame transport ct with
    | .error e => ([], e)
    | .ok (payload, transport) =>
      let received := receiveAll transport rest
      (payload :: received.1, received.2)
termination_by chunks.flatten.length
decreasing_by
  obtain ⟨_, lenBuf, hlen, _, hflat⟩ := readFrameBytes_ok _hread
  rw [hflat, List.length_append, List.length_append]
  omega

theorem receiveAll_error {transport : N.State} {chunks : List Bytes} {e : IoError}
    (h : readFrameBytes chunks = .error e) :
    receiveAll transport chunks = ([], e) := by
  rw [receiveAll]
  split
  · rename_i heq
    rw [h] at heq
    cases heq
    rfl
  · rename_i heq
    rw [h] at heq
    cases heq

theorem receiveAll_ok {transport transport' : N.State} {chunks rest : List Bytes} {ct payload : Bytes}
    (h : readFrameBytes chunks = .ok (ct, rest)) (hdec : decryptFrame transport ct = .ok (payload, transport')) :
    receiveAll transport chunks = (payload :: (receiveAll transport' rest).1, (receiveAll transport' rest).2) := by
  rw [receiveAll]
  split
  · rename_i heq
    rw [h] at heq
    cases heq
  · rename_i heq
    rw [h] at heq
    cases heq
    simp only [hdec]

/-- What is assumed of the transports: each payload is encrypted, and the peer's
next read decrypts it. -/
def Carries (N : Noise) : N.State → N.State → List Bytes → Prop
  | _, _, [] => True
  | a, b, payload :: payloads =>
    ∃ ct a' b', N.writeMessage a payload = .ok (ct, a') ∧ N.readMessage b ct = .ok (payload, b') ∧ Carries N a' b' payloads

def framesLength (payloads : List Bytes) : Nat := (payloads.map fun payload => payload.length + 20).sum

/-- `m` frames are complete in the first `k` bytes, and no more. -/
def CompleteFrames (payloads : List Bytes) (k m : Nat) : Prop :=
  m ≤ payloads.length ∧ framesLength (payloads.take m) ≤ k ∧ (m < payloads.length → k < framesLength (payloads.take (m + 1)))

theorem encryptFrame_of_write {transport transport' : N.State} {payload ct : Bytes} (hfit : payload.length ≤ maxPayload)
    (h : N.writeMessage transport payload = .ok (ct, transport')) :
    encryptFrame transport payload = .ok (ct, transport') := by
  unfold encryptFrame
  rw [if_neg (not_lt.mpr hfit), h]

theorem decryptFrame_of_read {transport transport' : N.State} {payload ct : Bytes}
    (h : N.readMessage transport ct = .ok (payload, transport')) :
    decryptFrame transport ct = .ok (payload, transport') := by
  unfold decryptFrame
  rw [h]

/-- However much of the stream arrives, and however it is chunked, the complete
frames are received and then there is an error. -/
theorem sendAll_received (hlen : ∀ (a : N.State) payload ct a', N.writeMessage a payload = .ok (ct, a') →
      ct.length = payload.length + 16) {a b : N.State} {payloads : List Bytes}
    (hfit : ∀ payload ∈ payloads, payload.length ≤ maxPayload) (hcarries : Carries N a b payloads) :
    ∃ written a', sendAll a payloads = .ok (written, a') ∧ written.length = framesLength payloads ∧
      ∀ k chunks, chunks.flatten = written.take k →
        ∃ m, CompleteFrames payloads k m ∧ receiveAll b chunks = (payloads.take m, .unexpectedEof "early eof") := by
  induction payloads generalizing a b with
  | nil =>
    refine ⟨[], a, rfl, rfl, fun k chunks hchunks => ⟨0, ⟨le_refl _, Nat.zero_le _, fun h => absurd h (lt_irrefl _)⟩, ?_⟩⟩
    have hnone : readExact 4 chunks = none := by
      rw [readExact_none, hchunks, List.take_nil]
      decide
    apply receiveAll_error
    unfold readFrameBytes
    rw [hnone]
  | cons payload payloads ih =>
    obtain ⟨ct, a₁, b₁, hwrite, hread, hcarries⟩ := hcarries
    have hpayload := hfit payload (by simp)
    obtain ⟨written, a', hsend, hwritten, hrest⟩ := ih (fun p hp => hfit p (List.mem_cons_of_mem _ hp)) hcarries
    have hct := hlen a payload ct a₁ hwrite
    have hmax : ct.length ≤ maxPayload + 16 := by omega
    have hframe : (frame ct).length = payload.length + 20 := by rw [frame_length, hct]
    refine ⟨frame ct ++ written, a', ?_, ?_, ?_⟩
    · simp only [sendAll, encryptFrame_of_write hpayload hwrite, hsend]
    · rw [List.length_append, hframe, hwritten]
      simp [framesLength]
    · intro k chunks hchunks
      by_cases hk : k < (frame ct).length
      · refine ⟨0, ⟨Nat.zero_le _, Nat.zero_le _, fun _ => ?_⟩, ?_⟩
        · simpa [framesLength, hframe] using hk
        · apply receiveAll_error
          apply readFrameBytes_cut hmax hk
          rw [hchunks, List.take_append_of_le_length hk.le]
      · have hsplit : chunks.flatten = frame ct ++ written.take (k - (frame ct).length) := by
          rw [hchunks, List.take_append, List.take_of_length_le (not_lt.mp hk)]
        obtain ⟨rest, hok, hflat⟩ := readFrameBytes_frame hmax hsplit
        obtain ⟨m, ⟨hm, hbelow, habove⟩, hreceived⟩ := hrest _ rest hflat
        refine ⟨m + 1, ⟨by simpa using hm, ?_, ?_⟩, ?_⟩
        · simp only [framesLength, List.take_succ_cons, List.map_cons, List.sum_cons] at hbelow ⊢
          omega
        · intro hlt
          have hnext := habove (by simpa using hlt)
          simp only [framesLength, List.take_succ_cons, List.map_cons, List.sum_cons] at hnext ⊢
          omega
        · rw [receiveAll_ok hok (decryptFrame_of_read hread), hreceived, List.take_succ_cons]

theorem framesLength_take_le (payloads : List Bytes) (m : Nat) :
    framesLength (payloads.take m) ≤ framesLength payloads := by
  have hsplit : framesLength payloads = framesLength (payloads.take m) + framesLength (payloads.drop m) := by
    rw [framesLength, framesLength, framesLength, ← List.sum_append, ← List.map_append, List.take_append_drop]
  omega

theorem CompleteFrames.all {payloads : List Bytes} {m : Nat} (h : CompleteFrames payloads (framesLength payloads) m) :
    m = payloads.length := by
  obtain ⟨hm, _, habove⟩ := h
  rcases Nat.lt_or_ge m payloads.length with hlt | hge
  · have hle := framesLength_take_le payloads (m + 1)
    have hgt := habove hlt
    omega
  · exact le_antisymm hm hge

/-- What is sent is received, whole or cut short; no frame is too long for its reader or its
length; and a read takes what the length says and no more, whatever the bytes. -/
theorem framing_round_trip (hlen : ∀ (a : N.State) payload ct a', N.writeMessage a payload = .ok (ct, a') →
      ct.length = payload.length + 16) {a b : N.State} {payloads : List Bytes}
    (hfit : ∀ payload ∈ payloads, payload.length ≤ maxPayload) (hcarries : Carries N a b payloads) :
    (∃ written a', sendAll a payloads = .ok (written, a') ∧
      (∀ chunks, chunks.flatten = written → receiveAll b chunks = (payloads, .unexpectedEof "early eof")) ∧
      ∀ k chunks, chunks.flatten = written.take k →
        ∃ m, CompleteFrames payloads k m ∧ receiveAll b chunks = (payloads.take m, .unexpectedEof "early eof")) ∧
      (∀ (transport : N.State) payload ct transport', encryptFrame transport payload = .ok (ct, transport') →
        ct.length ≤ maxPayload + 16 ∧ (fromBeBytes (toBeBytes (UInt32.ofNat ct.length))).toNat = ct.length) ∧
      ∀ chunks ct rest, readFrameBytes chunks = .ok (ct, rest) →
        ct.length ≤ maxPayload + 16 ∧ ∃ lenBuf, lenBuf.length = 4 ∧ (fromBeBytes lenBuf).toNat = ct.length ∧
          chunks.flatten = lenBuf ++ ct ++ rest.flatten := by
  refine ⟨?_, ?_, fun chunks ct rest h => readFrameBytes_ok h⟩
  · obtain ⟨written, a', hsend, hwritten, hcut⟩ := sendAll_received hlen hfit hcarries
    refine ⟨written, a', hsend, fun chunks hchunks => ?_, hcut⟩
    obtain ⟨m, hm, hreceived⟩ := hcut written.length chunks (by rw [hchunks, List.take_length])
    rw [hwritten] at hm
    rw [hreceived, hm.all, List.take_length]
  · intro transport payload ct transport' h
    obtain ⟨hfit, hwrite⟩ := encryptFrame_ok h
    have hct := hlen transport payload ct transport' hwrite
    have hmax : ct.length ≤ maxPayload + 16 := by omega
    exact ⟨hmax, lenBuf_toNat hmax⟩

theorem framing_round_trip_two : ∃ written a', sendAll (Ideal.start .initiator) [[7], []] = .ok (written, a') ∧
    receiveAll (Ideal.start .responder) [written.take 3, written.drop 3] = ([[7], []], .unexpectedEof "early eof") := by
  have hlen : ∀ (a : Ideal.noise.State) payload ct a', Ideal.noise.writeMessage a payload = .ok (ct, a') →
      ct.length = payload.length + 16 := by
    intro a payload ct a' h
    rw [(Ideal.noise_write h).1, List.length_append, Ideal.tag_length]
  have hcarries : Carries Ideal.noise (Ideal.start .initiator) (Ideal.start .responder) [[7], []] :=
    ⟨[7] ++ Ideal.tag 0, (1, 0), (0, 1), rfl, rfl, [] ++ Ideal.tag 1, (2, 0), (0, 2), rfl, rfl, trivial⟩
  have hfit : ∀ payload ∈ ([[7], []] : List Bytes), payload.length ≤ maxPayload := by decide
  obtain ⟨⟨written, a', hsend, hreceived, _⟩, _⟩ := framing_round_trip hlen hfit hcarries
  refine ⟨written, a', hsend, hreceived _ ?_⟩
  rw [List.flatten_cons, List.flatten_singleton, List.take_append_drop]

end Sapphire.Mesh
