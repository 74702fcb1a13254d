import Sapphire.Mesh

/-!
# What a connection delivers

The payloads on their way are the sender's queue, what its writer holds, what
one transport has encrypted and the other not decrypted, and what the reader
holds. Together with those delivered they are a sublist of what was broadcast:
nothing is invented, doubled or reordered. Where the queue never overflows and
every payload fits a frame, nothing is skipped either.
-/

namespace Sapphire.Mesh

open Replay Framing

variable {N : Noise}

/-- What the connection relies on: the messages that one side has encrypted and
the other has not read are read in order, whatever happens in the other
direction; a ciphertext is 16 bytes longer; a transport that fails on a payload
that fits is exhausted, and then fails on all. -/
structure NoiseLaws (N : Noise) (Linked : N.State → N.State → List (Bytes × Bytes) → Prop)
    (Exhausted : N.State → Prop) :
    Prop where
  write : ∀ {a b msgs pt ct a'}, Linked a b msgs → N.writeMessage a pt = .ok (ct, a') →
    ct.length = pt.length + 16 ∧ Linked a' b (msgs ++ [(pt, ct)])
  read : ∀ {a b pt ct msgs}, Linked a b ((pt, ct) :: msgs) → ∃ b', N.readMessage b ct = .ok (pt, b') ∧ Linked a b' msgs
  writeBack : ∀ {a b msgs pt ct b'}, Linked a b msgs → N.writeMessage b pt = .ok (ct, b') → Linked a b' msgs
  readBack : ∀ {a b msgs pt ct a'}, Linked a b msgs → N.readMessage a ct = .ok (pt, a') → Linked a' b msgs
  exhausted : ∀ {a pt e}, N.writeMessage a pt = .error e → pt.length ≤ maxPayload → Exhausted a
  fails : ∀ {a}, Exhausted a → ∀ pt, ∃ e, N.writeMessage a pt = .error e
  failsBack : ∀ {a pt ct a'}, Exhausted a → N.readMessage a ct = .ok (pt, a') → Exhausted a'

/-! ## Payloads on their way -/

def Writer.pending : Writer → List Bytes
  | .encrypting payload => [payload]
  | _ => []

/-- The bytes a writer has yet to write; those of a closed writer are lost. -/
def Writer.Rest : Writer → Bytes → Prop
  | .writing rest, bytes => bytes = rest
  | .closed, _ => True
  | _, bytes => bytes = []

/-- The payload a reader has decrypted; that of a closed reader is lost. -/
def Reader.Holds : Reader → List Bytes → Prop
  | .sending payload, held => held = [payload]
  | .closed, _ => True
  | _, held => held = []

/-- The bytes to come are the frames of the ciphertexts to come. -/
def Reader.Aligned : Reader → Bytes → List Bytes → Prop
  | .reading r, stream, cts => r.Valid maxFrame ∧ r.bytes ++ stream = cts.flatMap frame
  | .received ct, stream, cts => ∃ more, cts = ct :: more ∧ stream = more.flatMap frame
  | .sending _, stream, cts => stream = cts.flatMap frame
  | .closed, _, _ => True

variable {Linked : N.State → N.State → List (Bytes × Bytes) → Prop} {Exhausted : N.State → Prop}

/-- One direction of a connection: `s` writes, `r` reads, `wire` is between them. -/
structure Flow (Linked : N.State → N.State → List (Bytes × Bytes) → Prop) (s r : Endpoint N) (wire : Bytes)
    (msgs : List (Bytes × Bytes)) (held : List Bytes) : Prop where
  linked : Linked s.transport r.transport msgs
  holds : r.reader.Holds held
  aligned : ∃ rest, s.writer.Rest rest ∧ r.reader.Aligned (wire ++ rest) (msgs.map Prod.snd)
  fits : ∀ m ∈ msgs, m.2.length ≤ maxFrame
  order : (r.incoming ++ held ++ msgs.map Prod.fst ++ s.writer.pending ++ s.outgoing.values).Sublist s.broadcasts

/-- And nothing skipped, as long as payloads still go out. -/
structure GapFree (Exhausted : N.State → Prop) (s r : Endpoint N) (msgs : List (Bytes × Bytes)) (held : List Bytes) :
    Prop where
  sent : r.incoming ++ held ++ msgs.map Prod.fst <+: s.broadcasts
  kept : s.writer ≠ .closed → ¬ Exhausted s.transport →
    r.incoming ++ held ++ msgs.map Prod.fst ++ s.writer.pending ++ s.outgoing.values = s.broadcasts
  missed : s.outgoing.missed = 0
  small : ∀ payload ∈ s.writer.pending ++ s.outgoing.values, payload.length ≤ maxPayload

/-! ## Steps of the sender -/

theorem encryptFrame_ok {transport transport' : N.State} {payload ct : Bytes}
    (h : encryptFrame transport payload = .ok (ct, transport')) :
    payload.length ≤ maxPayload ∧ N.writeMessage transport payload = .ok (ct, transport') := by
  unfold encryptFrame at h
  split at h
  · cases h
  · rename_i hlen
    refine ⟨not_lt.mp hlen, ?_⟩
    cases hw : N.writeMessage transport payload with
    | error e => rw [hw] at h; cases h
    | ok result => rw [hw] at h; cases h; rfl

theorem encryptFrame_error {transport : N.State} {payload : Bytes} {e : IoError}
    (h : encryptFrame transport payload = .error e) (hlen : payload.length ≤ maxPayload) :
    ∃ msg, N.writeMessage transport payload = .error msg := by
  unfold encryptFrame at h
  rw [if_neg (not_lt.mpr hlen)] at h
  cases hw : N.writeMessage transport payload with
  | error msg => exact ⟨msg, rfl⟩
  | ok result => rw [hw] at h; cases h

namespace Endpoint

theorem broadcast_closed {e : Endpoint N} (h : e.writer = .closed) (payload : Bytes) :
    e.broadcast payload = { e with broadcasts := e.broadcasts ++ [payload] } := by
  unfold broadcast
  rw [h]

theorem broadcast_open {e : Endpoint N} (h : e.writer ≠ .closed) (payload : Bytes) :
    e.broadcast payload = { e with outgoing := e.outgoing.send broadcastCapacity payload,
                                   broadcasts := e.broadcasts ++ [payload] } := by
  unfold broadcast
  cases hw : e.writer with
  | closed => exact absurd hw h
  | _ => rfl

structure SameWriter (e e' : Endpoint N) : Prop where
  writer : e'.writer = e.writer
  outgoing : e'.outgoing = e.outgoing
  broadcasts : e'.broadcasts = e.broadcasts

structure SameReader (e e' : Endpoint N) : Prop where
  reader : e'.reader = e.reader
  incoming : e'.incoming = e.incoming

section
variable {e e' : Endpoint N}

theorem broadcast_frame (e : Endpoint N) (payload : Bytes) :
    e.SameReader (e.broadcast payload) ∧ (e.broadcast payload).transport = e.transport := by
  unfold broadcast
  cases e.writer <;> exact ⟨⟨rfl, rfl⟩, rfl⟩

theorem recv_frame (h : e.recv = some e') :
    e.SameReader e' ∧ e'.broadcasts = e.broadcasts ∧ e'.transport = e.transport := by
  unfold recv at h
  cases hw : e.writer with
  | waiting =>
    rw [hw] at h
    rcases e.outgoing.recv_cases with heq | ⟨n, heq, _, _⟩ | ⟨payload, values, _, _, heq⟩
    · simp only [heq] at h; cases h
    · simp only [heq] at h; cases h; exact ⟨⟨rfl, rfl⟩, rfl, rfl⟩
    · simp only [heq] at h; cases h; exact ⟨⟨rfl, rfl⟩, rfl, rfl⟩
  | _ => rw [hw] at h; cases h

theorem encrypt_frame (h : e.encrypt = some e') : e.SameReader e' ∧ e'.broadcasts = e.broadcasts ∧
    (e'.transport = e.transport ∨ ∃ payload ct, N.writeMessage e.transport payload = .ok (ct, e'.transport)) := by
  unfold encrypt at h
  cases hw : e.writer with
  | encrypting payload =>
    rw [hw] at h
    cases henc : encryptFrame e.transport payload with
    | ok result =>
      simp only [henc] at h
      cases h
      exact ⟨⟨rfl, rfl⟩, rfl, Or.inr ⟨payload, result.1, (encryptFrame_ok henc).2⟩⟩
    | error msg =>
      simp only [henc] at h
      cases h
      exact ⟨⟨rfl, rfl⟩, rfl, Or.inl rfl⟩
  | _ => rw [hw] at h; cases h

theorem write_frame {written : Bytes} (h : e.write = some (e', written)) :
    e.SameReader e' ∧ e'.broadcasts = e.broadcasts ∧ e'.transport = e.transport := by
  unfold write at h
  cases hw : e.writer with
  | writing rest => rw [hw] at h; cases rest <;> cases h <;> exact ⟨⟨rfl, rfl⟩, rfl, rfl⟩
  | _ => rw [hw] at h; cases h

theorem stopWriter_frame (h : e.stopWriter = some e') :
    e.SameReader e' ∧ e'.broadcasts = e.broadcasts ∧ e'.transport = e.transport := by
  unfold stopWriter at h
  cases hw : e.writer <;> rw [hw] at h <;> cases h <;> exact ⟨⟨rfl, rfl⟩, rfl, rfl⟩

theorem read_frame {b : UInt8} (h : e.read b = some e') : e.SameWriter e' ∧ e'.transport = e.transport := by
  unfold read at h
  cases hr : e.reader with
  | reading r =>
    rw [hr] at h
    cases hfeed : Framing.feed maxFrame r b with
    | none => simp only [hfeed] at h; cases h; exact ⟨⟨rfl, rfl, rfl⟩, rfl⟩
    | some fed => cases fed <;> simp only [hfeed] at h <;> cases h <;> exact ⟨⟨rfl, rfl, rfl⟩, rfl⟩
  | _ => rw [hr] at h; cases h

theorem decrypt_frame (h : e.decrypt = some e') : e.SameWriter e' ∧
    (e'.transport = e.transport ∨ ∃ payload ct, N.readMessage e.transport ct = .ok (payload, e'.transport)) := by
  unfold decrypt decryptFrame at h
  cases hr : e.reader with
  | received ct =>
    rw [hr] at h
    cases hread : N.readMessage e.transport ct with
    | ok result => simp only [hread] at h; cases h; exact ⟨⟨rfl, rfl, rfl⟩, Or.inr ⟨result.1, ct, hread⟩⟩
    | error msg => simp only [hread] at h; cases h; exact ⟨⟨rfl, rfl, rfl⟩, Or.inl rfl⟩
  | _ => rw [hr] at h; cases h

theorem send_frame (h : e.send = some e') : e.SameWriter e' ∧ e'.transport = e.transport := by
  unfold send at h
  cases hr : e.reader with
  | sending payload => rw [hr] at h; cases h; exact ⟨⟨rfl, rfl, rfl⟩, rfl⟩
  | _ => rw [hr] at h; cases h

theorem stopReader_frame (h : e.stopReader = some e') : e.SameWriter e' ∧ e'.transport = e.transport := by
  unfold stopReader at h
  cases hr : e.reader <;> rw [hr] at h <;> cases h <;> exact ⟨⟨rfl, rfl, rfl⟩, rfl⟩

end

/-- A broadcast that the queue has room for and a frame as well. -/
def Fits (e : Endpoint N) : Action → Prop
  | .broadcast payload =>
    e.writer ≠ .closed → payload.length ≤ maxPayload ∧ e.outgoing.values.length < broadcastCapacity
  | _ => True

end Endpoint

theorem Reader.Aligned.extend {reader : Reader} {stream : Bytes} {cts : List Bytes} (h : reader.Aligned stream cts)
    (ct : Bytes) : reader.Aligned (stream ++ frame ct) (cts ++ [ct]) := by
  cases reader with
  | reading r =>
    obtain ⟨hvalid, heq⟩ := h
    refine ⟨hvalid, ?_⟩
    rw [← List.append_assoc, heq]
    simp
  | received ct' =>
    obtain ⟨more, rfl, rfl⟩ := h
    exact ⟨more ++ [ct], by simp, by simp⟩
  | sending payload =>
    change stream ++ frame ct = _
    rw [show stream = cts.flatMap frame from h]
    simp
  | closed => trivial

section
variable {s s' r r' : Endpoint N} {wire : Bytes} {msgs : List (Bytes × Bytes)} {held : List Bytes}

/-- What the sender does with its reader does not concern its writer. -/
theorem Flow.sender_frame (h : Flow Linked s r wire msgs held) (hs : s.SameWriter s')
    (hlinked : Linked s'.transport r.transport msgs) : Flow Linked s' r wire msgs held where
  linked := hlinked
  holds := h.holds
  aligned := by rw [hs.writer]; exact h.aligned
  fits := h.fits
  order := by rw [hs.writer, hs.outgoing, hs.broadcasts]; exact h.order

theorem GapFree.sender_frame (h : GapFree Exhausted s r msgs held) (hs : s.SameWriter s')
    (hexhausted : Exhausted s.transport → Exhausted s'.transport) : GapFree Exhausted s' r msgs held where
  sent := by rw [hs.broadcasts]; exact h.sent
  kept := fun hopen hex => by
    rw [hs.writer, hs.outgoing, hs.broadcasts]
    exact h.kept (hs.writer ▸ hopen) fun hex' => hex (hexhausted hex')
  missed := by rw [hs.outgoing]; exact h.missed
  small := by rw [hs.writer, hs.outgoing]; exact h.small

variable (Exhausted) in
theorem Flow.broadcast (h : Flow Linked s r wire msgs held) (payload : Bytes) :
    Flow Linked (s.broadcast payload) r wire msgs held ∧
      (s.Fits (.broadcast payload) → GapFree Exhausted s r msgs held →
        GapFree Exhausted (s.broadcast payload) r msgs held) := by
  by_cases hclosed : s.writer = .closed
  · rw [s.broadcast_closed hclosed]
    refine ⟨⟨h.linked, h.holds, h.aligned, h.fits, h.order.trans (List.sublist_append_left _ _)⟩, fun _ hg => ?_⟩
    exact ⟨hg.sent.trans (List.prefix_append _ _), fun hopen => absurd hclosed hopen, hg.missed, hg.small⟩
  · rw [s.broadcast_open hclosed]
    refine ⟨⟨h.linked, h.holds, h.aligned, h.fits, ?_⟩, fun hfits hg => ?_⟩
    · have hsend := (List.Sublist.refl (r.incoming ++ held ++ msgs.map Prod.fst ++ s.writer.pending)).append
        (s.outgoing.send_sublist broadcastCapacity payload)
      rw [← List.append_assoc] at hsend
      exact hsend.trans (h.order.append (List.Sublist.refl _))
    · obtain ⟨hsmall, hroom⟩ := hfits hclosed
      rw [Lossy.Queue.send_kept hroom]
      refine ⟨hg.sent.trans (List.prefix_append _ _), fun hopen hex => ?_, hg.missed, ?_⟩
      · rw [← hg.kept hopen hex]
        simp
      · intro p hp
        rw [← List.append_assoc] at hp
        rcases List.mem_append.mp hp with hp | hp
        · exact hg.small p hp
        · rw [List.mem_singleton.mp hp]; exact hsmall

variable (Exhausted) in
theorem Flow.recv (h : Flow Linked s r wire msgs held) (hs : s.recv = some s') :
    Flow Linked s' r wire msgs held ∧ (GapFree Exhausted s r msgs held → GapFree Exhausted s' r msgs held) := by
  unfold Endpoint.recv at hs
  cases hw : s.writer with
  | waiting =>
    rw [hw] at hs
    obtain ⟨rest, hrest, haligned⟩ := h.aligned
    rw [hw] at hrest
    rcases s.outgoing.recv_cases with heq | ⟨n, heq, hn, hpos⟩ | ⟨payload, values, hv, hm, heq⟩
    · simp only [heq] at hs
      cases hs
    · simp only [heq] at hs
      cases hs
      have horder := h.order
      rw [hw] at horder
      refine ⟨⟨h.linked, h.holds, ⟨rest, hrest, haligned⟩, h.fits, horder⟩, fun hg => ?_⟩
      rw [hg.missed] at hn
      exact absurd hn.symm hpos
    · simp only [heq] at hs
      cases hs
      have hsame : s.writer.pending ++ s.outgoing.values = [payload] ++ values := by
        rw [hw, hv]; rfl
      refine ⟨⟨h.linked, h.holds, ⟨rest, hrest, haligned⟩, h.fits, ?_⟩, fun hg => ?_⟩
      · have horder := h.order
        rw [List.append_assoc, hsame, ← List.append_assoc] at horder
        exact horder
      · refine ⟨hg.sent, fun _ hex => ?_, rfl, ?_⟩
        · have hkept := hg.kept (by rw [hw]; exact fun h => by cases h) hex
          rw [List.append_assoc, hsame, ← List.append_assoc] at hkept
          exact hkept
        · have hsmall := hg.small
          rw [hsame] at hsmall
          exact hsmall
  | _ => rw [hw] at hs; cases hs

theorem Flow.encrypt (hN : NoiseLaws N Linked Exhausted) (h : Flow Linked s r wire msgs held)
    (hs : s.encrypt = some s') :
    ∃ msgs', Flow Linked s' r wire msgs' held ∧
      (GapFree Exhausted s r msgs held → GapFree Exhausted s' r msgs' held) := by
  unfold Endpoint.encrypt at hs
  cases hw : s.writer with
  | encrypting payload =>
    rw [hw] at hs
    obtain ⟨rest, hrest, haligned⟩ := h.aligned
    rw [hw] at hrest
    have hnil : rest = [] := hrest
    subst hnil
    rw [List.append_nil] at haligned
    have hpending : s.writer.pending = [payload] := by rw [hw]; rfl
    cases henc : encryptFrame s.transport payload with
    | ok result =>
      obtain ⟨ct, transport⟩ := result
      simp only [henc] at hs
      cases hs
      obtain ⟨hlen, hwrite⟩ := encryptFrame_ok henc
      obtain ⟨hct, hlinked⟩ := hN.write h.linked hwrite
      have hsum : r.incoming ++ held ++ (msgs ++ [(payload, ct)]).map Prod.fst =
          r.incoming ++ held ++ msgs.map Prod.fst ++ [payload] := by simp
      refine ⟨msgs ++ [(payload, ct)], ⟨hlinked, h.holds, ⟨frame ct, rfl, ?_⟩, ?_, ?_⟩, fun hg => ?_⟩
      · rw [List.map_append]
        exact haligned.extend ct
      · intro m hm
        rcases List.mem_append.mp hm with hm | hm
        · exact h.fits m hm
        · rw [List.mem_singleton.mp hm, hct]
          exact Nat.add_le_add_right hlen 16
      · have horder := h.order
        rw [hpending] at horder
        rw [hsum]
        simpa [Writer.pending] using horder
      · have hfresh : ¬ Exhausted s.transport := by
          intro hex
          obtain ⟨e, he⟩ := hN.fails hex payload
          rw [hwrite] at he; cases he
        have hkept := hg.kept (by rw [hw]; exact fun h => by cases h) hfresh
        rw [hpending, ← hsum] at hkept
        refine ⟨⟨s.outgoing.values, hkept⟩, fun _ _ => by simpa [Writer.pending] using hkept, hg.missed, ?_⟩
        intro p hp
        exact hg.small p (List.mem_append_right _ hp)
    | error e =>
      simp only [henc] at hs
      cases hs
      refine ⟨msgs, ⟨h.linked, h.holds, ⟨[], rfl, by simpa using haligned⟩, h.fits, ?_⟩, fun hg => ?_⟩
      · refine List.Sublist.trans ?_ h.order
        simp only [Writer.pending, List.append_nil]
        exact (List.sublist_append_left _ _).append (List.Sublist.refl _)
      · obtain ⟨msg, hfail⟩ := encryptFrame_error henc (hg.small payload (by rw [hpending]; simp))
        have hex : Exhausted s.transport := hN.exhausted hfail (hg.small payload (by rw [hpending]; simp))
        exact ⟨hg.sent, fun _ hfresh => absurd hex hfresh, hg.missed, fun p hp =>
          hg.small p (List.mem_append_right _ hp)⟩
  | _ => rw [hw] at hs; cases hs

variable (Exhausted) in
theorem Flow.write {written : Bytes} (h : Flow Linked s r wire msgs held) (hs : s.write = some (s', written)) :
    Flow Linked s' r (wire ++ written) msgs held ∧
      (GapFree Exhausted s r msgs held → GapFree Exhausted s' r msgs held) := by
  unfold Endpoint.write at hs
  cases hw : s.writer with
  | writing bytes =>
    rw [hw] at hs
    obtain ⟨rest, hrest, haligned⟩ := h.aligned
    rw [hw] at hrest
    have hsame : rest = bytes := hrest
    subst hsame
    have hpending : s.writer.pending = [] := by rw [hw]; rfl
    have horder := h.order
    rw [hpending] at horder
    cases rest with
    | nil =>
      cases hs
      refine ⟨⟨h.linked, h.holds, ⟨[], rfl, by simpa using haligned⟩, h.fits, horder⟩, fun hg => ?_⟩
      refine ⟨hg.sent, fun _ hex => ?_, hg.missed, fun p hp => hg.small p (List.mem_append_right _ hp)⟩
      have hkept := hg.kept (by rw [hw]; exact fun h => by cases h) hex
      rwa [hpending] at hkept
    | cons b rest =>
      cases hs
      refine ⟨⟨h.linked, h.holds, ⟨rest, rfl, by simpa using haligned⟩, h.fits, horder⟩, fun hg => ?_⟩
      refine ⟨hg.sent, fun _ hex => ?_, hg.missed, fun p hp => hg.small p (List.mem_append_right _ hp)⟩
      have hkept := hg.kept (by rw [hw]; exact fun h => by cases h) hex
      rwa [hpending] at hkept
  | _ => rw [hw] at hs; cases hs

variable (Exhausted) in
theorem Flow.stopWriter (h : Flow Linked s r wire msgs held) (hs : s.stopWriter = some s') :
    Flow Linked s' r wire msgs held ∧ (GapFree Exhausted s r msgs held → GapFree Exhausted s' r msgs held) := by
  have hclosed : s' = { s with writer := .closed } ∧ s.writer.pending = [] := by
    unfold Endpoint.stopWriter at hs
    cases hw : s.writer with
    | waiting => rw [hw] at hs; cases hs; exact ⟨rfl, rfl⟩
    | writing rest => rw [hw] at hs; cases hs; exact ⟨rfl, rfl⟩
    | _ => rw [hw] at hs; cases hs
  obtain ⟨rfl, hpending⟩ := hclosed
  obtain ⟨rest, _, haligned⟩ := h.aligned
  have horder := h.order
  rw [hpending] at horder
  refine ⟨⟨h.linked, h.holds, ⟨rest, trivial, haligned⟩, h.fits, horder⟩, fun hg => ?_⟩
  exact ⟨hg.sent, fun hopen => absurd rfl hopen, hg.missed, fun p hp => hg.small p (List.mem_append_right _ hp)⟩

/-! ## Steps of the receiver -/

/-- What the receiver does with its writer does not concern its reader. -/
theorem Flow.receiver_frame (h : Flow Linked s r wire msgs held) (hr : r.SameReader r')
    (hlinked : Linked s.transport r'.transport msgs) : Flow Linked s r' wire msgs held where
  linked := hlinked
  holds := by rw [hr.reader]; exact h.holds
  aligned := by rw [hr.reader]; exact h.aligned
  fits := h.fits
  order := by rw [hr.incoming]; exact h.order

theorem GapFree.receiver_frame (h : GapFree Exhausted s r msgs held) (hi : r'.incoming = r.incoming) :
    GapFree Exhausted s r' msgs held where
  sent := by rw [hi]; exact h.sent
  kept := by rw [hi]; exact h.kept
  missed := h.missed
  small := h.small

theorem GapFree.moved {msgs' : List (Bytes × Bytes)} {held' : List Bytes} (h : GapFree Exhausted s r msgs held)
    (hsame : r'.incoming ++ held' ++ msgs'.map Prod.fst = r.incoming ++ held ++ msgs.map Prod.fst) :
    GapFree Exhausted s r' msgs' held' where
  sent := by rw [hsame]; exact h.sent
  kept := by rw [hsame]; exact h.kept
  missed := h.missed
  small := h.small

theorem Flow.read {b : UInt8} (h : Flow Linked s r (b :: wire) msgs held) (hr : r.read b = some r') :
    Flow Linked s r' wire msgs held ∧ (GapFree Exhausted s r msgs held → GapFree Exhausted s r' msgs held) := by
  unfold Endpoint.read at hr
  cases hreader : r.reader with
  | reading reading =>
    rw [hreader] at hr
    obtain ⟨rest, hrest, haligned⟩ := h.aligned
    rw [hreader] at haligned
    obtain ⟨hvalid, heq⟩ := haligned
    have hheld : held = [] := by
      have := h.holds
      rw [hreader] at this
      exact this
    cases msgs with
    | nil => simp at heq
    | cons m more =>
      have hlen : m.2.length ≤ maxFrame := h.fits m (by simp)
      rw [List.map_cons, List.flatMap_cons, List.cons_append] at heq
      rcases feed_frame (by decide) hvalid hlen heq with ⟨next, hfeed, hvalid', heq'⟩ | ⟨hfeed, heq'⟩
      · simp only [hfeed] at hr
        cases hr
        exact ⟨⟨h.linked, hheld, ⟨rest, hrest, hvalid', heq'⟩, h.fits, h.order⟩, fun hg => hg.receiver_frame rfl⟩
      · simp only [hfeed] at hr
        cases hr
        exact ⟨⟨h.linked, hheld, ⟨rest, hrest, more.map Prod.snd, rfl, heq'⟩, h.fits, h.order⟩,
          fun hg => hg.receiver_frame rfl⟩
  | _ => rw [hreader] at hr; cases hr

theorem Flow.decrypt (hN : NoiseLaws N Linked Exhausted) (h : Flow Linked s r wire msgs held)
    (hr : r.decrypt = some r') :
    ∃ msgs' held', Flow Linked s r' wire msgs' held' ∧
      (GapFree Exhausted s r msgs held → GapFree Exhausted s r' msgs' held') := by
  unfold Endpoint.decrypt at hr
  cases hreader : r.reader with
  | received ct =>
    rw [hreader] at hr
    obtain ⟨rest, hrest, haligned⟩ := h.aligned
    rw [hreader] at haligned
    obtain ⟨more, hcts, hstream⟩ := haligned
    have hheld : held = [] := by
      have := h.holds
      rw [hreader] at this
      exact this
    cases msgs with
    | nil => cases hcts
    | cons m msgs =>
      obtain ⟨payload, ct'⟩ := m
      obtain ⟨rfl, rfl⟩ := List.cons.inj hcts
      obtain ⟨transport, hread, hlinked⟩ := hN.read h.linked
      simp only [decryptFrame, hread] at hr
      cases hr
      have hsum : r.incoming ++ [payload] ++ msgs.map Prod.fst =
          r.incoming ++ held ++ ((payload, ct') :: msgs).map Prod.fst := by
        rw [hheld]
        simp
      refine ⟨msgs, [payload], ⟨hlinked, rfl, ⟨rest, hrest, hstream⟩, fun m hm => h.fits m (List.mem_cons_of_mem _ hm), ?_⟩,
        fun hg => hg.moved hsum⟩
      rw [hsum]
      exact h.order
  | _ => rw [hreader] at hr; cases hr

theorem Flow.send (h : Flow Linked s r wire msgs held) (hr : r.send = some r') :
    ∃ held', Flow Linked s r' wire msgs held' ∧
      (GapFree Exhausted s r msgs held → GapFree Exhausted s r' msgs held') := by
  unfold Endpoint.send at hr
  cases hreader : r.reader with
  | sending payload =>
    rw [hreader] at hr
    cases hr
    obtain ⟨rest, hrest, haligned⟩ := h.aligned
    rw [hreader] at haligned
    have hheld : held = [payload] := by
      have := h.holds
      rw [hreader] at this
      exact this
    have hsum : r.incoming ++ [payload] ++ [] ++ msgs.map Prod.fst = r.incoming ++ held ++ msgs.map Prod.fst := by
      rw [hheld]
      simp
    refine ⟨[], ⟨h.linked, rfl, ⟨rest, hrest, Nat.zero_lt_succ 3, haligned⟩, h.fits, ?_⟩, fun hg => hg.moved hsum⟩
    rw [hsum]
    exact h.order
  | _ => rw [hreader] at hr; cases hr

theorem Flow.stopReader (h : Flow Linked s r wire msgs held) (hr : r.stopReader = some r') :
    Flow Linked s r' wire msgs held ∧ (GapFree Exhausted s r msgs held → GapFree Exhausted s r' msgs held) := by
  have hclosed : r' = { r with reader := .closed } := by
    unfold Endpoint.stopReader at hr
    cases hreader : r.reader with
    | reading reading => rw [hreader] at hr; cases hr; rfl
    | sending payload => rw [hreader] at hr; cases hr; rfl
    | _ => rw [hreader] at hr; cases hr
  subst hclosed
  obtain ⟨rest, hrest, _⟩ := h.aligned
  exact ⟨⟨h.linked, trivial, ⟨rest, hrest, trivial⟩, h.fits, h.order⟩, fun hg => hg.receiver_frame rfl⟩

/-! ## Steps of a connection -/

theorem Flow.sender_act (hN : NoiseLaws N Linked Exhausted) (h : Flow Linked s r wire msgs held) {inbound : Bytes}
    {action : Action} {effect : Effect N} (ha : s.act inbound action = some effect) :
    ∃ msgs', Flow Linked effect.endpoint r (wire ++ effect.written) msgs' held ∧
      (s.Fits action → GapFree Exhausted s r msgs held → GapFree Exhausted effect.endpoint r msgs' held) := by
  -- an action that neither writes nor touches the writer
  have hframe : ∀ {e : Endpoint N}, s.SameWriter e → Linked e.transport r.transport msgs →
      (Exhausted s.transport → Exhausted e.transport) → ∃ msgs', Flow Linked e r (wire ++ []) msgs' held ∧
        (s.Fits action → GapFree Exhausted s r msgs held → GapFree Exhausted e r msgs' held) := by
    intro e hsame hlinked hex
    rw [List.append_nil]
    exact ⟨msgs, h.sender_frame hsame hlinked, fun _ hg => hg.sender_frame hsame hex⟩
  cases action with
  | broadcast payload =>
    cases ha
    obtain ⟨hflow, hgap⟩ := h.broadcast Exhausted payload
    exact ⟨msgs, by simpa using hflow, hgap⟩
  | recv =>
    obtain ⟨e, he, rfl⟩ := Option.map_eq_some_iff.mp ha
    obtain ⟨hflow, hgap⟩ := h.recv Exhausted he
    exact ⟨msgs, by simpa using hflow, fun _ => hgap⟩
  | encrypt =>
    obtain ⟨e, he, rfl⟩ := Option.map_eq_some_iff.mp ha
    obtain ⟨msgs', hflow, hgap⟩ := h.encrypt hN he
    exact ⟨msgs', by simpa using hflow, fun _ => hgap⟩
  | write =>
    obtain ⟨⟨e, written⟩, he, rfl⟩ := Option.map_eq_some_iff.mp ha
    obtain ⟨hflow, hgap⟩ := h.write Exhausted he
    exact ⟨msgs, hflow, fun _ => hgap⟩
  | stopWriter =>
    obtain ⟨e, he, rfl⟩ := Option.map_eq_some_iff.mp ha
    obtain ⟨hflow, hgap⟩ := h.stopWriter Exhausted he
    exact ⟨msgs, by simpa using hflow, fun _ => hgap⟩
  | read =>
    cases inbound with
    | nil => cases ha
    | cons b rest =>
      obtain ⟨e, he, rfl⟩ := Option.map_eq_some_iff.mp ha
      obtain ⟨hsame, htransport⟩ := Endpoint.read_frame he
      exact hframe hsame (htransport ▸ h.linked) fun hex => htransport ▸ hex
  | decrypt =>
    obtain ⟨e, he, rfl⟩ := Option.map_eq_some_iff.mp ha
    obtain ⟨hsame, htransport | ⟨payload, ct, hread⟩⟩ := Endpoint.decrypt_frame he
    · exact hframe hsame (htransport ▸ h.linked) fun hex => htransport ▸ hex
    · exact hframe hsame (hN.readBack h.linked hread) fun hex => hN.failsBack hex hread
  | send =>
    obtain ⟨e, he, rfl⟩ := Option.map_eq_some_iff.mp ha
    obtain ⟨hsame, htransport⟩ := Endpoint.send_frame he
    exact hframe hsame (htransport ▸ h.linked) fun hex => htransport ▸ hex
  | stopReader =>
    obtain ⟨e, he, rfl⟩ := Option.map_eq_some_iff.mp ha
    obtain ⟨hsame, htransport⟩ := Endpoint.stopReader_frame he
    exact hframe hsame (htransport ▸ h.linked) fun hex => htransport ▸ hex

theorem Flow.receiver_act (hN : NoiseLaws N Linked Exhausted) (h : Flow Linked s r wire msgs held) {action : Action}
    {effect : Effect N} (ha : r.act wire action = some effect) :
    ∃ msgs' held', Flow Linked s effect.endpoint effect.inbound msgs' held' ∧
      (GapFree Exhausted s r msgs held → GapFree Exhausted s effect.endpoint msgs' held') := by
  -- an action that neither reads nor touches the reader
  have hframe : ∀ {e : Endpoint N}, r.SameReader e → Linked s.transport e.transport msgs →
      ∃ msgs' held', Flow Linked s e wire msgs' held' ∧
        (GapFree Exhausted s r msgs held → GapFree Exhausted s e msgs' held') := by
    intro e hsame hlinked
    exact ⟨msgs, held, h.receiver_frame hsame hlinked, fun hg => hg.receiver_frame hsame.incoming⟩
  cases action with
  | broadcast payload =>
    cases ha
    obtain ⟨hsame, htransport⟩ := r.broadcast_frame payload
    exact hframe hsame (htransport ▸ h.linked)
  | recv =>
    obtain ⟨e, he, rfl⟩ := Option.map_eq_some_iff.mp ha
    obtain ⟨hsame, _, htransport⟩ := Endpoint.recv_frame he
    exact hframe hsame (htransport ▸ h.linked)
  | encrypt =>
    obtain ⟨e, he, rfl⟩ := Option.map_eq_some_iff.mp ha
    obtain ⟨hsame, _, htransport | ⟨payload, ct, hwrite⟩⟩ := Endpoint.encrypt_frame he
    · exact hframe hsame (htransport ▸ h.linked)
    · exact hframe hsame (hN.writeBack h.linked hwrite)
  | write =>
    obtain ⟨⟨e, written⟩, he, rfl⟩ := Option.map_eq_some_iff.mp ha
    obtain ⟨hsame, _, htransport⟩ := Endpoint.write_frame he
    exact hframe hsame (htransport ▸ h.linked)
  | stopWriter =>
    obtain ⟨e, he, rfl⟩ := Option.map_eq_some_iff.mp ha
    obtain ⟨hsame, _, htransport⟩ := Endpoint.stopWriter_frame he
    exact hframe hsame (htransport ▸ h.linked)
  | read =>
    cases wire with
    | nil => cases ha
    | cons b rest =>
      obtain ⟨e, he, rfl⟩ := Option.map_eq_some_iff.mp ha
      exact ⟨msgs, held, h.read he⟩
  | decrypt =>
    obtain ⟨e, he, rfl⟩ := Option.map_eq_some_iff.mp ha
    exact h.decrypt hN he
  | send =>
    obtain ⟨e, he, rfl⟩ := Option.map_eq_some_iff.mp ha
    exact ⟨msgs, h.send he⟩
  | stopReader =>
    obtain ⟨e, he, rfl⟩ := Option.map_eq_some_iff.mp ha
    exact ⟨msgs, held, h.stopReader he⟩

end

/-! ## Connections -/

def Connection.Flows (Linked : N.State → N.State → List (Bytes × Bytes) → Prop) (Exhausted : N.State → Prop)
    (side : Side) (gapFree : Prop) (conn : Connection N) : Prop :=
  ∃ msgs held, Flow Linked (conn.endpoint side) (conn.endpoint side.other) (conn.wire side) msgs held ∧
    (gapFree → GapFree Exhausted (conn.endpoint side) (conn.endpoint side.other) msgs held)

/-- A broadcast by `side` finds room in the queue and fits a frame. -/
def Connection.Fits (side : Side) (conn : Connection N) (event : Event) : Prop :=
  event.1 = side → (conn.endpoint side).Fits event.2

theorem Connection.new_flows {transport : Side → N.State}
    (hlinked : ∀ side, Linked (transport side) (transport side.other) [])
    (side : Side) (gapFree : Prop) : (Connection.new transport).Flows Linked Exhausted side gapFree := by
  refine ⟨[], [], ⟨hlinked side, rfl, ⟨[], rfl, Nat.zero_lt_succ 3, rfl⟩, by simp, List.Sublist.refl _⟩, fun _ => ?_⟩
  exact ⟨List.prefix_refl _, fun _ _ => rfl, rfl, by simp [new, Endpoint.new, Lossy.Queue.new, Writer.pending]⟩

theorem Connection.step_act {conn : Connection N} {actor : Side} {action : Action} {effect : Effect N}
    (ha : (conn.endpoint actor).act (conn.wire actor.other) action = some effect) :
    conn.step (actor, action) = .ok (conn.after actor effect) := by
  simp only [Connection.step, ha]

theorem Connection.step_flows (hN : NoiseLaws N Linked Exhausted) {side : Side} {gapFree : Prop}
    {conn conn' : Connection N}
    {event : Event} (h : conn.Flows Linked Exhausted side gapFree) (hfits : gapFree → conn.Fits side event)
    (hs : conn.step event = .ok conn') : conn'.Flows Linked Exhausted side gapFree := by
  obtain ⟨msgs, held, hflow, hgap⟩ := h
  obtain ⟨actor, action⟩ := event
  unfold Connection.step at hs
  dsimp only at hs
  cases ha : (conn.endpoint actor).act (conn.wire actor.other) action with
  | none => rw [ha] at hs; cases hs
  | some effect =>
    rw [ha] at hs
    cases hs
    by_cases hactor : actor = side
    · subst hactor
      obtain ⟨msgs', hflow', hgap'⟩ := hflow.sender_act hN ha
      refine ⟨msgs', held, ?_, fun hg => ?_⟩
      · simpa [Connection.after, Function.update_of_ne (Side.other_ne actor)] using hflow'
      · simpa [Connection.after, Function.update_of_ne (Side.other_ne actor)] using hgap' (hfits hg rfl) (hgap hg)
    · have hother : actor = side.other := by
        cases actor <;> cases side <;> first | rfl | exact absurd rfl hactor
      subst hother
      rw [Side.other_other] at ha
      obtain ⟨msgs', held', hflow', hgap'⟩ := hflow.receiver_act hN ha
      refine ⟨msgs', held', ?_, fun hg => ?_⟩
      · simpa [Connection.after, Function.update_of_ne (Side.other_ne side).symm] using hflow'
      · simpa [Connection.after, Function.update_of_ne (Side.other_ne side).symm] using hgap' (hgap hg)

/-! ## The log of broadcasts -/

def Action.payload : Action → Option Bytes
  | .broadcast payload => some payload
  | _ => none

def payloads (side : Side) (events : List Event) : List Bytes :=
  events.filterMap fun event => if event.1 = side then event.2.payload else none

theorem payloads_append (side : Side) (events more : List Event) :
    payloads side (events ++ more) = payloads side events ++ payloads side more := List.filterMap_append

theorem payloads_cons (side : Side) (event : Event) (events : List Event) :
    payloads side (event :: events) = payloads side [event] ++ payloads side events := payloads_append side [event] events

theorem payloads_other {side : Side} {event : Event} (h : event.1 ≠ side) : payloads side [event] = [] := by
  simp [payloads, h]

theorem payloads_self (side : Side) (action : Action) : payloads side [(side, action)] = action.payload.toList := by
  cases action <;> simp [payloads, Action.payload]

namespace Endpoint

variable {e : Endpoint N}

theorem broadcast_broadcasts (e : Endpoint N) (payload : Bytes) :
    (e.broadcast payload).broadcasts = e.broadcasts ++ [payload] := by
  unfold broadcast
  cases e.writer <;> rfl

theorem act_broadcasts {inbound : Bytes} {action : Action} {effect : Effect N}
    (h : e.act inbound action = some effect) : effect.endpoint.broadcasts = e.broadcasts ++ action.payload.toList := by
  cases action with
  | broadcast payload => cases h; exact e.broadcast_broadcasts payload
  | recv =>
    obtain ⟨e', he, rfl⟩ := Option.map_eq_some_iff.mp h
    simp [(recv_frame he).2.1, Action.payload]
  | encrypt =>
    obtain ⟨e', he, rfl⟩ := Option.map_eq_some_iff.mp h
    simp [(encrypt_frame he).2.1, Action.payload]
  | write =>
    obtain ⟨result, he, rfl⟩ := Option.map_eq_some_iff.mp h
    simp [(write_frame he).2.1, Action.payload]
  | stopWriter =>
    obtain ⟨e', he, rfl⟩ := Option.map_eq_some_iff.mp h
    simp [(stopWriter_frame he).2.1, Action.payload]
  | read =>
    cases inbound with
    | nil => cases h
    | cons b rest =>
      obtain ⟨e', he, rfl⟩ := Option.map_eq_some_iff.mp h
      simp [(read_frame he).1.broadcasts, Action.payload]
  | decrypt =>
    obtain ⟨e', he, rfl⟩ := Option.map_eq_some_iff.mp h
    simp [(decrypt_frame he).1.broadcasts, Action.payload]
  | send =>
    obtain ⟨e', he, rfl⟩ := Option.map_eq_some_iff.mp h
    simp [(send_frame he).1.broadcasts, Action.payload]
  | stopReader =>
    obtain ⟨e', he, rfl⟩ := Option.map_eq_some_iff.mp h
    simp [(stopReader_frame he).1.broadcasts, Action.payload]

theorem act_none {inbound : Bytes} {action : Action} (h : e.act inbound action = none) : action.payload = none := by
  cases action with
  | broadcast payload => cases h
  | _ => rfl

end Endpoint

namespace Connection

theorem feed_broadcasts (conn : Connection N) (event : Event) (side : Side) :
    ((Replay.feed step conn event).endpoint side).broadcasts =
      (conn.endpoint side).broadcasts ++ payloads side [event] := by
  obtain ⟨actor, action⟩ := event
  cases ha : (conn.endpoint actor).act (conn.wire actor.other) action with
  | none =>
    have hstep : conn.step (actor, action) = .error () := by simp only [step, ha]
    rw [feed_error hstep]
    by_cases hactor : actor = side
    · subst hactor
      rw [payloads_self, Endpoint.act_none ha]
      simp
    · rw [payloads_other hactor, List.append_nil]
  | some effect =>
    rw [feed_ok (step_act ha)]
    by_cases hactor : actor = side
    · subst hactor
      rw [payloads_self, ← Endpoint.act_broadcasts ha]
      simp [after]
    · rw [payloads_other hactor, List.append_nil]
      simp [after, Function.update_of_ne (Ne.symm hactor)]

theorem replay_broadcasts (conn : Connection N) (events : List Event) (side : Side) :
    ((replay step conn events).endpoint side).broadcasts = (conn.endpoint side).broadcasts ++ payloads side events := by
  induction events generalizing conn with
  | nil => simp [payloads]
  | cons event events ih => rw [replay_cons, ih, feed_broadcasts, payloads_cons side event events, List.append_assoc]

/-! ## Runs -/

/-- In any run what arrives is a sublist of what was broadcast. -/
theorem delivered_sublist (hN : NoiseLaws N Linked Exhausted) {transport : Side → N.State}
    (hlinked : ∀ side, Linked (transport side) (transport side.other) []) (side : Side) (events : List Event) :
    (((replay step (new transport) events).endpoint side.other).incoming).Sublist (payloads side events) := by
  have hflows : (replay step (new transport) events).Flows Linked Exhausted side False := by
    apply replay_invariant (P := fun conn => Flows Linked Exhausted side False conn) _ (new_flows hlinked side False)
    intro conn event conn' h hstep
    exact step_flows hN h (fun hf => hf.elim) hstep
  obtain ⟨msgs, held, hflow, _⟩ := hflows
  have hsub := hflow.order
  rw [replay_broadcasts] at hsub
  simp only [List.append_assoc] at hsub
  exact (List.sublist_append_left _ _).trans hsub

end Connection

end Sapphire.Mesh
