import Sapphire.Delivery

/-!
# Gaps

A payload too large for a frame fails to encrypt, and one too many for the queue
is overwritten: either way the writer goes on with the next. A connection whose
broadcasts avoid both delivers a prefix of them.
-/

namespace Sapphire

open Replay Framing

/-! ## An ideal transport -/

namespace Ideal

/-- Sixteen bytes, with the nonce in the first four. -/
def tag (nonce : Nat) : Bytes := toBeBytes (UInt32.ofNat nonce) ++ List.replicate 12 0

/-- The state holds the nonces of the next message out and in. -/
def noise : Noise where
  State := Nat × Nat
  writeMessage := fun (sent, received) payload =>
    if Mesh.maxPayload < payload.length then .error "input error"
    else if 2 ^ 64 - 1 ≤ sent then .error "state error: Exhausted"
    else .ok (payload ++ tag sent, (sent + 1, received))
  readMessage := fun (sent, received) ciphertext =>
    if ciphertext.drop (ciphertext.length - 16) = tag received then
      .ok (ciphertext.take (ciphertext.length - 16), (sent, received + 1))
    else .error "decrypt error"

def Numbered : Nat → List (Bytes × Bytes) → Prop
  | _, [] => True
  | n, (payload, ct) :: msgs => ct = payload ++ tag n ∧ Numbered (n + 1) msgs

def Linked (a b : noise.State) (msgs : List (Bytes × Bytes)) : Prop :=
  a.1 = b.2 + msgs.length ∧ Numbered b.2 msgs

def Exhausted (a : noise.State) : Prop := 2 ^ 64 - 1 ≤ a.1

theorem tag_length (nonce : Nat) : (tag nonce).length = 16 := by simp [tag, toBeBytes]

theorem Numbered.append {n : Nat} {msgs : List (Bytes × Bytes)} (h : Numbered n msgs) (payload : Bytes) :
    Numbered n (msgs ++ [(payload, payload ++ tag (n + msgs.length))]) := by
  induction msgs generalizing n with
  | nil => exact ⟨rfl, trivial⟩
  | cons m msgs ih =>
    obtain ⟨hm, hmsgs⟩ := h
    refine ⟨hm, ?_⟩
    rw [List.length_cons, show n + (msgs.length + 1) = n + 1 + msgs.length by omega]
    exact ih hmsgs

theorem noise_write {a a' : noise.State} {payload ct : Bytes} (h : noise.writeMessage a payload = .ok (ct, a')) :
    ct = payload ++ tag a.1 ∧ a' = (a.1 + 1, a.2) := by
  simp only [noise] at h
  split at h
  · cases h
  · split at h
    · cases h
    · cases h
      exact ⟨rfl, rfl⟩

theorem noise_read {a a' : noise.State} {payload ct : Bytes} (h : noise.readMessage a ct = .ok (payload, a')) :
    a' = (a.1, a.2 + 1) := by
  simp only [noise] at h
  split at h
  · cases h
    rfl
  · cases h

theorem noise_laws : Mesh.NoiseLaws noise Linked Exhausted where
  write := by
    intro a b msgs payload ct a' h hw
    obtain ⟨rfl, rfl⟩ := noise_write hw
    obtain ⟨hsent, hnumbered⟩ := h
    refine ⟨by rw [List.length_append, tag_length], ?_, ?_⟩
    · simp only [List.length_append, List.length_singleton]
      omega
    · rw [hsent]
      exact hnumbered.append payload
  read := by
    intro a b payload ct msgs h
    obtain ⟨hsent, hct, hnumbered⟩ := h
    subst hct
    have hlen : (payload ++ tag b.2).length - 16 = payload.length := by
      rw [List.length_append, tag_length]
      omega
    refine ⟨(b.1, b.2 + 1), ?_, ?_, hnumbered⟩
    · simp only [noise, hlen, List.drop_left, List.take_left, if_true]
    · rw [List.length_cons] at hsent
      change a.1 = b.2 + 1 + msgs.length
      omega
  writeBack := by
    intro a b msgs payload ct b' h hw
    obtain ⟨_, rfl⟩ := noise_write hw
    exact h
  readBack := by
    intro a b msgs payload ct a' h hr
    rw [noise_read hr]
    exact h
  exhausted := by
    intro a payload e h hlen
    simp only [noise] at h
    rw [if_neg (not_lt.mpr hlen)] at h
    split at h
    · rename_i hsent
      exact hsent
    · cases h
  fails := by
    intro a hex payload
    by_cases hlen : Mesh.maxPayload < payload.length
    · exact ⟨_, if_pos hlen⟩
    · refine ⟨"state error: Exhausted", ?_⟩
      simp only [noise]
      rw [if_neg hlen]
      exact if_pos hex
  failsBack := by
    intro a payload ct a' hex hr
    rw [noise_read hr]
    exact hex

def start (_ : Mesh.Side) : noise.State := (0, 0)

theorem start_linked (side : Mesh.Side) : Linked (start side) (start side.other) [] := ⟨rfl, trivial⟩

end Ideal

namespace Mesh

variable {N : Noise} {Linked : N.State → N.State → List (Bytes × Bytes) → Prop} {Exhausted : N.State → Prop}

/-! ## A payload that fits goes through -/

namespace Connection

/-- A connection seen from `side`: its endpoint and the other, what it has sent and what it is to read. -/
def pair (side : Side) (s r : Endpoint N) (wire back : Bytes) : Connection N :=
  { endpoint := fun here => if here = side then s else r, wire := fun here => if here = side then wire else back }

theorem new_pair (transport : Side → N.State) (side : Side) :
    Connection.new transport = pair side (.new (transport side)) (.new (transport side.other)) [] [] := by
  simp only [new, pair, mk.injEq]
  constructor
  · funext here
    cases side <;> cases here <;> rfl
  · funext here
    simp

variable {side : Side} {s s' r r' : Endpoint N} {wire back left written : Bytes} {action : Action}

theorem feed_sender (ha : s.act back action = some ⟨s', left, written⟩) :
    Replay.feed step (pair side s r wire back) (side, action) = pair side s' r (wire ++ written) left := by
  have hact : ((pair side s r wire back).endpoint side).act ((pair side s r wire back).wire side.other) action =
      some ⟨s', left, written⟩ := by
    simpa [pair, side.other_ne] using ha
  rw [feed_ok (step_act hact)]
  simp only [pair, after, mk.injEq]
  constructor
  · funext here
    by_cases h : here = side <;> simp [h]
  · funext here
    cases side <;> cases here <;> simp [Side.other, Function.update]

theorem feed_receiver (ha : r.act wire action = some ⟨r', left, written⟩) :
    Replay.feed step (pair side s r wire back) (side.other, action) = pair side s r' left (back ++ written) := by
  have hact : ((pair side s r wire back).endpoint side.other).act ((pair side s r wire back).wire side.other.other) action =
      some ⟨r', left, written⟩ := by
    simpa [pair, side.other_ne] using ha
  rw [feed_ok (step_act hact)]
  simp only [pair, after, mk.injEq]
  constructor
  · funext here
    cases side <;> cases here <;> simp [Side.other, Function.update]
  · funext here
    cases side <;> cases here <;> simp [Side.other, Function.update]

theorem replay_write {rest : Bytes} (hs : s.writer = .writing rest) :
    replay step (pair side s r wire back) (List.replicate rest.length (side, .write)) =
      pair side { s with writer := .writing [] } r (wire ++ rest) back := by
  induction rest generalizing s wire with
  | nil =>
    rw [List.append_nil, ← hs]
    rfl
  | cons b rest ih =>
    have hact : s.act back .write = some ⟨{ s with writer := .writing rest }, back, [b]⟩ := by
      simp only [Endpoint.act, Endpoint.write, hs, Option.map_some]
    rw [List.length_cons, List.replicate_succ, replay_cons, feed_sender hact]
    have hrest : replay step (pair side { s with writer := .writing rest } r (wire ++ [b]) back)
        (List.replicate rest.length (side, .write)) =
          pair side { s with writer := .writing [] } r (wire ++ [b] ++ rest) back :=
      ih rfl
    rw [hrest, List.append_assoc]
    rfl

theorem replay_read {ct : Bytes} (hct : ct.length ≤ maxFrame) {reading : Reading} (hr : r.reader = .reading reading)
    (hvalid : reading.Valid maxFrame) (hne : wire ≠ []) (hbytes : reading.bytes ++ wire = frame ct) :
    replay step (pair side s r wire back) (List.replicate wire.length (side.other, .read)) =
      pair side s { r with reader := .received ct } [] back := by
  induction wire generalizing r reading with
  | nil => exact absurd rfl hne
  | cons b wire ih =>
    have hframe : reading.bytes ++ b :: wire = frame ct ++ [] := by rw [hbytes, List.append_nil]
    rw [List.length_cons, List.replicate_succ, replay_cons]
    rcases feed_frame (by decide) hvalid hct hframe with ⟨next, hfeed, hvalid', hbytes'⟩ | ⟨hfeed, rfl⟩
    · have hact : r.act (b :: wire) .read = some ⟨{ r with reader := .reading next }, wire, []⟩ := by
        simp only [Endpoint.act, Endpoint.read, hr, hfeed, Option.map_some]
      rw [feed_receiver hact, List.append_nil]
      rw [List.append_nil] at hbytes'
      apply ih rfl hvalid' _ hbytes'
      rintro rfl
      rw [List.append_nil] at hbytes'
      exact hvalid'.unfinished (by decide) hct hbytes'
    · have hact : r.act [b] .read = some ⟨{ r with reader := .received ct }, [], []⟩ := by
        simp only [Endpoint.act, Endpoint.read, hr, hfeed, Option.map_some]
      rw [feed_receiver hact, List.append_nil]
      rfl

end Connection

/-- The writer of `side` takes a payload of `len` bytes from its queue to the other side. -/
def pass (side : Side) (len : Nat) : List Event :=
  [(side, Action.recv), (side, Action.encrypt)] ++ List.replicate (len + 20) (side, Action.write) ++ [(side, Action.write)] ++
    List.replicate (len + 20) (side.other, Action.read) ++ [(side.other, Action.decrypt), (side.other, Action.send)]

theorem pass_silent (side : Side) (len : Nat) : payloads side (pass side len) = [] := by
  simp [payloads, pass, Action.payload]

theorem pass_delivers {side : Side} {s r : Endpoint N} {back payload ct : Bytes} {rest : List Bytes} {t t' : N.State}
    (hw : s.writer = .waiting) (hq : s.outgoing = ⟨payload :: rest, 0⟩) (hr : r.reader = .reading (.header []))
    (henc : encryptFrame s.transport payload = .ok (ct, t)) (hct : ct.length = payload.length + 16)
    (hdec : decryptFrame r.transport ct = .ok (payload, t')) :
    replay Connection.step (.pair side s r [] back) (pass side payload.length) =
      .pair side { s with transport := t, outgoing := ⟨rest, 0⟩ }
        { r with transport := t', incoming := r.incoming ++ [payload] }
        [] back := by
  have hmax : ct.length ≤ maxFrame := by
    rw [hct]
    exact Nat.add_le_add_right (encryptFrame_ok henc).1 16
  have hframe : (frame ct).length = payload.length + 20 := by
    simp only [frame, toBeBytes, List.length_append, List.length_cons, List.length_nil]
    omega
  -- the endpoints between the steps
  let s₁ : Endpoint N := { s with outgoing := ⟨rest, 0⟩, writer := .encrypting payload }
  let s₂ : Endpoint N := { s₁ with transport := t, writer := .writing (frame ct) }
  let s₃ : Endpoint N := { s₂ with writer := .writing [] }
  let s₄ : Endpoint N := { s₃ with writer := .waiting }
  let r₁ : Endpoint N := { r with reader := .received ct }
  let r₂ : Endpoint N := { r₁ with transport := t', reader := .sending payload }
  have hrecv : s.act back .recv = some ⟨s₁, back, []⟩ := by
    simp only [Endpoint.act, Endpoint.recv, hw, hq]
    rfl
  have hencrypt : s₁.act back .encrypt = some ⟨s₂, back, []⟩ := by
    simp only [Endpoint.act, Endpoint.encrypt, s₁, henc, Option.map_some]
    rfl
  have hlast : s₃.act back .write = some ⟨s₄, back, []⟩ := rfl
  have hdecrypt : r₁.act [] .decrypt = some ⟨r₂, [], []⟩ := by
    simp only [Endpoint.act, Endpoint.decrypt, r₁, hdec, Option.map_some]
    rfl
  have hsend : r₂.act [] .send = some ⟨{ r₂ with incoming := r.incoming ++ [payload], reader := .reading (.header []) }, [], []⟩ := rfl
  have hreads : replay Connection.step (.pair side s₄ r (frame ct) back)
      (List.replicate (frame ct).length (side.other, .read)) = .pair side s₄ r₁ [] back := by
    apply Connection.replay_read hmax hr (Nat.zero_lt_succ 3) _ rfl
    simp
  unfold pass
  simp only [replay_append, replay_cons, replay_nil, ← hframe]
  rw [Connection.feed_sender hrecv, Connection.feed_sender hencrypt, List.append_nil, List.append_nil]
  rw [Connection.replay_write (s := s₂) rfl, Connection.feed_sender hlast, List.append_nil, List.nil_append]
  rw [hreads, Connection.feed_receiver hdecrypt, Connection.feed_receiver hsend, List.append_nil, List.append_nil]
  congr 1
  · simp only [s₄, s₃, s₂, s₁, hw]
  · simp only [r₂, r₁, hr]

theorem pass_incoming (side : Side) (s r : Endpoint N) (back payload ct : Bytes) {rest : List Bytes}
    {t t' : N.State} (hw : s.writer = .waiting) (hq : s.outgoing = ⟨payload :: rest, 0⟩)
    (hr : r.reader = .reading (.header [])) (henc : encryptFrame s.transport payload = .ok (ct, t))
    (hct : ct.length = payload.length + 16) (hdec : decryptFrame r.transport ct = .ok (payload, t')) :
    ((replay Connection.step (.pair side s r [] back) (pass side payload.length)).endpoint side.other).incoming =
      r.incoming ++ [payload] := by
  rw [pass_delivers hw hq hr henc hct hdec]
  simp [Connection.pair, side.other_ne]

/-! ## Runs without gaps -/

theorem silent_fits {side : Side} {conn : Connection N} {events : List Event} (h : payloads side events = []) :
    EachStep Connection.step (Connection.Fits side) conn events := by
  induction events generalizing conn with
  | nil => trivial
  | cons event events ih =>
    rw [payloads_cons] at h
    obtain ⟨hevent, hevents⟩ := List.append_eq_nil_iff.mp h
    refine ⟨fun _ _ => ?_, ih hevents⟩
    obtain ⟨actor, action⟩ := event
    intro hactor
    change actor = side at hactor
    subst hactor
    rw [payloads_self] at hevent
    cases action with
    | broadcast payload => cases hevent
    | _ => trivial

/-- Gap-free delivery, where each broadcast of a running writer finds room in its queue and fits a frame. -/
theorem delivered_prefix (hN : NoiseLaws N Linked Exhausted) (transport : Side → N.State)
    (hlinked : ∀ side, Linked (transport side) (transport side.other) []) (side : Side) {pre post : List Event}
    (hfits : EachStep Connection.step (Connection.Fits side) (Connection.new transport) (pre ++ post)) :
    ((replay Connection.step (Connection.new transport) pre).endpoint side.other).incoming <+: payloads side pre := by
  have hflows : (replay Connection.step (Connection.new transport) pre).Flows Linked Exhausted side True := by
    apply hfits.invariant (P := fun conn => Connection.Flows Linked Exhausted side True conn) _
      (Connection.new_flows hlinked side True)
    intro conn event conn' h hfit hstep
    exact Connection.step_flows hN h (fun _ => hfit) hstep
  obtain ⟨msgs, held, _, hgap⟩ := hflows
  have hsent := (hgap trivial).sent
  rw [Connection.replay_broadcasts, List.append_assoc] at hsent
  exact (List.prefix_append _ _).trans hsent

def Endpoint.queued (queue : List Bytes) (broadcasts : List Bytes) : Endpoint Ideal.noise :=
  { Endpoint.new (Ideal.start .initiator) with outgoing := ⟨queue, 0⟩, broadcasts }

/-- One payload, and the steps that deliver it. -/
def sevenRun : List Event := (.initiator, .broadcast [7]) :: pass .initiator 1

theorem delivered_prefix_seven :
    ((replay Connection.step (.new Ideal.start) sevenRun).endpoint (.other .initiator)).incoming = [[7]] ∧
      ((replay Connection.step (.new Ideal.start) sevenRun).endpoint (.other .initiator)).incoming <+:
        payloads .initiator sevenRun := by
  constructor
  · have hbroadcast : (Endpoint.new (Ideal.start .initiator)).act [] (.broadcast [7]) =
        some ⟨Endpoint.queued [[7]] [[7]], [], []⟩ := rfl
    unfold sevenRun
    rw [Connection.new_pair Ideal.start .initiator, replay_cons, Connection.feed_sender hbroadcast]
    have hpass := pass_incoming .initiator (.queued [[7]] [[7]]) (.new (Ideal.start (.other .initiator)))
      [] [7] ([7] ++ Ideal.tag 0)
      rfl rfl rfl rfl rfl rfl
    simp only [List.append_nil, List.length_singleton] at hpass ⊢
    exact hpass
  · have hfits : EachStep Connection.step (Connection.Fits .initiator) (Connection.new Ideal.start) (sevenRun ++ []) := by
      rw [List.append_nil, sevenRun, EachStep]
      have hsilent : payloads .initiator (pass .initiator 1) = [] := rfl
      exact ⟨fun _ _ _ _ => ⟨by decide, by decide⟩, silent_fits hsilent⟩
    exact delivered_prefix Ideal.noise_laws Ideal.start Ideal.start_linked .initiator hfits

/-! ## A payload skipped -/

/-- The writer drops a payload too large for a frame, and goes on. -/
theorem Endpoint.encrypt_oversize {e : Endpoint N} {payload : Bytes} (hw : e.writer = .encrypting payload)
    (h : maxPayload < payload.length) : e.encrypt = some { e with writer := .waiting } := by
  unfold encrypt encryptFrame
  rw [hw]
  simp only [if_pos h]

/-- A payload and then another are broadcast, and the writer takes the first. -/
def dropRun (payload next : Bytes) : List Event :=
  [(.initiator, .broadcast payload), (.initiator, .broadcast next), (.initiator, .recv), (.initiator, .encrypt)]

theorem dropRun_queued {payload : Bytes} (h : maxPayload < payload.length) (next : Bytes) :
    replay Connection.step (.new Ideal.start) (dropRun payload next) =
      .pair .initiator (.queued [next] [payload, next]) (.new (Ideal.start (.other .initiator))) [] [] := by
  let holding : Endpoint Ideal.noise := { Endpoint.queued [next] [payload, next] with writer := .encrypting payload }
  have hfirst : (Endpoint.new (Ideal.start .initiator)).act [] (.broadcast payload) =
      some ⟨Endpoint.queued [payload] [payload], [], []⟩ := rfl
  have hsecond : (Endpoint.queued [payload] [payload]).act [] (.broadcast next) =
      some ⟨Endpoint.queued [payload, next] [payload, next], [], []⟩ := rfl
  have hrecv : (Endpoint.queued [payload, next] [payload, next]).act [] .recv = some ⟨holding, [], []⟩ := rfl
  have hskip : holding.act [] .encrypt = some ⟨Endpoint.queued [next] [payload, next], [], []⟩ := by
    simp only [Endpoint.act, Endpoint.encrypt_oversize (e := holding) rfl h, Option.map_some]
    rfl
  unfold dropRun
  rw [Connection.new_pair Ideal.start .initiator, replay_cons, Connection.feed_sender hfirst, replay_cons,
    Connection.feed_sender hsecond, replay_cons, Connection.feed_sender hrecv, replay_cons, Connection.feed_sender hskip,
    replay_nil]
  rfl

def oversize : Bytes := List.replicate (maxPayload + 1) 0

theorem oversize_length : oversize.length = maxPayload + 1 := List.length_replicate

def skipRun : List Event := dropRun oversize [3] ++ pass .initiator 1

theorem skipRun_payloads : payloads .initiator skipRun = [oversize, [3]] := by
  have hdrop : payloads .initiator (dropRun oversize [3]) = [oversize, [3]] := rfl
  rw [skipRun, payloads_append, hdrop, pass_silent, List.append_nil]

theorem skipRun_incoming :
    ((replay Connection.step (.new Ideal.start) skipRun).endpoint (.other .initiator)).incoming = [[3]] := by
  have hlong : maxPayload < oversize.length := by
    rw [oversize_length]
    exact Nat.lt_succ_self _
  have hpass := pass_incoming .initiator (.queued [[3]] [oversize, [3]]) (.new (Ideal.start (.other .initiator))) [] [3]
    ([3] ++ Ideal.tag 0) rfl rfl rfl rfl rfl rfl
  simp only [List.length_singleton] at hpass
  rw [skipRun, replay_append, dropRun_queued hlong]
  exact hpass

theorem delivered_prefix_fails :
    ¬ ((replay Connection.step (.new Ideal.start) skipRun).endpoint (.other .initiator)).incoming <+:
      payloads .initiator skipRun := by
  rw [skipRun_payloads, skipRun_incoming, List.cons_prefix_cons]
  intro h
  have hlen := congrArg List.length h.1
  rw [oversize_length] at hlen
  cases hlen

end Mesh

end Sapphire
