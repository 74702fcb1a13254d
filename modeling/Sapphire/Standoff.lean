import Sapphire.Handover

/-!
# The handshake ends

Two sides that both wait would each wait for what the other has written: of two
places in one exchange, the earlier waits for a message that the later has
behind it. So as long as streams do not fail one side can always go on, and
every step leaves less to do.
-/

namespace Sapphire.Mesh

open Replay Framing

variable {N : Noise} {H : Handshake N}

section
variable {Linked : N.State → N.State → List (Bytes × Bytes) → Prop} {Exhausted : N.State → Prop}
  {publicOf : Vector UInt8 32 → StaticKey}

/-! ## Standoffs -/

theorem framesOf_append (side : Side) (messages more : List (Side × Bytes)) :
    framesOf side (messages ++ more) = framesOf side messages ++ framesOf side more := by
  induction messages with
  | nil => rfl
  | cons m messages ih => simp only [List.cons_append, framesOf, ih, List.append_assoc]

theorem framesOf_length_le (side : Side) {left messages : List (Side × Bytes)} (h : left <:+ messages) :
    (framesOf side left).length ≤ (framesOf side messages).length := by
  obtain ⟨pre, rfl⟩ := h
  rw [framesOf_append, List.length_append]
  exact Nat.le_add_left _ _

/-- Two sides that both wait for a message, with nothing on the wire: the one
that is further on has written what the other waits for. -/
theorem no_standoff {side : Side} {messages left left' : List (Side × Bytes)} {message message' : Bytes}
    (hleft : (side.other, message) :: left <:+ messages) (hleft' : (side, message') :: left' <:+ messages)
    {r r' : Reading}
    {toRead toRead' : Bytes} (hbytes : r.bytes ++ toRead = frame message ++ framesOf side.other left)
    (hbytes' : r'.bytes ++ toRead' = frame message' ++ framesOf side left')
    (hlt : r.bytes.length < (frame message).length) (hlt' : r'.bytes.length < (frame message').length)
    (hempty : framesOf side left = toRead') (hempty' : framesOf side.other left' = toRead) : False := by
  have hlen := congrArg List.length hbytes
  have hlen' := congrArg List.length hbytes'
  have hsame := congrArg List.length hempty
  have hsame' := congrArg List.length hempty'
  simp only [List.length_append] at hlen hlen'
  rcases List.suffix_or_suffix_of_suffix hleft hleft' with hbehind | hbehind
  · rcases List.suffix_cons_iff.mp hbehind with heq | hbehind
    · exact side.other_ne (congrArg Prod.fst (List.cons.inj heq).1)
    · have hle := framesOf_length_le side ((List.suffix_cons _ _).trans hbehind)
      omega
  · rcases List.suffix_cons_iff.mp hbehind with heq | hbehind
    · exact side.other_ne (congrArg Prod.fst (List.cons.inj heq).1).symm
    · have hle := framesOf_length_le side.other ((List.suffix_cons _ _).trans hbehind)
      omega

theorem Peer.shake_none {p : Party} {side : Side} {inbound : Bytes} {hs : Shaking H} {outgoing : Lossy.Queue Bytes}
    {log : List Bytes} (h : Peer.shake p side inbound hs outgoing log = none) :
    (∃ r, hs.stage = .reading r) ∧ inbound = [] := by
  unfold Peer.shake at h
  cases hstage : hs.stage with
  | idle =>
    rw [hstage] at h
    cases hturns : hs.turns with
    | nil => simp [hturns] at h
    | cons turn turns => cases turn <;> simp [hturns] at h
  | writing rest => rw [hstage] at h; cases rest <;> cases h
  | reading r =>
    rw [hstage] at h
    cases inbound with
    | nil => exact ⟨⟨r, rfl⟩, rfl⟩
    | cons b inbound => cases h

section
variable {course : Course H} {state : Side → H.State} {channel : Channel H} {conn : Connection N}
  {unwritten toRead : Side → Bytes}

/-- A side that cannot go on waits for a message, of which nothing is on the wire. -/
theorem Channel.Matches.waits (hA : course.Agreed Linked state)
    (h : channel.Matches Linked Exhausted course conn unwritten toRead) {side : Side} {hs : Shaking H}
    {outgoing : Lossy.Queue Bytes} {log : List Bytes} (hp : channel.peer side = .shaking hs outgoing log)
    (hnone : Peer.shake (course.party side) side (channel.wire side.other) hs outgoing log = none) :
    channel.wire side.other = [] ∧ conn.wire side = [] ∧ ∃ (message : Bytes) (left : List (Side × Bytes)) (r : Reading),
      (side.other, message) :: left <:+ course.messages ∧ r.bytes.length < (frame message).length ∧
        r.bytes ++ toRead side = frame message ++ framesOf side.other left ∧ unwritten side = framesOf side left := by
  have hpeer := h.peers side
  rw [hp] at hpeer
  obtain ⟨_, hsent, hst⟩ := hpeer.of_shaking
  obtain ⟨⟨r, hstage⟩, hwire⟩ := Peer.shake_none hnone
  refine ⟨hwire, hsent, ?_⟩
  generalize toRead side = t at hst ⊢
  generalize unwritten side = u at hst ⊢
  cases hst with
  | reading hleft hfollows hvalid hbytes =>
    exact ⟨_, _, _, hleft, unfinished_length hvalid (hA.short_of_suffix hleft) hbytes, hbytes, rfl⟩
  | _ => cases hstage

/-- Each side is connected if it serves the other, and has closed the stream if not. -/
def Channel.Concluded (party : Side → Party) (key : Side → StaticKey) (channel : Channel H) : Prop :=
  ∀ side, (channel.peer side).outcome = some (((party side).serve side (key side.other)).mapError Ended.mesh)

theorem Channel.Matches.concluded (h : channel.Matches Linked Exhausted course conn unwritten toRead)
    (hfails : ¬ course.fails) (hover : ∀ side hs outgoing log, channel.peer side ≠ .shaking hs outgoing log) :
    channel.Concluded course.party course.key := by
  intro side
  have hpeer := h.peers side
  cases hp : channel.peer side with
  | shaking hs outgoing log => exact absurd hp (hover side hs outgoing log)
  | connected driven e =>
    rw [hp] at hpeer
    obtain ⟨_, _, _, hserve⟩ := hpeer.of_connected
    rw [hserve]
    rfl
  | closed reason log =>
    rw [hp] at hpeer
    obtain ⟨_, ⟨e, rfl, hserve, _⟩ | hf⟩ := hpeer.of_closed
    · rw [hserve]
      rfl
    · exact absurd hf hfails

/-- Of two sides of which one still shakes, one can go on. -/
theorem Channel.Matches.goes_on (hA : course.Agreed Linked state)
    (h : channel.Matches Linked Exhausted course conn unwritten toRead) (hfails : ¬ course.fails) {side : Side}
    {hs : Shaking H} {outgoing : Lossy.Queue Bytes} {log : List Bytes}
    (hp : channel.peer side = .shaking hs outgoing log) :
    ∃ here channel', channel.step course.party (here, .shake) = .ok channel' := by
  cases hstep : Peer.shake (course.party side) side (channel.wire side.other) hs outgoing log with
  | some effect => exact ⟨side, _, Channel.step_some (by rw [hp]; exact hstep)⟩
  | none =>
    obtain ⟨hwire, hsent, message, left, r, hleft, hlt, hbytes, hunwritten⟩ := h.waits hA hp hstep
    have hback := h.wires side.other
    rw [Side.other_other, hwire, List.nil_append] at hback
    -- what this side waits for the other has yet to write
    cases hother : channel.peer side.other with
    | shaking hs' outgoing' log' =>
      cases hstep' : Peer.shake (course.party side.other) side.other (channel.wire side.other.other) hs' outgoing' log' with
      | some effect => exact ⟨side.other, _, Channel.step_some (by rw [hother]; exact hstep')⟩
      | none =>
        obtain ⟨hwire', hsent', message', left', r', hleft', hlt', hbytes', hunwritten'⟩ := h.waits hA hother hstep'
        simp only [Side.other_other] at hwire' hleft' hbytes'
        have hout := h.wires side
        rw [hwire', List.nil_append, hsent, List.append_nil, hunwritten] at hout
        rw [hsent', List.append_nil, hunwritten'] at hback
        exact (no_standoff hleft hleft' hbytes hbytes' hlt hlt' hout hback).elim
    | _ =>
      have hnone : unwritten side.other = [] := by
        have hpeer := h.peers side.other
        rw [hother] at hpeer
        first
        | exact hpeer.of_connected.2.1
        | obtain ⟨_, ⟨_, _, _, hu, _⟩ | hf⟩ := hpeer.of_closed
          · exact hu
          · exact absurd hf hfails
      rw [hnone] at hback
      have hread : toRead side = [] := (List.append_eq_nil_iff.mp hback.symm).1
      rw [hread, List.append_nil] at hbytes
      rw [hbytes, List.length_append] at hlt
      omega

end

/-- The steps left, of both sides. -/
def Channel.todo (channel : Channel H) : Nat :=
  (channel.peer .initiator).todo + (channel.peer .responder).todo + (channel.wire .initiator).length +
    (channel.wire .responder).length

theorem Channel.Matches.progress {course : Course H} {state : Side → H.State} {channel channel' : Channel H}
    {conn : Connection N} {unwritten toRead : Side → Bytes} (hA : course.Agreed Linked state)
    (h : channel.Matches Linked Exhausted course conn unwritten toRead) {side : Side}
    (hs : channel.step course.party (side, .shake) = .ok channel') : channel'.todo < channel.todo := by
  have hback := h.wires side.other
  rw [Side.other_other] at hback
  have hpeer := h.peers side
  cases hp : channel.peer side with
  | shaking hs' outgoing log =>
    cases hstep : Peer.shake (course.party side) side (channel.wire side.other) hs' outgoing log with
    | some effect =>
      have hstep' : (channel.peer side).step (course.party side) side (channel.wire side.other) .shake = some effect := by
        rw [hp]
        exact hstep
      obtain rfl := Except.ok.inj ((Channel.step_some hstep').symm.trans hs)
      rw [hp] at hpeer
      obtain ⟨_, _, hst⟩ := hpeer.of_shaking
      obtain ⟨_, hlt⟩ := hst.shake hA hback hstep
      rw [← hp] at hlt
      simp only [Channel.todo, Channel.after]
      cases side <;> simp [Side.other, Function.update] at hlt ⊢ <;> omega
    | none =>
      rw [Channel.step_none (by rw [hp]; exact hstep)] at hs
      cases hs
  | _ =>
    rw [Channel.step_none (by rw [hp]; rfl)] at hs
    cases hs

/-- What holds of a handshake whose streams do not fail. -/
structure Channel.NeverStuck (party : Side → Party) (key : Side → StaticKey) (channel : Channel H) : Prop where
  noError : ∀ side e log, channel.peer side ≠ .closed (.io e) log
  quiet : (∀ side, channel.step party (side, .shake) = .error ()) → channel.Concluded party key
  concludes : ∃ sides : List Side,
    (replay (fun (channel : Channel H) side => channel.step party (side, .shake)) channel sides).Concluded party key

/-- **No deadlock.** Where streams do not fail, the handshake never comes to an
error or to a halt; it ends with each side connected if and only if it serves the
other, whatever is broadcast or sent in the meantime. -/
theorem handshake_never_stuck (hN : NoiseLaws N Linked Exhausted) (hH : HandshakeLaws H publicOf Linked)
    (party : Side → Party) (entropy : Side → H.Entropy) {events : List (Side × PeerAction)}
    (hevents : ∀ event ∈ events, ∀ e, event.2 ≠ .fail e) :
    (Channel.run party entropy events).NeverStuck party fun side => publicOf (party side).localStaticSecret := by
  obtain ⟨course, state, rfl, hkey, hfails, hgap, hA, hstart⟩ :=
    hH.begins Exhausted party entropy False fun _ => False
  have hsafe : ¬ course.fails := by rw [hfails]; exact id
  let Good (channel : Channel H) : Prop := ∃ conn u t, channel.Matches Linked Exhausted course conn u t
  have hstep : ∀ (channel : Channel H) event channel', Good channel → (∀ e, event.2 ≠ .fail e) →
      channel.step course.party event = .ok channel' → Good channel' := by
    rintro channel event channel' ⟨conn, u, t, h⟩ hfail hs
    refine h.step hN hA (fun e he => absurd he (hfail e)) ?_ hs
    rw [hgap]
    exact False.elim
  have hrun : Good (Channel.run course.party entropy events) := replay_invariant_of hstep hstart hevents
  have hover : ∀ channel : Channel H, Good channel → ¬ channel.Concluded course.party course.key →
      ∃ side channel', channel.step course.party (side, .shake) = .ok channel' := by
    rintro channel ⟨conn, u, t, h⟩ hnot
    by_contra hstuck
    apply hnot
    apply h.concluded hsafe
    intro side hs outgoing log hp
    exact hstuck (h.goes_on hA hsafe hp)
  rw [← hkey]
  refine ⟨fun side e log hp => ?_, fun hquiet => ?_, ?_⟩
  · obtain ⟨conn, u, t, h⟩ := hrun
    have hpeer := h.peers side
    rw [hp] at hpeer
    obtain ⟨_, ⟨_, hreason, _⟩ | hf⟩ := hpeer.of_closed
    · cases hreason
    · exact hsafe hf
  · by_contra hnot
    obtain ⟨side, channel', hs⟩ := hover _ hrun hnot
    rw [hquiet side] at hs
    cases hs
  · apply exists_replay_of_measure (P := Good) Channel.todo _ hrun
    intro channel hgood hnot
    obtain ⟨side, channel', hs⟩ := hover channel hgood hnot
    obtain ⟨conn, u, t, h⟩ := hgood
    refine ⟨side, channel', hs, Or.inr ⟨?_, h.progress hA hs⟩⟩
    exact hstep channel (side, .shake) channel' ⟨conn, u, t, h⟩ (fun e he => by cases he) hs

end

end Sapphire.Mesh

namespace Sapphire

open Mesh

theorem handshake_never_stuck_duo :
    (Channel.run (H := Ideal.handshake) Ideal.duoParty (fun _ => ()) (Ideal.duoShaking 300)).NeverStuck Ideal.duoParty
      fun side => Ideal.staticKey (Ideal.duoSecret side) := by
  apply handshake_never_stuck Ideal.noise_laws Ideal.handshake_laws Ideal.duoParty (fun _ => ())
  intro event hevent e
  rcases List.mem_cons.mp hevent with rfl | hevent
  · exact fun h => by cases h
  · rw [Ideal.duoShakes_shake hevent]
    exact fun h => by cases h

end Sapphire
