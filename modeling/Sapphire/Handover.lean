import Sapphire.Codec
import Sapphire.Handshake

/-!
# From the handshake to the connection

Two tasks that shake hands and then drive a connection are compared with two
endpoints that have been connected from the start and broadcast the same. What
is on the wire is the rest of the handshake and then the frames of the
connection, so that no byte of the one is read as the other, and what a side
has broadcast during the handshake follows it.
-/

namespace Sapphire.Mesh

open Replay Framing

variable {N : Noise} {H : Handshake N}

/-! ## Where a side stands -/

/-- The frames of the messages of one side. -/
def framesOf (side : Side) : List (Side × Bytes) → Bytes
  | [] => []
  | m :: messages => (if m.1 = side then frame m.2 else []) ++ framesOf side messages

@[simp] theorem framesOf_nil (side : Side) : framesOf side [] = [] := rfl

@[simp] theorem framesOf_self (side : Side) (message : Bytes) (messages : List (Side × Bytes)) :
    framesOf side ((side, message) :: messages) = frame message ++ framesOf side messages := by simp [framesOf]

@[simp] theorem framesOf_other (side : Side) (message : Bytes) (messages : List (Side × Bytes)) :
    framesOf side ((side.other, message) :: messages) = framesOf side messages := by simp [framesOf, side.other_ne]

@[simp] theorem framesOf_of_other (side : Side) (message : Bytes) (messages : List (Side × Bytes)) :
    framesOf side.other ((side, message) :: messages) = framesOf side.other messages := by
  simp [framesOf, side.other_ne.symm]

def turnOf (side : Side) (m : Side × Bytes) : Turn := if m.1 = side then .writeMsg else .readMsg

section
variable (side : Side) (messages : List (Side × Bytes)) (final : H.State)

/-- What a side has yet to write of the handshake, and what it has yet to read. -/
inductive Shaking.Stands : Shaking H → Bytes → Bytes → Prop
  | idle {state left} : left <:+ messages → Follows H side state left final →
      Stands ⟨state, left.map (turnOf side), .idle⟩ (framesOf side left) (framesOf side.other left)
  | writing {state left rest} : left <:+ messages → Follows H side state left final →
      Stands ⟨state, left.map (turnOf side), .writing rest⟩ (rest ++ framesOf side left) (framesOf side.other left)
  | reading {state message left r toRead} : (side.other, message) :: left <:+ messages →
      Follows H side state ((side.other, message) :: left) final → r.Valid maxMessage →
      r.bytes ++ toRead = frame message ++ framesOf side.other left →
      Stands ⟨state, left.map (turnOf side), .reading r⟩ (framesOf side left) toRead

end

/-- A run of two tasks, by what is fixed throughout: who they are, the exchange
that they are to follow, and what the schedule may do to them. -/
structure Course (H : Handshake N) where
  party : Side → Party
  key : Side → StaticKey
  messages : List (Side × Bytes)
  final : Side → H.State
  transport : Side → N.State
  /-- Whether a stream may fail. -/
  fails : Prop
  /-- Whether each broadcast of the side finds room and fits a frame. -/
  gapFree : Side → Prop

/-- The task against its endpoint of a connection that was there from the start:
what it has yet to write and to read of the handshake, and what of the connection
is on the wire. -/
inductive Peer.Stands (course : Course H) (side : Side) : Peer H → Endpoint N → Bytes → Bytes → Bytes → Prop
  | shaking {hs outgoing log unwritten toRead} : hs.Stands side course.messages (course.final side) unwritten toRead →
      Stands course side (.shaking hs outgoing log)
        { Endpoint.new (course.transport side) with outgoing, broadcasts := log } unwritten toRead []
  | connected {driven endpoint sent} : (course.party side).serve side (course.key side.other) = .ok driven →
      Stands course side (.connected driven endpoint) endpoint [] [] sent
  | refused {e endpoint} : (course.party side).serve side (course.key side.other) = .error e →
      endpoint.incoming = [] → endpoint.writer = .closed →
      Stands course side (.closed (.mesh e) endpoint.broadcasts) endpoint [] [] []
  | failed {e endpoint unwritten toRead} : course.fails → endpoint.incoming = [] → endpoint.writer = .closed →
      Stands course side (.closed (.io e) endpoint.broadcasts) endpoint unwritten toRead []

/-! ## Progress -/

/-- More steps than any turn takes. -/
def turnSteps : Nat := 2 * (maxMessage + 4) + 2

def Stage.todo : Stage → Nat
  | .idle => 0
  | .writing rest => 2 * rest.length + 1
  | .reading _ => 1

def Peer.todo : Peer H → Nat
  | .shaking hs _ _ => 1 + turnSteps * hs.turns.length + hs.stage.todo
  | _ => 0

theorem unfinished_length {r : Reading} {message : Bytes} (hr : r.Valid maxMessage)
    (hlen : message.length ≤ maxMessage) {toRead more : Bytes} (h : r.bytes ++ toRead = frame message ++ more) :
    r.bytes.length < (frame message).length := by
  cases r with
  | header got =>
    change got.length < 4 at hr
    rw [frame_length]
    change got.length < _
    omega
  | body len got =>
    obtain ⟨hgot, hle⟩ := hr
    change toBeBytes (UInt32.ofNat len) ++ got ++ toRead = toBeBytes (UInt32.ofNat message.length) ++ message ++ more at h
    rw [List.append_assoc, List.append_assoc] at h
    obtain ⟨hhead, _⟩ := List.append_inj h rfl
    have hsame : len = message.length := by
      apply toBeBytes_ofNat_inj _ _ hhead <;> simp only [maxMessage] at hle hlen <;> omega
    rw [frame_length]
    change (toBeBytes (UInt32.ofNat len) ++ got).length < _
    simp only [toBeBytes, List.length_append, List.length_cons, List.length_nil]
    omega

section
variable {Linked : N.State → N.State → List (Bytes × Bytes) → Prop} {course : Course H} {state : Side → H.State}

/-- The sides begin where the exchange does. -/
abbrev Course.Agreed (course : Course H) (Linked : N.State → N.State → List (Bytes × Bytes) → Prop)
    (state : Side → H.State) : Prop :=
  Mesh.Agreed H Linked course.key state course.messages course.final course.transport

theorem Course.Agreed.short_of_suffix (h : course.Agreed Linked state) {author : Side} {message : Bytes}
    {left : List (Side × Bytes)} (hleft : (author, message) :: left <:+ course.messages) : message.length ≤ maxMessage :=
  h.short (author, message) (hleft.subset List.mem_cons_self)

/-- **Step.** The handshake of one side goes on: what it writes it had yet to
write, and what it takes in it had yet to read. -/
theorem Shaking.Stands.shake (h : course.Agreed Linked state) {side : Side} {hs : Shaking H} {unwritten toRead : Bytes}
    (hst : hs.Stands side course.messages (course.final side) unwritten toRead) {outgoing : Lossy.Queue Bytes}
    {log : List Bytes} {inbound coming sent : Bytes} (hwire : inbound ++ coming = toRead ++ sent)
    {effect : PeerEffect H}
    (hstep : Peer.shake (course.party side) side inbound hs outgoing log = some effect) :
    ((∃ unwritten' toRead', effect.peer.Stands course side
        { Endpoint.new (course.transport side) with outgoing, broadcasts := log } unwritten' toRead' [] ∧
      effect.written ++ unwritten' = unwritten ∧ effect.inbound ++ coming = toRead' ++ sent) ∨
      ∃ e, effect = ⟨.closed (.mesh e) log, inbound, []⟩ ∧
        (course.party side).serve side (course.key side.other) = .error e ∧ unwritten = [] ∧ toRead = []) ∧
      effect.peer.todo + effect.inbound.length + effect.written.length <
        (Peer.shaking hs outgoing log).todo + inbound.length := by
  cases hst with
  | @idle s left hleft hfollows =>
    cases left with
    | nil =>
      obtain rfl : s = course.final side := hfollows
      have hfinish := finish_ok (h.remote side) (h.transports side)
      simp only [Peer.shake, List.map_nil, hfinish, Peer.admitted, Option.some.injEq] at hstep
      subst hstep
      cases hserve : (course.party side).serve side (course.key side.other) with
      | error e => exact ⟨Or.inr ⟨e, rfl, rfl, rfl, rfl⟩, by simp [Peer.todo]⟩
      | ok driven => exact ⟨Or.inl ⟨[], [], .connected hserve, rfl, hwire⟩, by simp [Peer.todo]⟩
    | cons m left =>
      obtain ⟨author, message⟩ := m
      have hshort := h.short_of_suffix hleft
      have hleft' : left <:+ course.messages := (List.suffix_cons _ _).trans hleft
      obtain ⟨next, hwrite, hread, hrest⟩ := hfollows
      by_cases hown : author = side
      · subst hown
        have hturn : turnOf author (author, message) = .writeMsg := by simp [turnOf]
        simp only [Peer.shake, List.map_cons, hturn, Shaking.writeMsg, hwrite rfl, Peer.ofShaking,
          Option.some.injEq] at hstep
        subst hstep
        refine ⟨Or.inl ⟨_, _, .shaking (.writing hleft' hrest), by simp, by simpa using hwire⟩, ?_⟩
        simp only [Peer.todo, Stage.todo, frame_length, List.length_map, List.length_cons, List.length_nil, turnSteps,
          Nat.mul_succ]
        omega
      · obtain rfl : author = side.other := by cases author <;> cases side <;> first | rfl | exact absurd rfl hown
        have hturn : turnOf side (side.other, message) = .readMsg := by simp [turnOf, side.other_ne]
        simp only [Peer.shake, List.map_cons, hturn, Option.some.injEq] at hstep
        subst hstep
        have hbytes : (Reading.header []).bytes ++ (frame message ++ framesOf side.other left) =
            frame message ++ framesOf side.other left := rfl
        refine ⟨Or.inl ⟨_, _, .shaking (.reading hleft ⟨next, hwrite, hread, hrest⟩ (Nat.zero_lt_succ 3) hbytes), by simp,
          by simpa using hwire⟩, ?_⟩
        simp only [Peer.todo, Stage.todo, List.length_map, List.length_cons, List.length_nil, turnSteps, Nat.mul_succ]
        omega
  | @writing s left rest hleft hfollows =>
    cases rest with
    | nil =>
      simp only [Peer.shake, Option.some.injEq] at hstep
      subst hstep
      exact ⟨Or.inl ⟨_, _, .shaking (.idle hleft hfollows), by simp, hwire⟩, by simp [Peer.todo, Stage.todo]⟩
    | cons b rest =>
      simp only [Peer.shake, Option.some.injEq] at hstep
      subst hstep
      refine ⟨Or.inl ⟨_, _, .shaking (.writing hleft hfollows), by simp, hwire⟩, ?_⟩
      simp only [Peer.todo, Stage.todo, List.length_cons, List.length_nil]
      omega
  | @reading s message left r toRead hleft hfollows hvalid hbytes =>
    have hshort := h.short_of_suffix hleft
    cases inbound with
    | nil => simp [Peer.shake] at hstep
    | cons b inbound =>
      simp only [Peer.shake, Option.some.injEq] at hstep
      subst hstep
      -- the byte is of this frame
      cases toRead with
      | nil =>
        have hlt := unfinished_length hvalid hshort hbytes
        have hlen := congrArg List.length hbytes
        simp only [List.length_append, List.length_nil] at hlen
        omega
      | cons b' toRead =>
        obtain ⟨rfl, hwire'⟩ := List.cons.inj hwire
        rcases feed_frame (by decide) hvalid hshort hbytes with ⟨r', hfeed, hvalid', hbytes'⟩ | ⟨hfeed, rfl⟩
        · simp only [Shaking.readMsg, hfeed, Peer.ofShaking]
          refine ⟨Or.inl ⟨_, _, .shaking (.reading hleft hfollows hvalid' hbytes'), rfl, hwire'⟩, ?_⟩
          simp [Peer.todo, Stage.todo]
        · obtain ⟨next, _, hread, hrest⟩ := hfollows
          obtain ⟨payload, hmessage⟩ := hread side.other_ne
          simp only [Shaking.readMsg, hfeed, hmessage, Peer.ofShaking]
          refine ⟨Or.inl ⟨_, _, .shaking (.idle ((List.suffix_cons _ _).trans hleft) hrest), rfl, hwire'⟩, ?_⟩
          simp only [Peer.todo, Stage.todo, List.length_cons, List.length_nil]
          omega

end

/-! ## Steps of a channel -/

theorem Side.both {P : Side → Prop} (side : Side) (h : P side) (hother : P side.other) : ∀ here, P here := by
  intro here
  by_cases heq : here = side
  · rw [heq]; exact h
  · have : here = side.other := by cases here <;> cases side <;> first | rfl | exact absurd rfl heq
    rw [this]; exact hother

/-- What an action does not read stays where it is. -/
theorem Endpoint.act_inbound {e : Endpoint N} {inbound : Bytes} {action : Action} {effect : Effect N}
    (h : e.act inbound action = some effect) : effect.inbound <:+ inbound := by
  cases action with
  | broadcast payload => cases h; exact List.suffix_refl _
  | read =>
    cases inbound with
    | nil => cases h
    | cons b rest =>
      obtain ⟨e', _, rfl⟩ := Option.map_eq_some_iff.mp h
      exact List.suffix_cons _ _
  | _ =>
    obtain ⟨e', _, rfl⟩ := Option.map_eq_some_iff.mp h
    exact List.suffix_refl _

/-- The two tasks against a connection of the same broadcasts, as if there had
been no handshake. Before the bytes of the connection come those of the handshake. -/
structure Channel.Matches (Linked : N.State → N.State → List (Bytes × Bytes) → Prop) (Exhausted : N.State → Prop)
    (course : Course H) (channel : Channel H) (conn : Connection N) (unwritten toRead : Side → Bytes) : Prop where
  peers : ∀ side, (channel.peer side).Stands course side (conn.endpoint side) (unwritten side) (toRead side) (conn.wire side)
  wires : ∀ side, channel.wire side ++ unwritten side = toRead side.other ++ conn.wire side
  flows : ∀ side, conn.Flows Linked Exhausted side (course.gapFree side)

section
variable {Linked : N.State → N.State → List (Bytes × Bytes) → Prop} {Exhausted : N.State → Prop} {course : Course H}
  {state : Side → H.State}

namespace Peer.Stands

variable {side : Side} {peer : Peer H} {endpoint : Endpoint N} {unwritten toRead sent : Bytes}

theorem resent {sent' : Bytes} (h : peer.Stands course side endpoint unwritten toRead sent)
    (hsent : sent = [] → sent' = []) : peer.Stands course side endpoint unwritten toRead sent' := by
  cases h with
  | shaking hst => rw [hsent rfl]; exact .shaking hst
  | connected hserve => exact .connected hserve
  | refused hserve hin hw => rw [hsent rfl]; exact .refused hserve hin hw
  | failed hf hin hw => rw [hsent rfl]; exact .failed hf hin hw

theorem settled (h : peer.Stands course side endpoint unwritten toRead sent) : unwritten = [] ∨ sent = [] := by
  cases h with
  | connected hserve => exact Or.inl rfl
  | _ => exact Or.inr rfl

theorem of_shaking {hs : Shaking H} {outgoing : Lossy.Queue Bytes} {log : List Bytes}
    (h : (Peer.shaking hs outgoing log).Stands course side endpoint unwritten toRead sent) :
    endpoint = { Endpoint.new (course.transport side) with outgoing, broadcasts := log } ∧ sent = [] ∧
      hs.Stands side course.messages (course.final side) unwritten toRead := by
  cases h with
  | shaking hst => exact ⟨rfl, rfl, hst⟩

theorem of_connected {driven : Driven} {e : Endpoint N}
    (h : (Peer.connected driven e : Peer H).Stands course side endpoint unwritten toRead sent) :
    endpoint = e ∧ unwritten = [] ∧ toRead = [] ∧
      (course.party side).serve side (course.key side.other) = .ok driven := by
  cases h with
  | connected hserve => exact ⟨rfl, rfl, rfl, hserve⟩

theorem of_closed {reason : Ended} {log : List Bytes}
    (h : (Peer.closed reason log : Peer H).Stands course side endpoint unwritten toRead sent) :
    endpoint.writer = .closed ∧ ((∃ e, reason = .mesh e ∧
      (course.party side).serve side (course.key side.other) = .error e ∧ unwritten = [] ∧ toRead = []) ∨ course.fails) := by
  cases h with
  | refused hserve _ hw => exact ⟨hw, Or.inl ⟨_, rfl, hserve, rfl, rfl⟩⟩
  | failed hf _ hw => exact ⟨hw, Or.inr hf⟩

/-- The log and what was delivered are those of the endpoint. -/
theorem logs (h : peer.Stands course side endpoint unwritten toRead sent) :
    peer.broadcasts = endpoint.broadcasts ∧ peer.incoming = endpoint.incoming := by
  cases h with
  | shaking hst => exact ⟨rfl, rfl⟩
  | connected hserve => exact ⟨rfl, rfl⟩
  | refused _ hin _ => exact ⟨rfl, hin.symm⟩
  | failed _ hin _ => exact ⟨rfl, hin.symm⟩

theorem broadcast (h : peer.Stands course side endpoint unwritten toRead sent) (payload : Bytes) :
    (peer.broadcast payload).Stands course side (endpoint.broadcast payload) unwritten toRead sent := by
  have hincoming : (endpoint.broadcast payload).incoming = endpoint.incoming :=
    (endpoint.broadcast_frame payload).1.incoming
  cases h with
  | shaking hst => exact .shaking hst
  | connected hserve => exact .connected hserve
  | refused hserve hin hw =>
    rw [Peer.broadcast, ← endpoint.broadcast_broadcasts]
    exact .refused hserve (hincoming.trans hin) (by rw [endpoint.broadcast_closed hw]; exact hw)
  | failed hf hin hw =>
    rw [Peer.broadcast, ← endpoint.broadcast_broadcasts]
    exact .failed hf (hincoming.trans hin) (by rw [endpoint.broadcast_closed hw]; exact hw)

end Peer.Stands

/-- A broadcast that finds room in the queue of a task and fits a frame. -/
def Peer.Fits (peer : Peer H) : PeerAction → Prop
  | .act (.broadcast payload) =>
    match peer with
    | .shaking _ outgoing _ => payload.length ≤ maxPayload ∧ outgoing.values.length < broadcastCapacity
    | .connected _ endpoint => endpoint.Fits (.broadcast payload)
    | .closed _ _ => True
  | _ => True

theorem Peer.Stands.fits {side : Side} {peer : Peer H} {endpoint : Endpoint N} {unwritten toRead sent : Bytes}
    (h : peer.Stands course side endpoint unwritten toRead sent) {action : Action} (hfits : peer.Fits (.act action)) :
    endpoint.Fits action := by
  cases action with
  | broadcast payload =>
    cases h with
    | shaking hst => exact fun _ => hfits
    | connected hserve => exact hfits
    | refused _ _ hw => exact fun hopen => absurd hw hopen
    | failed _ _ hw => exact fun hopen => absurd hw hopen
  | _ => trivial

theorem Peer.step_connected (party : Party) (side : Side) (driven : Driven) (e : Endpoint N) (inbound : Bytes)
    (a : Action) : (Peer.connected driven e : Peer H).step party side inbound (.act a) =
      (e.act inbound a).map fun effect => ⟨.connected driven effect.endpoint, effect.inbound, effect.written⟩ := by
  cases a <;> rfl

namespace Channel.Matches

variable {channel : Channel H} {conn : Connection N} {unwritten toRead : Side → Bytes}

/-- One side has moved, and the endpoint of the other is as it was. -/
theorem after (h : channel.Matches Linked Exhausted course conn unwritten toRead) {actor : Side} {effect : PeerEffect H}
    {conn' : Connection N} {unwritten' toRead' : Bytes}
    (hpeer : effect.peer.Stands course actor (conn'.endpoint actor) unwritten' toRead' (conn'.wire actor))
    (hother : conn'.endpoint actor.other = conn.endpoint actor.other)
    (hsent : conn.wire actor.other = [] → conn'.wire actor.other = [])
    (hout : channel.wire actor ++ effect.written ++ unwritten' = toRead actor.other ++ conn'.wire actor)
    (hin : effect.inbound ++ unwritten actor.other = toRead' ++ conn'.wire actor.other)
    (hflows : ∀ side, conn'.Flows Linked Exhausted side (course.gapFree side)) :
    (channel.after actor effect).Matches Linked Exhausted course conn'
      (Function.update unwritten actor unwritten') (Function.update toRead actor toRead') where
  peers := by
    refine Side.both actor ?_ ?_
    · simpa [Channel.after] using hpeer
    · simpa [Channel.after, actor.other_ne, hother] using (h.peers actor.other).resent hsent
  wires := by
    refine Side.both actor ?_ ?_
    · simpa [Channel.after, actor.other_ne] using hout
    · simpa [Channel.after, actor.other_ne] using hin
  flows := hflows

/-- A side has moved as its endpoint can. -/
theorem act (hN : NoiseLaws N Linked Exhausted) (h : channel.Matches Linked Exhausted course conn unwritten toRead)
    {actor : Side} {peer : Peer H} {action : Action} {effect : Effect N}
    (ha : (conn.endpoint actor).act (conn.wire actor.other) action = some effect)
    (hfits : course.gapFree actor → (conn.endpoint actor).Fits action)
    (hpeer : peer.Stands course actor effect.endpoint (unwritten actor) (toRead actor) (conn.wire actor ++ effect.written))
    (hout : channel.wire actor ++ effect.written ++ unwritten actor =
      toRead actor.other ++ (conn.wire actor ++ effect.written)) {inbound : Bytes}
    (hin : inbound ++ unwritten actor.other = toRead actor ++ effect.inbound) :
    ∃ conn' u t, (channel.after actor ⟨peer, inbound, effect.written⟩).Matches Linked Exhausted course conn' u t := by
  have hpeer' : peer.Stands course actor ((conn.after actor effect).endpoint actor) (unwritten actor) (toRead actor)
      ((conn.after actor effect).wire actor) := by
    simpa [Connection.after] using hpeer
  have hflows : ∀ side, (conn.after actor effect).Flows Linked Exhausted side (course.gapFree side) := by
    intro side
    refine Connection.step_flows hN (h.flows side) (fun hgap hactor => ?_) (Connection.step_act ha)
    subst hactor
    exact hfits hgap
  refine ⟨conn.after actor effect, _, _, h.after hpeer' ?_ ?_ ?_ ?_ hflows⟩
  · simp [Connection.after, actor.other_ne]
  · intro hnil
    have hsuffix := Endpoint.act_inbound ha
    rw [hnil] at hsuffix
    simpa [Connection.after, actor.other_ne] using hsuffix
  · simpa [Connection.after] using hout
  · simpa [Connection.after, actor.other_ne] using hin

/-- A handshake comes to nothing, and its endpoint writes no more. -/
theorem close (hN : NoiseLaws N Linked Exhausted) (h : channel.Matches Linked Exhausted course conn unwritten toRead)
    {actor : Side} {hs : Shaking H} {outgoing : Lossy.Queue Bytes} {log : List Bytes}
    (hp : channel.peer actor = .shaking hs outgoing log) {reason : Ended}
    (hclosed : ∀ e : Endpoint N, e.incoming = [] → e.writer = .closed →
      (Peer.closed reason e.broadcasts : Peer H).Stands course actor e (unwritten actor) (toRead actor) []) :
    ∃ conn' u t, (channel.after actor ⟨.closed reason log, channel.wire actor.other, []⟩).Matches Linked Exhausted course
      conn' u t := by
  have hpeer := h.peers actor
  rw [hp] at hpeer
  obtain ⟨he, hsent, _⟩ := hpeer.of_shaking
  have hback := h.wires actor.other
  rw [Side.other_other] at hback
  have ha : (conn.endpoint actor).act (conn.wire actor.other) .stopWriter =
      some ⟨{ conn.endpoint actor with writer := .closed }, conn.wire actor.other, []⟩ := by
    rw [he]
    rfl
  apply h.act hN ha (fun _ => trivial) _ (by simpa using h.wires actor) hback
  have hnone := hclosed { conn.endpoint actor with writer := .closed } (by rw [he]; rfl) rfl
  rw [he] at hnone
  rw [hsent, he]
  exact hnone

/-- **Step.** Whatever a task does, there is still such a connection. -/
theorem step (hN : NoiseLaws N Linked Exhausted) (hA : course.Agreed Linked state)
    (h : channel.Matches Linked Exhausted course conn unwritten toRead) {event : Side × PeerAction}
    (hfails : ∀ e, event.2 = .fail e → course.fails)
    (hfits : course.gapFree event.1 → (channel.peer event.1).Fits event.2) {channel' : Channel H}
    (hs : channel.step course.party event = .ok channel') :
    ∃ conn' u t, channel'.Matches Linked Exhausted course conn' u t := by
  obtain ⟨actor, action⟩ := event
  dsimp only at hfails hfits
  unfold Channel.step at hs
  dsimp only at hs
  cases hstep : (channel.peer actor).step (course.party actor) actor (channel.wire actor.other) action with
  | none => rw [hstep] at hs; cases hs
  | some effect =>
    rw [hstep] at hs
    cases hs
    have hpeer := h.peers actor
    have hout := h.wires actor
    have hback := h.wires actor.other
    rw [Side.other_other] at hback
    cases action with
    | act a =>
      have hfits' : course.gapFree actor → (conn.endpoint actor).Fits a := fun hgap => hpeer.fits (hfits hgap)
      by_cases hbroadcast : ∃ payload, a = .broadcast payload
      · obtain ⟨payload, rfl⟩ := hbroadcast
        obtain rfl : effect = ⟨(channel.peer actor).broadcast payload, channel.wire actor.other, []⟩ := by
          simpa [Peer.step] using hstep.symm
        have ha : (conn.endpoint actor).act (conn.wire actor.other) (.broadcast payload) =
            some ⟨(conn.endpoint actor).broadcast payload, conn.wire actor.other, []⟩ := rfl
        apply h.act hN ha hfits'
        · simpa using hpeer.broadcast payload
        · simpa using hout
        · exact hback
      cases hp : channel.peer actor with
      | connected driven e =>
        rw [hp] at hpeer hstep
        obtain ⟨he, hu, ht, hserve⟩ := hpeer.of_connected
        -- all of the handshake has been read, so what is on the wire is of the connection
        rw [ht, List.nil_append] at hback
        have hnone : unwritten actor.other = [] := by
          rcases (h.peers actor.other).settled with hnone | hsent
          · exact hnone
          · rw [hsent] at hback
            exact (List.append_eq_nil_iff.mp hback).2
        rw [hnone, List.append_nil] at hback
        rw [Peer.step_connected] at hstep
        obtain ⟨moved, hmoved, rfl⟩ := Option.map_eq_some_iff.mp hstep
        rw [hback, ← he] at hmoved
        apply h.act hN hmoved hfits'
        · rw [hu, ht]
          exact .connected hserve
        · rw [hu, List.append_nil] at hout ⊢
          rw [hout, List.append_assoc]
        · rw [hnone, ht, List.append_nil, List.nil_append]
      | _ =>
        rw [hp] at hstep
        cases a with
        | broadcast payload => exact absurd ⟨payload, rfl⟩ hbroadcast
        | _ => cases hstep
    | shake =>
      cases hp : channel.peer actor with
      | shaking hs outgoing log =>
        rw [hp] at hpeer hstep
        obtain ⟨he, hsent, hst⟩ := hpeer.of_shaking
        obtain ⟨⟨u, t, hst', hwritten, hread⟩ | ⟨e, rfl, hserve, hu, ht⟩, _⟩ := hst.shake hA hback hstep
        · rw [← he, ← hsent] at hst'
          refine ⟨conn, _, _, h.after hst' rfl (fun hnil => hnil) ?_ hread h.flows⟩
          rw [List.append_assoc, hwritten]
          exact hout
        · apply h.close hN hp
          intro e' hin hw
          rw [hu, ht]
          exact .refused hserve hin hw
      | _ => rw [hp] at hstep; cases hstep
    | fail e =>
      cases hp : channel.peer actor with
      | shaking hs outgoing log =>
        rw [hp] at hstep
        obtain rfl : effect = ⟨.closed (.io e) log, channel.wire actor.other, []⟩ := by
          simpa [Peer.step] using hstep.symm
        exact h.close hN hp fun e' hin hw => .failed (hfails e rfl) hin hw
      | _ => rw [hp] at hstep; cases hstep

end Channel.Matches

end

/-! ## The log of broadcasts -/

def PeerAction.payload : PeerAction → Option Bytes
  | .act action => action.payload
  | _ => none

/-- What a side has broadcast, whatever its task was at. -/
def broadcastsOf (side : Side) (events : List (Side × PeerAction)) : List Bytes :=
  events.filterMap fun event => if event.1 = side then event.2.payload else none

theorem broadcastsOf_append (side : Side) (events more : List (Side × PeerAction)) :
    broadcastsOf side (events ++ more) = broadcastsOf side events ++ broadcastsOf side more := List.filterMap_append

/-- Where a side broadcasts nothing, all of it fits. -/
theorem Channel.silent_fits {party : Side → Party} {side : Side} {events : List (Side × PeerAction)}
    (h : broadcastsOf side events = []) (channel : Channel H) :
    EachStep (Channel.step party) (fun channel event => event.1 = side → (channel.peer event.1).Fits event.2) channel
      events := by
  refine EachStep.of_mem (fun event hevent channel hside => ?_) channel
  obtain ⟨actor, action⟩ := event
  have hnone := List.filterMap_eq_nil_iff.mp h _ hevent
  rw [if_pos hside] at hnone
  cases action with
  | act action =>
    cases action with
    | broadcast payload => cases hnone
    | _ => trivial
  | _ => trivial

theorem Peer.step_broadcasts {p : Party} {side : Side} {peer : Peer H} {inbound : Bytes} {action : PeerAction}
    {effect : PeerEffect H} (h : peer.step p side inbound action = some effect) :
    effect.peer.broadcasts = peer.broadcasts ++ action.payload.toList := by
  cases action with
  | act a =>
    cases peer with
    | connected driven e =>
      rw [Peer.step_connected] at h
      obtain ⟨moved, hmoved, rfl⟩ := Option.map_eq_some_iff.mp h
      exact Endpoint.act_broadcasts hmoved
    | _ =>
      cases a with
      | broadcast payload => cases h; rfl
      | _ => cases h
  | shake =>
    change effect.peer.broadcasts = peer.broadcasts ++ []
    rw [List.append_nil]
    cases peer with
    | shaking hs outgoing log =>
      have hshaking : ∀ r : Except IoError (Shaking H), (Peer.ofShaking outgoing log r).broadcasts = log := by
        intro r
        cases r <;> rfl
      have hadmitted : ∀ r, (Peer.admitted p side outgoing log r : Peer H).broadcasts = log := by
        intro r
        unfold Peer.admitted
        rcases r with e | ⟨transport, remote⟩
        · rfl
        · dsimp only
          cases p.serve side remote <;> rfl
      change Peer.shake p side inbound hs outgoing log = some effect at h
      unfold Peer.shake at h
      cases hstage : hs.stage with
      | idle =>
        rw [hstage] at h
        cases hturns : hs.turns with
        | nil => simp only [hturns] at h; cases h; exact hadmitted _
        | cons turn turns => simp only [hturns] at h; cases turn <;> cases h <;> first | exact hshaking _ | rfl
      | writing rest => rw [hstage] at h; cases rest <;> cases h <;> rfl
      | reading r => rw [hstage] at h; cases inbound <;> cases h; exact hshaking _
    | _ => cases h
  | fail e =>
    cases peer with
    | shaking hs outgoing log => cases h; exact (List.append_nil _).symm
    | _ => cases h

theorem Peer.step_none {p : Party} {side : Side} {peer : Peer H} {inbound : Bytes} {action : PeerAction}
    (h : peer.step p side inbound action = none) : action.payload = none := by
  cases action with
  | act a =>
    cases a with
    | broadcast payload => cases h
    | _ => rfl
  | _ => rfl

namespace Channel

variable {party : Side → Party}

theorem step_some {channel : Channel H} {side : Side} {action : PeerAction} {effect : PeerEffect H}
    (h : (channel.peer side).step (party side) side (channel.wire side.other) action = some effect) :
    channel.step party (side, action) = .ok (channel.after side effect) := by
  simp only [step, h]

theorem step_none {channel : Channel H} {side : Side} {action : PeerAction}
    (h : (channel.peer side).step (party side) side (channel.wire side.other) action = none) :
    channel.step party (side, action) = .error () := by
  simp only [step, h]

theorem feed_broadcasts (channel : Channel H) (event : Side × PeerAction) (side : Side) :
    ((feed (step party) channel event).peer side).broadcasts =
      (channel.peer side).broadcasts ++ broadcastsOf side [event] := by
  obtain ⟨actor, action⟩ := event
  by_cases hactor : actor = side
  · subst hactor
    have hlog : broadcastsOf actor [(actor, action)] = action.payload.toList := by
      cases hpayload : action.payload <;> simp [broadcastsOf, hpayload]
    rw [hlog]
    cases hstep : (channel.peer actor).step (party actor) actor (channel.wire actor.other) action with
    | none => rw [feed_error (step_none hstep), Peer.step_none hstep]; simp
    | some effect => rw [feed_ok (step_some hstep), ← Peer.step_broadcasts hstep]; simp [after]
  · have hlog : broadcastsOf side [(actor, action)] = [] := by simp [broadcastsOf, hactor]
    rw [hlog, List.append_nil]
    cases hstep : (channel.peer actor).step (party actor) actor (channel.wire actor.other) action with
    | none => rw [feed_error (step_none hstep)]
    | some effect => rw [feed_ok (step_some hstep)]; simp [after, Ne.symm hactor]

theorem replay_broadcasts (channel : Channel H) (events : List (Side × PeerAction)) (side : Side) :
    ((replay (step party) channel events).peer side).broadcasts =
      (channel.peer side).broadcasts ++ broadcastsOf side events := by
  induction events generalizing channel with
  | nil => simp [broadcastsOf]
  | cons event events ih =>
    have hcons : broadcastsOf side (event :: events) = broadcastsOf side [event] ++ broadcastsOf side events :=
      List.filterMap_append (l := [event])
    rw [replay_cons, ih, feed_broadcasts, hcons, List.append_assoc]

theorem start_broadcasts (entropy : Side → H.Entropy) (side : Side) :
    ((start H party entropy).peer side).broadcasts = [] := by
  simp only [start, Peer.start]
  cases Shaking.start H side (party side).localStaticSecret (entropy side) <;> rfl

end Channel

/-! ## Runs -/

theorem Party.serve_ok {p : Party} {side : Side} {seen : StaticKey} {driven : Driven}
    (h : p.serve side seen = .ok driven) :
    driven = { peer := seen, role := side } ∧ seen ∈ p.config.peers ∧ (side = .initiator → seen = p.dialed) := by
  cases side with
  | initiator =>
    change serveInitiator p.config p.dialed seen = _ at h
    unfold serveInitiator at h
    split at h
    · cases h
    · rename_i hdialed
      split at h
      · cases h
      · rename_i hmem
        cases h
        exact ⟨rfl, not_not.mp hmem, fun _ => not_not.mp hdialed⟩
  | responder =>
    change serveResponder p.config seen = _ at h
    unfold serveResponder at h
    split at h
    · cases h
    · rename_i hmem
      cases h
      exact ⟨rfl, not_not.mp hmem, fun hside => by cases hside⟩

section
variable {Linked : N.State → N.State → List (Bytes × Bytes) → Prop} {Exhausted : N.State → Prop}
  {publicOf : Vector UInt8 32 → StaticKey}

theorem turns_of_authors {messages : List (Side × Bytes)}
    (h : messages.map Prod.fst = [Side.initiator, Side.responder, Side.initiator]) (side : Side) :
    messages.map (turnOf side) = turns side := by
  have hturn : ∀ m : Side × Bytes, turnOf side m = if m.1 = side then .writeMsg else .readMsg := fun _ => rfl
  have hmap : messages.map (turnOf side) =
      (messages.map Prod.fst).map fun author => if author = side then Turn.writeMsg else .readMsg := by
    rw [List.map_map]
    exact List.map_congr_left fun m _ => hturn m
  rw [hmap, h]
  cases side <;> rfl

/-- The course that two parties begin. -/
theorem HandshakeLaws.begins (hH : HandshakeLaws H publicOf Linked) (Exhausted : N.State → Prop) (party : Side → Party)
    (entropy : Side → H.Entropy) (fails : Prop) (gapFree : Side → Prop) :
    ∃ (course : Course H) (state : Side → H.State), course.party = party ∧
      course.key = (fun side => publicOf (party side).localStaticSecret) ∧ course.fails = fails ∧
      course.gapFree = gapFree ∧ course.Agreed Linked state ∧
      ∃ conn u t, (Channel.start H party entropy).Matches Linked Exhausted course conn u t := by
  have hbuild := fun side => hH.builds side (party side).localStaticSecret (entropy side)
  choose state hstate using hbuild
  obtain ⟨messages, final, transport, hA⟩ := hH.exchange (fun side => (party side).localStaticSecret) entropy state hstate
  let course : Course H :=
    { party, key := fun side => publicOf (party side).localStaticSecret, messages, final, transport, fails, gapFree }
  refine ⟨course, state, rfl, rfl, rfl, rfl, hA, .new transport, fun side => framesOf side messages,
    fun side => framesOf side.other messages, ?_, ?_, fun side => Connection.new_flows hA.linked side _⟩
  · intro side
    have hpeer : (Channel.start H party entropy).peer side =
        .shaking ⟨state side, messages.map (turnOf side), .idle⟩ .new [] := by
      simp only [Channel.start, Peer.start, Shaking.start, hstate, Peer.ofShaking, turns_of_authors hA.authors]
    rw [hpeer]
    exact .shaking (.idle (List.suffix_refl _) (hA.follows side))
  · intro side
    simp [Channel.start, Connection.new]

/-- Two tasks from their start on, under any schedule. -/
abbrev Channel.run (party : Side → Party) (entropy : Side → H.Entropy) (events : List (Side × PeerAction)) :
    Channel H :=
  replay (Channel.step party) (Channel.start H party entropy) events

/-- A run in which some sides have room throughout. -/
theorem Channel.run_matches (hN : NoiseLaws N Linked Exhausted) (hH : HandshakeLaws H publicOf Linked)
    (party : Side → Party) (entropy : Side → H.Entropy) (gapFree : Side → Prop) {events : List (Side × PeerAction)}
    (hfits : EachStep (Channel.step party)
      (fun channel event => gapFree event.1 → (channel.peer event.1).Fits event.2) (Channel.start H party entropy) events) :
    ∃ course conn u t, course.party = party ∧ course.key = (fun side => publicOf (party side).localStaticSecret) ∧
      course.gapFree = gapFree ∧ (Channel.run party entropy events).Matches Linked Exhausted course conn u t := by
  obtain ⟨course, state, rfl, hkey, hfails, hgap, hA, hstart⟩ := hH.begins Exhausted party entropy True gapFree
  have hrun : ∃ conn u t, (Channel.run course.party entropy events).Matches Linked Exhausted course conn u t := by
    rw [← List.append_nil events] at hfits
    apply hfits.invariant (P := fun channel => ∃ conn u t, Channel.Matches Linked Exhausted course channel conn u t) _ hstart
    rintro channel event channel' ⟨conn, u, t, h⟩ hfit hstep
    apply h.step hN hA (fun _ _ => by rw [hfails]; trivial) _ hstep
    rw [hgap]
    exact hfit
  obtain ⟨conn, u, t, h⟩ := hrun
  exact ⟨course, conn, u, t, rfl, hkey, hgap, h⟩

/-- **Safety.** However the handshake goes and whatever follows it, what a side
has received is in order of what the other has broadcast, the handshake included;
and it is driven only with the peer that was to be at its other end. -/
theorem delivered_after_handshake (hN : NoiseLaws N Linked Exhausted) (hH : HandshakeLaws H publicOf Linked)
    (party : Side → Party) (entropy : Side → H.Entropy) (events : List (Side × PeerAction)) (side : Side) :
    ((Channel.run party entropy events).peer side.other).incoming.Sublist (broadcastsOf side events) ∧
      ∀ driven e, (Channel.run party entropy events).peer side = .connected driven e →
        driven = { peer := publicOf (party side.other).localStaticSecret, role := side } ∧
          driven.peer ∈ (party side).config.peers ∧ (side = .initiator → driven.peer = (party side).dialed) := by
  obtain ⟨course, conn, u, t, rfl, hkey, _, h⟩ :=
    Channel.run_matches hN hH party entropy (fun _ => False) (EachStep.of_mem (fun _ _ _ => False.elim) _)
  refine ⟨?_, fun driven e hp => ?_⟩
  · obtain ⟨msgs, held, hflow, _⟩ := h.flows side
    have hsub := hflow.order
    rw [← (h.peers side).logs.1, ← (h.peers side.other).logs.2, Channel.replay_broadcasts, Channel.start_broadcasts,
      List.nil_append] at hsub
    simp only [List.append_assoc] at hsub
    exact (List.sublist_append_left _ _).trans hsub
  · have hpeer := h.peers side
    rw [hp] at hpeer
    obtain ⟨_, _, _, hserve⟩ := hpeer.of_connected
    obtain ⟨rfl, hmem, hdialed⟩ := Party.serve_ok hserve
    rw [hkey] at hmem hdialed ⊢
    exact ⟨rfl, hmem, hdialed⟩

/-- What the other side has received is a prefix of what one with room has broadcast. -/
theorem Channel.Matches.received {party : Side → Party} {entropy : Side → H.Entropy} {events : List (Side × PeerAction)}
    {course : Course H} {conn : Connection N} {u t : Side → Bytes}
    (h : (Channel.run party entropy events).Matches Linked Exhausted course conn u t) {side : Side}
    (hgap : course.gapFree side) :
    ((Channel.run party entropy events).peer side.other).incoming <+: broadcastsOf side events := by
  obtain ⟨msgs, held, _, hgapFree⟩ := h.flows side
  have hsent := (hgapFree hgap).sent
  rw [← (h.peers side).logs.1, ← (h.peers side.other).logs.2, Channel.replay_broadcasts, Channel.start_broadcasts,
    List.nil_append, List.append_assoc] at hsent
  exact (List.prefix_append _ _).trans hsent

/-- Nor is anything skipped, as long as the queue of a task has room and payloads
fit their frames: what is broadcast during the handshake waits for its end. -/
theorem delivered_prefix_after_handshake (hN : NoiseLaws N Linked Exhausted) (hH : HandshakeLaws H publicOf Linked)
    (party : Side → Party) (entropy : Side → H.Entropy) {events : List (Side × PeerAction)} (side : Side)
    (hfits : EachStep (Channel.step party) (fun channel event => event.1 = side → (channel.peer event.1).Fits event.2)
      (Channel.start H party entropy) events) :
    ((Channel.run party entropy events).peer side.other).incoming <+: broadcastsOf side events := by
  obtain ⟨course, conn, u, t, _, _, hgap, h⟩ := Channel.run_matches hN hH party entropy (fun here => here = side) hfits
  apply h.received
  rw [hgap]

end

end Sapphire.Mesh

namespace Sapphire

open Mesh Replay

/-! ## An ideal handshake -/

namespace Ideal

/-- A side of an `XX` without secrets: the static key is sent as it is. -/
structure Exchanging where
  static : Vector UInt8 32
  count : Nat
  remote : Option Bytes

namespace Exchanging

def blank (n : Nat) : Bytes := List.replicate n 0

/-- `e`, then `e, ee, s, es`, then `s, se`. -/
def tokens (s : Exchanging) : Bytes :=
  match s.count with
  | 0 => blank 32
  | 1 => blank 32 ++ s.static.toList ++ blank 32
  | _ => s.static.toList ++ blank 32

def width (s : Exchanging) : Nat :=
  match s.count with
  | 0 => 32
  | 1 => 96
  | _ => 64

def learn (s : Exchanging) (message : Bytes) : Option Bytes :=
  match s.count with
  | 0 => s.remote
  | 1 => some ((message.drop 32).take 32)
  | _ => some (message.take 32)

end Exchanging

def handshake : Handshake noise where
  State := Exchanging
  Entropy := Unit
  build := fun _ secret _ => .ok { static := secret, count := 0, remote := none }
  writeMessage := fun s payload =>
    if 3 ≤ s.count then .error "state error: HandshakeAlreadyFinished"
    else .ok (s.tokens ++ payload, { s with count := s.count + 1 })
  readMessage := fun s message =>
    if 3 ≤ s.count then .error "state error: HandshakeAlreadyFinished"
    else if message.length < s.width then .error "input error"
    else .ok (message.drop s.width, { s with count := s.count + 1, remote := s.learn message })
  getRemoteStatic := fun s => s.remote
  intoTransportMode := fun s => if s.count < 3 then .error "state error: HandshakeNotFinished" else .ok (0, 0)

def staticKey (secret : Vector UInt8 32) : StaticKey := ⟨secret⟩

/-- The three messages. -/
def exchange (secret : Side → Vector UInt8 32) : List (Side × Bytes) :=
  [(.initiator, Exchanging.tokens ⟨secret .initiator, 0, none⟩),
    (.responder, Exchanging.tokens ⟨secret .responder, 1, none⟩),
    (.initiator, Exchanging.tokens ⟨secret .initiator, 2, none⟩)]

theorem handshake_laws : HandshakeLaws handshake staticKey Linked where
  builds := fun _ secret _ => ⟨{ static := secret, count := 0, remote := none }, rfl⟩
  exchange := by
    intro secret entropy state hstate
    have hstart : ∀ side, state side = { static := secret side, count := 0, remote := none } :=
      fun side => (Except.ok.inj (hstate side)).symm
    have hlength : ∀ side, (secret side).toList.length = 32 := by simp
    refine ⟨exchange secret, fun side => { static := secret side, count := 3, remote := some (secret side.other).toList },
      start, rfl, ?_, ?_, fun _ => rfl, fun _ => rfl, start_linked⟩
    · intro m hm
      rcases List.mem_cons.mp hm with rfl | hm
      · simp [Exchanging.tokens, Exchanging.blank, maxMessage]
      rcases List.mem_cons.mp hm with rfl | hm
      · simp [Exchanging.tokens, Exchanging.blank, maxMessage]
      obtain rfl := List.mem_singleton.mp hm
      simp [Exchanging.tokens, Exchanging.blank, maxMessage]
    · intro side
      rw [hstart]
      cases side
      · refine ⟨⟨secret .initiator, 1, none⟩, fun _ => ?_, fun h => absurd rfl h, ?_⟩
        · simp [handshake, Exchanging.tokens]
        refine ⟨⟨secret .initiator, 2, some (secret .responder).toList⟩, fun h => (by cases h), fun _ => ?_, ?_⟩
        · simp [handshake, Exchanging.tokens, Exchanging.width, Exchanging.learn, Exchanging.blank]
        refine ⟨⟨secret .initiator, 3, some (secret .responder).toList⟩, fun _ => ?_, fun h => absurd rfl h, rfl⟩
        simp [handshake, Exchanging.tokens]
      · refine ⟨⟨secret .responder, 1, none⟩, fun h => (by cases h), fun _ => ?_, ?_⟩
        · simp [handshake, Exchanging.tokens, Exchanging.width, Exchanging.learn, Exchanging.blank]
        refine ⟨⟨secret .responder, 2, none⟩, fun _ => ?_, fun h => absurd rfl h, ?_⟩
        · simp [handshake, Exchanging.tokens]
        refine ⟨⟨secret .responder, 3, some (secret .initiator).toList⟩, fun h => (by cases h), fun _ => ?_, rfl⟩
        simp [handshake, Exchanging.tokens, Exchanging.width, Exchanging.learn, Exchanging.blank]

def duoSecret : Side → Vector UInt8 32
  | .initiator => Vector.replicate 32 1
  | .responder => Vector.replicate 32 2

/-- Two nodes that are each other's peers, of which the first dials. -/
def duoParty (side : Side) : Party :=
  { config := { localStaticPublic := staticKey (duoSecret side), peers := [staticKey (duoSecret side.other)] }
    localStaticSecret := duoSecret side
    dialed := staticKey (duoSecret side.other) }

def duoShakes (n : Nat) : List (Side × PeerAction) :=
  (List.replicate n [(.initiator, .shake), (.responder, .shake)]).flatten

/-- The first speaks before its handshake begins. -/
def duoShaking (n : Nat) : List (Side × PeerAction) := (.initiator, .act (.broadcast [7])) :: duoShakes n

theorem duoShakes_shake {n : Nat} {event : Side × PeerAction} (h : event ∈ duoShakes n) : event.2 = .shake := by
  obtain ⟨round, hround, hevent⟩ := List.mem_flatten.mp h
  obtain rfl := List.eq_of_mem_replicate hround
  rcases List.mem_pair.mp hevent with rfl | rfl <;> rfl

theorem broadcastsOf_duoShakes (side : Side) (n : Nat) : broadcastsOf side (duoShakes n) = [] := by
  apply List.filterMap_eq_nil_iff.mpr
  intro event hevent
  simp [duoShakes_shake hevent, PeerAction.payload]

/-- The steps that take the first's next payload, of `len` bytes, to the other. -/
def duoPass (len : Nat) : List (Side × PeerAction) := (pass .initiator len).map fun event => (event.1, .act event.2)

/-- And what it has said comes after the handshake. -/
def duoHearing : List (Side × PeerAction) := duoShaking 300 ++ duoPass 1

theorem broadcastsOf_duoPass (len : Nat) : broadcastsOf .initiator (duoPass len) = [] := by
  have hsilent := pass_silent .initiator len
  unfold payloads at hsilent
  rw [broadcastsOf, duoPass, List.filterMap_map]
  exact hsilent

/-- A first payload that fits its frame finds an empty queue. -/
theorem speaking_fits {payload : Bytes} (h : payload.length ≤ maxPayload) {rest : List (Side × PeerAction)}
    (hrest : broadcastsOf .initiator rest = []) :
    EachStep (Channel.step (H := handshake) duoParty)
      (fun channel event => event.1 = .initiator → (channel.peer event.1).Fits event.2)
      (Channel.start handshake duoParty fun _ => ()) ((.initiator, .act (.broadcast payload)) :: rest) :=
  ⟨fun _ _ _ => ⟨h, by decide⟩, Channel.silent_fits hrest _⟩

end Ideal

theorem delivered_after_handshake_duo :
    ((Channel.run (H := Ideal.handshake) Ideal.duoParty (fun _ => ()) Ideal.duoHearing).peer
        (.other .initiator)).incoming = [[7]] ∧
      ((Channel.run (H := Ideal.handshake) Ideal.duoParty (fun _ => ()) Ideal.duoHearing).peer
        (.other .initiator)).incoming.Sublist (broadcastsOf .initiator Ideal.duoHearing) ∧
      ∀ driven e, (Channel.run (H := Ideal.handshake) Ideal.duoParty (fun _ => ()) Ideal.duoHearing).peer .initiator =
          .connected driven e →
        driven = { peer := Ideal.staticKey (Ideal.duoSecret .responder), role := .initiator } ∧
          driven.peer ∈ (Ideal.duoParty .initiator).config.peers ∧
          (Side.initiator = .initiator → driven.peer = (Ideal.duoParty .initiator).dialed) :=
  ⟨by decide +kernel,
    delivered_after_handshake Ideal.noise_laws Ideal.handshake_laws Ideal.duoParty (fun _ => ()) _ .initiator⟩

theorem delivered_prefix_after_handshake_duo :
    ((Channel.run (H := Ideal.handshake) Ideal.duoParty (fun _ => ()) Ideal.duoHearing).peer
        (.other .initiator)).incoming = [[7]] ∧
      ((Channel.run (H := Ideal.handshake) Ideal.duoParty (fun _ => ()) Ideal.duoHearing).peer
        (.other .initiator)).incoming <+: [[7]] := by
  have hsilent : broadcastsOf .initiator (Ideal.duoShakes 300 ++ Ideal.duoPass 1) = [] := by
    rw [broadcastsOf_append, Ideal.broadcastsOf_duoShakes, Ideal.broadcastsOf_duoPass, List.append_nil]
  have hlog : broadcastsOf .initiator Ideal.duoHearing = [[7]] := by
    change [7] :: broadcastsOf .initiator (Ideal.duoShakes 300 ++ Ideal.duoPass 1) = [[7]]
    rw [hsilent]
  refine ⟨by decide +kernel, ?_⟩
  rw [← hlog]
  exact delivered_prefix_after_handshake Ideal.noise_laws Ideal.handshake_laws Ideal.duoParty (fun _ => ()) .initiator
    (Ideal.speaking_fits (by decide) hsilent)

end Sapphire
