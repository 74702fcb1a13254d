import Sapphire.Gaps
import Sapphire.Topology

/-!
# The handshake and what follows it

`handshake` and the two `serve` tasks: over one stream, each side writes and
reads its messages in turn, looks at the key it has authenticated, and drives
the connection or gives up. Both sides have subscribed to their queues before
they begin, and whoever is through may send while the other still shakes.
-/

namespace Sapphire.Mesh

open Replay Framing

/-! ## Messages -/

/-- `snow::HandshakeState`, with the calls that are made of it. -/
structure Handshake (N : Noise) where
  State : Type
  /-- What the ephemeral key is drawn from. -/
  Entropy : Type
  build : Side → Vector UInt8 32 → Entropy → Except String State
  writeMessage : State → Bytes → Except String (Bytes × State)
  readMessage : State → Bytes → Except String (Bytes × State)
  getRemoteStatic : State → Option Bytes
  intoTransportMode : State → Except String N.State

/-- The length of the buffers. -/
def maxMessage : Nat := 65535

variable {N : Noise} {H : Handshake N}

inductive Turn where
  | writeMsg
  | readMsg
deriving DecidableEq, Repr

def runInitiator : List Turn := [.writeMsg, .readMsg, .writeMsg]

def runResponder : List Turn := [.readMsg, .writeMsg, .readMsg]

def turns : Side → List Turn
  | .initiator => runInitiator
  | .responder => runResponder

inductive Stage where
  | idle
  | writing (rest : Bytes)
  | reading (r : Reading)

/-- A handshake under way, with the turns to come. -/
structure Shaking (H : Handshake N) where
  state : H.State
  turns : List Turn
  stage : Stage

namespace Shaking

/-- `build_initiator` or `build_responder`. -/
def start (H : Handshake N) (side : Side) (localStaticSecret : Vector UInt8 32) (entropy : H.Entropy) :
    Except IoError (Shaking H) :=
  match H.build side localStaticSecret entropy with
  | .error e => .error (.other ("noise build: " ++ e))
  | .ok state => .ok { state, turns := Mesh.turns side, stage := .idle }

/-- The next message, ready to go out behind its length. -/
def writeMsg (hs : Shaking H) (turns : List Turn) : Except IoError (Shaking H) :=
  match H.writeMessage hs.state [] with
  | .error e => .error (.other ("handshake write: " ++ e))
  | .ok (message, state) => .ok { state, turns, stage := .writing (frame message) }

/-- One byte of a message. -/
def readMsg (hs : Shaking H) (r : Reading) (b : UInt8) : Except IoError (Shaking H) :=
  match feed maxMessage r b with
  | none => .error (.invalidData "handshake msg too big")
  | some (.more r) => .ok { hs with stage := .reading r }
  | some (.done message) =>
    match H.readMessage hs.state message with
    | .error e => .error (.other ("handshake read: " ++ e))
    | .ok (_, state) => .ok { hs with state, stage := .idle }

end Shaking

theorem staticKey_size {bytes : Bytes} (h : bytes.length = 32) : bytes.toArray.size = 32 := h

/-- `finish`: the transport, and the key that the handshake has authenticated. -/
def finish (H : Handshake N) (state : H.State) : Except IoError (N.State × StaticKey) :=
  match H.getRemoteStatic state with
  | none => .error (.other "no remote static after XX")
  | some remote =>
    if h : remote.length = 32 then
      match H.intoTransportMode state with
      | .error e => .error (.other ("noise transport: " ++ e))
      | .ok transport => .ok (transport, ⟨⟨remote.toArray, staticKey_size h⟩⟩)
    else .error (.other ("unexpected remote static length " ++ toString remote.length))

/-! ## Two tasks over one stream -/

/-- What a task of the mesh has of its node: `dialed` is the peer that a dialer is for. -/
structure Party where
  config : MeshConfig
  localStaticSecret : Vector UInt8 32
  dialed : StaticKey

def Party.serve (party : Party) : Side → StaticKey → Except MeshError Driven
  | .initiator => serveInitiator party.config party.dialed
  | .responder => serveResponder party.config

inductive Ended where
  | io (e : IoError)
  | mesh (e : MeshError)
deriving DecidableEq, Repr

/-- A task, with its queue and the log of what was broadcast since it subscribed. -/
inductive Peer (H : Handshake N) where
  | shaking (hs : Shaking H) (outgoing : Lossy.Queue Bytes) (broadcasts : List Bytes)
  | connected (driven : Driven) (endpoint : Endpoint N)
  | closed (reason : Ended) (broadcasts : List Bytes)

namespace Peer

def ofShaking (outgoing : Lossy.Queue Bytes) (broadcasts : List Bytes) : Except IoError (Shaking H) → Peer H
  | .ok hs => .shaking hs outgoing broadcasts
  | .error e => .closed (.io e) broadcasts

def start (H : Handshake N) (party : Party) (side : Side) (entropy : H.Entropy) : Peer H :=
  ofShaking .new [] (Shaking.start H side party.localStaticSecret entropy)

/-- `drive_connection`, if the key is one that the task serves. -/
def admitted (party : Party) (side : Side) (outgoing : Lossy.Queue Bytes) (broadcasts : List Bytes) :
    Except IoError (N.State × StaticKey) → Peer H
  | .error e => .closed (.io e) broadcasts
  | .ok (transport, remoteStatic) =>
    match party.serve side remoteStatic with
    | .error e => .closed (.mesh e) broadcasts
    | .ok driven => .connected driven { Endpoint.new transport with outgoing, broadcasts }

def broadcasts : Peer H → List Bytes
  | .shaking _ _ log => log
  | .connected _ endpoint => endpoint.broadcasts
  | .closed _ log => log

def incoming : Peer H → List Bytes
  | .connected _ endpoint => endpoint.incoming
  | _ => []

/-- What the task has come to, once its handshake is over. -/
def outcome : Peer H → Option (Except Ended Driven)
  | .shaking _ _ _ => none
  | .connected driven _ => some (.ok driven)
  | .closed reason _ => some (.error reason)

end Peer

/-- What a step leaves: the task, the bytes it has not read, the bytes it has written. -/
structure PeerEffect (H : Handshake N) where
  peer : Peer H
  inbound : Bytes
  written : Bytes

inductive PeerAction where
  | shake
  /-- The stream fails, or ends. -/
  | fail (e : IoError)
  | act (action : Action)

namespace Peer

/-- The next step of a handshake: a turn begins, a byte goes out or comes in, or the end. -/
def shake (party : Party) (side : Side) (inbound : Bytes) (hs : Shaking H) (outgoing : Lossy.Queue Bytes)
    (broadcasts : List Bytes) : Option (PeerEffect H) :=
  match hs.stage with
  | .idle =>
    match hs.turns with
    | [] => some ⟨admitted party side outgoing broadcasts (finish H hs.state), inbound, []⟩
    | .writeMsg :: turns => some ⟨ofShaking outgoing broadcasts (hs.writeMsg turns), inbound, []⟩
    | .readMsg :: turns => some ⟨.shaking { hs with turns, stage := .reading (.header []) } outgoing broadcasts, inbound, []⟩
  | .writing [] => some ⟨.shaking { hs with stage := .idle } outgoing broadcasts, inbound, []⟩
  | .writing (b :: rest) => some ⟨.shaking { hs with stage := .writing rest } outgoing broadcasts, inbound, [b]⟩
  | .reading r =>
    match inbound with
    | [] => none
    | b :: inbound => some ⟨ofShaking outgoing broadcasts (hs.readMsg r b), inbound, []⟩

/-- `Mesh::broadcast` reaches the queue of a task that still has its receiver. -/
def broadcast (payload : Bytes) : Peer H → Peer H
  | .shaking hs outgoing log => .shaking hs (outgoing.send broadcastCapacity payload) (log ++ [payload])
  | .connected driven endpoint => .connected driven (endpoint.broadcast payload)
  | .closed reason log => .closed reason (log ++ [payload])

def step (party : Party) (side : Side) (peer : Peer H) (inbound : Bytes) : PeerAction → Option (PeerEffect H)
  | .act (.broadcast payload) => some ⟨peer.broadcast payload, inbound, []⟩
  | .shake =>
    match peer with
    | .shaking hs outgoing log => shake party side inbound hs outgoing log
    | _ => none
  | .fail e =>
    match peer with
    | .shaking _ _ log => some ⟨.closed (.io e) log, inbound, []⟩
    | _ => none
  | .act action =>
    match peer with
    | .connected driven endpoint =>
      (endpoint.act inbound action).map fun effect => ⟨.connected driven effect.endpoint, effect.inbound, effect.written⟩
    | _ => none

end Peer

/-- `wire side` holds the bytes that `side` has written and the other has not read. -/
structure Channel (H : Handshake N) where
  peer : Side → Peer H
  wire : Side → Bytes

namespace Channel

def start (H : Handshake N) (party : Side → Party) (entropy : Side → H.Entropy) : Channel H :=
  { peer := fun side => .start H (party side) side (entropy side), wire := fun _ => [] }

def after (channel : Channel H) (side : Side) (effect : PeerEffect H) : Channel H :=
  { peer := Function.update channel.peer side effect.peer
    wire := Function.update (Function.update channel.wire side.other effect.inbound) side
      (channel.wire side ++ effect.written) }

/-- A step, where the action is enabled. -/
def step (party : Side → Party) (channel : Channel H) (event : Side × PeerAction) : Except Unit (Channel H) :=
  let (side, action) := event
  match (channel.peer side).step (party side) side (channel.wire side.other) action with
  | none => .error ()
  | some effect => .ok (channel.after side effect)

end Channel

/-! ## Two honest sides -/

/-- A state that goes through the messages, its own and the other side's, to the last. -/
def Follows (H : Handshake N) (side : Side) : H.State → List (Side × Bytes) → H.State → Prop
  | state, [], final => state = final
  | state, (author, message) :: rest, final =>
    ∃ next, (author = side → H.writeMessage state [] = .ok (message, next)) ∧
      (author ≠ side → ∃ payload, H.readMessage state message = .ok (payload, next)) ∧ Follows H side next rest final

/-- An exchange that both sides follow: each ends with the key of the other, and
with a transport that reads what that of the other writes. -/
structure Agreed (H : Handshake N) (Linked : N.State → N.State → List (Bytes × Bytes) → Prop) (key : Side → StaticKey)
    (state : Side → H.State) (messages : List (Side × Bytes)) (final : Side → H.State) (transport : Side → N.State) :
    Prop where
  authors : messages.map Prod.fst = [.initiator, .responder, .initiator]
  short : ∀ m ∈ messages, m.2.length ≤ maxMessage
  follows : ∀ side, Follows H side (state side) messages (final side)
  remote : ∀ side, H.getRemoteStatic (final side) = some (key side.other).bytes.toList
  transports : ∀ side, H.intoTransportMode (final side) = .ok (transport side)
  linked : ∀ side, Linked (transport side) (transport side.other) []

/-- What the mesh relies on of the pattern, whatever keys and entropy there are. -/
structure HandshakeLaws (H : Handshake N) (publicOf : Vector UInt8 32 → StaticKey)
    (Linked : N.State → N.State → List (Bytes × Bytes) → Prop) : Prop where
  builds : ∀ side secret entropy, ∃ state, H.build side secret entropy = .ok state
  exchange : ∀ (secret : Side → Vector UInt8 32) (entropy : Side → H.Entropy) (state : Side → H.State),
    (∀ side, H.build side (secret side) (entropy side) = .ok (state side)) →
      ∃ messages final transport, Agreed H Linked (fun side => publicOf (secret side)) state messages final transport

theorem finish_ok {state : H.State} {key : StaticKey} {transport : N.State}
    (hkey : H.getRemoteStatic state = some key.bytes.toList) (ht : H.intoTransportMode state = .ok transport) :
    finish H state = .ok (transport, key) := by
  have hlen : key.bytes.toList.length = 32 := by simp
  unfold finish
  simp only [hkey, hlen, ht, dite_true]
  rfl

end Sapphire.Mesh
