import Sapphire.Frost
import Sapphire.Framing
import Sapphire.Replay

/-!
# A connection of the mesh

`codec` and `drive_connection`: two endpoints, each with a writer that takes
payloads from the broadcast queue, encrypts and writes them, and a reader that
takes bytes, decrypts frames and hands them on. Both lock one transport. The
tasks take their steps in any order.
-/

namespace Sapphire

/-- `snow::TransportState`, with its two calls. An error leaves the state as it is. -/
structure Noise where
  State : Type
  writeMessage : State → Bytes → Except String (Bytes × State)
  readMessage : State → Bytes → Except String (Bytes × State)

namespace Mesh

variable {N : Noise}

/-! ## Codec -/

def maxPayload : Nat := 65535 - 16

inductive IoError where
  | invalidData (msg : String)
  | invalidInput (msg : String)
  | other (msg : String)
  | unexpectedEof (msg : String)
deriving DecidableEq, Repr

def encryptFrame (transport : N.State) (payload : Bytes) : Except IoError (Bytes × N.State) :=
  if maxPayload < payload.length then
    .error (.invalidInput ("payload " ++ toString payload.length ++ " exceeds " ++ toString maxPayload))
  else
    match N.writeMessage transport payload with
    | .error e => .error (.other ("noise encrypt: " ++ e))
    | .ok result => .ok result

def decryptFrame (transport : N.State) (ciphertext : Bytes) : Except IoError (Bytes × N.State) :=
  match N.readMessage transport ciphertext with
  | .error e => .error (.invalidData ("noise decrypt: " ++ e))
  | .ok result => .ok result

/-- `read_frame_bytes` refuses longer frames. -/
def maxFrame : Nat := maxPayload + 16

/-! ## Endpoints -/

def broadcastCapacity : Nat := 1024

inductive Writer where
  | waiting
  | encrypting (payload : Bytes)
  | writing (rest : Bytes)
  | closed

inductive Reader where
  | reading (r : Framing.Reading)
  | received (ciphertext : Bytes)
  | sending (payload : Bytes)
  | closed

/-- One side of a connection. `broadcasts` is a log of what was handed to
`Mesh::broadcast` since the writer's queue was subscribed; no step reads it. -/
structure Endpoint (N : Noise) where
  transport : N.State
  outgoing : Lossy.Queue Bytes
  writer : Writer
  reader : Reader
  incoming : List Bytes
  broadcasts : List Bytes

inductive Action where
  | broadcast (payload : Bytes)
  | recv
  | encrypt
  | write
  | stopWriter
  | read
  | decrypt
  | send
  | stopReader

/-- What an action leaves: the endpoint, the bytes it has not read, the bytes it has written. -/
structure Effect (N : Noise) where
  endpoint : Endpoint N
  inbound : Bytes
  written : Bytes

namespace Endpoint

def new (transport : N.State) : Endpoint N :=
  { transport, outgoing := .new, writer := .waiting, reader := .reading (.header []), incoming := [], broadcasts := [] }

/-- A writer that has returned has dropped its receiver. -/
def broadcast (e : Endpoint N) (payload : Bytes) : Endpoint N :=
  match e.writer with
  | .closed => { e with broadcasts := e.broadcasts ++ [payload] }
  | _ =>
    { e with outgoing := e.outgoing.send broadcastCapacity payload, broadcasts := e.broadcasts ++ [payload] }

/-- `outgoing.recv()`. Nothing happens while the queue is empty; a lag is passed over. -/
def recv (e : Endpoint N) : Option (Endpoint N) :=
  match e.writer with
  | .waiting =>
    match e.outgoing.recv with
    | (.empty, _) => none
    | (.lagged _, outgoing) => some { e with outgoing }
    | (.value payload, outgoing) => some { e with outgoing, writer := .encrypting payload }
  | _ => none

/-- `encrypt_frame` under the lock. After an error the writer goes on with the next payload. -/
def encrypt (e : Endpoint N) : Option (Endpoint N) :=
  match e.writer with
  | .encrypting payload =>
    match encryptFrame e.transport payload with
    | .ok (ct, transport) => some { e with transport, writer := .writing (Framing.frame ct) }
    | .error _ => some { e with writer := .waiting }
  | _ => none

/-- One byte of `write_frame_bytes`, or its end. -/
def write (e : Endpoint N) : Option (Endpoint N × Bytes) :=
  match e.writer with
  | .writing [] => some ({ e with writer := .waiting }, [])
  | .writing (b :: rest) => some ({ e with writer := .writing rest }, [b])
  | _ => none

/-- The queue's senders are gone, or a write fails. -/
def stopWriter (e : Endpoint N) : Option (Endpoint N) :=
  match e.writer with
  | .waiting | .writing _ => some { e with writer := .closed }
  | _ => none

/-- One byte of `read_frame_bytes`. -/
def read (e : Endpoint N) (b : UInt8) : Option (Endpoint N) :=
  match e.reader with
  | .reading r =>
    match Framing.feed maxFrame r b with
    | none => some { e with reader := .closed }
    | some (.more r) => some { e with reader := .reading r }
    | some (.done ct) => some { e with reader := .received ct }
  | _ => none

/-- `decrypt_frame` under the lock. After an error the reader returns. -/
def decrypt (e : Endpoint N) : Option (Endpoint N) :=
  match e.reader with
  | .received ct =>
    match decryptFrame e.transport ct with
    | .ok (payload, transport) => some { e with transport, reader := .sending payload }
    | .error _ => some { e with reader := .closed }
  | _ => none

/-- `incoming.send`, once the channel has room. -/
def send (e : Endpoint N) : Option (Endpoint N) :=
  match e.reader with
  | .sending payload => some { e with incoming := e.incoming ++ [payload], reader := .reading (.header []) }
  | _ => none

/-- A read fails, or the channel is closed. -/
def stopReader (e : Endpoint N) : Option (Endpoint N) :=
  match e.reader with
  | .reading _ | .sending _ => some { e with reader := .closed }
  | _ => none

def act (e : Endpoint N) (inbound : Bytes) : Action → Option (Effect N)
  | .broadcast payload => some ⟨e.broadcast payload, inbound, []⟩
  | .recv => e.recv.map fun e => ⟨e, inbound, []⟩
  | .encrypt => e.encrypt.map fun e => ⟨e, inbound, []⟩
  | .write => e.write.map fun result => ⟨result.1, inbound, result.2⟩
  | .stopWriter => e.stopWriter.map fun e => ⟨e, inbound, []⟩
  | .read =>
    match inbound with
    | [] => none
    | b :: rest => (e.read b).map fun e => ⟨e, rest, []⟩
  | .decrypt => e.decrypt.map fun e => ⟨e, inbound, []⟩
  | .send => e.send.map fun e => ⟨e, inbound, []⟩
  | .stopReader => e.stopReader.map fun e => ⟨e, inbound, []⟩

end Endpoint

/-! ## Connections -/

inductive Side where
  | initiator
  | responder
deriving DecidableEq, Repr

def Side.other : Side → Side
  | .initiator => .responder
  | .responder => .initiator

@[simp] theorem Side.other_other (side : Side) : side.other.other = side := by cases side <;> rfl

theorem Side.other_ne (side : Side) : side.other ≠ side := by cases side <;> simp [other]

/-- `wire side` holds the bytes that `side` has written and the other has not read. -/
structure Connection (N : Noise) where
  endpoint : Side → Endpoint N
  wire : Side → Bytes

def Connection.new (transport : Side → N.State) : Connection N :=
  { endpoint := fun side => .new (transport side), wire := fun _ => [] }

abbrev Event := Side × Action

def Connection.after (conn : Connection N) (side : Side) (effect : Effect N) : Connection N :=
  { endpoint := Function.update conn.endpoint side effect.endpoint
    wire := Function.update (Function.update conn.wire side.other effect.inbound) side (conn.wire side ++ effect.written) }

/-- A step, where the action is enabled. -/
def Connection.step (conn : Connection N) (event : Event) : Except Unit (Connection N) :=
  let (side, action) := event
  match (conn.endpoint side).act (conn.wire side.other) action with
  | none => .error ()
  | some effect => .ok (conn.after side effect)

end Mesh

end Sapphire
