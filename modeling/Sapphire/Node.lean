import Sapphire.Chain

/-!
# A signing node

`sapphire-node`: the two FROST rounds of a key-share holder and its loop over
the requests on the chain. A call takes the node and the caller's random
number generator and returns both. Beside them runs a log of the calls that
draw or use nonces; no step reads it.
-/

namespace Sapphire

variable {C : Ciphersuite}

structure KeyShareBundle (C : Ciphersuite) where
  keyPackage : C.KeyPackage
  publicKeyPackage : C.PublicKeyPackage

abbrev SignPolicy := Bytes → Except String Unit

def acceptAll : SignPolicy := fun _ => .ok ()

structure Node (C : Ciphersuite) where
  identifier : C.Identifier
  bundle : KeyShareBundle C
  pending : BTreeMap Uuid C.SigningNonces
  committedRequests : Finset Uuid
  sharedRequests : Finset Uuid
  policy : SignPolicy

namespace Node

def new (bundle : KeyShareBundle C) : Node C where
  identifier := C.identifier bundle.keyPackage
  bundle := bundle
  pending := ∅
  committedRequests := ∅
  sharedRequests := ∅
  policy := acceptAll

def withPolicy (node : Node C) (policy : SignPolicy) : Node C := { node with policy }

def insertPending (node : Node C) (requestId : Uuid) (nonces : C.SigningNonces) : Node C :=
  { node with pending := node.pending.insert requestId nonces }

def removePending (node : Node C) (requestId : Uuid) : Node C :=
  { node with pending := node.pending.erase requestId }

def insertCommitted (node : Node C) (requestId : Uuid) : Node C :=
  { node with committedRequests := insert requestId node.committedRequests }

def insertShared (node : Node C) (requestId : Uuid) : Node C :=
  { node with sharedRequests := insert requestId node.sharedRequests }

end Node

/-! ## Calls into FROST -/

/-- A draw of nonces by `round1::commit`, and a use of them by `frost_rerandomized::sign`. -/
inductive FrostCall (C : Ciphersuite) where
  | commit (requestId : Uuid) (nonces : C.SigningNonces)
  | sign (requestId : Uuid) (nonces : C.SigningNonces) (signingPackage : C.SigningPackage)
      (randomizer : C.Randomizer)

structure Signer (C : Ciphersuite) where
  node : Node C
  calls : List (FrostCall C)

namespace Signer

def log (signer : Signer C) (call : FrostCall C) : Signer C := { signer with calls := signer.calls ++ [call] }

def modify (signer : Signer C) (f : Node C → Node C) : Signer C := { signer with node := f signer.node }

end Signer

structure Ctx (C : Ciphersuite) extends Signer C where
  rng : C.Rng

namespace Ctx

def modify (ctx : Ctx C) (f : Node C → Node C) : Ctx C := { ctx with toSigner := ctx.toSigner.modify f }

/-- `Node::commit`. The nonces are drawn before the session is looked up. -/
def commit (ctx : Ctx C) (sessionId : Uuid) : Except Error C.SigningCommitments × Ctx C :=
  let drawn := C.commit (C.signingShare ctx.node.bundle.keyPackage) ctx.rng
  let nonces := drawn.1.1
  let commitments := drawn.1.2
  let ctx : Ctx C := { toSigner := ctx.log (.commit sessionId nonces), rng := drawn.2 }
  if sessionId ∈ ctx.node.pending then (.error .sessionInUse, ctx)
  else (.ok commitments, ctx.modify (·.insertPending sessionId nonces))

/-- `Node::sign_share_rerandomized`. The nonces leave the cache before signing. -/
def signShareRerandomized (ctx : Ctx C) (sessionId : Uuid) (signingPackage : C.SigningPackage)
    (randomizer : C.Randomizer) : Except Error C.SignatureShare × Ctx C :=
  match ctx.node.pending[sessionId]? with
  | none => (.error .sessionNotFound, ctx)
  | some nonces =>
    let ctx := ctx.modify (·.removePending sessionId)
    let ctx := { ctx with toSigner := ctx.log (.sign sessionId nonces signingPackage randomizer) }
    match C.sign signingPackage nonces ctx.node.bundle.keyPackage randomizer with
    | .ok share => (.ok share, ctx)
    | .error e => (.error (.frost (C.errorToString e)), ctx)

/-! ## The reaction loop -/

/-- The body of the loop over requests: an error ends the call, `none` continues it. -/
def reactEntry (ctx : Ctx C) (requestId : Uuid) (entry : RequestEntry C) :
    Except Error (Option (Tx C)) × Ctx C :=
  let node := ctx.node
  match entry.status with
  | .awaitingCommitments commitments =>
    if node.identifier ∈ commitments then (.ok none, ctx.modify (·.insertCommitted requestId))
    else if requestId ∈ node.committedRequests then (.ok none, ctx)
    else
      match node.policy entry.message with
      | .error _ => (.ok none, ctx)
      | .ok () =>
        match ctx.commit requestId with
        | (.error e, ctx) => (.error e, ctx)
        | (.ok commitments, ctx) =>
          (.ok (some (.submitCommitment requestId node.identifier commitments)),
            ctx.modify (·.insertCommitted requestId))
  | .signing signingPackage participants shares =>
    if node.identifier ∉ participants then (.ok none, ctx)
    else if node.identifier ∈ shares then (.ok none, ctx.modify (·.insertShared requestId))
    else if requestId ∈ node.sharedRequests then (.ok none, ctx)
    else
      match ctx.signShareRerandomized requestId signingPackage entry.randomizer with
      | (.error .sessionNotFound, ctx) => (.ok none, ctx)
      | (.error e, ctx) => (.error e, ctx)
      | (.ok share, ctx) =>
        (.ok (some (.submitShare requestId node.identifier share)), ctx.modify (·.insertShared requestId))
  | .completed _ _ => (.ok none, ctx)
  | .failed _ => (.ok none, ctx)

/-- The loop, over the requests in key order. An error drops what was queued before it. -/
def reactEntries (ctx : Ctx C) (out : List (Tx C)) :
    List (Uuid × RequestEntry C) → Except Error (List (Tx C)) × Ctx C
  | [] => (.ok out, ctx)
  | (requestId, entry) :: rest =>
    match ctx.reactEntry requestId entry with
    | (.error e, ctx) => (.error e, ctx)
    | (.ok none, ctx) => ctx.reactEntries out rest
    | (.ok (some tx), ctx) => ctx.reactEntries (out ++ [tx]) rest

def react (ctx : Ctx C) (s : State C) : Except Error (List (Tx C)) × Ctx C :=
  match s.group with
  | none => (.ok [], ctx)
  | some group =>
    if ctx.node.identifier ∉ group.validators then (.ok [], ctx)
    else ctx.reactEntries [] s.requests.toList

end Ctx

/-- What a call hands to its caller; an error hands over nothing. -/
def returned {ε : Type} : Except ε (List (Tx C)) → List (Tx C)
  | .ok out => out
  | .error _ => []

end Sapphire
