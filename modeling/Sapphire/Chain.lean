import Sapphire.Frost

/-!
# The coordination chain: transactions, state, `apply_tx`

Translated arm by arm from `sapphire-chain`, with the types of
`sapphire-core` it carries. Checked machine arithmetic and `expect` panic as
in a build with overflow checks; a panic is a fault of its own, apart from
the errors a transaction is rejected with.
-/

namespace Sapphire

/-! ## Core types -/

structure MpcParams where
  threshold : UInt16
  total : UInt16
deriving DecidableEq, Repr

inductive Error where
  | invalidParams (threshold total : UInt16)
  | sessionInUse
  | sessionNotFound
  | frost (e : String)
deriving DecidableEq, Repr

/-- The validating constructor. The fields are public, so a decoded or
literal `MpcParams` need not have passed it. -/
def MpcParams.new (threshold total : UInt16) : Except Error MpcParams :=
  if threshold = 0 ∨ total = 0 ∨ total < threshold then .error (.invalidParams threshold total)
  else .ok { threshold, total }

structure Uuid where
  bytes : Vector UInt8 16
deriving Repr

/-- The derived order on `[u8; 16]`: lexicographic by byte. -/
instance : LinearOrder Uuid :=
  LinearOrder.lift' (fun u => u.bytes.toList.map UInt8.toNat) (by
    intro a b h
    cases a; cases b
    simpa [Vector.toList_inj, UInt8.toNat_inj, List.map_inj_right] using h)

structure EncPublicKey where
  bytes : Vector UInt8 32
deriving DecidableEq, Repr

/-- Sealed envelope. The chain stores it and never looks inside. -/
structure Sealed where
  bytes : Bytes
deriving DecidableEq, Repr

/-! ## Transactions and state -/

variable {C : Ciphersuite}

inductive Tx (C : Ciphersuite) where
  | initGroup (params : MpcParams) (pkp : C.PublicKeyPackage) (validators : List C.Identifier)
  | dkgBegin (params : MpcParams) (validators : BTreeMap C.Identifier EncPublicKey)
  | dkgRound1 (sender : C.Identifier) (package : C.Round1Package)
  | dkgRound2 (sender recipient : C.Identifier) (sealed : Sealed)
  | dkgFinalize (sender : C.Identifier) (pkp : C.PublicKeyPackage)
  | submitRequest (requestId : Uuid) (message : Bytes) (randomizer : C.Randomizer)
  | submitCommitment (requestId : Uuid) (validator : C.Identifier) (commitments : C.SigningCommitments)
  | submitShare (requestId : Uuid) (validator : C.Identifier) (share : C.SignatureShare)

inductive RequestStatus (C : Ciphersuite) where
  | awaitingCommitments (commitments : BTreeMap C.Identifier C.SigningCommitments)
  | signing (signingPackage : C.SigningPackage) (participants : Finset C.Identifier)
      (shares : BTreeMap C.Identifier C.SignatureShare)
  | completed (participants : Finset C.Identifier) (signature : C.Signature)
  | failed (reason : String)

structure RequestEntry (C : Ciphersuite) where
  requestId : Uuid
  message : Bytes
  randomizer : C.Randomizer
  status : RequestStatus C

structure DkgCeremony (C : Ciphersuite) where
  params : MpcParams
  validators : BTreeMap C.Identifier EncPublicKey
  round1 : BTreeMap C.Identifier C.Round1Package
  /-- Keyed by `(from, to)`, ordered lexicographically. -/
  round2 : BTreeMap (C.Identifier ×ₗ C.Identifier) Sealed
  finalize : BTreeMap C.Identifier C.PublicKeyPackage

structure GroupConfig (C : Ciphersuite) where
  params : MpcParams
  pkp : C.PublicKeyPackage
  validators : Finset C.Identifier

structure State (C : Ciphersuite) where
  ceremony : Option (DkgCeremony C)
  group : Option (GroupConfig C)
  requests : BTreeMap Uuid (RequestEntry C)

def State.default : State C := { ceremony := none, group := none, requests := ∅ }

/-! ## Errors and panics -/

inductive ApplyError where
  | alreadyInitialized
  | notInitialized
  | validatorSetMismatch
  | ceremonyAlreadyInProgress
  | noCeremony
  | badDkgValidatorCount
  | round1NotComplete
  | round2NotComplete
  | duplicateRound1 (v : String)
  | duplicateRound2 (sender recipient : String)
  | duplicateFinalize (v : String)
  | selfAddressedRound2 (v : String)
  | unknownDkgValidator (v : String)
  | pkpMismatch (v : String)
  | duplicateRequest (id : Uuid)
  | unknownRequest (id : Uuid)
  | unknownValidator (v : String)
  | duplicateCommitment
  | duplicateShare
  | notAwaitingCommitments
  | notSigning
  | notSelectedParticipant
deriving DecidableEq, Repr

inductive Fault where
  | err (e : ApplyError)
  | panic (msg : String)
deriving DecidableEq, Repr

abbrev Outcome (α : Type) := Except Fault α

def reject {α : Type} (e : ApplyError) : Outcome α := .error (.err e)

def usizeSub (a b : Nat) : Outcome Nat :=
  if b ≤ a then .ok (a - b) else .error (.panic "attempt to subtract with overflow")

def usizeMul (a b : Nat) : Outcome Nat :=
  if a * b < 2 ^ 64 then .ok (a * b) else .error (.panic "attempt to multiply with overflow")

/-! ## Ceremony tests -/

namespace DkgCeremony

def total (c : DkgCeremony C) : Nat := c.params.total.toNat

def r1Complete (c : DkgCeremony C) : Bool := c.round1.size == c.total

def r2Complete (c : DkgCeremony C) : Outcome Bool := do
  let others ← usizeSub c.total 1
  let pairs ← usizeMul c.total others
  return c.round2.size == pairs

def finalizeComplete (c : DkgCeremony C) : Bool := c.finalize.size == c.total

end DkgCeremony

def requireGroup (s : State C) : Outcome (GroupConfig C) :=
  match s.group with
  | some g => .ok g
  | none => reject .notInitialized

/-! ## Bootstrap -/

def applyInitGroup (s : State C) (params : MpcParams) (pkp : C.PublicKeyPackage)
    (validators : List C.Identifier) : Outcome (State C) :=
  if s.group.isSome then reject .alreadyInitialized
  else if s.ceremony.isSome then reject .ceremonyAlreadyInProgress
  else
    let pkpIds := BTreeMap.dom (C.verifyingShares pkp)
    let vs := validators.toFinset
    if pkpIds ≠ vs then reject .validatorSetMismatch
    else .ok { s with group := some { params, pkp, validators := vs } }

def applyDkgBegin (s : State C) (params : MpcParams) (validators : BTreeMap C.Identifier EncPublicKey) :
    Outcome (State C) :=
  if s.group.isSome then reject .alreadyInitialized
  else if s.ceremony.isSome then reject .ceremonyAlreadyInProgress
  else if validators.size ≠ params.total.toNat then reject .badDkgValidatorCount
  else .ok { s with ceremony := some { params, validators, round1 := ∅, round2 := ∅, finalize := ∅ } }

/-! ## Ceremony rounds -/

def applyDkgRound1 (s : State C) (sender : C.Identifier) (package : C.Round1Package) : Outcome (State C) :=
  match s.ceremony with
  | none => reject .noCeremony
  | some c =>
    if sender ∉ c.validators then reject (.unknownDkgValidator (C.identifierDebug sender))
    else if sender ∈ c.round1 then reject (.duplicateRound1 (C.identifierDebug sender))
    else .ok { s with ceremony := some { c with round1 := c.round1.insert sender package } }

def applyDkgRound2 (s : State C) (sender recipient : C.Identifier) (sealed : Sealed) : Outcome (State C) :=
  match s.ceremony with
  | none => reject .noCeremony
  | some c =>
    if c.r1Complete = false then reject .round1NotComplete
    else if sender = recipient then reject (.selfAddressedRound2 (C.identifierDebug sender))
    else if sender ∉ c.validators then reject (.unknownDkgValidator (C.identifierDebug sender))
    else if recipient ∉ c.validators then reject (.unknownDkgValidator (C.identifierDebug recipient))
    else if toLex (sender, recipient) ∈ c.round2 then
      reject (.duplicateRound2 (C.identifierDebug sender) (C.identifierDebug recipient))
    else .ok { s with ceremony := some { c with round2 := c.round2.insert (toLex (sender, recipient)) sealed } }

/-- The comparison with the first stored package: `Some(first)` and either field differs. -/
def DkgCeremony.mismatch (c : DkgCeremony C) (pkp : C.PublicKeyPackage) : Bool :=
  match BTreeMap.first? c.finalize with
  | none => false
  | some (_, first) =>
    C.verifyingKey first ≠ C.verifyingKey pkp || C.verifyingShares first ≠ C.verifyingShares pkp

/-- Promotion: take the ceremony and commit the package of its smallest identifier. -/
def State.promote (s : State C) : Outcome (State C) :=
  match s.ceremony with
  | none => .error (.panic "just confirmed present")
  | some c =>
    match BTreeMap.first? c.finalize with
    | none => .error (.panic "finalize_complete implies non-empty")
    | some (_, agreedPkp) =>
      let group : GroupConfig C := { params := c.params, pkp := agreedPkp, validators := BTreeMap.dom c.validators }
      .ok { s with ceremony := none, group := some group }

def applyDkgFinalize (s : State C) (sender : C.Identifier) (pkp : C.PublicKeyPackage) : Outcome (State C) :=
  match s.ceremony with
  | none => reject .noCeremony
  | some c =>
    match c.r2Complete with
    | .error f => .error f
    | .ok false => reject .round2NotComplete
    | .ok true =>
      if sender ∉ c.validators then reject (.unknownDkgValidator (C.identifierDebug sender))
      else if sender ∈ c.finalize then reject (.duplicateFinalize (C.identifierDebug sender))
      else if c.mismatch pkp then reject (.pkpMismatch (C.identifierDebug sender))
      else
        let c' := { c with finalize := c.finalize.insert sender pkp }
        let s' := { s with ceremony := some c' }
        if c'.finalizeComplete then s'.promote else .ok s'

/-! ## Requests -/

def applySubmitRequest (s : State C) (requestId : Uuid) (message : Bytes) (randomizer : C.Randomizer) :
    Outcome (State C) := do
  let _ ← requireGroup s
  if requestId ∈ s.requests then reject (.duplicateRequest requestId)
  else
    let entry : RequestEntry C := { requestId, message, randomizer, status := .awaitingCommitments ∅ }
    return { s with requests := s.requests.insert requestId entry }

/-- The threshold cut: with `map.len() as u16` at the threshold, the first
`threshold` commitments in identifier order become the signing package. -/
def thresholdCut (params : MpcParams) (message : Bytes) (map : BTreeMap C.Identifier C.SigningCommitments) :
    RequestStatus C :=
  if params.threshold ≤ UInt16.ofNat map.size then
    let chosen := BTreeMap.cut params.threshold.toNat map
    .signing (C.signingPackage chosen message) (BTreeMap.dom chosen) ∅
  else .awaitingCommitments map

def RequestEntry.addCommitment (entry : RequestEntry C) (params : MpcParams) (validator : C.Identifier)
    (commitments : C.SigningCommitments) : Outcome (RequestEntry C) :=
  match entry.status with
  | .awaitingCommitments map =>
    if validator ∈ map then reject .duplicateCommitment
    else .ok { entry with status := thresholdCut params entry.message (map.insert validator commitments) }
  | _ => reject .notAwaitingCommitments

def applySubmitCommitment (s : State C) (requestId : Uuid) (validator : C.Identifier)
    (commitments : C.SigningCommitments) : Outcome (State C) := do
  let group ← requireGroup s
  if validator ∉ group.validators then reject (.unknownValidator (C.identifierDebug validator))
  else match s.requests[requestId]? with
    | none => reject (.unknownRequest requestId)
    | some entry =>
      let entry' ← entry.addCommitment group.params validator commitments
      return { s with requests := s.requests.insert requestId entry' }

/-- With every selected participant's share in, aggregate under the
rerandomized key; otherwise stay in the signing phase. -/
def aggregateIfComplete (pkp : C.PublicKeyPackage) (randomizer : C.Randomizer) (signingPackage : C.SigningPackage)
    (participants : Finset C.Identifier) (shares : BTreeMap C.Identifier C.SignatureShare) : RequestStatus C :=
  if shares.size = participants.card then
    match C.aggregate signingPackage shares pkp (C.fromRandomizer (C.verifyingKey pkp) randomizer) with
    | .ok signature => .completed participants signature
    | .error e => .failed (C.errorToString e)
  else .signing signingPackage participants shares

def RequestEntry.addShare (entry : RequestEntry C) (pkp : C.PublicKeyPackage) (validator : C.Identifier)
    (share : C.SignatureShare) : Outcome (RequestEntry C) :=
  match entry.status with
  | .signing signingPackage participants shares =>
    if validator ∉ participants then reject .notSelectedParticipant
    else if validator ∈ shares then reject .duplicateShare
    else .ok { entry with
      status := aggregateIfComplete pkp entry.randomizer signingPackage participants (shares.insert validator share) }
  | _ => reject .notSigning

def applySubmitShare (s : State C) (requestId : Uuid) (validator : C.Identifier) (share : C.SignatureShare) :
    Outcome (State C) := do
  let group ← requireGroup s
  if validator ∉ group.validators then reject (.unknownValidator (C.identifierDebug validator))
  else match s.requests[requestId]? with
    | none => reject (.unknownRequest requestId)
    | some entry =>
      let entry' ← entry.addShare group.pkp validator share
      return { s with requests := s.requests.insert requestId entry' }

/-! ## The transition function -/

def applyTx (s : State C) : Tx C → Outcome (State C)
  | .initGroup params pkp validators => applyInitGroup s params pkp validators
  | .dkgBegin params validators => applyDkgBegin s params validators
  | .dkgRound1 sender package => applyDkgRound1 s sender package
  | .dkgRound2 sender recipient sealed => applyDkgRound2 s sender recipient sealed
  | .dkgFinalize sender pkp => applyDkgFinalize s sender pkp
  | .submitRequest requestId message randomizer => applySubmitRequest s requestId message randomizer
  | .submitCommitment requestId validator commitments => applySubmitCommitment s requestId validator commitments
  | .submitShare requestId validator share => applySubmitShare s requestId validator share

end Sapphire
