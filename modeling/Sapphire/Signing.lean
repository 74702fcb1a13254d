import Sapphire.ChainInv
import Sapphire.Ideal
import Sapphire.Session

/-!
# Honest signing sessions complete

Between two sessions every request is completed, the mempool is empty, and
what the nodes remember is of old requests only, nonces of unselected nodes
included. From there a session takes two blocks: the first threshold of the
slice is selected, the surplus is rejected, and the selected sign.
-/

namespace Sapphire

open BTreeMap Replay

variable {C : Ciphersuite}

/-! ## Groups and calls -/

structure GroupKeys (C : Ciphersuite) where
  params : MpcParams
  ids : Finset C.Identifier
  key : C.Identifier → C.KeyPackage
  pkp : C.PublicKeyPackage

namespace GroupKeys

variable (K : GroupKeys C)

def threshold : Nat := K.params.threshold.toNat

def group : GroupConfig C := { params := K.params, pkp := K.pkp, validators := K.ids }

structure Honest : Prop where
  threshold : 2 ≤ K.threshold
  le : K.threshold ≤ K.ids.card
  total : K.ids.card = K.params.total.toNat
  identifier : ∀ i ∈ K.ids, C.identifier (K.key i) = i
  shares : dom (C.verifyingShares K.pkp) = K.ids

/-- The members of `S` have drawn these nonces and commitments. -/
def Draws (S : Finset C.Identifier) (drawn : C.Identifier → C.SigningNonces × C.SigningCommitments) : Prop :=
  S ⊆ K.ids ∧ ∀ i ∈ S, ∃ rng, (C.commit (C.signingShare (K.key i)) rng).1 = drawn i

end GroupKeys

def packageOf (S : Finset C.Identifier) (drawn : C.Identifier → C.SigningNonces × C.SigningCommitments)
    (message : Bytes) : C.SigningPackage :=
  C.signingPackage (tabulate S fun i => (drawn i).2) message

/-- Signing and aggregation succeed on matching nonces, commitments and keys of
at least a threshold of signers, and the signature is valid. -/
structure HonestSigning (K : GroupKeys C) : Prop where
  sign : ∀ S drawn message randomizer, K.Draws S drawn → K.threshold ≤ S.card → ∀ i ∈ S,
    ∃ share, C.sign (packageOf S drawn message) (drawn i).1 (K.key i) randomizer = .ok share
  aggregate : ∀ S drawn message randomizer share, K.Draws S drawn → K.threshold ≤ S.card →
    (∀ i ∈ S, C.sign (packageOf S drawn message) (drawn i).1 (K.key i) randomizer = .ok (share i)) →
    ∃ signature, C.aggregate (packageOf S drawn message) (tabulate S share) K.pkp
        (C.fromRandomizer (C.verifyingKey K.pkp) randomizer) = .ok signature ∧
      C.verify (C.verifyingKey K.pkp + randomizer • C.generator) message signature = true

/-- A chain and everybody's node. -/
structure SigningSim (C : Ciphersuite) where
  chain : ChainSim C
  node : C.Identifier → Node C

structure SigningCall (C : Ciphersuite) where
  sighash : Vector UInt8 32
  alpha : C.Randomizer
  slice : List C.Identifier
  rng : C.Rng

def writeBack (slice : List C.Identifier) (validators : List (Node C)) (node : C.Identifier → Node C) :
    C.Identifier → Node C :=
  (slice.zip validators).foldl (fun node entry => Function.update node entry.1 entry.2) node

namespace SigningSim

def session (sim : SigningSim C) (call : SigningCall C) : SigningSession C :=
  { chain := sim.chain, validators := call.slice.map sim.node, rng := call.rng }

/-- A session that has ended, with the nodes of its slice back in their places. -/
def after (sim : SigningSim C) (call : SigningCall C) (session : SigningSession C) : SigningSim C :=
  { chain := session.chain, node := writeBack call.slice session.validators sim.node }

def drive (fillBytes : C.Rng → Vector UInt8 16 × C.Rng) (sim : SigningSim C) (call : SigningCall C) :
    Except SignFault C.Signature × SigningSim C :=
  let result := SigningSession.driveSigningSession fillBytes call.sighash call.alpha (sim.session call)
  (result.1, sim.after call result.2)

def driveAll (fillBytes : C.Rng → Vector UInt8 16 × C.Rng) (sim : SigningSim C) (calls : List (SigningCall C)) :
    SigningSim C :=
  calls.foldl (fun sim call => (sim.drive fillBytes call).2) sim

/-- On a fresh chain with the group initialized, with fresh nodes. -/
def start (K : GroupKeys C) (validators : List C.Identifier) : SigningSim C where
  chain :=
    match (ChainSim.new.submit (.initGroup K.params K.pkp validators)).commitBlock with
    | .ok (_, chain) => chain
    | .error _ => ChainSim.new
  node := fun i => Node.new { keyPackage := K.key i, publicKeyPackage := K.pkp }

end SigningSim

theorem writeBack_map {slice : List C.Identifier} (hd : slice.Nodup) (node node' : C.Identifier → Node C)
    (i : C.Identifier) : writeBack slice (slice.map node') node i = if i ∈ slice then node' i else node i := by
  induction slice generalizing node with
  | nil => rfl
  | cons j slice ih =>
    obtain ⟨hnew, hd⟩ := List.nodup_cons.mp hd
    change writeBack slice (slice.map node') (Function.update node j (node' j)) i = _
    rw [ih hd]
    by_cases hi : i ∈ slice
    · simp [hi]
    by_cases hij : i = j
    · subst hij
      simp [hi]
    · simp [hi, hij]

/-! ## One member after the other -/

/-- Steps that each add one member of `T` add a list of them. -/
theorem run_members {T : Finset C.Identifier} {stateAt : Finset C.Identifier → State C} {tx : C.Identifier → Tx C}
    (hstep : ∀ done ⊆ T, ∀ i ∈ T, i ∉ done → applyTx (stateAt done) (tx i) = .ok (stateAt (insert i done))) :
    ∀ {l : List C.Identifier} {done : Finset C.Identifier}, l.Nodup → (∀ i ∈ l, i ∈ T ∧ i ∉ done) → done ⊆ T →
      run applyTx (stateAt done) (l.map tx) = .ok (stateAt (done ∪ l.toFinset)) := by
  intro l
  induction l with
  | nil =>
    intro done _ _ _
    simp [run_nil]
  | cons i l ih =>
    intro done hd hl hdone
    obtain ⟨hnew, hd⟩ := List.nodup_cons.mp hd
    obtain ⟨hi, hfresh⟩ := hl i (by simp)
    have hrest : ∀ j ∈ l, j ∈ T ∧ j ∉ insert i done := by
      intro j hj
      obtain ⟨hjT, hjd⟩ := hl j (List.mem_cons_of_mem _ hj)
      refine ⟨hjT, fun hin => ?_⟩
      rcases Finset.mem_insert.mp hin with rfl | hin
      · exact hnew hj
      · exact hjd hin
    have hrun := ih hd hrest (Finset.insert_subset hi hdone)
    rw [Finset.insert_union, ← Finset.union_insert] at hrun
    rw [List.toFinset_cons]
    exact run_cons.mpr ⟨_, hstep done hdone i hi hfresh, hrun⟩

section
variable {K : GroupKeys C} {s : State C} {id : Uuid} {message : Bytes} {randomizer : C.Randomizer}

/-- The request when the members of `done` have committed. -/
def committedEntry (K : GroupKeys C) (id : Uuid) (message : Bytes) (randomizer : C.Randomizer)
    (commitments : C.Identifier → C.SigningCommitments) (done : Finset C.Identifier) : RequestEntry C :=
  { requestId := id, message, randomizer, status := thresholdCut K.params message (tabulate done commitments) }

/-- The request when the members of `done` have sent their shares. -/
def sharedEntry (K : GroupKeys C) (id : Uuid) (message : Bytes) (randomizer : C.Randomizer) (pkg : C.SigningPackage)
    (S : Finset C.Identifier) (share : C.Identifier → C.SignatureShare) (done : Finset C.Identifier) : RequestEntry C :=
  { requestId := id, message, randomizer,
    status := aggregateIfComplete K.pkp randomizer pkg S (tabulate done share) }

theorem committed_awaiting {commitments : C.Identifier → C.SigningCommitments} {done : Finset C.Identifier}
    (h : done.card < K.threshold) :
    thresholdCut K.params message (tabulate done commitments) = .awaitingCommitments (tabulate done commitments) := by
  have hlt := K.params.threshold.toNat_lt
  unfold GroupKeys.threshold at h
  rw [thresholdCut_eq (by rw [size_tabulate]; omega), size_tabulate, if_neg (by omega)]

theorem committed_signing {commitments : C.Identifier → C.SigningCommitments} {S : Finset C.Identifier}
    (h : S.card = K.threshold) : thresholdCut K.params message (tabulate S commitments) =
      .signing (C.signingPackage (tabulate S commitments) message) S ∅ := by
  have hlt := K.params.threshold.toNat_lt
  unfold GroupKeys.threshold at h
  have hsize : (tabulate S commitments).size = K.params.threshold.toNat := by rw [size_tabulate, h]
  rw [thresholdCut_eq (by omega), if_pos hsize.ge, cut_of_size hsize.le, dom_tabulate]

theorem shared_signing {pkg : C.SigningPackage} {S done : Finset C.Identifier} {share : C.Identifier → C.SignatureShare}
    (h : done.card ≠ S.card) : aggregateIfComplete K.pkp randomizer pkg S (tabulate done share) =
      .signing pkg S (tabulate done share) := by
  unfold aggregateIfComplete
  rw [size_tabulate, if_neg h]

theorem shared_completed {pkg : C.SigningPackage} {S : Finset C.Identifier} {share : C.Identifier → C.SignatureShare}
    {signature : C.Signature} (h : C.aggregate pkg (tabulate S share) K.pkp
      (C.fromRandomizer (C.verifyingKey K.pkp) randomizer) = .ok signature) :
    aggregateIfComplete K.pkp randomizer pkg S (tabulate S share) = .completed S signature := by
  unfold aggregateIfComplete
  rw [if_pos (size_tabulate S share), h]

theorem run_commitments (hg : s.group = some K.group) {S : Finset C.Identifier} (hS : S ⊆ K.ids)
    (hcard : S.card = K.threshold) (commitments : C.Identifier → C.SigningCommitments) {l : List C.Identifier}
    (hd : l.Nodup) (hl : l.toFinset = S) :
    run applyTx (s.withRequest id (committedEntry K id message randomizer commitments ∅))
        (l.map fun i => .submitCommitment id i (commitments i)) =
      .ok (s.withRequest id (committedEntry K id message randomizer commitments S)) := by
  have hstep : ∀ done ⊆ S, ∀ i ∈ S, i ∉ done →
      applyTx (s.withRequest id (committedEntry K id message randomizer commitments done))
          (.submitCommitment id i (commitments i)) =
        .ok (s.withRequest id (committedEntry K id message randomizer commitments (insert i done))) := by
    intro done hdone i hi hfresh
    have hlt : done.card < K.threshold := by
      rw [← hcard]
      exact Finset.card_lt_card ⟨hdone, fun hsub => hfresh (hsub hi)⟩
    refine (applyTx_request_ok rfl).mpr ⟨K.group, committedEntry K id message randomizer commitments (insert i done), hg,
      entryStep_submitCommitment.mpr ⟨hS hi, _, tabulate done commitments, s.withRequest_self id _,
        committed_awaiting hlt, by rwa [mem_tabulate], ?_⟩, (s.withRequest_twice id _ _).symm⟩
    rw [insert_tabulate]
    rfl
  have hrun := run_members hstep hd (fun i hi => ⟨hl ▸ List.mem_toFinset.mpr hi, by simp⟩) (Finset.empty_subset S)
  rwa [Finset.empty_union, hl] at hrun

theorem run_shares (hg : s.group = some K.group) {S : Finset C.Identifier} (hS : S ⊆ K.ids) (pkg : C.SigningPackage)
    (share : C.Identifier → C.SignatureShare) {l : List C.Identifier} (hd : l.Nodup) (hl : l.toFinset = S) :
    run applyTx (s.withRequest id (sharedEntry K id message randomizer pkg S share ∅))
        (l.map fun i => .submitShare id i (share i)) =
      .ok (s.withRequest id (sharedEntry K id message randomizer pkg S share S)) := by
  have hstep : ∀ done ⊆ S, ∀ i ∈ S, i ∉ done →
      applyTx (s.withRequest id (sharedEntry K id message randomizer pkg S share done)) (.submitShare id i (share i)) =
        .ok (s.withRequest id (sharedEntry K id message randomizer pkg S share (insert i done))) := by
    intro done hdone i hi hfresh
    have hlt : done.card < S.card := Finset.card_lt_card ⟨hdone, fun hsub => hfresh (hsub hi)⟩
    refine (applyTx_request_ok rfl).mpr ⟨K.group, sharedEntry K id message randomizer pkg S share (insert i done), hg,
      entryStep_submitShare.mpr ⟨hS hi, _, pkg, S, tabulate done share, s.withRequest_self id _,
        shared_signing hlt.ne, hi, by rwa [mem_tabulate], ?_⟩, (s.withRequest_twice id _ _).symm⟩
    rw [insert_tabulate]
    rfl
  have hrun := run_members hstep hd (fun i hi => ⟨hl ▸ List.mem_toFinset.mpr hi, by simp⟩) (Finset.empty_subset S)
  rwa [Finset.empty_union, hl] at hrun

theorem surplus_rejected (hg : s.group = some K.group) {e : RequestEntry C} {pkg parts shares}
    (hs : e.status = .signing pkg parts shares) {i : C.Identifier} (hi : i ∈ K.ids)
    (commitments : C.SigningCommitments) :
    applyTx (s.withRequest id e) (.submitCommitment id i commitments) = .error (.err .notAwaitingCommitments) := by
  have hv : i ∈ K.group.validators := hi
  simp [applyTx, applySubmitCommitment, requireGroup, hg, hv, RequestEntry.addCommitment, hs, reject, bind, Except.bind]

end

/-! ## Reactions of a rested node -/

/-- What a node of `i` remembers is of `used` requests. -/
structure Node.Rested (K : GroupKeys C) (used : List Uuid) (i : C.Identifier) (node : Node C) : Prop where
  identifier : node.identifier = i
  keyPackage : node.bundle.keyPackage = K.key i
  policy : node.policy = acceptAll
  pending : ∀ id ∈ node.pending, id ∈ used
  committed : ∀ id ∈ node.committedRequests, id ∈ used
  shared : ∀ id ∈ node.sharedRequests, id ∈ used

namespace Node

/-- With nonces for a request cached, and known to have committed to it. -/
def holding (node : Node C) (id : Uuid) (nonces : C.SigningNonces) : Node C :=
  (node.insertPending id nonces).insertCommitted id

/-- With its share for a request sent. -/
def signed (node : Node C) (id : Uuid) : Node C := (node.removePending id).insertShared id

namespace Rested

variable {K : GroupKeys C} {used : List Uuid} {i : C.Identifier} {node : Node C} (h : node.Rested K used i)
include h

theorem more (id : Uuid) : node.Rested K (id :: used) i where
  identifier := h.identifier
  keyPackage := h.keyPackage
  policy := h.policy
  pending := fun id' hid => List.mem_cons_of_mem _ (h.pending id' hid)
  committed := fun id' hid => List.mem_cons_of_mem _ (h.committed id' hid)
  shared := fun id' hid => List.mem_cons_of_mem _ (h.shared id' hid)

theorem holding (id : Uuid) (nonces : C.SigningNonces) : (node.holding id nonces).Rested K (id :: used) i where
  identifier := h.identifier
  keyPackage := h.keyPackage
  policy := h.policy
  pending := fun id' hid => by
    rcases mem_insert'.mp hid with rfl | hid
    · simp
    · exact List.mem_cons_of_mem _ (h.pending id' hid)
  committed := fun id' hid => by
    rcases Finset.mem_insert.mp hid with rfl | hid
    · simp
    · exact List.mem_cons_of_mem _ (h.committed id' hid)
  shared := fun id' hid => List.mem_cons_of_mem _ (h.shared id' hid)

theorem signed {id : Uuid} (hid : id ∈ used) : (node.signed id).Rested K used i where
  identifier := h.identifier
  keyPackage := h.keyPackage
  policy := h.policy
  pending := fun id' hid' => h.pending id' (Std.ExtTreeMap.mem_of_mem_erase hid')
  committed := h.committed
  shared := fun id' hid' => by
    rcases Finset.mem_insert.mp hid' with rfl | hid'
    · exact hid
    · exact h.shared id' hid'

end Rested

end Node

namespace Ctx

variable {id : Uuid} {e : RequestEntry C}

theorem reactEntry_commits (ctx : Ctx C) (hs : e.status = .awaitingCommitments ∅)
    (hc : id ∉ ctx.node.committedRequests) (hp : id ∉ ctx.node.pending) (hpolicy : ctx.node.policy = acceptAll) :
    ∃ drawn, (C.commit (C.signingShare ctx.node.bundle.keyPackage) ctx.rng).1 = drawn ∧
      (ctx.reactEntry id e).1 = .ok (some (.submitCommitment id ctx.node.identifier drawn.2)) ∧
      (ctx.reactEntry id e).2.node = ctx.node.holding id drawn.1 := by
  have hcommit : ctx.commit id = (.ok (C.commit (C.signingShare ctx.node.bundle.keyPackage) ctx.rng).1.2,
      { toSigner := (ctx.log (.commit id (C.commit (C.signingShare ctx.node.bundle.keyPackage) ctx.rng).1.1)).modify
          (·.insertPending id (C.commit (C.signingShare ctx.node.bundle.keyPackage) ctx.rng).1.1),
        rng := (C.commit (C.signingShare ctx.node.bundle.keyPackage) ctx.rng).2 }) := if_neg hp
  refine ⟨_, rfl, ?_⟩
  unfold reactEntry
  simp only [hs, hc, hpolicy, acceptAll, hcommit, Std.ExtTreeMap.not_mem_empty, if_false]
  exact ⟨trivial, rfl⟩

theorem reactEntry_signs (ctx : Ctx C) {pkg : C.SigningPackage} {S : Finset C.Identifier} {nonces : C.SigningNonces}
    {share : C.SignatureShare} (hs : e.status = .signing pkg S ∅) (hi : ctx.node.identifier ∈ S)
    (hfresh : id ∉ ctx.node.sharedRequests) (hn : ctx.node.pending[id]? = some nonces)
    (hsign : C.sign pkg nonces ctx.node.bundle.keyPackage e.randomizer = .ok share) :
    (ctx.reactEntry id e).1 = .ok (some (.submitShare id ctx.node.identifier share)) ∧
      (ctx.reactEntry id e).2.node = ctx.node.signed id := by
  unfold reactEntry
  simp only [hs, hi, hfresh, sign_some hn, hsign, Except.mapError, Std.ExtTreeMap.not_mem_empty, not_true, if_false]
  exact ⟨trivial, rfl⟩

theorem reactEntry_unselected (ctx : Ctx C) {pkg : C.SigningPackage} {S : Finset C.Identifier}
    {shares : BTreeMap C.Identifier C.SignatureShare} (hs : e.status = .signing pkg S shares)
    (hi : ctx.node.identifier ∉ S) : ctx.reactEntry id e = (.ok none, ctx) := by
  unfold reactEntry
  simp [hs, hi]

end Ctx

/-! ## Two rounds -/

/-- The state of a chain with one open request. -/
structure OpenAt (K : GroupKeys C) (s : State C) (id : Uuid) (e : RequestEntry C) : Prop where
  group : s.group = some K.group
  entry : s.requests[id]? = some e
  others : ∀ (id' : Uuid) (e' : RequestEntry C), s.requests[id']? = some e' → id' ≠ id → e'.Done

theorem OpenAt.react {K : GroupKeys C} {s : State C} {id : Uuid} {e : RequestEntry C} (h : OpenAt K s id e)
    {ctx : Ctx C}
    (hi : ctx.node.identifier ∈ K.ids) {tx : Option (Tx C)} (hr : (ctx.reactEntry id e).1 = .ok tx) :
    ctx.react s = (.ok tx.toList, (ctx.reactEntry id e).2) :=
  Ctx.react_single h.group hi h.entry h.others (Prod.ext hr rfl)

theorem OpenAt.withRequest {K : GroupKeys C} {s : State C} {id : Uuid} (hg : s.group = some K.group)
    (hdone : ∀ (id' : Uuid) (e' : RequestEntry C), s.requests[id']? = some e' → e'.Done) (e : RequestEntry C) :
    OpenAt K (s.withRequest id e) id e where
  group := hg
  entry := s.withRequest_self id e
  others := fun id' e' he hne => by
    rw [s.withRequest_of_ne e hne.symm] at he
    exact hdone id' e' he

section
variable {K : GroupKeys C} {used : List Uuid} {node : C.Identifier → Node C} {slice : List C.Identifier} {id : Uuid}
  {message : Bytes} {randomizer : C.Randomizer} {s : State C}

def opened (id : Uuid) (message : Bytes) (randomizer : C.Randomizer) : RequestEntry C :=
  { requestId := id, message, randomizer, status := .awaitingCommitments ∅ }

def commitTx (id : Uuid) (drawn : C.Identifier → C.SigningNonces × C.SigningCommitments) (i : C.Identifier) : Tx C :=
  .submitCommitment id i (drawn i).2

/-- In the first round everyone of the slice commits. -/
theorem first_reactions (hnode : ∀ i ∈ K.ids, (node i).Rested K used i) (hd : slice.Nodup)
    (hsub : ∀ i ∈ slice, i ∈ K.ids)
    (hne : slice ≠ []) (hid : id ∉ used) {e : RequestEntry C} (hs : e.status = .awaitingCommitments ∅)
    (hopen : OpenAt K s id e) {chain : ChainSim C} (hstate : chain.state = s) (rng : C.Rng) :
    ∃ drawn rng', K.Draws slice.toFinset drawn ∧ SigningSession.reactAll chain rng false (slice.map node) = (.ok true,
      { chain := chain.submitAll (slice.map (commitTx id drawn)),
        validators := slice.map fun i => (node i).holding id (drawn i).1, rng := rng' }) := by
  have hreact : ∀ i ∈ slice, ∀ rng, ∃ txs ctx, Ctx.react { node := node i, calls := [], rng } s = (.ok txs, ctx) ∧
      ∃ drawn : C.SigningNonces × C.SigningCommitments, (∃ rng, (C.commit (C.signingShare (K.key i)) rng).1 = drawn) ∧
        txs = [.submitCommitment id i drawn.2] ∧ ctx.node = (node i).holding id drawn.1 := by
    intro i hi rng
    have hrest := hnode i (hsub i hi)
    let ctx : Ctx C := { node := node i, calls := [], rng }
    obtain ⟨drawn, hdrawn, hr, hn⟩ := Ctx.reactEntry_commits ctx hs (fun hc => hid (hrest.committed id hc))
      (fun hp => hid (hrest.pending id hp)) hrest.policy
    rw [show ctx.node.identifier = i from hrest.identifier] at hr
    rw [show ctx.node.bundle.keyPackage = K.key i from hrest.keyPackage] at hdrawn
    exact ⟨_, _, hopen.react (hrest.identifier.symm ▸ hsub i hi) hr, drawn, ⟨rng, hdrawn⟩, rfl, hn⟩
  obtain ⟨out, node', rng', hall, hrun⟩ := SigningSession.reactAll_each (R := fun i txs node' =>
    ∃ drawn : C.SigningNonces × C.SigningCommitments, (∃ rng, (C.commit (C.signingShare (K.key i)) rng).1 = drawn) ∧
      txs = [.submitCommitment id i drawn.2] ∧ node' = (node i).holding id drawn.1) rng false hd hstate hreact
  obtain ⟨i₀, hi₀⟩ := List.exists_mem_of_ne_nil slice hne
  obtain ⟨d₀, _⟩ := hall i₀ hi₀
  have : Nonempty (C.SigningNonces × C.SigningCommitments) := ⟨d₀⟩
  choose! drawn hdrawn hout hnode' using hall
  have hmempool : slice.flatMap out = slice.map (commitTx id drawn) := by
    rw [List.map_eq_flatMap, List.flatMap_def, List.flatMap_def]
    exact congrArg _ (List.map_congr_left hout)
  have hemitted : (slice.map (commitTx id drawn)).isEmpty = false := by simpa using hne
  have hvalidators : slice.map node' = slice.map fun i => (node i).holding id (drawn i).1 := List.map_congr_left hnode'
  rw [hmempool, hvalidators, hemitted] at hrun
  exact ⟨drawn, rng', ⟨fun i hi => hsub i (List.mem_toFinset.mp hi), fun i hi => hdrawn i (List.mem_toFinset.mp hi)⟩, hrun⟩

/-- And the block selects the first threshold of them and rejects the surplus. -/
theorem first_block (hK : K.Honest) (hd : slice.Nodup) (hsub : ∀ i ∈ slice, i ∈ K.ids)
    (hlen : K.threshold ≤ slice.length) (hg : s.group = some K.group) {chain : ChainSim C}
    {drawn : C.Identifier → C.SigningNonces × C.SigningCommitments}
    (hmem : chain.mempool = slice.map (commitTx id drawn))
    (hstate : chain.state = s.withRequest id (opened id message randomizer)) :
    ∃ results chain', chain.commitBlock = .ok (results, chain') ∧ chain'.mempool = [] ∧
      chain'.state = s.withRequest id
        (committedEntry K id message randomizer (fun i => (drawn i).2) (slice.take K.threshold).toFinset) := by
  let S := (slice.take K.threshold).toFinset
  have htake : (slice.take K.threshold).Nodup := hd.sublist (List.take_sublist _ _)
  have hcard : S.card = K.threshold := by
    rw [List.toFinset_card_of_nodup htake, List.length_take, Nat.min_eq_left hlen]
  have hS : S ⊆ K.ids := fun i hi => hsub i (List.mem_of_mem_take (List.mem_toFinset.mp hi))
  have hempty : committedEntry K id message randomizer (fun i => (drawn i).2) ∅ = opened id message randomizer := by
    have hlt : (∅ : Finset C.Identifier).card < K.threshold := by
      have := hK.threshold
      simp only [Finset.card_empty]
      omega
    unfold committedEntry
    rw [committed_awaiting hlt, tabulate_empty]
    rfl
  have hpending : chain.mempool = (slice.take K.threshold).map (commitTx id drawn) ++
      (slice.drop K.threshold).map (commitTx id drawn) := by
    rw [← List.map_append, List.take_append_drop, hmem]
  have haccepted : run applyTx chain.state ((slice.take K.threshold).map (commitTx id drawn)) =
      .ok (s.withRequest id (committedEntry K id message randomizer (fun i => (drawn i).2) S)) := by
    rw [hstate, ← hempty]
    exact run_commitments hg hS hcard (fun i => (drawn i).2) htake rfl
  have hsurplus : ∀ tx ∈ (slice.drop K.threshold).map (commitTx id drawn), ∃ e,
      applyTx (s.withRequest id (committedEntry K id message randomizer (fun i => (drawn i).2) S)) tx =
        .error (.err e) := by
    intro tx htx
    obtain ⟨i, hi, rfl⟩ := List.mem_map.mp htx
    exact ⟨_, surplus_rejected hg (committed_signing hcard) (hsub i (List.mem_of_mem_drop hi)) _⟩
  obtain ⟨more, hcommit, _⟩ := ChainSim.commitBlock_run hpending haccepted hsurplus
  exact ⟨_, _, hcommit, rfl, rfl⟩

def shareTx (id : Uuid) (share : C.Identifier → C.SignatureShare) (i : C.Identifier) : Tx C :=
  .submitShare id i (share i)

theorem flatten_map_ite {α β : Type} {p : α → Prop} [DecidablePred p] {f : α → β} (l : List α) :
    (l.map fun a => if p a then [f a] else []).flatten = (l.filter p).map f := by
  induction l with
  | nil => rfl
  | cons a l ih => by_cases ha : p a <;> simp [ha, ih]

/-- In the second round the selected sign, and the others return nothing. -/
theorem second_reactions (hd : slice.Nodup) (hsub : ∀ i ∈ slice, i ∈ K.ids) {S : Finset C.Identifier}
    (hS : ∃ i ∈ slice, i ∈ S) {e : RequestEntry C} {pkg : C.SigningPackage} (hs : e.status = .signing pkg S ∅)
    (hopen : OpenAt K s id e) (hidentifier : ∀ i ∈ slice, (node i).identifier = i)
    {nonces : C.Identifier → C.SigningNonces} {share : C.Identifier → C.SignatureShare}
    (hnode : ∀ i ∈ slice, i ∈ S → (node i).pending[id]? = some (nonces i) ∧ id ∉ (node i).sharedRequests ∧
      C.sign pkg (nonces i) (node i).bundle.keyPackage e.randomizer = .ok (share i))
    {chain : ChainSim C} (hstate : chain.state = s) (rng : C.Rng) :
    ∃ rng', SigningSession.reactAll chain rng false (slice.map node) = (.ok true,
      { chain := chain.submitAll ((slice.filter (· ∈ S)).map (shareTx id share)),
        validators := slice.map fun i => if i ∈ S then (node i).signed id else node i, rng := rng' }) := by
  have hreact : ∀ i ∈ slice, ∀ rng, ∃ txs ctx, Ctx.react { node := node i, calls := [], rng } s = (.ok txs, ctx) ∧
      txs = (if i ∈ S then [shareTx id share i] else []) ∧ ctx.node = if i ∈ S then (node i).signed id else node i := by
    intro i hi rng
    let ctx : Ctx C := { node := node i, calls := [], rng }
    have hid : ctx.node.identifier = i := hidentifier i hi
    have hmem : ctx.node.identifier ∈ K.ids := hid.symm ▸ hsub i hi
    by_cases hiS : i ∈ S
    · obtain ⟨hn, hfresh, hsign⟩ := hnode i hi hiS
      obtain ⟨hr, hnode'⟩ := Ctx.reactEntry_signs ctx hs (hid.symm ▸ hiS) hfresh hn hsign
      rw [hid] at hr
      refine ⟨_, _, hopen.react hmem hr, ?_, ?_⟩
      · rw [if_pos hiS]; rfl
      · rw [if_pos hiS]; exact hnode'
    · have hr : ctx.reactEntry id e = (.ok none, ctx) := Ctx.reactEntry_unselected ctx hs (hid.symm ▸ hiS)
      refine ⟨_, _, hopen.react hmem (congrArg Prod.fst hr), ?_, ?_⟩
      · rw [if_neg hiS]; rfl
      · rw [if_neg hiS, hr]
  obtain ⟨out, node', rng', hall, hrun⟩ := SigningSession.reactAll_each (R := fun i txs node' =>
    txs = (if i ∈ S then [shareTx id share i] else []) ∧ node' = if i ∈ S then (node i).signed id else node i)
    rng false hd hstate hreact
  have hmempool : slice.flatMap out = (slice.filter (· ∈ S)).map (shareTx id share) := by
    rw [List.flatMap_def, List.map_congr_left fun i hi => (hall i hi).1]
    exact flatten_map_ite slice
  have hvalidators : slice.map node' = slice.map fun i => if i ∈ S then (node i).signed id else node i :=
    List.map_congr_left fun i hi => (hall i hi).2
  have hemitted : ((slice.filter (· ∈ S)).map (shareTx id share)).isEmpty = false := by
    obtain ⟨i, hi, hiS⟩ := hS
    rw [Bool.eq_false_iff, ne_eq, List.isEmpty_iff, List.map_eq_nil_iff, List.filter_eq_nil_iff]
    intro h
    exact h i hi (by simpa using hiS)
  rw [hmempool, hvalidators, hemitted] at hrun
  exact ⟨rng', hrun⟩

/-- And the block aggregates their shares. -/
theorem second_block (hg : s.group = some K.group) {S : Finset C.Identifier} (hS : S ⊆ K.ids)
    (hcard : S.card = K.threshold) (hpos : 0 < K.threshold) {commitments : C.Identifier → C.SigningCommitments}
    {share : C.Identifier → C.SignatureShare} {l : List C.Identifier} (hd : l.Nodup) (hl : l.toFinset = S)
    {chain : ChainSim C} (hmem : chain.mempool = l.map (shareTx id share))
    (hstate : chain.state = s.withRequest id (committedEntry K id message randomizer commitments S)) :
    ∃ results chain', chain.commitBlock = .ok (results, chain') ∧ chain'.mempool = [] ∧
      chain'.state = s.withRequest id (sharedEntry K id message randomizer
        (C.signingPackage (tabulate S commitments) message) S share S) := by
  have hstart : committedEntry K id message randomizer commitments S =
      sharedEntry K id message randomizer (C.signingPackage (tabulate S commitments) message) S share ∅ := by
    have hne : (∅ : Finset C.Identifier).card ≠ S.card := by
      simp only [Finset.card_empty]
      omega
    unfold committedEntry sharedEntry
    rw [committed_signing hcard, shared_signing hne, tabulate_empty]
  have haccepted : run applyTx chain.state chain.mempool = .ok (s.withRequest id (sharedEntry K id message randomizer
      (C.signingPackage (tabulate S commitments) message) S share S)) := by
    rw [hstate, hmem, hstart]
    exact run_shares hg hS _ share hd hl
  exact ⟨_, _, ChainSim.commitBlock_all haccepted, rfl, rfl⟩

end

/-! ## Sessions -/

section
variable {K : GroupKeys C} {used : List Uuid} {node : C.Identifier → Node C} {slice : List C.Identifier} {id : Uuid}
  {message : Bytes} {randomizer : C.Randomizer} {s : State C}

/-- Two rounds complete an open request, and the nodes of the slice are rested again. -/
theorem two_rounds (hK : K.Honest) (hsigning : HonestSigning K) (hnode : ∀ i ∈ K.ids, (node i).Rested K used i)
    (hd : slice.Nodup) (hsub : ∀ i ∈ slice, i ∈ K.ids) (hlen : K.threshold ≤ slice.length) (hid : id ∉ used)
    (hg : s.group = some K.group) (hdone : ∀ (id' : Uuid) (e' : RequestEntry C), s.requests[id']? = some e' → e'.Done)
    {chain : ChainSim C} (hstate : chain.state = s.withRequest id (opened id message randomizer))
    (hmem : chain.mempool = []) (rng : C.Rng) :
    ∃ sig session e node', SigningSession.iterate id 2 { chain, validators := slice.map node, rng } = (.ok sig, session) ∧
      C.verify (C.verifyingKey K.pkp + randomizer • C.generator) message sig = true ∧ session.chain.mempool = [] ∧
      session.chain.state = s.withRequest id e ∧ e.Done ∧ session.validators = slice.map node' ∧
      ∀ i ∈ slice, (node' i).Rested K (id :: used) i := by
  have hpos : 0 < K.threshold := lt_of_lt_of_le (by omega) hK.threshold
  have hne : slice ≠ [] := List.ne_nil_of_length_pos (lt_of_lt_of_le hpos hlen)
  -- everyone commits, and the first threshold are selected
  obtain ⟨drawn, rng₁, hdraws, hreact₁⟩ := first_reactions hnode hd hsub hne hid rfl
    (OpenAt.withRequest hg hdone (opened id message randomizer)) hstate rng
  have hpending₁ : (chain.submitAll (slice.map (commitTx id drawn))).mempool = slice.map (commitTx id drawn) := by
    simp [hmem]
  obtain ⟨results₁, chain₁, hcommit₁, hmem₁, hstate₁⟩ := first_block hK hd hsub hlen hg hpending₁ hstate
  let S := (slice.take K.threshold).toFinset
  have hcard : S.card = K.threshold := by
    rw [List.toFinset_card_of_nodup (hd.sublist (List.take_sublist _ _)), List.length_take, Nat.min_eq_left hlen]
  have hSslice : ∀ i ∈ S, i ∈ slice := fun i hi => List.mem_of_mem_take (List.mem_toFinset.mp hi)
  have hS : S ⊆ K.ids := fun i hi => hsub i (hSslice i hi)
  let e₁ := committedEntry K id message randomizer (fun i => (drawn i).2) S
  have hs₁ : e₁.status = .signing (packageOf S drawn message) S ∅ := committed_signing hcard
  -- the selected sign what they have cached
  have hdrawsS : K.Draws S drawn := ⟨hS, fun i hi => hdraws.2 i (List.mem_toFinset.mpr (hSslice i hi))⟩
  have hsign := hsigning.sign S drawn message randomizer hdrawsS hcard.ge
  obtain ⟨i₀, hi₀⟩ := Finset.card_pos.mp (hcard ▸ hpos)
  have : Nonempty C.SignatureShare := ⟨(hsign i₀ hi₀).choose⟩
  choose! share hshare using hsign
  let node₁ : C.Identifier → Node C := fun i => (node i).holding id (drawn i).1
  have hrest₁ : ∀ i ∈ slice, (node₁ i).Rested K (id :: used) i := fun i hi => (hnode i (hsub i hi)).holding id _
  have hready : ∀ i ∈ slice, i ∈ S → (node₁ i).pending[id]? = some (drawn i).1 ∧ id ∉ (node₁ i).sharedRequests ∧
      C.sign (packageOf S drawn message) (drawn i).1 (node₁ i).bundle.keyPackage e₁.randomizer = .ok (share i) := by
    intro i hi hiS
    refine ⟨?_, fun hshared => hid ((hnode i (hsub i hi)).shared id hshared), ?_⟩
    · simp [node₁, Node.holding, Node.insertPending, Node.insertCommitted]
    · rw [(hrest₁ i hi).keyPackage]; exact hshare i hiS
  obtain ⟨rng₂, hreact₂⟩ := second_reactions hd hsub ⟨i₀, hSslice i₀ hi₀, hi₀⟩ hs₁ (OpenAt.withRequest hg hdone e₁)
    (fun i hi => (hrest₁ i hi).identifier) hready hstate₁ rng₁
  have hselected : (slice.filter (· ∈ S)).toFinset = S := by
    ext i
    simp only [List.mem_toFinset, List.mem_filter, decide_eq_true_eq]
    exact ⟨fun h => h.2, fun h => ⟨hSslice i h, h⟩⟩
  have hpending₂ : (chain₁.submitAll ((slice.filter (· ∈ S)).map (shareTx id share))).mempool =
      (slice.filter (· ∈ S)).map (shareTx id share) := by
    rw [ChainSim.submitAll_mempool, hmem₁, List.nil_append]
  obtain ⟨results₂, chain₂, hcommit₂, hmem₂, hstate₂⟩ :=
    second_block hg hS hcard hpos (hd.filter _) hselected hpending₂ hstate₁
  obtain ⟨signature, haggregate, hverify⟩ :=
    hsigning.aggregate S drawn message randomizer share hdrawsS hcard.ge hshare
  let e₂ := sharedEntry K id message randomizer (packageOf S drawn message) S share S
  have hs₂ : e₂.status = .completed S signature := shared_completed haggregate
  let node₂ : C.Identifier → Node C := fun i => if i ∈ S then (node₁ i).signed id else node₁ i
  refine ⟨signature, { chain := chain₂, validators := slice.map node₂, rng := rng₂ }, e₂, node₂, ?_, hverify, hmem₂,
    hstate₂, ⟨S, signature, hs₂⟩, rfl, fun i hi => ?_⟩
  · rw [SigningSession.iterate_signing hreact₁ hcommit₁ (by rw [hstate₁]; exact s.withRequest_self id e₁) hs₁ 1]
    exact SigningSession.iterate_completed hreact₂ hcommit₂ (by rw [hstate₂]; exact s.withRequest_self id e₂) hs₂ 0
  · change (if i ∈ S then (node₁ i).signed id else node₁ i).Rested K (id :: used) i
    by_cases hiS : i ∈ S
    · rw [if_pos hiS]; exact (hrest₁ i hi).signed (by simp)
    · rw [if_neg hiS]; exact hrest₁ i hi

end

/-- Between two sessions. -/
structure SigningSim.Rested (K : GroupKeys C) (used : List Uuid) (sim : SigningSim C) : Prop where
  group : sim.chain.state.group = some K.group
  mempool : sim.chain.mempool = []
  requests : ∀ (id : Uuid) (e : RequestEntry C), sim.chain.state.requests[id]? = some e → id ∈ used ∧ e.Done
  node : ∀ i ∈ K.ids, (sim.node i).Rested K used i

namespace SigningSim

variable {K : GroupKeys C} {used : List Uuid} {sim : SigningSim C} {fillBytes : C.Rng → Vector UInt8 16 × C.Rng}

/-- **Session.** It ends within two blocks with a valid signature, and all is rested again. -/
theorem Rested.session (hK : K.Honest) (hsigning : HonestSigning K) (h : sim.Rested K used) {call : SigningCall C}
    (hd : call.slice.Nodup) (hsub : ∀ i ∈ call.slice, i ∈ K.ids) (hlen : K.threshold ≤ call.slice.length)
    (hid : (Uuid.new fillBytes call.rng).1 ∉ used) :
    ∃ sig session, SigningSession.driveWithin 2 fillBytes call.sighash call.alpha (sim.session call) = (.ok sig, session) ∧
      C.verify (C.verifyingKey K.pkp + call.alpha • C.generator) call.sighash.toList sig = true ∧
      session.validators = call.slice.map (sim.after call session).node ∧
      (sim.after call session).Rested K ((Uuid.new fillBytes call.rng).1 :: used) := by
  let s := sim.chain.state
  let id := (Uuid.new fillBytes call.rng).1
  let tx : Tx C := .submitRequest id call.sighash.toList call.alpha
  have hdone : ∀ (id' : Uuid) (e' : RequestEntry C), s.requests[id']? = some e' → e'.Done := fun id' e' he =>
    (h.requests id' e' he).2
  have hnone : s.requests[id]? = none := by
    by_contra hsome
    obtain ⟨e, he⟩ := Option.ne_none_iff_exists'.mp hsome
    exact hid (h.requests id e he).1
  have hpending : (sim.chain.submit tx).mempool = [tx] := by simp [ChainSim.submit, h.mempool]
  have hsubmit : run applyTx (sim.chain.submit tx).state (sim.chain.submit tx).mempool =
      .ok (s.withRequest id (opened id call.sighash.toList call.alpha)) := by
    rw [hpending]
    exact run_cons.mpr ⟨_, (applyTx_request_ok rfl).mpr ⟨K.group, opened id call.sighash.toList call.alpha, h.group,
      entryStep_submitRequest.mpr ⟨hnone, rfl⟩, rfl⟩, run_nil _⟩
  have hcommit := ChainSim.commitBlock_all hsubmit
  let chain : ChainSim C :=
    { state := s.withRequest id (opened id call.sighash.toList call.alpha), mempool := [],
      blockHeight := (sim.chain.submit tx).blockHeight + 1, lastBlock := (sim.chain.submit tx).mempool }
  have hstate₀ : chain.state = s.withRequest id (opened id call.sighash.toList call.alpha) := rfl
  obtain ⟨sig, session, e, node', hrun, hverify, hmem, hstate, he, hvalidators, hnode'⟩ :=
    two_rounds hK hsigning h.node hd hsub hlen hid h.group hdone hstate₀ rfl (Uuid.new fillBytes call.rng).2
  refine ⟨sig, session, ?_, hverify, ?_, ?_, hmem, fun id' e' he' => ?_, fun i hi => ?_⟩
  · rw [SigningSession.driveWithin_submitted hcommit (by rw [hpending]; rfl) 2]
    exact hrun
  · rw [hvalidators]
    refine List.map_congr_left fun i hi => ?_
    change node' i = writeBack call.slice session.validators sim.node i
    rw [hvalidators, writeBack_map hd, if_pos hi]
  · change session.chain.state.group = _
    rw [hstate]; exact h.group
  · change session.chain.state.requests[id']? = some e' at he'
    rw [hstate] at he'
    by_cases heq : id = id'
    · subst heq
      rw [s.withRequest_self id e] at he'
      cases he'
      exact ⟨by simp [id], he⟩
    · rw [s.withRequest_of_ne e heq] at he'
      exact ⟨List.mem_cons_of_mem _ (h.requests id' e' he').1, hdone id' e' he'⟩
  · change (writeBack call.slice session.validators sim.node i).Rested K _ i
    rw [hvalidators, writeBack_map hd]
    by_cases hi' : i ∈ call.slice
    · rw [if_pos hi']; exact hnode' i hi'
    · rw [if_neg hi']; exact (h.node i hi).more _

theorem start_rested (hK : K.Honest) {validators : List C.Identifier} (hvalidators : validators.toFinset = K.ids) :
    (start K validators).Rested K [] := by
  let s : State C := { ceremony := none, group := some K.group, requests := ∅ }
  have hinit : run applyTx State.default [.initGroup K.params K.pkp validators] = .ok s := by
    refine run_cons.mpr ⟨_, applyInitGroup_ok.mpr ⟨rfl, rfl, hK.shares.trans hvalidators.symm, rfl⟩, ?_⟩
    rw [hvalidators]
    exact run_nil _
  have hcommit : (ChainSim.new.submit (.initGroup K.params K.pkp validators)).commitBlock = _ :=
    ChainSim.commitBlock_all hinit
  have hstate : (start K validators).chain.state = s := by
    unfold start
    rw [hcommit]
  have hmempool : (start K validators).chain.mempool = [] := by
    unfold start
    rw [hcommit]
  refine ⟨by rw [hstate], hmempool, fun id e he => ?_, fun i hi => ?_⟩
  · rw [hstate] at he
    simp [s] at he
  · exact ⟨hK.identifier i hi, rfl, rfl, fun _ hid => by simp [start, Node.new] at hid,
      fun _ hid => by simp [start, Node.new] at hid, fun _ hid => by simp [start, Node.new] at hid⟩

/-- A call that returns a valid signature after at most two blocks, and leaves nothing pending or open. -/
def Completes (K : GroupKeys C) (fillBytes : C.Rng → Vector UInt8 16 × C.Rng) (sim : SigningSim C)
    (call : SigningCall C) : Prop :=
  ∃ sig sim', sim.drive fillBytes call = (.ok sig, sim') ∧
    (SigningSession.driveWithin 2 fillBytes call.sighash call.alpha (sim.session call)).1 = .ok sig ∧
    C.verify (C.verifyingKey K.pkp + call.alpha • C.generator) call.sighash.toList sig = true ∧
    sim'.chain.mempool = [] ∧ ∀ (id : Uuid) (e : RequestEntry C), sim'.chain.state.requests[id]? = some e → e.Done

theorem Rested.completes (hK : K.Honest) (hsigning : HonestSigning K) (h : sim.Rested K used) {call : SigningCall C}
    (hd : call.slice.Nodup) (hsub : ∀ i ∈ call.slice, i ∈ K.ids) (hlen : K.threshold ≤ call.slice.length)
    (hid : (Uuid.new fillBytes call.rng).1 ∉ used) :
    Completes K fillBytes sim call ∧
      (sim.drive fillBytes call).2.Rested K ((Uuid.new fillBytes call.rng).1 :: used) := by
  obtain ⟨sig, session, hrun, hverify, _, hrest⟩ := h.session hK hsigning hd hsub hlen hid
  have hdrive : sim.drive fillBytes call = (.ok sig, sim.after call session) := by
    unfold drive SigningSession.driveSigningSession
    rw [show (8 : Nat) = 2 + 6 from rfl, SigningSession.driveWithin_more hrun 6]
  rw [hdrive]
  exact ⟨⟨sig, _, hdrive, by rw [hrun], hverify, hrest.mempool, fun id e he => (hrest.requests id e he).2⟩, hrest⟩

/-- **Run.** Sessions with distinct request ids leave all rested. -/
theorem driveAll_rested (hK : K.Honest) (hsigning : HonestSigning K) {calls : List (SigningCall C)}
    (hcalls : ∀ call ∈ calls, call.slice.Nodup ∧ (∀ i ∈ call.slice, i ∈ K.ids) ∧ K.threshold ≤ call.slice.length)
    (hids : (calls.map fun call => (Uuid.new fillBytes call.rng).1).Nodup) (h : sim.Rested K used)
    (hused : ∀ call ∈ calls, (Uuid.new fillBytes call.rng).1 ∉ used) :
    (driveAll fillBytes sim calls).Rested K ((calls.map fun call => (Uuid.new fillBytes call.rng).1).reverse ++ used) := by
  induction calls generalizing sim used with
  | nil => exact h
  | cons call calls ih =>
    rw [List.map_cons, List.nodup_cons] at hids
    obtain ⟨hd, hsub, hlen⟩ := hcalls call (by simp)
    obtain ⟨_, hrest⟩ := h.completes hK hsigning hd hsub hlen (hused call (by simp))
    have hall := ih (fun c hc => hcalls c (List.mem_cons_of_mem _ hc)) hids.2 hrest fun c hc hmem => by
      rcases List.mem_cons.mp hmem with heq | hmem
      · exact hids.1 (heq ▸ List.mem_map.mpr ⟨c, hc, rfl⟩)
      · exact hused c (List.mem_cons_of_mem _ hc) hmem
    rw [List.map_cons, List.reverse_cons, List.append_assoc]
    exact hall

end SigningSim

/-- **Honest sessions complete**, each in any sequence of them with distinct request ids. -/
theorem honest_sessions_complete {K : GroupKeys C} (hK : K.Honest) (hsigning : HonestSigning K)
    {validators : List C.Identifier} (hvalidators : validators.toFinset = K.ids)
    {fillBytes : C.Rng → Vector UInt8 16 × C.Rng} {pre post : List (SigningCall C)} {call : SigningCall C}
    (hcalls : ∀ c ∈ pre ++ call :: post,
      c.slice.Nodup ∧ (∀ i ∈ c.slice, i ∈ K.ids) ∧ K.threshold ≤ c.slice.length)
    (hids : ((pre ++ call :: post).map fun c => (Uuid.new fillBytes c.rng).1).Nodup) :
    SigningSim.Completes K fillBytes (SigningSim.driveAll fillBytes (SigningSim.start K validators) pre) call := by
  rw [List.map_append, List.map_cons, List.nodup_append] at hids
  obtain ⟨hpre, _, hdisjoint⟩ := hids
  have hrest := SigningSim.driveAll_rested hK hsigning (fun c hc => hcalls c (List.mem_append_left _ hc)) hpre
    (SigningSim.start_rested hK hvalidators) (fun c _ hmem => by cases hmem)
  obtain ⟨hd, hsub, hlen⟩ := hcalls call (by simp)
  refine (hrest.completes hK hsigning hd hsub hlen fun hmem => ?_).1
  rw [List.append_nil, List.mem_reverse] at hmem
  exact hdisjoint _ hmem _ (by simp) rfl

namespace Ideal

def duoKeys : GroupKeys suite where
  params := { threshold := 2, total := 2 }
  ids := ({1, 2} : Finset Nat)
  key := fun i => { identifier := i, groupKey := 7, minSigners := 2 }
  pkp := { key := 7, shares := Std.ExtTreeMap.ofList [((1 : Nat), (3 : Int)), (2, 4)], minSigners := 2 }

theorem duoKeys_honest : duoKeys.Honest where
  threshold := by decide
  le := by decide
  total := by decide
  identifier := fun _ _ => rfl
  shares := rfl

theorem draws_same {S : Finset Nat} {drawn : Nat → Nat × Nat} (h : duoKeys.Draws S drawn) {i : Nat} (hi : i ∈ S) :
    (drawn i).1 = (drawn i).2 := by
  obtain ⟨rng, hrng⟩ := h.2 i hi
  rw [← hrng]
  rfl

def duoShare (drawn : Nat → Nat × Nat) (message : Bytes) (r : Int) (i : Nat) : SignatureShare :=
  { signer := i, nonces := (drawn i).2, signed := { key := 7 + r, message } }

theorem sign_duo {S : Finset Nat} {drawn : Nat → Nat × Nat} {message : Bytes} {r : Int} (h : duoKeys.Draws S drawn)
    (hcard : 2 ≤ S.card) {i : Nat} (hi : i ∈ S) :
    suite.sign (packageOf S drawn message) (drawn i).1 (duoKeys.key i) r = .ok (duoShare drawn message r i) := by
  have hown : (tabulate S fun i => (drawn i).2)[i]? = some (drawn i).1 :=
    getElem?_tabulate.mpr ⟨hi, (draws_same h hi).symm⟩
  change Ideal.sign ⟨tabulate S fun i => (drawn i).2, message⟩ (drawn i).1 (duoKeys.key i) r = _
  unfold Ideal.sign
  rw [if_neg (by rw [size_tabulate]; exact not_lt.mpr hcard)]
  refine (if_neg (not_not.mpr hown)).trans ?_
  rw [draws_same h hi]
  rfl

theorem duoKeys_signing : HonestSigning duoKeys where
  sign S drawn message randomizer h hcard i hi := ⟨_, sign_duo h hcard hi⟩
  aggregate S drawn message randomizer share h hcard hshare := by
    have hshares : tabulate S share =
        (tabulate S fun i => (drawn i).2).map fun i n => SignatureShare.mk i n { key := 7 + randomizer, message } := by
      refine eq_of_getElem?_iff fun i v => ?_
      rw [getElem?_tabulate, Std.ExtTreeMap.getElem?_map, Option.map_eq_some_iff]
      constructor
      · rintro ⟨hi, rfl⟩
        have heq := (hshare i hi).symm.trans (sign_duo h hcard hi)
        exact ⟨_, getElem?_tabulate.mpr ⟨hi, rfl⟩, (Except.ok.inj heq).symm⟩
      · rintro ⟨n, hn, rfl⟩
        obtain ⟨hi, rfl⟩ := getElem?_tabulate.mp hn
        exact ⟨hi, Except.ok.inj ((hshare i hi).symm.trans (sign_duo h hcard hi))⟩
    refine ⟨{ key := 7 + randomizer, message }, ?_, ?_⟩
    · change Ideal.aggregate ⟨tabulate S fun i => (drawn i).2, message⟩ (tabulate S share) duoKeys.pkp (7 + randomizer) = _
      unfold Ideal.aggregate
      rw [hshares, Std.ExtTreeMap.toList_map, if_neg (not_not.mpr rfl),
        if_neg (by rw [size_tabulate]; exact not_lt.mpr hcard)]
    · change decide (Signed.mk (7 + randomizer) message = { key := 7 + randomizer • (1 : Int), message }) = true
      simp

def duoCall (sighash : UInt8) (alpha : Int) (slice : List Nat) (rng : Nat) : SigningCall suite where
  sighash := Vector.replicate 32 sighash
  alpha := alpha
  slice := slice
  rng := rng

def duoFill (rng : Nat) : Vector UInt8 16 × Nat := (Vector.replicate 16 (UInt8.ofNat rng), rng + 1)

def duoFirst : SigningCall suite := duoCall 42 5 [2, 1] 10

def duoSecond : SigningCall suite := duoCall 43 6 [1, 2] 20

theorem duoCalls_fit : ∀ c ∈ [duoFirst] ++ duoSecond :: [],
    c.slice.Nodup ∧ (∀ i ∈ c.slice, i ∈ duoKeys.ids) ∧ duoKeys.threshold ≤ c.slice.length := by
  intro c hc
  rcases List.mem_cons.mp hc with rfl | hc
  · decide
  · rw [List.mem_singleton.mp hc]; decide

end Ideal

theorem honest_sessions_complete_duo :
    SigningSim.Completes Ideal.duoKeys Ideal.duoFill (SigningSim.driveAll Ideal.duoFill
      (SigningSim.start Ideal.duoKeys ([1, 2] : List Nat)) [Ideal.duoFirst]) Ideal.duoSecond :=
  honest_sessions_complete Ideal.duoKeys_honest Ideal.duoKeys_signing rfl Ideal.duoCalls_fit (by decide)

end Sapphire
