import Sapphire.OpenRequests

/-!
# Rounds among open requests

After two rounds no node has anything left to do for any request, unless one
of them errs in the first, on a request as it is, or in the second, on a
package with a commitment in its name that is not of the nonces it keeps.
-/

namespace Sapphire

open BTreeMap Replay

variable {C : Ciphersuite}

/-! ## Nodes -/

namespace Node

instance (node : Node C) (id : Uuid) (e : RequestEntry C) : Decidable (node.CommitDue id e) :=
  match hs : e.status with
  | .awaitingCommitments m =>
    decidable_of_iff (node.identifier ∉ m ∧ id ∉ node.committedRequests ∧ node.policy e.message = .ok ())
      ⟨fun h => ⟨m, hs, h⟩, fun ⟨_, hs', h⟩ => by rw [hs] at hs'; cases hs'; exact h⟩
  | .signing _ _ _ => isFalse fun ⟨_, h, _⟩ => by rw [hs] at h; cases h
  | .completed _ _ => isFalse fun ⟨_, h, _⟩ => by rw [hs] at h; cases h
  | .failed _ => isFalse fun ⟨_, h, _⟩ => by rw [hs] at h; cases h

/-- Nothing is left to do for the request. -/
structure Quiet (node : Node C) (id : Uuid) (e : RequestEntry C) : Prop where
  commit : ¬ node.CommitDue id e
  sign : ∀ pkg nonces, ¬ node.SignDue id e pkg nonces

variable {node : Node C} {id : Uuid} {e : RequestEntry C}

theorem Quiet.not_fails (h : node.Quiet id e) : ¬ node.Fails id e := by
  intro hfails
  cases hfails with
  | sessionInUse hdue _ => exact h.commit hdue
  | frost hdue _ => exact h.sign _ _ hdue

/-- On a request that awaits commitments a share is not due. -/
theorem Quiet.of_awaiting {m : BTreeMap C.Identifier C.SigningCommitments} (hs : e.status = .awaitingCommitments m)
    (hdue : ¬ node.CommitDue id e) : node.Quiet id e where
  commit := hdue
  sign pkg nonces hsign := by
    obtain ⟨_, _, hs', _⟩ := hsign
    rw [hs] at hs'; cases hs'

/-- On one that awaits shares a commitment is not. -/
theorem Quiet.of_signing {pkg : C.SigningPackage} {parts : Finset C.Identifier}
    {shares : BTreeMap C.Identifier C.SignatureShare} (hs : e.status = .signing pkg parts shares)
    (hdue : ∀ pkg nonces, ¬ node.SignDue id e pkg nonces) : node.Quiet id e where
  commit hcommit := by
    obtain ⟨_, hs', _⟩ := hcommit
    rw [hs] at hs'; cases hs'
  sign := hdue

/-- A node of the group, as its member `i`. -/
structure Serves (K : GroupKeys C) (i : C.Identifier) (node : Node C) : Prop where
  identifier : node.identifier = i
  keyPackage : node.bundle.keyPackage = K.key i

end Node

namespace Answered

variable {node node' : Node C} {id : Uuid} {e : RequestEntry C} {txs : List (Tx C)}

theorem commits (h : Answered node id e node' txs) (hdue : node.CommitDue id e) :
    ∃ drawn : C.SigningNonces × C.SigningCommitments,
      (∃ rng, (C.commit (C.signingShare node.bundle.keyPackage) rng).1 = drawn) ∧ node'.pending[id]? = some drawn.1 ∧
        id ∈ node'.committedRequests ∧ txs = [.submitCommitment id node.identifier drawn.2] := by
  cases h with
  | idle hf ha _ _ _ _ =>
    by_cases hp : id ∈ node.pending
    · exact absurd (.sessionInUse hdue hp) hf
    · exact absurd (.commitment hdue hp) ha
  | commitment drawn _ hdrawn hp hc _ => exact ⟨drawn, hdrawn, hp, hc, rfl⟩
  | share hsign _ _ =>
    obtain ⟨_, hs, _⟩ := hdue
    obtain ⟨_, _, hs', _⟩ := hsign
    rw [hs] at hs'; cases hs'

theorem signs (h : Answered node id e node' txs) {pkg : C.SigningPackage} {nonces : C.SigningNonces}
    (hdue : node.SignDue id e pkg nonces) :
    ∃ share, C.sign pkg nonces node.bundle.keyPackage e.randomizer = .ok share ∧
      txs = [.submitShare id node.identifier share] ∧ id ∈ node'.sharedRequests := by
  cases h with
  | idle hf ha _ _ _ _ =>
    cases hsign : C.sign pkg nonces node.bundle.keyPackage e.randomizer with
    | error err => exact absurd (.frost hdue hsign) hf
    | ok share => exact absurd (.share hdue hsign) ha
  | commitment _ hcommit _ _ _ _ =>
    obtain ⟨_, hs, _⟩ := hcommit
    obtain ⟨_, _, hs', _⟩ := hdue
    rw [hs] at hs'; cases hs'
  | share hdue' hsign hshared =>
    obtain ⟨_, _, hs, _, _, _, hn⟩ := hdue
    obtain ⟨_, _, hs', _, _, _, hn'⟩ := hdue'
    rw [hs] at hs'; cases hs'
    rw [hn] at hn'; cases hn'
    exact ⟨_, hsign, rfl, hshared⟩

theorem shared (h : Answered node id e node' txs) {m : BTreeMap C.Identifier C.SigningCommitments}
    (hs : e.status = .awaitingCommitments m) : id ∈ node'.sharedRequests ↔ id ∈ node.sharedRequests := by
  cases h with
  | idle _ _ _ _ hshared hshared' => exact ⟨hshared' m hs, hshared⟩
  | commitment _ _ _ _ _ hshared => exact hshared
  | share hdue _ _ =>
    obtain ⟨_, _, hs', _⟩ := hdue
    rw [hs] at hs'; cases hs'

/-- What is not answered is remembered as it was, and known of as long as it was. -/
theorem quiet (h : Answered node id e node' txs) (hquiet : node.Quiet id e) :
    txs = [] ∧ node'.pending[id]? = node.pending[id]? ∧
      (id ∈ node.committedRequests → id ∈ node'.committedRequests) ∧
      (id ∈ node.sharedRequests → id ∈ node'.sharedRequests) := by
  cases h with
  | idle _ _ hp hc hs _ => exact ⟨rfl, hp, hc, hs⟩
  | commitment _ hdue _ _ _ _ => exact absurd hdue hquiet.commit
  | share hdue _ _ => exact absurd hdue (hquiet.sign _ _)

end Answered

namespace Reacted

variable {s : State C} {node node' : Node C} {txs : List (Tx C)} {id : Uuid} {e e' : RequestEntry C}

/-- After a reaction there is nothing left to do, unless the request has come to its signing since. -/
theorem quiet (h : Reacted s node txs node') (he : s.requests[id]? = some e) (hm : e'.message = e.message)
    (hl : e.status.Leads e'.status)
    (hphase : ∀ m, e.status = .awaitingCommitments m → ∃ m', e'.status = .awaitingCommitments m') :
    node'.Quiet id e' := by
  have hanswered := h.answered id e he
  constructor
  · intro hdue
    obtain ⟨m', hs', hi', hc', hp'⟩ := hdue
    rw [hs'] at hl
    obtain ⟨m, hs, hsub⟩ := hl.to_awaiting
    rw [h.identifier] at hi'
    rw [h.policy, hm] at hp'
    by_cases hdue : node.CommitDue id e
    · obtain ⟨_, _, _, hc, _⟩ := hanswered.commits hdue
      exact hc' hc
    · have hquiet : node.Quiet id e := .of_awaiting hs hdue
      refine hdue ⟨m, hs, fun hi => hi' (hsub _ hi), fun hc => ?_, hp'⟩
      exact hc' ((hanswered.quiet hquiet).2.2.1 hc)
  · intro pkg nonces hdue
    obtain ⟨parts, shares', hs', hi', hm', hr', hn'⟩ := hdue
    cases hs : e.status with
    | awaitingCommitments m =>
      obtain ⟨m', hwait⟩ := hphase m hs
      rw [hwait] at hs'; cases hs'
    | signing pkg₀ parts₀ shares =>
      rw [hs, hs'] at hl
      obtain ⟨shares₁, heq, hsub⟩ | ⟨sig, heq⟩ | ⟨reason, heq⟩ := hl.of_signing
      · cases heq
        rw [h.identifier] at hi' hm'
        by_cases hdue : ∃ nonces, node.SignDue id e pkg nonces
        · obtain ⟨nonces, hdue⟩ := hdue
          obtain ⟨_, _, _, hshared⟩ := hanswered.signs hdue
          exact hr' hshared
        · have hquiet : node.Quiet id e := by
            refine .of_signing hs fun pkg' nonces' hsign => ?_
            obtain ⟨parts', shares'', hs'', hrest⟩ := hsign
            rw [hs] at hs''; cases hs''
            exact hdue ⟨nonces', parts, shares, hs, hrest⟩
          obtain ⟨_, hpend, _, hshared⟩ := hanswered.quiet hquiet
          rw [hpend] at hn'
          exact hquiet.sign pkg nonces ⟨parts, shares, hs, hi', fun hmem => hm' (hsub _ hmem),
            fun hr => hr' (hshared hr), hn'⟩
      · cases heq
      · cases heq
    | completed parts sig =>
      rw [hs, hs'] at hl
      cases hl.of_completed
    | failed reason =>
      rw [hs, hs'] at hl
      cases hl.of_failed

end Reacted

/-! ## Rounds -/

/-- A reachable state with the group of `K`. -/
structure State.Hosts (K : GroupKeys C) (s : State C) : Prop where
  reached : ∃ txs, s = Sapphire.reached txs
  group : s.group = some K.group

namespace State.Hosts

variable {K : GroupKeys C} {s : State C}

theorem replay (h : s.Hosts K) {txs : List (Tx C)} (hreq : ∀ tx ∈ txs, ∃ id, tx.requestId? = some id) :
    (Replay.replay applyTx s txs).Hosts K := by
  obtain ⟨before, hs⟩ := h.reached
  refine ⟨⟨before ++ txs, ?_⟩, (replay_entry hreq h.group).1⟩
  rw [hs]
  exact (replay_append State.default before txs).symm

theorem awaiting_lt (h : s.Hosts K) (hpos : 0 < K.threshold) {id : Uuid} {e : RequestEntry C}
    (he : s.requests[id]? = some e) {m : BTreeMap C.Identifier C.SigningCommitments}
    (hs : e.status = .awaitingCommitments m) : m.size < K.threshold := by
  obtain ⟨txs, hreached⟩ := h.reached
  have hvalid : s.Valid := hreached ▸ reached_valid txs
  have hstatus := (hvalid.request_valid h.group he).status
  rw [hs] at hstatus
  have hthr : K.group.params.threshold.toNat = K.threshold := rfl
  obtain ⟨_, hsize⟩ := hstatus
  omega

end State.Hosts

/-- Everyone of the slice has reacted to the state without an error, and what they return is in a block. -/
structure Round (K : GroupKeys C) (slice : List C.Identifier) (s : State C) (node : C.Identifier → Node C)
    (out : C.Identifier → List (Tx C)) (s' : State C) (node' : C.Identifier → Node C) : Prop where
  hosts : s.Hosts K
  serves : ∀ i ∈ slice, (node i).Serves K i
  reacted : ∀ i ∈ slice, Reacted s (node i) (out i) (node' i)
  block : s' = replay applyTx s (slice.flatMap out)

section
variable {K : GroupKeys C} {slice : List C.Identifier} {chain : ChainSim C} {node : C.Identifier → Node C}

theorem exists_round (hhosts : chain.state.Hosts K) (hempty : chain.mempool = []) (hd : slice.Nodup)
    (hsub : ∀ i ∈ slice, i ∈ K.ids) (hserves : ∀ i ∈ slice, (node i).Serves K i)
    (hf : ∀ i ∈ slice, ∀ (id : Uuid) e, chain.state.requests[id]? = some e → ¬ (node i).Fails id e) (rng : C.Rng) :
    ∃ out node' rng' results chain',
      SigningSession.reactAll chain rng false (slice.map node) = (.ok (!(slice.flatMap out).isEmpty),
        { chain := chain.submitAll (slice.flatMap out), validators := slice.map node', rng := rng' }) ∧
      (chain.submitAll (slice.flatMap out)).commitBlock = .ok (results, chain') ∧ chain'.mempool = [] ∧
      Round K slice chain.state node out chain'.state node' := by
  obtain ⟨out, node', rng', hall, hrun⟩ := SigningSession.reactAll_each (s := chain.state)
    (R := fun i txs node' => Reacted chain.state (node i) txs node') rng false hd rfl fun i hi rng =>
      Ctx.react_reacted { node := node i, calls := [], rng } hhosts.group
        ((hserves i hi).identifier.symm ▸ hsub i hi) (hf i hi)
  have hmem : (chain.submitAll (slice.flatMap out)).mempool = slice.flatMap out := by
    rw [ChainSim.submitAll_mempool, hempty, List.nil_append]
  have hreq : ∀ tx ∈ (chain.submitAll (slice.flatMap out)).mempool, ∃ id, tx.requestId? = some id := by
    intro tx htx
    rw [hmem] at htx
    obtain ⟨i, hi, htx⟩ := List.mem_flatMap.mp htx
    obtain ⟨id, _, _, hid⟩ := (hall i hi).named tx htx
    exact ⟨id, hid⟩
  obtain ⟨results, chain', hcommit, hempty', hstate⟩ := commitBlock_requests hreq
  rw [hmem] at hstate
  exact ⟨out, node', rng', results, chain', hrun, hcommit, hempty', hhosts, hserves, hall, hstate⟩

/-- Whoever errs ends the round. -/
theorem reactAll_fails (chain : ChainSim C) (hg : chain.state.group = some K.group)
    (hmember : ∀ i ∈ slice, (node i).identifier ∈ K.ids)
    (hf : ∃ i ∈ slice, ∃ (id : Uuid) (e : RequestEntry C), chain.state.requests[id]? = some e ∧ (node i).Fails id e)
    (rng : C.Rng) (emittedAny : Bool) :
    ∃ e session, SigningSession.reactAll chain rng emittedAny (slice.map node) = (.error e, session) := by
  induction slice generalizing chain rng emittedAny with
  | nil => simp at hf
  | cons i slice ih =>
    let ctx : Ctx C := { node := node i, calls := [], rng }
    have hmem : ctx.node.identifier ∈ K.group.validators := hmember i List.mem_cons_self
    rw [List.map_cons, SigningSession.reactAll]
    by_cases hfirst : ∃ (id : Uuid) (e : RequestEntry C), chain.state.requests[id]? = some e ∧ (node i).Fails id e
    · obtain ⟨e, herr⟩ := ctx.react_fails hg hmem hfirst
      rw [show ctx.react chain.state = (.error e, (ctx.react chain.state).2) from Prod.ext herr rfl]
      exact ⟨e, _, rfl⟩
    · obtain ⟨txs, ctx', hreact, _⟩ := ctx.react_reacted hg hmem fun id e he hfails =>
        hfirst ⟨id, e, he, hfails⟩
      rw [hreact]
      obtain ⟨j, hj, hfails⟩ := hf
      rcases List.mem_cons.mp hj with rfl | hj
      · exact absurd hfails hfirst
      · obtain ⟨e, session, hrest⟩ := ih (chain.submitAll txs) hg
          (fun j hj => hmember j (List.mem_cons_of_mem _ hj)) ⟨j, hj, hfails⟩ ctx'.rng (emittedAny || !txs.isEmpty)
        simp only [hrest]
        exact ⟨e, _, rfl⟩

end

namespace Round

variable {K : GroupKeys C} {slice : List C.Identifier} {s s' : State C} {node node' : C.Identifier → Node C}
  {out : C.Identifier → List (Tx C)} {id : Uuid} {e e' : RequestEntry C}

theorem named (h : Round K slice s node out s' node') : ∀ tx ∈ slice.flatMap out, ∃ id, tx.requestId? = some id := by
  intro tx htx
  obtain ⟨i, hi, htx⟩ := List.mem_flatMap.mp htx
  obtain ⟨id, _, _, hid⟩ := (h.reacted i hi).named tx htx
  exact ⟨id, hid⟩

theorem hosts' (h : Round K slice s node out s' node') : s'.Hosts K := by
  rw [h.block]
  exact h.hosts.replay h.named

theorem serves' (h : Round K slice s node out s' node') : ∀ i ∈ slice, (node' i).Serves K i := by
  intro i hi
  have hserves := h.serves i hi
  have hreacted := h.reacted i hi
  exact ⟨hreacted.identifier.trans hserves.identifier, hreacted.bundle ▸ hserves.keyPackage⟩

theorem request (h : Round K slice s node out s' node') (id : Uuid) : s'.requests[id]? =
    (slice.flatMap fun i => (out i).filter fun tx => tx.requestId? = some id).foldl (entryFeed K.group)
      s.requests[id]? := by
  rw [h.block, (replay_entry h.named h.hosts.group).2 id, List.filter_flatMap]

theorem earlier (h : Round K slice s node out s' node') (he : s'.requests[id]? = some e') :
    ∃ e, s.requests[id]? = some e ∧ e'.message = e.message ∧ e.status.Leads e'.status := by
  cases hbefore : s.requests[id]? with
  | none =>
    -- nobody answers a request that is not there
    have hnone : (slice.flatMap fun i => (out i).filter fun tx => tx.requestId? = some id) = [] := by
      refine List.flatMap_eq_nil_iff.mpr fun i hi => List.filter_eq_nil_iff.mpr fun tx htx => ?_
      obtain ⟨id', e, he', hid⟩ := (h.reacted i hi).named tx htx
      rw [hid, decide_eq_true_eq]
      rintro ⟨rfl⟩
      rw [hbefore] at he'; cases he'
    rw [h.request, hnone, hbefore] at he
    cases he
  | some e =>
    obtain ⟨e₁, he₁, hm, _, hl⟩ := replay_leads s (slice.flatMap out) id e hbefore
    rw [← h.block, he] at he₁
    cases he₁
    exact ⟨e, rfl, hm, hl⟩

/-- The commitments that are due are drawn and come in the order of the slice. -/
theorem commitments (h : Round K slice s node out s' node') (hd : slice.Nodup) (hsub : ∀ i ∈ slice, i ∈ K.ids)
    (rng : C.Rng) (he : s.requests[id]? = some e) {m : BTreeMap C.Identifier C.SigningCommitments}
    (hs : e.status = .awaitingCommitments m) (hlt : m.size < K.threshold) :
    ∃ drawn : C.Identifier → C.SigningNonces × C.SigningCommitments,
      (∀ i ∈ slice, (node i).CommitDue id e →
        (∃ rng, (C.commit (C.signingShare (K.key i)) rng).1 = drawn i) ∧ (node' i).pending[id]? = some (drawn i).1) ∧
      ∃ status, s'.requests[id]? = some { e with status } ∧
        Gathered K m (slice.filter fun i => (node i).CommitDue id e) (fun i => (drawn i).2) e.message status := by
  have hdraw : ∀ i, ∃ drawn : C.SigningNonces × C.SigningCommitments, i ∈ slice → (node i).CommitDue id e →
      ((∃ rng, (C.commit (C.signingShare (K.key i)) rng).1 = drawn) ∧ (node' i).pending[id]? = some drawn.1) ∧
        (out i).filter (fun tx => tx.requestId? = some id) = [.submitCommitment id i drawn.2] := by
    intro i
    by_cases hdue : i ∈ slice ∧ (node i).CommitDue id e
    · obtain ⟨drawn, hdrawn, hp, _, htxs⟩ := ((h.reacted i hdue.1).answered id e he).commits hdue.2
      rw [(h.serves i hdue.1).keyPackage] at hdrawn
      rw [(h.serves i hdue.1).identifier] at htxs
      exact ⟨drawn, fun _ _ => ⟨⟨hdrawn, hp⟩, htxs⟩⟩
    · exact ⟨(C.commit (C.signingShare (K.key i)) rng).1, fun hi hi' => absurd ⟨hi, hi'⟩ hdue⟩
  choose drawn hdrawn using hdraw
  refine ⟨drawn, fun i hi hdue => (hdrawn i hi hdue).1, ?_⟩
  have htxs : (slice.flatMap fun i => (out i).filter fun tx => tx.requestId? = some id) =
      (slice.filter fun i => (node i).CommitDue id e).map fun i => Tx.submitCommitment id i (drawn i).2 := by
    rw [← flatten_map_ite, ← List.flatMap_def]
    refine List.flatMap_congr fun i hi => ?_
    by_cases hdue : (node i).CommitDue id e
    · rw [if_pos hdue]
      exact (hdrawn i hi hdue).2
    · have hquiet : (node i).Quiet id e := .of_awaiting hs hdue
      rw [if_neg hdue]
      exact (((h.reacted i hi).answered id e he).quiet hquiet).1
  rw [h.request, htxs, he]
  refine foldl_commitments (hd.filter _) (fun i hi => ?_) hs hlt
  obtain ⟨hi, hdue⟩ := List.mem_filter.mp hi
  obtain ⟨m', hs', hnew, _⟩ := of_decide_eq_true hdue
  rw [hs] at hs'; cases hs'
  rw [(h.serves i hi).identifier] at hnew
  exact ⟨hsub i hi, hnew⟩

/-- Where nobody has anything to do, the request stays as it is. -/
theorem still (h : Round K slice s node out s' node') (he : s.requests[id]? = some e)
    (hquiet : ∀ i ∈ slice, (node i).Quiet id e) : s'.requests[id]? = some e := by
  have hnone : (slice.flatMap fun i => (out i).filter fun tx => tx.requestId? = some id) = [] :=
    List.flatMap_eq_nil_iff.mpr fun i hi => (((h.reacted i hi).answered id e he).quiet (hquiet i hi)).1
  rw [h.request, hnone, he]
  rfl

/-- Only a request that comes to its signing in the round leaves anything to do. -/
theorem quiet (h : Round K slice s node out s' node') (he : s.requests[id]? = some e)
    (he' : s'.requests[id]? = some e')
    (hphase : ∀ m, e.status = .awaitingCommitments m → ∃ m', e'.status = .awaitingCommitments m') :
    ∀ i ∈ slice, (node' i).Quiet id e' := by
  intro i hi
  obtain ⟨e₀, he₀, hm, hl⟩ := h.earlier he'
  rw [he] at he₀
  cases he₀
  exact (h.reacted i hi).quiet he hm hl hphase

end Round

/-! ## Requests that a session cannot get past -/

/-- Nonces determine their commitments, and a member signs a package of enough
commitments exactly when the one in its name is of the nonces it signs with. -/
structure SignsOwn (K : GroupKeys C) (commitmentsOf : C.SigningNonces → C.SigningCommitments) : Prop where
  commit : ∀ share rng, (C.commit share rng).1.2 = commitmentsOf (C.commit share rng).1.1
  sign : ∀ i ∈ K.ids, ∀ (m : BTreeMap C.Identifier C.SigningCommitments) message nonces randomizer c,
    K.threshold ≤ m.size → m[i]? = some c →
      ((∃ share, C.sign (C.signingPackage m message) nonces (K.key i) randomizer = .ok share) ↔ c = commitmentsOf nonces)

/-- Somebody of the slice errs on the request as it is, or will once the slice has
committed: the package then has a commitment in its name that is not of the nonces it keeps. -/
inductive Spoils (K : GroupKeys C) (commitmentsOf : C.SigningNonces → C.SigningCommitments)
    (slice : List C.Identifier) (node : C.Identifier → Node C) (id : Uuid) (e : RequestEntry C) : Prop
  | now {i} : i ∈ slice → (node i).Fails id e → Spoils K commitmentsOf slice node id e
  | next {i m c nonces} : e.status = .awaitingCommitments m →
      K.threshold ≤ m.size + (slice.filter fun i => (node i).CommitDue id e).length → i ∈ slice → m[i]? = some c →
      (node i).pending[id]? = some nonces → id ∉ (node i).sharedRequests → c ≠ commitmentsOf nonces →
      Spoils K commitmentsOf slice node id e

namespace Round

variable {K : GroupKeys C} {commitmentsOf : C.SigningNonces → C.SigningCommitments} {slice : List C.Identifier}
  {s s' : State C} {node node' : C.Identifier → Node C} {out : C.Identifier → List (Tx C)} {id : Uuid}
  {e e' : RequestEntry C}

/-- What a node keeps of an open request in which its name is taken. -/
theorem kept (h : Round K slice s node out s' node') (he : s.requests[id]? = some e)
    {m : BTreeMap C.Identifier C.SigningCommitments} (hs : e.status = .awaitingCommitments m) {i : C.Identifier}
    (hi : i ∈ slice) (him : i ∈ m) : (node' i).pending[id]? = (node i).pending[id]? := by
  have hquiet : (node i).Quiet id e := by
    refine .of_awaiting hs fun hdue => ?_
    obtain ⟨m', hs', hnew, _⟩ := hdue
    rw [hs] at hs'; cases hs'
    rw [(h.serves i hi).identifier] at hnew
    exact hnew him
  exact (((h.reacted i hi).answered id e he).quiet hquiet).2.1

section
variable (hown : SignsOwn K commitmentsOf) (h : Round K slice s node out s' node') (hpos : 0 < K.threshold)
  (hd : slice.Nodup) (hsub : ∀ i ∈ slice, i ∈ K.ids) (rng : C.Rng)
include hown h hpos hd hsub rng

/-- **Step.** What spoils neither this round nor the next makes nobody err in the next. -/
theorem clear (he : s.requests[id]? = some e) (hclear : ¬ Spoils K commitmentsOf slice node id e)
    (he' : s'.requests[id]? = some e') : ∀ i ∈ slice, ¬ (node' i).Fails id e' := by
  intro i hi
  by_cases hphase : ∀ m, e.status = .awaitingCommitments m → ∃ m', e'.status = .awaitingCommitments m'
  · exact (h.quiet he he' hphase i hi).not_fails
  push Not at hphase
  obtain ⟨m, hs, hcut⟩ := hphase
  obtain ⟨drawn, hdrawn, status, hstatus, hgathered⟩ :=
    h.commitments hd hsub rng he hs (h.hosts.awaiting_lt hpos he hs)
  rw [he'] at hstatus
  cases hstatus
  cases hgathered with
  | waits _ _ _ => exact absurd rfl (hcut _)
  | @cut m' hfull hext hsize =>
    intro hfails
    cases hfails with
    | sessionInUse hdue _ =>
      obtain ⟨_, hs', _⟩ := hdue
      cases hs'
    | @frost pkg nonces err hdue herr =>
      obtain ⟨parts, shares, hs', hi', _, hr, hn⟩ := hdue
      cases hs'
      rw [(h.serves' i hi).identifier, mem_dom] at hi'
      rw [(h.serves' i hi).keyPackage] at herr
      obtain ⟨c, hc⟩ := mem_iff.mp hi'
      have hmine : c = commitmentsOf nonces := by
        rcases hext.only i c hc with hbefore | ⟨hdue, rfl⟩
        · have hp := h.kept he hs hi (mem_of_getElem? hbefore)
          have hshared := ((h.reacted i hi).answered id e he).shared hs
          by_contra hne
          exact hclear (.next hs hfull hi hbefore (hp ▸ hn) (fun hmem => hr (hshared.mpr hmem)) hne)
        · obtain ⟨⟨_, hcommit⟩, hp⟩ := hdrawn i hi (of_decide_eq_true (List.mem_filter.mp hdue).2)
          rw [hp] at hn
          cases hn
          rw [← hcommit]
          exact hown.commit _ _
      obtain ⟨share, hsign⟩ := (hown.sign i (hsub i hi) m' e.message nonces e.randomizer c hsize.ge hc).mpr hmine
      rw [hsign] at herr
      cases herr

/-- What spoils the next round makes somebody err in it. -/
theorem spoilt (he : s.requests[id]? = some e) {m : BTreeMap C.Identifier C.SigningCommitments}
    (hs : e.status = .awaitingCommitments m)
    (hfull : K.threshold ≤ m.size + (slice.filter fun i => (node i).CommitDue id e).length) {i : C.Identifier}
    (hi : i ∈ slice) {c : C.SigningCommitments} (hc : m[i]? = some c) {nonces : C.SigningNonces}
    (hn : (node i).pending[id]? = some nonces) (hr : id ∉ (node i).sharedRequests) (hne : c ≠ commitmentsOf nonces) :
    ∃ e', s'.requests[id]? = some e' ∧ (node' i).Fails id e' := by
  obtain ⟨_, _, status, he', hgathered⟩ := h.commitments hd hsub rng he hs (h.hosts.awaiting_lt hpos he hs)
  refine ⟨_, he', ?_⟩
  cases hgathered with
  | waits hfew _ _ => omega
  | @cut m' _ hext hsize =>
    have hserves := h.serves' i hi
    have hc' : m'[i]? = some c := hext.kept i c hc
    have hp := h.kept he hs hi (mem_of_getElem? hc)
    have hshared := ((h.reacted i hi).answered id e he).shared hs
    have hdue : (node' i).SignDue id { e with status := .signing (C.signingPackage m' e.message) (dom m') ∅ }
        (C.signingPackage m' e.message) nonces := by
      refine ⟨_, _, rfl, ?_, Std.ExtTreeMap.not_mem_empty, fun hmem => hr (hshared.mp hmem), hp.trans hn⟩
      rw [hserves.identifier, mem_dom]
      exact mem_of_getElem? hc'
    cases hsign : C.sign (C.signingPackage m' e.message) nonces (node' i).bundle.keyPackage e.randomizer with
    | error err => exact .frost hdue hsign
    | ok share =>
      rw [hserves.keyPackage] at hsign
      exact absurd ((hown.sign i (hsub i hi) m' e.message nonces e.randomizer c hsize.ge hc').mp ⟨share, hsign⟩) hne

end

/-- **Two rounds** leave nothing to do. -/
theorem settles {s'' : State C} {node'' : C.Identifier → Node C} {out' : C.Identifier → List (Tx C)}
    (h : Round K slice s node out s' node') (h' : Round K slice s' node' out' s'' node'') {e'' : RequestEntry C}
    (he'' : s''.requests[id]? = some e'') : ∀ i ∈ slice, (node'' i).Quiet id e'' := by
  obtain ⟨e', he', _, hl'⟩ := h'.earlier he''
  obtain ⟨e, he, _, hl⟩ := h.earlier he'
  refine h'.quiet he' he'' fun m' hs' => ?_
  have hquiet : ∀ i ∈ slice, (node' i).Quiet id e' := h.quiet he he' fun m hs => ⟨m', hs'⟩
  have hstill := h'.still he' hquiet
  rw [he''] at hstill
  cases hstill
  exact ⟨m', hs'⟩

end Round

theorem State.Hosts.not_spoils {K : GroupKeys C} {commitmentsOf : C.SigningNonces → C.SigningCommitments}
    {slice : List C.Identifier} {s : State C} {node : C.Identifier → Node C} {id : Uuid} {e : RequestEntry C}
    (h : s.Hosts K) (hpos : 0 < K.threshold) (he : s.requests[id]? = some e)
    (hquiet : ∀ i ∈ slice, (node i).Quiet id e) : ¬ Spoils K commitmentsOf slice node id e := by
  intro hspoils
  cases hspoils with
  | now hi hfails => exact (hquiet _ hi).not_fails hfails
  | next hs hfull _ _ _ _ _ =>
    have hnone : (slice.filter fun i => (node i).CommitDue id e) = [] :=
      List.filter_eq_nil_iff.mpr fun i hi hdue => (hquiet i hi).commit (of_decide_eq_true hdue)
    have hlt := h.awaiting_lt hpos he hs
    rw [hnone, List.length_nil] at hfull
    omega

/-! ## The session's own request -/

/-- A slice of at least a threshold of the group's nodes. -/
structure GroupKeys.Quorum (K : GroupKeys C) (slice : List C.Identifier) : Prop where
  nodup : slice.Nodup
  subset : ∀ i ∈ slice, i ∈ K.ids
  threshold : K.threshold ≤ slice.length

/-- The shares of everyone selected bring a request to its end. -/
theorem foldl_shares {K : GroupKeys C} {s : State C} (hg : s.group = some K.group) {S : Finset C.Identifier}
    (hS : S ⊆ K.ids) (hne : S.Nonempty) {pkg : C.SigningPackage} {share : C.Identifier → C.SignatureShare}
    {randomizer : C.Randomizer} {sig : C.Signature} (haggregate : C.aggregate pkg (tabulate S share) K.pkp
      (C.fromRandomizer (C.verifyingKey K.pkp) randomizer) = .ok sig) {l : List C.Identifier} (hd : l.Nodup)
    (hl : l.toFinset = S) {id : Uuid} {message : Bytes} :
    (l.map (shareTx id share)).foldl (entryFeed K.group)
        (some { opened id message randomizer with status := .signing pkg S ∅ }) =
      some { opened id message randomizer with status := .completed S sig } := by
  have hbefore : sharedEntry K id message randomizer pkg S share ∅ =
      { opened id message randomizer with status := .signing pkg S ∅ } := by
    have hcard : (∅ : Finset C.Identifier).card ≠ S.card := (Finset.card_pos.mpr hne).ne
    unfold sharedEntry
    rw [shared_signing hcard, tabulate_empty]
    rfl
  have hafter : sharedEntry K id message randomizer pkg S share S =
      { opened id message randomizer with status := .completed S sig } := by
    unfold sharedEntry
    rw [shared_completed haggregate]
    rfl
  have hnamed : ∀ tx ∈ l.map (shareTx id share), tx.requestId? = some id := by
    intro tx htx
    obtain ⟨i, _, rfl⟩ := List.mem_map.mp htx
    rfl
  -- a block of these shares alone does the same to the request
  have hrun : run applyTx (s.withRequest id (sharedEntry K id message randomizer pkg S share ∅))
      (l.map (shareTx id share)) = .ok (s.withRequest id (sharedEntry K id message randomizer pkg S share S)) :=
    run_shares hg hS pkg share hd hl
  have hfold := (replay_entry (fun tx htx => ⟨id, hnamed tx htx⟩) (s := s.withRequest id
    (sharedEntry K id message randomizer pkg S share ∅)) hg).2 id
  rw [replay_of_run hrun, List.filter_eq_self.mpr fun tx htx => decide_eq_true (hnamed tx htx), State.withRequest_self,
    State.withRequest_self, hbefore, hafter] at hfold
  exact hfold.symm

namespace Round

variable {K : GroupKeys C} {slice : List C.Identifier} {s s' : State C} {node node' : C.Identifier → Node C}
  {out : C.Identifier → List (Tx C)} {id : Uuid} {message : Bytes} {randomizer : C.Randomizer}

theorem emits (h : Round K slice s node out s' node') {e e' : RequestEntry C} (he : s.requests[id]? = some e)
    (he' : s'.requests[id]? = some e') (hne : e' ≠ e) : slice.flatMap out ≠ [] := by
  intro hnone
  rw [h.block, hnone, replay_nil, he] at he'
  exact hne (Option.some.inj he').symm

/-- Everyone of the slice commits, and a threshold of them is selected. -/
theorem selects (h : Round K slice s node out s' node') (hpos : 0 < K.threshold) (hslice : K.Quorum slice) (rng : C.Rng)
    (he : s.requests[id]? = some (opened id message randomizer))
    (hdue : ∀ i ∈ slice, (node i).CommitDue id (opened id message randomizer)) :
    ∃ S drawn, S.card = K.threshold ∧ (∀ i ∈ S, i ∈ slice ∧ (node' i).pending[id]? = some (drawn i).1) ∧ K.Draws S drawn ∧
      s'.requests[id]? = some { opened id message randomizer with status := .signing (packageOf S drawn message) S ∅ } := by
  obtain ⟨drawn, hdrawn, status, he', hgathered⟩ :=
    h.commitments hslice.nodup hslice.subset rng he rfl (show (∅ : BTreeMap C.Identifier _).size < _ by simpa using hpos)
  have hall : (slice.filter fun i => (node i).CommitDue id (opened id message randomizer)) = slice :=
    List.filter_eq_self.mpr fun i hi => decide_eq_true (hdue i hi)
  rw [hall] at hgathered
  cases hgathered with
  | waits hfew _ _ =>
    have := hslice.threshold
    simp only [Std.ExtTreeMap.size_empty] at hfew
    omega
  | @cut m _ hext hsize =>
    have hmem : ∀ (i : C.Identifier) c, m[i]? = some c → i ∈ slice ∧ c = (drawn i).2 := by
      intro i c hc
      rcases hext.only i c hc with hbefore | hnew
      · simp at hbefore
      · exact hnew
    have hin : ∀ i ∈ dom m, i ∈ slice := by
      intro i hi
      obtain ⟨c, hc⟩ := mem_iff.mp (mem_dom.mp hi)
      exact (hmem i c hc).1
    have htab : m = tabulate (dom m) fun i => (drawn i).2 := by
      refine eq_of_getElem?_iff fun i c => ?_
      rw [getElem?_tabulate, mem_dom]
      constructor
      · intro hc
        exact ⟨mem_of_getElem? hc, (hmem i c hc).2.symm⟩
      · rintro ⟨hi, rfl⟩
        obtain ⟨c, hc⟩ := mem_iff.mp hi
        rw [hc, (hmem i c hc).2]
    refine ⟨dom m, drawn, (card_dom m).trans hsize, fun i hi => ⟨hin i hi, ?_⟩, ⟨fun i hi => ?_, fun i hi => ?_⟩, ?_⟩
    · exact (hdrawn i (hin i hi) (hdue i (hin i hi))).2
    · exact hslice.subset i (hin i hi)
    · exact (hdrawn i (hin i hi) (hdue i (hin i hi))).1
    · rw [he']
      unfold packageOf
      rw [← htab]
      rfl

/-- The selected sign, and their shares are aggregated. -/
theorem completes (h : Round K slice s node out s' node') (hpos : 0 < K.threshold) (hd : slice.Nodup)
    (hsigning : HonestSigning K) {S : Finset C.Identifier}
    {drawn : C.Identifier → C.SigningNonces × C.SigningCommitments} (hcard : S.card = K.threshold)
    (hdraws : K.Draws S drawn) (he : s.requests[id]? =
      some { opened id message randomizer with status := .signing (packageOf S drawn message) S ∅ })
    (hready : ∀ i ∈ S, i ∈ slice ∧ (node i).pending[id]? = some (drawn i).1 ∧ id ∉ (node i).sharedRequests) :
    ∃ sig, C.verify (C.verifyingKey K.pkp + randomizer • C.generator) message sig = true ∧
      s'.requests[id]? = some { opened id message randomizer with status := .completed S sig } := by
  have hsign := hsigning.sign S drawn message randomizer hdraws hcard.ge
  obtain ⟨i₀, hi₀⟩ := Finset.card_pos.mp (hcard ▸ hpos)
  have : Nonempty C.SignatureShare := ⟨(hsign i₀ hi₀).choose⟩
  choose! share hshare using hsign
  have hout : ∀ i ∈ slice, ((out i).filter fun tx => tx.requestId? = some id) =
      if i ∈ S then [shareTx id share i] else [] := by
    intro i hi
    have hserves := h.serves i hi
    have hanswered := (h.reacted i hi).answered id _ he
    by_cases hiS : i ∈ S
    · obtain ⟨_, hn, hr⟩ := hready i hiS
      have hdue : (node i).SignDue id
          { opened id message randomizer with status := .signing (packageOf S drawn message) S ∅ }
          (packageOf S drawn message) (drawn i).1 :=
        ⟨S, ∅, rfl, hserves.identifier.symm ▸ hiS, Std.ExtTreeMap.not_mem_empty, hr, hn⟩
      obtain ⟨share', hshare', htxs, _⟩ := hanswered.signs hdue
      rw [hserves.keyPackage] at hshare'
      cases hshare'.symm.trans (hshare i hiS)
      rw [if_pos hiS, htxs, hserves.identifier]
      rfl
    · have hquiet : (node i).Quiet id
          { opened id message randomizer with status := .signing (packageOf S drawn message) S ∅ } := by
        refine .of_signing rfl fun pkg nonces hdue => ?_
        obtain ⟨_, _, hs, hi', _⟩ := hdue
        cases hs
        exact hiS (hserves.identifier ▸ hi')
      rw [if_neg hiS]
      exact (hanswered.quiet hquiet).1
  have htxs : (slice.flatMap fun i => (out i).filter fun tx => tx.requestId? = some id) =
      (slice.filter (· ∈ S)).map (shareTx id share) := by
    rw [List.flatMap_congr hout, List.flatMap_def]
    exact flatten_map_ite slice
  have hselected : (slice.filter (· ∈ S)).toFinset = S := by
    ext i
    simp only [List.mem_toFinset, List.mem_filter, decide_eq_true_eq]
    exact ⟨fun hi => hi.2, fun hi => ⟨(hready i hi).1, hi⟩⟩
  obtain ⟨sig, haggregate, hverify⟩ :=
    hsigning.aggregate S drawn message randomizer share hdraws hcard.ge hshare
  refine ⟨sig, hverify, ?_⟩
  rw [h.request, htxs, he]
  exact foldl_shares h.hosts.group hdraws.1 (Finset.card_pos.mp (hcard ▸ hpos)) haggregate
    (hd.filter fun i => i ∈ S) hselected

end Round

/-! ## Sessions -/

/-- What the node remembers is of `used` requests. -/
structure Node.Remembers (used : List Uuid) (node : Node C) : Prop where
  pending : ∀ id ∈ node.pending, id ∈ used
  committed : ∀ id ∈ node.committedRequests, id ∈ used
  shared : ∀ id ∈ node.sharedRequests, id ∈ used

theorem Node.Remembers.more {used : List Uuid} {node : Node C} (h : node.Remembers used) (id : Uuid) :
    node.Remembers (id :: used) where
  pending := fun id' hid => List.mem_cons_of_mem _ (h.pending id' hid)
  committed := fun id' hid => List.mem_cons_of_mem _ (h.committed id' hid)
  shared := fun id' hid => List.mem_cons_of_mem _ (h.shared id' hid)

/-- A request of which it remembers nothing is no error to begin with. -/
theorem Node.Remembers.not_fails {used : List Uuid} {node : Node C} (h : node.Remembers used) {id : Uuid}
    (hid : id ∉ used) (message : Bytes) (alpha : C.Randomizer) : ¬ node.Fails id (opened id message alpha) := by
  intro hfails
  cases hfails with
  | sessionInUse _ hp => exact hid (h.pending id hp)
  | frost hdue _ =>
    obtain ⟨_, _, hs, _⟩ := hdue
    cases hs

theorem Round.remembers {K : GroupKeys C} {slice : List C.Identifier} {s s' : State C}
    {node node' : C.Identifier → Node C} {out : C.Identifier → List (Tx C)} {used : List Uuid}
    (h : Round K slice s node out s' node') (hreq : ∀ (id : Uuid) e, s.requests[id]? = some e → id ∈ used)
    (hmem : ∀ i ∈ slice, (node i).Remembers used) : ∀ i ∈ slice, (node' i).Remembers used := by
  intro i hi
  have hagrees : ∀ id : Uuid, id ∉ used → (node i).AgreesAt id (node' i) := by
    intro id hid
    refine (h.reacted i hi).others id ?_
    cases he : s.requests[id]? with
    | none => rfl
    | some e => exact absurd (hreq id e he) hid
  refine ⟨fun id hid => ?_, fun id hid => ?_, fun id hid => ?_⟩
  · by_contra hnew
    exact hnew ((hmem i hi).pending id ((hagrees id hnew).mem_pending.mp hid))
  · by_contra hnew
    exact hnew ((hmem i hi).committed id ((hagrees id hnew).committed.mp hid))
  · by_contra hnew
    exact hnew ((hmem i hi).shared id ((hagrees id hnew).shared.mp hid))

namespace SigningSession

/-- A chain of the group with an empty mempool, and a slice of the group's nodes,
which pass the message. Requests may be open; `used` has their ids and those that a node remembers. -/
structure Convened (K : GroupKeys C) (slice : List C.Identifier) (used : List Uuid) (message : Bytes)
    (node : C.Identifier → Node C) (session : SigningSession C) : Prop where
  hosts : session.chain.state.Hosts K
  mempool : session.chain.mempool = []
  requests : ∀ (id : Uuid) e, session.chain.state.requests[id]? = some e → id ∈ used
  validators : session.validators = slice.map node
  serves : ∀ i ∈ slice, (node i).Serves K i
  policy : ∀ i ∈ slice, (node i).policy message = .ok ()
  remembers : ∀ i ∈ slice, (node i).Remembers used

/-- No open request keeps a session from its end. -/
def Unspoilt (K : GroupKeys C) (commitmentsOf : C.SigningNonces → C.SigningCommitments) (slice : List C.Identifier)
    (node : C.Identifier → Node C) (s : State C) : Prop :=
  ∀ (id : Uuid) e, s.requests[id]? = some e → ¬ Spoils K commitmentsOf slice node id e

theorem iterate_fails {requestId : Uuid} {chain : ChainSim C} {rng : C.Rng} {validators : List (Node C)} {e : Error}
    {session : SigningSession C} (hreact : reactAll chain rng false validators = (.error e, session)) (bound : Nat) :
    iterate requestId (bound + 1) { chain, validators, rng } = (.error (.err (.validatorReact e)), session) := by
  rw [iterate, hreact]

section
variable {K : GroupKeys C} {commitmentsOf : C.SigningNonces → C.SigningCommitments} {slice : List C.Identifier}
  {used : List Uuid} {sighash : Vector UInt8 32} {node : C.Identifier → Node C} {session : SigningSession C}
  {fillBytes : C.Rng → Vector UInt8 16 × C.Rng}

theorem Convened.submitted (h : session.Convened K slice used sighash.toList node)
    (hid : (Uuid.new fillBytes session.rng).1 ∉ used) (alpha : C.Randomizer) :
    ∃ chain, (∀ bound, driveWithin bound fillBytes sighash alpha session = iterate (Uuid.new fillBytes session.rng).1 bound
        { chain, validators := slice.map node, rng := (Uuid.new fillBytes session.rng).2 }) ∧
      chain.mempool = [] ∧ chain.state.Hosts K ∧ chain.state = session.chain.state.withRequest
        (Uuid.new fillBytes session.rng).1 (opened (Uuid.new fillBytes session.rng).1 sighash.toList alpha) := by
  let id := (Uuid.new fillBytes session.rng).1
  let tx : Tx C := .submitRequest id sighash.toList alpha
  have hnone : session.chain.state.requests[id]? = none := by
    cases he : session.chain.state.requests[id]? with
    | none => rfl
    | some e => exact absurd (h.requests id e he) hid
  have hpending : (session.chain.submit tx).mempool = [tx] := by simp [ChainSim.submit, h.mempool]
  have hrun : run applyTx (session.chain.submit tx).state [tx] =
      .ok (session.chain.state.withRequest id (opened id sighash.toList alpha)) :=
    run_cons.mpr ⟨_, (applyTx_request_ok rfl).mpr ⟨K.group, opened id sighash.toList alpha, h.hosts.group,
      entryStep_submitRequest.mpr ⟨hnone, rfl⟩, rfl⟩, run_nil _⟩
  have hsubmit : run applyTx (session.chain.submit tx).state (session.chain.submit tx).mempool =
      .ok (session.chain.state.withRequest id (opened id sighash.toList alpha)) := by
    rw [hpending]
    exact hrun
  have hcommit := ChainSim.commitBlock_all hsubmit
  have hhosts : (replay applyTx session.chain.state [tx]).Hosts K := by
    refine h.hosts.replay fun tx' htx => ?_
    rw [List.mem_singleton.mp htx]
    exact ⟨id, rfl⟩
  rw [show replay applyTx session.chain.state [tx] = _ from replay_of_run hrun] at hhosts
  let chain : ChainSim C :=
    { state := session.chain.state.withRequest id (opened id sighash.toList alpha), mempool := [],
      blockHeight := (session.chain.submit tx).blockHeight + 1, lastBlock := (session.chain.submit tx).mempool }
  refine ⟨chain, fun bound => ?_, rfl, hhosts, rfl⟩
  rw [driveWithin_submitted hcommit (by rw [hpending]; rfl) bound, h.validators]

/-- The first round: everyone of the slice commits to the session's request. -/
theorem Convened.first_round (h : session.Convened K slice used sighash.toList node) (hK : K.Honest)
    (hslice : K.Quorum slice) (hid : (Uuid.new fillBytes session.rng).1 ∉ used) {alpha : C.Randomizer}
    {chain : ChainSim C} (hempty : chain.mempool = []) (hhosts : chain.state.Hosts K)
    (hstate : chain.state = session.chain.state.withRequest (Uuid.new fillBytes session.rng).1
      (opened (Uuid.new fillBytes session.rng).1 sighash.toList alpha))
    (hf : ∀ i ∈ slice, ∀ (id : Uuid) e, session.chain.state.requests[id]? = some e → ¬ (node i).Fails id e)
    (rng : C.Rng) :
    ∃ out node₁ rng₁ chain₁ S drawn,
      (∀ bound, iterate (Uuid.new fillBytes session.rng).1 (bound + 1) { chain, validators := slice.map node, rng } =
        iterate (Uuid.new fillBytes session.rng).1 bound { chain := chain₁, validators := slice.map node₁, rng := rng₁ }) ∧
      chain₁.mempool = [] ∧ Round K slice chain.state node out chain₁.state node₁ ∧ S.card = K.threshold ∧
      (∀ i ∈ S, i ∈ slice ∧ (node₁ i).pending[(Uuid.new fillBytes session.rng).1]? = some (drawn i).1 ∧
        (Uuid.new fillBytes session.rng).1 ∉ (node₁ i).sharedRequests) ∧ K.Draws S drawn ∧
      chain₁.state.requests[(Uuid.new fillBytes session.rng).1]? =
        some { opened (Uuid.new fillBytes session.rng).1 sighash.toList alpha with
          status := .signing (packageOf S drawn sighash.toList) S ∅ } := by
  generalize (Uuid.new fillBytes session.rng).1 = id at hid hstate ⊢
  have hpos := hK.pos
  have hdue : ∀ i ∈ slice, (node i).CommitDue id (opened id sighash.toList alpha) := fun i hi =>
    ⟨∅, rfl, Std.ExtTreeMap.not_mem_empty, fun hc => hid ((h.remembers i hi).committed id hc), h.policy i hi⟩
  have hself : chain.state.requests[id]? = some (opened id sighash.toList alpha) := by
    rw [hstate]
    exact State.withRequest_self _ _ _
  have hclear : ∀ i ∈ slice, ∀ (id' : Uuid) e, chain.state.requests[id']? = some e → ¬ (node i).Fails id' e := by
    intro i hi id' e he hfails
    by_cases heq : id = id'
    · subst heq
      rw [hself] at he
      cases he
      exact (h.remembers i hi).not_fails hid _ _ hfails
    · rw [hstate, State.withRequest_of_ne _ _ heq] at he
      exact hf i hi id' e he hfails
  obtain ⟨out, node₁, rng₁, results, chain₁, hreact, hcommit, hempty₁, hround⟩ :=
    exists_round hhosts hempty hslice.nodup hslice.subset h.serves hclear rng
  obtain ⟨S, drawn, hcard, hS, hdraws, he₁⟩ := hround.selects hpos hslice rng hself hdue
  have hne : slice.flatMap out ≠ [] := hround.emits hself he₁ fun heq => by cases congrArg RequestEntry.status heq
  rw [show (!(slice.flatMap out).isEmpty) = true by simpa using hne] at hreact
  refine ⟨out, node₁, rng₁, chain₁, S, drawn, iterate_signing hreact hcommit he₁ rfl, hempty₁, hround, hcard, ?_, hdraws,
    he₁⟩
  intro i hi
  obtain ⟨hslice', hp⟩ := hS i hi
  refine ⟨hslice', hp, fun hmem => ?_⟩
  have hshared := ((hround.reacted i hslice').answered id _ hself).shared rfl
  exact hid ((h.remembers i hslice').shared id (hshared.mp hmem))

/-- **Session.** Among requests that do not spoil it, it ends with a valid signature, and none will spoil the next. -/
theorem Convened.drive (h : session.Convened K slice used sighash.toList node) (hK : K.Honest)
    (hsigning : HonestSigning K) (hown : SignsOwn K commitmentsOf) (hslice : K.Quorum slice)
    (hclear : Unspoilt K commitmentsOf slice node session.chain.state)
    (hid : (Uuid.new fillBytes session.rng).1 ∉ used) (alpha : C.Randomizer) :
    ∃ sig session' node', driveSigningSession fillBytes sighash alpha session = (.ok sig, session') ∧
      C.verify (C.verifyingKey K.pkp + alpha • C.generator) sighash.toList sig = true ∧
      session'.Convened K slice ((Uuid.new fillBytes session.rng).1 :: used) sighash.toList node' ∧
      Unspoilt K commitmentsOf slice node' session'.chain.state := by
  have hpos := hK.pos
  obtain ⟨chain, hdrive, hempty, hhosts, hstate⟩ := h.submitted hid alpha
  obtain ⟨out₁, node₁, rng₁, chain₁, S, drawn, hiterate, hempty₁, hround₁, hcard, hready, hdraws, he₁⟩ :=
    h.first_round hK hslice hid hempty hhosts hstate (fun i hi id e he hfails => hclear id e he (.now hi hfails))
      (Uuid.new fillBytes session.rng).2
  generalize (Uuid.new fillBytes session.rng).1 = id at *
  have hrequests : ∀ (id' : Uuid) e, chain.state.requests[id']? = some e → id' ∈ id :: used ∧
      ¬ Spoils K commitmentsOf slice node id' e := by
    intro id' e he
    rw [hstate] at he
    by_cases heq : id = id'
    · subst heq
      rw [State.withRequest_self] at he
      cases he
      refine ⟨List.mem_cons_self, fun hspoils => ?_⟩
      cases hspoils with
      | now hi hfails => exact (h.remembers _ hi).not_fails hid _ _ hfails
      | next hs _ _ hc _ _ _ =>
        cases hs
        simp at hc
    · rw [State.withRequest_of_ne _ _ heq] at he
      exact ⟨List.mem_cons_of_mem _ (h.requests id' e he), hclear id' e he⟩
  -- nobody errs in the second round either
  have hclear₁ : ∀ i ∈ slice, ∀ (id' : Uuid) e, chain₁.state.requests[id']? = some e → ¬ (node₁ i).Fails id' e := by
    intro i hi id' e' he'
    obtain ⟨e, he, _⟩ := hround₁.earlier he'
    exact hround₁.clear hown hpos hslice.nodup hslice.subset rng₁ he (hrequests id' e he).2 he' i hi
  obtain ⟨out₂, node₂, rng₂, results, chain₂, hreact, hcommit, hempty₂, hround₂⟩ :=
    exists_round hround₁.hosts' hempty₁ hslice.nodup hslice.subset hround₁.serves' hclear₁ rng₁
  obtain ⟨sig, hverify, he₂⟩ := hround₂.completes hpos hslice.nodup hsigning hcard hdraws he₁ hready
  have hrequests₁ : ∀ (id' : Uuid) e, chain₁.state.requests[id']? = some e → id' ∈ id :: used := by
    intro id' e' he'
    obtain ⟨e, he, _⟩ := hround₁.earlier he'
    exact (hrequests id' e he).1
  have hpolicy : ∀ i ∈ slice, (node₂ i).policy sighash.toList = .ok () := by
    intro i hi
    rw [(hround₂.reacted i hi).policy, (hround₁.reacted i hi).policy]
    exact h.policy i hi
  have hremembers := hround₂.remembers hrequests₁ (hround₁.remembers (fun id' e he => (hrequests id' e he).1)
    fun i hi => (h.remembers i hi).more id)
  refine ⟨sig, { chain := chain₂, validators := slice.map node₂, rng := rng₂ }, node₂, ?_, hverify,
    ⟨hround₂.hosts', hempty₂, fun id' e' he' => ?_, rfl, hround₂.serves', hpolicy, hremembers⟩, fun id' e' he' => ?_⟩
  · unfold driveSigningSession
    rw [hdrive, hiterate 7]
    exact iterate_completed hreact hcommit he₂ rfl 6
  · obtain ⟨e, he, _⟩ := hround₂.earlier he'
    exact hrequests₁ id' e he
  · exact hround₂.hosts'.not_spoils hpos he' (hround₁.settles hround₂ he')

/-- And a request that spoils it ends it with an error. -/
theorem Convened.drive_spoilt (h : session.Convened K slice used sighash.toList node) (hK : K.Honest)
    (hown : SignsOwn K commitmentsOf) (hslice : K.Quorum slice)
    (hspoilt : ¬ Unspoilt K commitmentsOf slice node session.chain.state)
    (hid : (Uuid.new fillBytes session.rng).1 ∉ used) (alpha : C.Randomizer) :
    ∃ e session', driveSigningSession fillBytes sighash alpha session =
      (.error (.err (.validatorReact e)), session') := by
  have hpos := hK.pos
  obtain ⟨chain, hdrive, hempty, hhosts, hstate⟩ := h.submitted hid alpha
  have hothers : ∀ (id : Uuid) e, session.chain.state.requests[id]? = some e → chain.state.requests[id]? = some e := by
    intro id e he
    have hne : (Uuid.new fillBytes session.rng).1 ≠ id := by
      rintro rfl
      exact hid (h.requests _ e he)
    rw [hstate, State.withRequest_of_ne _ _ hne]
    exact he
  have hmember : ∀ {node : C.Identifier → Node C}, (∀ i ∈ slice, (node i).Serves K i) →
      ∀ i ∈ slice, (node i).identifier ∈ K.ids := by
    intro node hserves i hi
    rw [(hserves i hi).identifier]
    exact hslice.subset i hi
  unfold driveSigningSession
  rw [hdrive 8]
  by_cases hf : ∃ i ∈ slice, ∃ (id : Uuid) (e : RequestEntry C), session.chain.state.requests[id]? = some e ∧
      (node i).Fails id e
  · obtain ⟨i, hi, id, e, he, hfails⟩ := hf
    obtain ⟨err, session', hreact⟩ := reactAll_fails chain hhosts.group (hmember h.serves)
      ⟨i, hi, id, e, hothers id e he, hfails⟩ (Uuid.new fillBytes session.rng).2 false
    exact ⟨err, session', iterate_fails hreact 7⟩
  · obtain ⟨out₁, node₁, rng₁, chain₁, S, drawn, hiterate, _, hround₁, _⟩ :=
      h.first_round hK hslice hid hempty hhosts hstate
        (fun i hi id e he hfails => hf ⟨i, hi, id, e, he, hfails⟩) (Uuid.new fillBytes session.rng).2
    unfold Unspoilt at hspoilt
    push Not at hspoilt
    obtain ⟨id, e, he, hspoils⟩ := hspoilt
    cases hspoils with
    | now hi hfails => exact absurd ⟨_, hi, id, e, he, hfails⟩ hf
    | next hs hfull hi hc hn hr hne =>
      obtain ⟨e', he', hfails⟩ := hround₁.spoilt hown hpos hslice.nodup hslice.subset rng₁ (hothers id e he) hs hfull hi hc
        hn hr hne
      obtain ⟨err, session', hreact⟩ := reactAll_fails chain₁ hround₁.hosts'.group (hmember hround₁.serves')
        ⟨_, hi, id, e', he', hfails⟩ rng₁ false
      rw [hiterate 7]
      exact ⟨err, session', iterate_fails hreact 6⟩

end

end SigningSession

end Sapphire
