import Sapphire.Monotone
import Sapphire.Signing

/-!
# What members remember, and what the chain has

Members react to the committed state when they are told to, blocks are
committed when they are, and anybody submits requests at any time. What the
mempool will make of the state is compared with what each member remembers:
who has committed, who has signed, and with which nonces.
-/

namespace Sapphire

open BTreeMap Replay

variable {C : Ciphersuite}

inductive SigningEvent (C : Ciphersuite) where
  | submit (tx : Tx C)
  | react (i : C.Identifier) (rng : C.Rng)
  | commit

/-- In whose name a request is answered. -/
def Tx.validator? : Tx C → Option C.Identifier
  | .submitCommitment _ v _ => some v
  | .submitShare _ v _ => some v
  | _ => none

namespace SigningSim

def withPolicies (sim : SigningSim C) (policy : C.Identifier → SignPolicy) : SigningSim C :=
  { sim with node := fun i => (sim.node i).withPolicy (policy i) }

def reaction (sim : SigningSim C) (i : C.Identifier) (rng : C.Rng) : Except Error (List (Tx C)) × Ctx C :=
  Ctx.react { node := sim.node i, calls := [], rng } sim.chain.state

/-- Only members react, and nobody else answers in a member's name. -/
def exec (members : Finset C.Identifier) (sim : SigningSim C) : SigningEvent C → SigningSim C
  | .submit tx => if tx.validator?.all (· ∉ members) then { sim with chain := sim.chain.submit tx } else sim
  | .react i rng =>
    if i ∈ members then
      let result := sim.reaction i rng
      { chain := sim.chain.submitAll (returned result.1), node := Function.update sim.node i result.2.node }
    else sim
  | .commit =>
    match sim.chain.commitBlock with
    | .ok (_, chain) => { sim with chain }
    | .error _ => sim

def execAll (members : Finset C.Identifier) (sim : SigningSim C) (events : List (SigningEvent C)) : SigningSim C :=
  events.foldl (exec members) sim

end SigningSim

/-! ## Later statuses -/

/-- What a status may become in any number of steps. -/
def RequestStatus.Leads : RequestStatus C → RequestStatus C → Prop := Relation.ReflTransGen RequestStatus.Advances

namespace RequestStatus.Leads

theorem of_signing {pkg : C.SigningPackage} {parts : Finset C.Identifier}
    {shares : BTreeMap C.Identifier C.SignatureShare} {status : RequestStatus C}
    (h : (RequestStatus.signing pkg parts shares).Leads status) :
    (∃ shares', status = .signing pkg parts shares' ∧ ∀ v ∈ shares, v ∈ shares') ∨
      (∃ sig, status = .completed parts sig) ∨ ∃ reason, status = .failed reason := by
  induction h with
  | refl => exact Or.inl ⟨shares, rfl, fun v hv => hv⟩
  | tail _ hstep ih =>
    obtain ⟨shares', rfl, hsub⟩ | ⟨sig, rfl⟩ | ⟨reason, rfl⟩ := ih
    · cases hstep with
      | signing hg => exact Or.inl ⟨_, rfl, fun v hv => hg.mem (hsub v hv)⟩
      | completed => exact Or.inr (Or.inl ⟨_, rfl⟩)
      | failed => exact Or.inr (Or.inr ⟨_, rfl⟩)
      | same => exact Or.inl ⟨shares', rfl, hsub⟩
    · cases hstep
      exact Or.inr (Or.inl ⟨sig, rfl⟩)
    · cases hstep
      exact Or.inr (Or.inr ⟨reason, rfl⟩)

theorem to_awaiting {status : RequestStatus C} {m : BTreeMap C.Identifier C.SigningCommitments}
    (h : status.Leads (.awaitingCommitments m)) : ∃ m₀, status = .awaitingCommitments m₀ ∧ ∀ v ∈ m₀, v ∈ m := by
  induction h using Relation.ReflTransGen.head_induction_on with
  | refl => exact ⟨m, rfl, fun v hv => hv⟩
  | head hstep _ ih =>
    obtain ⟨m₁, rfl, hsub⟩ := ih
    cases hstep with
    | awaiting hg => exact ⟨_, rfl, fun v hv => hsub v (hg.mem hv)⟩
    | same => exact ⟨m₁, rfl, hsub⟩

theorem of_completed {parts : Finset C.Identifier} {sig : C.Signature} {status : RequestStatus C}
    (h : (RequestStatus.completed parts sig).Leads status) : status = .completed parts sig := by
  induction h with
  | refl => rfl
  | tail _ hstep ih =>
    subst ih
    cases hstep
    rfl

theorem of_failed {reason : String} {status : RequestStatus C} (h : (RequestStatus.failed reason).Leads status) :
    status = .failed reason := by
  induction h with
  | refl => rfl
  | tail _ hstep ih =>
    subst ih
    cases hstep
    rfl

end RequestStatus.Leads

/-- The requests of one state are further on in the other. -/
def State.Leads (s t : State C) : Prop :=
  ∀ (id : Uuid) o, s.requests[id]? = some o → ∃ e, t.requests[id]? = some e ∧ e.message = o.message ∧
    e.randomizer = o.randomizer ∧ o.status.Leads e.status

theorem State.Leads.refl (s : State C) : s.Leads s := fun _ o ho => ⟨o, ho, rfl, rfl, .refl⟩

theorem State.Leads.trans {s t u : State C} (h : s.Leads t) (h' : t.Leads u) : s.Leads u := by
  intro id o ho
  obtain ⟨e, he, hm, hr, hl⟩ := h id o ho
  obtain ⟨e', he', hm', hr', hl'⟩ := h' id e he
  exact ⟨e', he', hm'.trans hm, hr'.trans hr, Relation.ReflTransGen.trans hl hl'⟩

theorem replay_leads (s : State C) (txs : List (Tx C)) : s.Leads (replay applyTx s txs) := by
  refine replay_rel applyTx State.Leads.refl (fun _ _ _ => State.Leads.trans) (fun s tx s' ha id o ho => ?_) s txs
  rcases applyTx_entry ha id with heq | ⟨g, e, _, _, hstep, rfl⟩
  · exact ⟨o, heq.trans ho, rfl, rfl, .refl⟩
  · rw [ho] at hstep
    obtain ⟨hm, hr, hadv⟩ := entryStep_advances hstep
    exact ⟨e, s.withRequest_self id e, hm, hr, .single hadv⟩

/-! ## What the members know of a request -/

/-- A member of the group, under its policy; what it has cached it has committed to. -/
structure Node.Of (K : GroupKeys C) (policy : SignPolicy) (i : C.Identifier) (node : Node C) : Prop where
  identifier : node.identifier = i
  keyPackage : node.bundle.keyPackage = K.key i
  policy : node.policy = policy
  cached : ∀ id ∈ node.pending, id ∈ node.committedRequests

/-- A request by what the chain has of it and what the members remember. Of an
open one a member's commitment is there if and only if the member knows of it;
in the signing phase whoever is selected has signed, or still holds the nonces
that its commitment is of. -/
def RequestStatus.Tracked (K : GroupKeys C) (node : C.Identifier → Node C) (id : Uuid) (message : Bytes)
    (randomizer : C.Randomizer) : RequestStatus C → Prop
  | .awaitingCommitments m => ∀ i ∈ K.ids, (i ∈ m ↔ id ∈ (node i).committedRequests) ∧
      id ∉ (node i).sharedRequests ∧ ∀ com, m[i]? = some com → ∃ nonces rng, (node i).pending[id]? = some nonces ∧
        (C.commit (C.signingShare (K.key i)) rng).1 = (nonces, com)
  | .signing pkg parts shares => ∃ drawn, K.Draws parts drawn ∧ parts.card = K.threshold ∧
      pkg = packageOf parts drawn message ∧ ∀ i ∈ parts, id ∈ (node i).committedRequests ∧
        (i ∈ shares ↔ id ∈ (node i).sharedRequests) ∧ (i ∉ shares → (node i).pending[id]? = some (drawn i).1) ∧
        ∀ share, shares[i]? = some share → C.sign pkg (drawn i).1 (K.key i) randomizer = .ok share
  | .completed parts sig => parts ⊆ K.ids ∧ parts.card = K.threshold ∧
      (∀ i ∈ parts, id ∈ (node i).committedRequests ∧ id ∈ (node i).sharedRequests) ∧
      C.verify (C.verifyingKey K.pkp + randomizer • C.generator) message sig = true
  | .failed _ => False

/-- What a member may have seen of a request in an earlier state. -/
def RequestStatus.Seen (K : GroupKeys C) (node : C.Identifier → Node C) (id : Uuid) : RequestStatus C → Prop
  | .awaitingCommitments m => ∀ i ∈ K.ids, i ∈ m → id ∈ (node i).committedRequests
  | .signing _ _ shares => ∀ i ∈ K.ids, i ∈ shares → id ∈ (node i).sharedRequests
  | _ => True

/-- The committed state `s`, and the state `t` that the mempool will make of it. -/
structure Tracks (K : GroupKeys C) (policy : C.Identifier → SignPolicy) (s t : State C) (node : C.Identifier → Node C) :
    Prop where
  base : s.Valid
  valid : t.Valid
  group : t.group = some K.group
  committed : s.group = some K.group
  leads : s.Leads t
  member : ∀ i ∈ K.ids, (node i).Of K (policy i) i
  known : ∀ i ∈ K.ids, ∀ id ∈ (node i).committedRequests,
    ∃ e, t.requests[id]? = some e ∧ policy i e.message = .ok ()
  signedAfter : ∀ i ∈ K.ids, ∀ id ∈ (node i).sharedRequests, id ∈ (node i).committedRequests
  tracked : ∀ (id : Uuid) e, t.requests[id]? = some e → e.status.Tracked K node id e.message e.randomizer
  seen : ∀ (id : Uuid) o, s.requests[id]? = some o → o.status.Seen K node id

/-! ## One request moves -/

theorem State.withRequest_eq {s : State C} {id : Uuid} {e : RequestEntry C} (he : s.requests[id]? = some e) :
    s.withRequest id e = s := by
  have hreq : s.requests.insert id e = s.requests := by
    refine eq_of_getElem?_iff fun id' e' => ?_
    rw [getElem?_insert']
    by_cases hid : id = id'
    · subst hid
      rw [if_pos rfl, he]
    · rw [if_neg hid]
  unfold State.withRequest
  rw [hreq]

/-- A node remembers more of one request, and the same of the others. -/
structure Node.Learns (id : Uuid) (node node' : Node C) : Prop where
  identifier : node'.identifier = node.identifier
  bundle : node'.bundle = node.bundle
  policy : node'.policy = node.policy
  committed : ∀ id' ∈ node.committedRequests, id' ∈ node'.committedRequests
  shared : ∀ id' ∈ node.sharedRequests, id' ∈ node'.sharedRequests
  otherCommitted : ∀ id', id' ≠ id → id' ∈ node'.committedRequests → id' ∈ node.committedRequests
  otherShared : ∀ id', id' ≠ id → id' ∈ node'.sharedRequests → id' ∈ node.sharedRequests
  otherPending : ∀ id' : Uuid, id' ≠ id → node'.pending[id']? = node.pending[id']?

namespace Node.Learns

variable {id : Uuid} {node : Node C}

theorem refl (id : Uuid) (node : Node C) : node.Learns id node :=
  ⟨rfl, rfl, rfl, fun _ h => h, fun _ h => h, fun _ _ h => h, fun _ _ h => h, fun _ _ => rfl⟩

theorem holding (id : Uuid) (node : Node C) (nonces : C.SigningNonces) : node.Learns id (node.holding id nonces) where
  identifier := rfl
  bundle := rfl
  policy := rfl
  committed := fun _ h => Finset.mem_insert_of_mem h
  shared := fun _ h => h
  otherCommitted := fun _ hne h => (Finset.mem_insert.mp h).resolve_left hne
  otherShared := fun _ _ h => h
  otherPending := fun _ hne => getElem?_insert_ne _ _ hne.symm

theorem signed (id : Uuid) (node : Node C) : node.Learns id (node.signed id) where
  identifier := rfl
  bundle := rfl
  policy := rfl
  committed := fun _ h => h
  shared := fun _ h => Finset.mem_insert_of_mem h
  otherCommitted := fun _ _ h => h
  otherShared := fun _ hne h => (Finset.mem_insert.mp h).resolve_left hne
  otherPending := fun _ hne => (getElem?_erase' _ _ _).trans (if_neg hne.symm)

variable {node' : Node C} (h : node.Learns id node')
include h

theorem of {K : GroupKeys C} {policy : SignPolicy} {i : C.Identifier} (hof : node.Of K policy i)
    (hid : id ∈ node'.pending → id ∈ node'.committedRequests) : node'.Of K policy i where
  identifier := h.identifier.trans hof.identifier
  keyPackage := by rw [h.bundle]; exact hof.keyPackage
  policy := h.policy.trans hof.policy
  cached := fun id' hmem => by
    by_cases hne : id' = id
    · subst hne
      exact hid hmem
    · obtain ⟨nonces, hn⟩ := mem_iff.mp hmem
      rw [h.otherPending id' hne] at hn
      exact h.committed id' (hof.cached id' (mem_of_getElem? hn))

end Node.Learns

section
variable {K : GroupKeys C} {node node' : C.Identifier → Node C} {id : Uuid}

theorem RequestStatus.Tracked.learns (hsub : ∀ i ∈ K.ids, (node i).Learns id (node' i)) {id' : Uuid} (hne : id' ≠ id)
    {message : Bytes} {randomizer : C.Randomizer} {status : RequestStatus C}
    (h : status.Tracked K node id' message randomizer) : status.Tracked K node' id' message randomizer := by
  have hc : ∀ i ∈ K.ids, (id' ∈ (node' i).committedRequests ↔ id' ∈ (node i).committedRequests) :=
    fun i hi => ⟨(hsub i hi).otherCommitted id' hne, (hsub i hi).committed id'⟩
  have hs : ∀ i ∈ K.ids, (id' ∈ (node' i).sharedRequests ↔ id' ∈ (node i).sharedRequests) :=
    fun i hi => ⟨(hsub i hi).otherShared id' hne, (hsub i hi).shared id'⟩
  have hp : ∀ i ∈ K.ids, (node' i).pending[id']? = (node i).pending[id']? :=
    fun i hi => (hsub i hi).otherPending id' hne
  cases status with
  | awaitingCommitments m =>
    intro i hi
    rw [hc i hi, hs i hi, hp i hi]
    exact h i hi
  | signing pkg parts shares =>
    obtain ⟨drawn, hdraws, hcard, hpkg, hall⟩ := h
    refine ⟨drawn, hdraws, hcard, hpkg, fun i hi => ?_⟩
    rw [hc i (hdraws.1 hi), hs i (hdraws.1 hi), hp i (hdraws.1 hi)]
    exact hall i hi
  | completed parts sig =>
    obtain ⟨hsub', hcard, hall, hverify⟩ := h
    refine ⟨hsub', hcard, fun i hi => ?_, hverify⟩
    rw [hc i (hsub' hi), hs i (hsub' hi)]
    exact hall i hi
  | failed reason => exact h

theorem RequestStatus.Seen.learns (hsub : ∀ i ∈ K.ids, (node i).Learns id (node' i)) {id' : Uuid}
    {status : RequestStatus C} (h : status.Seen K node id') : status.Seen K node' id' := by
  cases status with
  | awaitingCommitments m => exact fun i hi hm => (hsub i hi).committed _ (h i hi hm)
  | signing pkg parts shares => exact fun i hi hm => (hsub i hi).shared _ (h i hi hm)
  | _ => trivial

/-- The frame of a step: one request is written, and what is remembered of it. -/
theorem Tracks.set {policy : C.Identifier → SignPolicy} {s t : State C} (h : Tracks K policy s t node)
    (hsub : ∀ i ∈ K.ids, (node i).Learns id (node' i)) {e : RequestEntry C} (hval : (t.withRequest id e).Valid)
    (hleads : ∀ o, t.requests[id]? = some o →
      e.message = o.message ∧ e.randomizer = o.randomizer ∧ o.status.Leads e.status)
    (hknown : ∀ i ∈ K.ids, id ∈ (node' i).committedRequests →
      id ∈ (node i).committedRequests ∨ policy i e.message = .ok ())
    (hcached : ∀ i ∈ K.ids, id ∈ (node' i).pending → id ∈ (node' i).committedRequests)
    (hafter : ∀ i ∈ K.ids, id ∈ (node' i).sharedRequests → id ∈ (node' i).committedRequests)
    (htracked : e.status.Tracked K node' id e.message e.randomizer) :
    Tracks K policy s (t.withRequest id e) node' where
  base := h.base
  valid := hval
  group := h.group
  committed := h.committed
  leads := by
    refine h.leads.trans fun id' o ho => ?_
    by_cases hne : id = id'
    · subst hne
      exact ⟨e, t.withRequest_self id e, hleads o ho⟩
    · exact ⟨o, (t.withRequest_of_ne e hne).trans ho, rfl, rfl, .refl⟩
  member := fun i hi => (hsub i hi).of (h.member i hi) (hcached i hi)
  known := fun i hi id' hc => by
    by_cases hne : id = id'
    · subst hne
      refine ⟨e, t.withRequest_self id e, ?_⟩
      rcases hknown i hi hc with hold | hnew
      · obtain ⟨o, ho, hp⟩ := h.known i hi id hold
        rw [(hleads o ho).1]
        exact hp
      · exact hnew
    · rw [t.withRequest_of_ne e hne]
      exact h.known i hi id' ((hsub i hi).otherCommitted id' (Ne.symm hne) hc)
  signedAfter := fun i hi id' hsh => by
    by_cases hne : id' = id
    · subst hne
      exact hafter i hi hsh
    · exact (hsub i hi).committed id' (h.signedAfter i hi id' ((hsub i hi).otherShared id' hne hsh))
  tracked := fun id' e' he => by
    by_cases hne : id = id'
    · subst hne
      rw [t.withRequest_self] at he
      cases he
      exact htracked
    · rw [t.withRequest_of_ne e hne] at he
      exact (h.tracked id' e' he).learns hsub (Ne.symm hne)
  seen := fun id' o ho => (h.seen id' o ho).learns hsub

end

/-! ## Transactions -/

section
variable {K : GroupKeys C} {policy : C.Identifier → SignPolicy} {s t : State C} {node : C.Identifier → Node C}
  {id : Uuid}

theorem learns_update {i : C.Identifier} {node' : Node C} (h : (node i).Learns id node') (j : C.Identifier) :
    (node j).Learns id (Function.update node i node' j) := by
  by_cases hj : j = i
  · subst hj
    rw [Function.update_self]
    exact h
  · rw [Function.update_of_ne hj]
    exact .refl id _

/-- What is not an answer of a member opens a request or changes nothing. -/
theorem Tracks.foreign (h : Tracks K policy s t node) {tx : Tx C} (hf : tx.validator?.all (· ∉ K.ids) = true) :
    Tracks K policy s (feed applyTx t tx) node := by
  rcases feed_cases applyTx t tx with heq | ha
  · rw [heq]
    exact h
  have hnone := h.valid.no_ceremony h.group
  have hgroup := h.group
  have hval := applyTx_valid h.valid ha
  cases tx with
  | initGroup params pkp validators => rw [(applyInitGroup_ok.mp ha).1] at hgroup; cases hgroup
  | dkgBegin params validators => rw [(applyDkgBegin_ok.mp ha).1] at hgroup; cases hgroup
  | dkgRound1 v package =>
    obtain ⟨c, hc, _⟩ := applyDkgRound1_ok.mp ha
    rw [hnone] at hc; cases hc
  | dkgRound2 v w sealed =>
    obtain ⟨c, hc, _⟩ := applyDkgRound2_ok.mp ha
    rw [hnone] at hc; cases hc
  | dkgFinalize v pkp =>
    obtain ⟨c, hc, _⟩ := applyDkgFinalize_ok.mp ha
    rw [hnone] at hc; cases hc
  | submitRequest id msg r =>
    obtain ⟨g, e, _, hstep, heq⟩ := (applyTx_request_ok rfl).mp ha
    obtain ⟨hnew, rfl⟩ := entryStep_submitRequest.mp hstep
    have hfresh : ∀ i ∈ K.ids, id ∉ (node i).committedRequests := by
      intro i hi hc
      obtain ⟨o, ho, _⟩ := h.known i hi id hc
      rw [hnew] at ho; cases ho
    rw [heq] at hval ⊢
    refine h.set (fun i _ => .refl id (node i)) hval (fun o ho => ?_) (fun i hi hc => absurd hc (hfresh i hi))
      (fun i hi hp => (h.member i hi).cached id hp) (fun i hi hs => h.signedAfter i hi id hs) fun i hi => ?_
    · rw [hnew] at ho; cases ho
    · refine ⟨by simp [hfresh i hi], fun hs => hfresh i hi (h.signedAfter i hi id hs), by simp⟩
  | submitCommitment id v com =>
    obtain ⟨g, e, hg, hstep, _⟩ := (applyTx_request_ok rfl).mp ha
    obtain ⟨hv, _⟩ := entryStep_submitCommitment.mp hstep
    rw [h.group] at hg; cases hg
    exact absurd (show v ∈ K.ids from hv) (by simpa [Tx.validator?] using hf)
  | submitShare id v share =>
    obtain ⟨g, e, hg, hstep, _⟩ := (applyTx_request_ok rfl).mp ha
    obtain ⟨hv, _⟩ := entryStep_submitShare.mp hstep
    rw [h.group] at hg; cases hg
    exact absurd (show v ∈ K.ids from hv) (by simpa [Tx.validator?] using hf)

/-- The frame of a member's own step. -/
theorem Tracks.setOne (h : Tracks K policy s t node) {i : C.Identifier} {node' : Node C}
    (hlearns : (node i).Learns id node') {e : RequestEntry C} (hval : (t.withRequest id e).Valid)
    (hleads : ∀ o, t.requests[id]? = some o →
      e.message = o.message ∧ e.randomizer = o.randomizer ∧ o.status.Leads e.status)
    (hknown : id ∈ node'.committedRequests → id ∈ (node i).committedRequests ∨ policy i e.message = .ok ())
    (hmember : id ∈ node'.committedRequests)
    (htracked : e.status.Tracked K (Function.update node i node') id e.message e.randomizer) :
    Tracks K policy s (t.withRequest id e) (Function.update node i node') := by
  have hself : Function.update node i node' i = node' := Function.update_self ..
  have hother : ∀ j, j ≠ i → Function.update node i node' j = node j := fun j hj => Function.update_of_ne hj ..
  refine h.set (fun j _ => learns_update hlearns j) hval hleads (fun j _ hc => ?_) (fun j hj hp => ?_)
    (fun j hj hs => ?_) htracked
  · by_cases hji : j = i
    · subst hji
      rw [hself] at hc
      exact hknown hc
    · rw [hother j hji] at hc
      exact Or.inl hc
  · by_cases hji : j = i
    · subst hji
      rw [hself]
      exact hmember
    · rw [hother j hji] at hp ⊢
      exact (h.member j hj).cached id hp
  · by_cases hji : j = i
    · subst hji
      rw [hself]
      exact hmember
    · rw [hother j hji] at hs ⊢
      exact h.signedAfter j hj id hs

/-! ## Commitments -/

/-- With a threshold of commitments in, all of them are selected, and nobody has signed yet. -/
theorem RequestStatus.Tracked.cut {m : BTreeMap C.Identifier C.SigningCommitments} {message : Bytes}
    {randomizer : C.Randomizer} (h : (RequestStatus.awaitingCommitments m).Tracked K node id message randomizer)
    (hsub : dom m ⊆ K.ids) (hsize : m.size = K.threshold) {i₀ : C.Identifier} (hi₀ : i₀ ∈ m) :
    (RequestStatus.signing (C.signingPackage m message) (dom m) ∅).Tracked K node id message randomizer := by
  obtain ⟨coms, hm, hcoms⟩ := exists_tabulate hi₀
  have hall : ∀ i ∈ dom m, ∃ nonces rng, (node i).pending[id]? = some nonces ∧
      (C.commit (C.signingShare (K.key i)) rng).1 = (nonces, coms i) :=
    fun i hi => (h i (hsub hi)).2.2 (coms i) (hcoms i (mem_dom.mp hi))
  have : Nonempty C.SigningNonces := ⟨(hall i₀ (mem_dom.mpr hi₀)).choose⟩
  have : Nonempty C.Rng := ⟨(hall i₀ (mem_dom.mpr hi₀)).choose_spec.choose⟩
  choose! nonces rng hpending hdraw using hall
  refine ⟨fun i => (nonces i, coms i), ⟨hsub, fun i hi => ⟨rng i, hdraw i hi⟩⟩, by rw [card_dom, hsize],
    congrArg (C.signingPackage · message) hm, fun i hi => ?_⟩
  obtain ⟨hknown, hfresh, _⟩ := h i (hsub hi)
  exact ⟨hknown.mp (mem_dom.mp hi), by simp [hfresh], fun _ => hpending i hi, by simp⟩

/-- A fresh commitment among the others. -/
theorem RequestStatus.Tracked.join {m : BTreeMap C.Identifier C.SigningCommitments} {message : Bytes}
    {randomizer : C.Randomizer} (h : (RequestStatus.awaitingCommitments m).Tracked K node id message randomizer)
    {i : C.Identifier} {rng : C.Rng} {drawn : C.SigningNonces × C.SigningCommitments}
    (hdrawn : (C.commit (C.signingShare (K.key i)) rng).1 = drawn) :
    (RequestStatus.awaitingCommitments (m.insert i drawn.2)).Tracked K
      (Function.update node i ((node i).holding id drawn.1)) id message randomizer := by
  intro j hj
  obtain ⟨hknown, hfresh, hown⟩ := h j hj
  by_cases hji : j = i
  · subst hji
    rw [Function.update_self]
    refine ⟨by simp [Node.holding, Node.insertCommitted], hfresh, fun com hcom => ⟨drawn.1, rng, ?_, ?_⟩⟩
    · simp [Node.holding, Node.insertPending, Node.insertCommitted]
    · rw [getElem?_insert', if_pos rfl] at hcom
      rw [hdrawn, ← Option.some.inj hcom]
  · rw [Function.update_of_ne hji]
    refine ⟨by simp [hknown, Ne.symm hji], hfresh, fun com hcom => hown com ?_⟩
    rwa [getElem?_insert_ne m _ (Ne.symm hji)] at hcom

/-- A node that has not committed is not selected, so what it remembers does not matter once there is a selection. -/
theorem RequestStatus.Tracked.bystander {i : C.Identifier} {node' : Node C} (hc : id ∉ (node i).committedRequests)
    {message : Bytes} {randomizer : C.Randomizer} {status : RequestStatus C}
    (hst : ∀ m, status ≠ .awaitingCommitments m) (h : status.Tracked K node id message randomizer) :
    status.Tracked K (Function.update node i node') id message randomizer := by
  have hne : ∀ j, id ∈ (node j).committedRequests → j ≠ i := by
    rintro j hj rfl
    exact hc hj
  cases status with
  | awaitingCommitments m => exact absurd rfl (hst m)
  | signing pkg parts shares =>
    obtain ⟨drawn, hdraws, hcard, hpkg, hall⟩ := h
    refine ⟨drawn, hdraws, hcard, hpkg, fun j hj => ?_⟩
    rw [Function.update_of_ne (hne j (hall j hj).1)]
    exact hall j hj
  | completed parts sig =>
    obtain ⟨hsub, hcard, hall, hverify⟩ := h
    refine ⟨hsub, hcard, fun j hj => ?_, hverify⟩
    rw [Function.update_of_ne (hne j (hall j hj).1)]
    exact hall j hj
  | failed reason => exact h

theorem thresholdCut_ne (params : MpcParams) (message : Bytes) {m : BTreeMap C.Identifier C.SigningCommitments}
    {v : C.Identifier} (com : C.SigningCommitments) (hv : v ∉ m) :
    thresholdCut params message (m.insert v com) ≠ .awaitingCommitments m := by
  intro h
  unfold thresholdCut at h
  split at h
  · cases h
  · have hm : v ∈ m.insert v com := by simp
    rw [RequestStatus.awaitingCommitments.inj h] at hm
    exact hv hm

/-- What is dropped of a member that has not committed comes after the first phase. -/
theorem Tracks.too_late (h : Tracks K policy s t node) {i : C.Identifier} (hi : i ∈ K.ids) {e : RequestEntry C}
    (he : t.requests[id]? = some e) (hnew : id ∉ (node i).committedRequests) {com : C.SigningCommitments}
    (heq : feed applyTx t (.submitCommitment id i com) = t) (m : BTreeMap C.Identifier C.SigningCommitments) :
    e.status ≠ .awaitingCommitments m := by
  intro hst
  have htracked := h.tracked id e he
  rw [hst] at htracked
  have hm : i ∉ m := fun hm => hnew ((htracked i hi).1.mp hm)
  let e' : RequestEntry C := { e with status := thresholdCut K.group.params e.message (m.insert i com) }
  have hok : applyTx t (.submitCommitment id i com) = .ok (t.withRequest id e') := (applyTx_request_ok rfl).mpr
    ⟨K.group, e', h.group, entryStep_submitCommitment.mpr ⟨hi, e, m, he, hst, hm, rfl⟩, rfl⟩
  have hget := t.withRequest_self id e'
  rw [← feed_ok hok, heq, he] at hget
  refine thresholdCut_ne K.group.params e.message com hm ?_
  rw [← hst]
  exact (congrArg RequestEntry.status (Option.some.inj hget)).symm

/-- A fresh commitment joins an open request; one that comes too late is dropped, and its nonces stay unused. -/
theorem Tracks.commits (hpos : 0 < K.threshold) (h : Tracks K policy s t node) {i : C.Identifier} (hi : i ∈ K.ids)
    {e : RequestEntry C} (he : t.requests[id]? = some e) (hnew : id ∉ (node i).committedRequests)
    (hpolicy : policy i e.message = .ok ()) {rng : C.Rng} {drawn : C.SigningNonces × C.SigningCommitments}
    (hdrawn : (C.commit (C.signingShare (K.key i)) rng).1 = drawn) :
    Tracks K policy s (feed applyTx t (.submitCommitment id i drawn.2))
      (Function.update node i ((node i).holding id drawn.1)) := by
  have htracked := h.tracked id e he
  have hmember : id ∈ ((node i).holding id drawn.1).committedRequests := Finset.mem_insert_self ..
  rcases feed_cases applyTx t (.submitCommitment id i drawn.2) with heq | ha
  · rw [heq, ← State.withRequest_eq he]
    refine h.setOne (.holding id _ _) (by rw [State.withRequest_eq he]; exact h.valid) (fun o ho => ?_)
      (fun _ => Or.inr hpolicy) hmember (htracked.bystander hnew (h.too_late hi he hnew heq))
    rw [he] at ho; cases ho
    exact ⟨rfl, rfl, .refl⟩
  · have hval := applyTx_valid h.valid ha
    obtain ⟨g, e', hg, hstep, heq⟩ := (applyTx_request_ok rfl).mp ha
    rw [h.group] at hg; cases hg
    rw [he] at hstep
    obtain ⟨hm', hr', hadv⟩ := entryStep_advances hstep
    obtain ⟨_, o, m, ho, hst, hm, rfl⟩ := entryStep_submitCommitment.mp hstep
    cases ho
    rw [heq] at hval ⊢
    refine h.setOne (.holding id _ _) hval (fun o ho => ?_) (fun _ => Or.inr hpolicy) hmember ?_
    · rw [he] at ho; cases ho
      exact ⟨hm', hr', .single hadv⟩
    rw [hst] at htracked
    have hopen := htracked.join hdrawn
    have hv := (h.valid.request_valid h.group he).status
    rw [hst] at hv
    obtain ⟨hvdom, hvsize⟩ := hv
    have hsize := size_insert_of_not_mem drawn.2 hm
    have hlt : K.threshold < 65536 := K.params.threshold.toNat_lt
    have hthr : K.group.params.threshold.toNat = K.threshold := rfl
    change (thresholdCut K.group.params e.message (m.insert i drawn.2)).Tracked _ _ _ _ _
    rw [thresholdCut_eq (by omega)]
    by_cases hfull : K.group.params.threshold.toNat ≤ (m.insert i drawn.2).size
    · rw [if_pos hfull, cut_of_size (by omega)]
      refine hopen.cut ?_ (by omega) (show i ∈ m.insert i drawn.2 by simp)
      rw [dom_insert]
      exact Finset.insert_subset hi hvdom
    · rw [if_neg hfull]
      exact hopen

/-! ## Shares -/

/-- A share among the others: with it the last is in and the signature is made, or the phase goes on. -/
theorem RequestStatus.Tracked.share (hsigning : HonestSigning K) {message : Bytes} {randomizer : C.Randomizer}
    {parts : Finset C.Identifier} {drawn : C.Identifier → C.SigningNonces × C.SigningCommitments}
    (hdraws : K.Draws parts drawn) (hcard : parts.card = K.threshold)
    {shares : BTreeMap C.Identifier C.SignatureShare} {i : C.Identifier} {share : C.SignatureShare}
    (hdom : dom (shares.insert i share) ⊆ parts)
    (hshare : C.sign (packageOf parts drawn message) (drawn i).1 (K.key i) randomizer = .ok share)
    (hall : ∀ j ∈ parts, id ∈ (node j).committedRequests ∧ (j ∈ shares ↔ id ∈ (node j).sharedRequests) ∧
      (j ∉ shares → (node j).pending[id]? = some (drawn j).1) ∧
      ∀ share, shares[j]? = some share →
        C.sign (packageOf parts drawn message) (drawn j).1 (K.key j) randomizer = .ok share) :
    (aggregateIfComplete K.pkp randomizer (packageOf parts drawn message) parts (shares.insert i share)).Tracked K
      (Function.update node i ((node i).signed id)) id message randomizer := by
  have hall' : ∀ j ∈ parts, id ∈ (Function.update node i ((node i).signed id) j).committedRequests ∧
      (j ∈ shares.insert i share ↔ id ∈ (Function.update node i ((node i).signed id) j).sharedRequests) ∧
      (j ∉ shares.insert i share →
        (Function.update node i ((node i).signed id) j).pending[id]? = some (drawn j).1) ∧
      ∀ sh, (shares.insert i share)[j]? = some sh →
        C.sign (packageOf parts drawn message) (drawn j).1 (K.key j) randomizer = .ok sh := by
    intro j hj
    obtain ⟨hc, hs, hp, hown⟩ := hall j hj
    by_cases hji : j = i
    · subst hji
      rw [Function.update_self]
      refine ⟨hc, by simp [Node.signed, Node.insertShared], fun hn => absurd (by simp) hn, fun sh hsh => ?_⟩
      rw [getElem?_insert', if_pos rfl] at hsh
      rw [hshare, Option.some.inj hsh]
    · rw [Function.update_of_ne hji, getElem?_insert_ne shares share (Ne.symm hji)]
      exact ⟨hc, by simp [Ne.symm hji, hs], fun hn => hp fun hmem => hn (by simp [hmem]), hown⟩
  by_cases hfull : (shares.insert i share).size = parts.card
  · obtain ⟨out, htab, hout⟩ := exists_tabulate (show i ∈ shares.insert i share by simp)
    have hparts : dom (shares.insert i share) = parts := dom_eq_of_size hdom hfull.ge
    rw [hparts] at htab
    have hmem : ∀ j ∈ parts, j ∈ shares.insert i share := fun j hj => mem_dom.mp (hparts ▸ hj)
    obtain ⟨sig, hsig, hverify⟩ := hsigning.aggregate parts drawn message randomizer out hdraws hcard.ge
      fun j hj => (hall' j hj).2.2.2 _ (hout j (hmem j hj))
    rw [htab, shared_completed hsig]
    exact ⟨hdraws.1, hcard, fun j hj => ⟨(hall' j hj).1, (hall' j hj).2.1.mp (hmem j hj)⟩, hverify⟩
  · have hstay : aggregateIfComplete K.pkp randomizer (packageOf parts drawn message) parts (shares.insert i share) =
        .signing _ parts (shares.insert i share) := if_neg hfull
    rw [hstay]
    exact ⟨drawn, hdraws, hcard, rfl, hall'⟩

/-- Whoever is selected and has not signed yet still holds its nonces, signs, and is accepted. -/
theorem Tracks.signs (hsigning : HonestSigning K) (h : Tracks K policy s t node) {i : C.Identifier}
    {e : RequestEntry C} (he : t.requests[id]? = some e) {pkg : C.SigningPackage} {parts : Finset C.Identifier}
    {shares : BTreeMap C.Identifier C.SignatureShare} (hst : e.status = .signing pkg parts shares) (hi : i ∈ parts)
    (hnew : i ∉ shares) :
    ∃ nonces share t', (node i).pending[id]? = some nonces ∧ C.sign pkg nonces (K.key i) e.randomizer = .ok share ∧
      applyTx t (.submitShare id i share) = .ok t' ∧
      Tracks K policy s t' (Function.update node i ((node i).signed id)) := by
  have htracked := h.tracked id e he
  rw [hst] at htracked
  obtain ⟨drawn, hdraws, hcard, rfl, hall⟩ := htracked
  obtain ⟨share, hshare⟩ := hsigning.sign parts drawn e.message e.randomizer hdraws hcard.ge i hi
  have ha : applyTx t (.submitShare id i share) = .ok _ := (applyTx_request_ok rfl).mpr
    ⟨K.group, _, h.group, entryStep_submitShare.mpr ⟨hdraws.1 hi, e, _, parts, shares, he, hst, hi, hnew, rfl⟩, rfl⟩
  refine ⟨(drawn i).1, share, _, (hall i hi).2.2.1 hnew, hshare, ha, ?_⟩
  have hv := (h.valid.request_valid h.group he).status
  rw [hst] at hv
  have hdom : dom (shares.insert i share) ⊆ parts := by
    rw [dom_insert]
    exact Finset.insert_subset hi hv.2.1
  have hadv := aggregateIfComplete_advances K.group.pkp e.randomizer (packageOf parts drawn e.message) parts share hnew
  rw [← hst] at hadv
  refine h.setOne (.signed id _) (applyTx_valid h.valid ha) (fun o ho => ?_) Or.inl (hall i hi).1 ?_
  · rw [he] at ho; cases ho
    exact ⟨rfl, rfl, .single hadv⟩
  · exact RequestStatus.Tracked.share hsigning hdraws hcard hdom hshare hall

end

end Sapphire
