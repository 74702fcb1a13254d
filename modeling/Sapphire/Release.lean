import Sapphire.EscrowGate

/-!
# Releases of an escrow

With every validator behind the same gate, what completes pays exactly the
registered terms, and under one request id at most once. Nothing counts the
requests for one escrow: an approved message is approved again under a new id.
-/

namespace Sapphire

open BTreeMap Replay Parties

variable {C : Ciphersuite}

def Tx.isRequest : Tx C → Bool
  | .submitRequest _ _ _ => true
  | _ => false

/-! ## A completed request is final -/

theorem entryStep_of_completed {g : GroupConfig C} {o e : RequestEntry C} {parts : Finset C.Identifier}
    {sig : C.Signature} {tx : Tx C} (hs : o.status = .completed parts sig) : entryStep g (some o) tx ≠ some e := by
  intro h
  cases tx with
  | submitRequest id msg r => cases h
  | submitCommitment id v com =>
    obtain ⟨_, o', m, ho, hst, _⟩ := entryStep_submitCommitment.mp h
    cases ho
    rw [hs] at hst; cases hst
  | submitShare id v share =>
    obtain ⟨_, o', pkg, parts', others, ho, hst, _⟩ := entryStep_submitShare.mp h
    cases ho
    rw [hs] at hst; cases hst
  | _ => cases h

theorem applyTx_completed {s s' : State C} {tx : Tx C} (ha : applyTx s tx = .ok s') {id : Uuid} {e : RequestEntry C}
    {parts : Finset C.Identifier} {sig : C.Signature} (he : s.requests[id]? = some e)
    (hs : e.status = .completed parts sig) : s'.requests[id]? = some e := by
  rcases applyTx_entry ha id with heq | ⟨g, e', _, _, hstep, _⟩
  · exact heq.trans he
  · rw [he] at hstep
    exact absurd hstep (entryStep_of_completed hs)

theorem reached_completed {pre : List (Tx C)} (post : List (Tx C)) {id : Uuid} {e : RequestEntry C}
    {parts : Finset C.Identifier} {sig : C.Signature} (he : (reached pre).requests[id]? = some e)
    (hs : e.status = .completed parts sig) : (reached (pre ++ post)).requests[id]? = some e := by
  rw [show reached (pre ++ post) = replay applyTx (reached pre) post from replay_append _ _ _]
  exact replay_invariant (P := fun s : State C => s.requests[id]? = some e)
    (fun _ _ _ h ha => applyTx_completed ha h hs) he post

/-! ## Who committed -/

def RequestStatus.committers : RequestStatus C → Finset C.Identifier
  | .awaitingCommitments m => dom m
  | .signing _ parts _ => parts
  | .completed parts _ => parts
  | .failed _ => ∅

theorem thresholdCut_committers (params : MpcParams) (message : Bytes)
    (m : BTreeMap C.Identifier C.SigningCommitments) : (thresholdCut params message m).committers ⊆ dom m := by
  unfold thresholdCut
  split
  · exact dom_cut_subset _ _
  · exact subset_rfl

theorem aggregateIfComplete_committers (pkp : C.PublicKeyPackage) (r : C.Randomizer) (pkg : C.SigningPackage)
    (parts : Finset C.Identifier) (shares : BTreeMap C.Identifier C.SignatureShare) :
    (aggregateIfComplete pkp r pkg parts shares).committers ⊆ parts := by
  unfold aggregateIfComplete
  split
  · split
    · exact subset_rfl
    · exact Finset.empty_subset _
  · exact subset_rfl

theorem entryStep_committers {g : GroupConfig C} {old : Option (RequestEntry C)} {tx : Tx C} {e : RequestEntry C}
    {id : Uuid} (hid : tx.requestId? = some id) (h : entryStep g old tx = some e) {v : C.Identifier}
    (hv : v ∈ e.status.committers) :
    (∃ o, old = some o ∧ v ∈ o.status.committers) ∨ ∃ com, tx = .submitCommitment id v com := by
  cases tx with
  | submitRequest id' msg r =>
    obtain ⟨_, rfl⟩ := entryStep_submitRequest.mp h
    exact absurd hv (by simp [RequestStatus.committers])
  | submitCommitment id' w com =>
    cases hid
    obtain ⟨_, o, m, ho, hs, _, rfl⟩ := entryStep_submitCommitment.mp h
    have hdom := thresholdCut_committers _ _ _ hv
    rw [dom_insert] at hdom
    rcases Finset.mem_insert.mp hdom with rfl | hm
    · exact Or.inr ⟨com, rfl⟩
    · exact Or.inl ⟨o, ho, by rw [hs]; exact hm⟩
  | submitShare id' w share =>
    obtain ⟨_, o, pkg, parts, others, ho, hs, _, _, rfl⟩ := entryStep_submitShare.mp h
    exact Or.inl ⟨o, ho, by rw [hs]; exact aggregateIfComplete_committers _ _ _ _ _ hv⟩
  | _ => cases hid

theorem committer_in_log (log : List (Tx C)) {id : Uuid} {e : RequestEntry C} {v : C.Identifier}
    (he : (reached log).requests[id]? = some e) (hv : v ∈ e.status.committers) :
    ∃ com, .submitCommitment id v com ∈ log := by
  obtain ⟨pre, tx, post, g, e', hlog, hid, _, hstep, _, hv', hnew⟩ :=
    exists_entry_gain (Q := fun o => v ∈ o.status.committers) he hv
  rcases entryStep_committers hid hstep hv' with ⟨o, ho, hvo⟩ | ⟨com, rfl⟩
  · exact absurd hvo (hnew o ho)
  · exact ⟨com, by rw [hlog]; simp⟩

/-! ## Validators behind one set of terms -/

section
variable {W : Type} (hex : Hex) (fromSlice : Bytes → Except String (ReleaseProposal W))
  (escrows : BTreeMap EscrowId EscrowTerms)
  (verifier : C.Identifier → ConditionVerifier W) (bundle : C.Identifier → KeyShareBundle C) (boot : List (Tx C))

def validatorNode (v : C.Identifier) : Node C :=
  (Node.new (bundle v)).withPolicy (EscrowPolicy.approve hex fromSlice { escrows, verifier := verifier v })

/-- A run of validators over the log `boot`, where others submit requests only. -/
def validatorRun (events : List (Event (Tx C) C.Identifier C.Rng)) : World (Tx C) C.Identifier (Signer C) :=
  (signers Tx.isRequest).execAll (signersStart boot (validatorNode hex fromSlice escrows verifier bundle)) events

def ReleasedAtMostOnce (log : List (Tx C)) : Prop :=
  ∀ (id id' : Uuid) e e' parts parts' sig sig' p p', (reached log).requests[id]? = some e →
    (reached log).requests[id']? = some e' → e.status = .completed parts sig → e'.status = .completed parts' sig' →
    fromSlice e.message = .ok p → fromSlice e'.message = .ok p' → p.escrowId = p'.escrowId → id = id'

/-- What holds of releases: a completed request pays the registered terms
exactly, it stays as it is in every continuation of the run, and every validator
returned at most one commitment and one share for it. -/
structure ReleaseGuarantee (w : World (Tx C) C.Identifier (Signer C)) : Prop where
  exact : ∀ (id : Uuid) e parts sig, (reached w.log).requests[id]? = some e → e.status = .completed parts sig →
    parts.Nonempty ∧ ∃ proposal terms, fromSlice e.message = .ok proposal ∧
      escrows[proposal.escrowId]? = some terms ∧
      proposal.intent.payment = { amount := terms.amount, recipient := terms.payee } ∧
      ∀ v ∈ parts, (verifier v).verify terms proposal.intent.witness = true
  final : ∀ (id : Uuid) e parts sig, (reached w.log).requests[id]? = some e → e.status = .completed parts sig →
    ∀ events, (reached ((signers Tx.isRequest).execAll w events).log).requests[id]? = some e
  once : ∀ v id, (w.sent v).countP (·.isCommitmentFor id) ≤ 1 ∧ (w.sent v).countP (·.isShareFor id) ≤ 1

variable (hkey : ∀ v, C.identifier (bundle v).keyPackage = v) (hboot : ∀ tx ∈ boot, tx.requestId? = none)
  (events : List (Event (Tx C) C.Identifier C.Rng))

theorem validatorRun_gated (hp : PackageLaws C) (v : C.Identifier) :
    Gated (validatorNode hex fromSlice escrows verifier bundle v)
      (validatorRun hex fromSlice escrows verifier bundle boot events).log
      ((validatorRun hex fromSlice escrows verifier bundle boot events).mem v)
      ((validatorRun hex fromSlice escrows verifier bundle boot events).sent v) :=
  gated_run hp Tx.isRequest boot bundle (fun v => EscrowPolicy.approve hex fromSlice { escrows, verifier := verifier v })
    events v

theorem validatorRun_once (v : C.Identifier) :
    Once ((validatorRun hex fromSlice escrows verifier bundle boot events).sent v)
      ((validatorRun hex fromSlice escrows verifier bundle boot events).mem v) := by
  have hinv : System.PartyInvariant (signers (C := C) (P := C.Identifier) Tx.isRequest)
      (fun _ _ (σ : Signer C) out => Once out σ) := by
    constructor
    · intro _ _ _ _ h _
      exact h
    · intro log _ σ out h k rng
      exact h.react (reached (log.take k)) rng
  refine hinv.execAll (fun p => ?_) events v
  exact (Session.start_invariant (bundle p) _).2

include hkey hboot in
/-- Who commits in such a run approves: the commitment is the validator's own. -/
theorem committer_authorized (hp : PackageLaws C) {id : Uuid} {e : RequestEntry C} {v : C.Identifier}
    (he : (reached (validatorRun hex fromSlice escrows verifier bundle boot events).log).requests[id]? = some e)
    (hv : v ∈ e.status.committers) : Authorized fromSlice { escrows, verifier := verifier v } e.message := by
  obtain ⟨com, hmem⟩ := committer_in_log _ he hv
  have hstart : System.Justified (signers Tx.isRequest) boot
      (signersStart boot (validatorNode hex fromSlice escrows verifier bundle)) := ⟨[], by simp [signersStart], by simp⟩
  obtain ⟨log, hlog, hall⟩ := hstart.execAll events
  change (validatorRun hex fromSlice escrows verifier bundle boot events).log = _ at hlog
  rw [hlog] at hmem
  rcases List.mem_append.mp hmem with hin | hin
  · have hnone := hboot _ hin
    cases hnone
  rcases hall _ hin with hfree | ⟨q, hq⟩
  · cases hfree
  -- a node returned it, under its own identifier
  have hsent := (validatorRun_gated hex fromSlice escrows verifier bundle boot events hp q).sent _ hq
  obtain ⟨hvq, e', he', happ⟩ := hsent
  have hvq' : v = q := hvq.trans (hkey q)
  subst hvq'
  rw [he] at he'; cases he'
  exact approve_ok.mp happ

include hkey hboot in
/-- **Releases.** In every run of validators over common terms, under any
requests and any schedule of reactions, a completed request releases exactly
what is registered, once and for all under its id. -/
theorem releases_exact_and_final (hp : PackageLaws C) :
    ReleaseGuarantee fromSlice escrows verifier (validatorRun hex fromSlice escrows verifier bundle boot events) where
  exact := by
    intro id e parts sig he hs
    obtain ⟨g, _, hval⟩ := (reached_valid _).request he
    have hst := hval.status
    rw [hs] at hst
    obtain ⟨_, _, _, hne, _⟩ := hst
    have hauth : ∀ v ∈ parts, Authorized fromSlice { escrows, verifier := verifier v } e.message := fun v hv =>
      committer_authorized hex fromSlice escrows verifier bundle boot hkey hboot events hp he (by rw [hs]; exact hv)
    refine ⟨hne, ?_⟩
    obtain ⟨v, hv⟩ := hne
    obtain ⟨proposal, terms, hparse, hterms, hpay, _⟩ := hauth v hv
    refine ⟨proposal, terms, hparse, hterms, hpay, fun v' hv' => ?_⟩
    -- the others decoded the same message and looked up the same terms
    obtain ⟨proposal', terms', hparse', hterms', _, hver⟩ := hauth v' hv'
    rw [hparse] at hparse'; cases hparse'
    change escrows[proposal.escrowId]? = some terms' at hterms'
    change escrows[proposal.escrowId]? = some terms at hterms
    rw [hterms] at hterms'; cases hterms'
    exact hver
  final := by
    intro id e parts sig he hs events'
    obtain ⟨more, hmore⟩ := System.execAll_log (signers Tx.isRequest)
      (validatorRun hex fromSlice escrows verifier bundle boot events) events'
    rw [hmore]
    exact reached_completed more he hs
  once := by
    intro v id
    have ho := validatorRun_once hex fromSlice escrows verifier bundle boot events v
    refine ⟨(ho.commitment id).trans ?_, (ho.share id).trans ?_⟩
    · split <;> omega
    · split <;> omega

end

namespace Ideal

def id1 : Uuid := ⟨Vector.replicate 16 1⟩

def pairBoot : List (Tx suite) := [.initGroup pair pairKeys [1, 2]]

def doubleEvents : List (Event (Tx suite) Nat Nat) :=
  [.submit (.submitRequest id0 parcelMessage (5 : Int)), .submit (.submitRequest id1 parcelMessage (5 : Int)),
    .react 1 3 10, .react 2 3 20, .deliver 1 0, .deliver 1 1, .deliver 2 0, .deliver 2 1,
    .react 1 7 12, .react 2 7 22, .deliver 1 2, .deliver 1 3, .deliver 2 2, .deliver 2 3]

def doubleRun : World (Tx suite) Nat (Signer suite) :=
  validatorRun hex parcelFromSlice parcelPolicy.escrows (fun _ => acceptAllVerifier) pairBundle pairBoot doubleEvents

end Ideal

set_option maxRecDepth 8000 in
open Sapphire.Ideal in
theorem released_twice :
    ¬ ∀ events, ReleasedAtMostOnce parcelFromSlice
      (validatorRun (C := suite) hex parcelFromSlice parcelPolicy.escrows (fun _ => acceptAllVerifier) pairBundle pairBoot
        events).log := by
  intro h
  let done (id : Uuid) : RequestEntry suite :=
    { requestId := id, message := parcelMessage, randomizer := (5 : Int),
      status := .completed ({1, 2} : Finset Nat) { key := 12, message := parcelMessage } }
  have h0 : (reached doubleRun.log).requests[id0]? = some (done id0) := rfl
  have h1 : (reached doubleRun.log).requests[id1]? = some (done id1) := rfl
  have heq := h doubleEvents id0 id1 _ _ _ _ _ _ parcelRelease parcelRelease h0 h1 rfl rfl rfl rfl rfl
  exact absurd heq (by decide)

open Sapphire.Ideal in
theorem releases_exact_and_final_parcel :
    ReleaseGuarantee (C := suite) parcelFromSlice parcelPolicy.escrows (fun _ => acceptAllVerifier)
      (validatorRun (C := suite) hex parcelFromSlice parcelPolicy.escrows (fun _ => acceptAllVerifier) pairBundle pairBoot
        doubleEvents) := by
  have hkey : ∀ v, suite.identifier (pairBundle v).keyPackage = v := fun _ => rfl
  have hboot : ∀ tx ∈ pairBoot, tx.requestId? = none := by simp [pairBoot, Tx.requestId?]
  exact releases_exact_and_final (C := suite) _ _ _ _ _ _ hkey hboot _ packageLaws

end Sapphire
