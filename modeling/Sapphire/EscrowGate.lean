import Sapphire.Escrow
import Sapphire.Nonces
import Sapphire.Parties
import Sapphire.Signature

/-!
# The gate of a validating node

The policy is asked before the commitment and never again. What holds the
gate shut later is memory: nonces are cached for approved requests only, the
message under a request id never changes, and a signing package carries it.
-/

namespace Sapphire

open BTreeMap Replay Parties

variable {C : Ciphersuite} {P : Type} [DecidableEq P]

def signers (free : Tx C → Bool) : System (State C) (Tx C) Fault P (Signer C) C.Rng where
  init := State.default
  step := applyTx
  act := fun _ signer s rng => signer.react s rng
  free := free

def signersStart (boot : List (Tx C)) (node : P → Node C) : World (Tx C) P (Signer C) where
  log := boot
  mem := fun p => { node := node p, calls := [] }
  sent := fun _ => []

/-! ## Contents on the chain -/

theorem reached_keeps {pre : List (Tx C)} (post : List (Tx C)) {id : Uuid} {o : RequestEntry C}
    (ho : (reached pre).requests[id]? = some o) :
    ∃ e, (reached (pre ++ post)).requests[id]? = some e ∧ e.message = o.message ∧ e.randomizer = o.randomizer := by
  have hrel := replay_rel applyTx
    (R := fun s t : State C => ∀ (id : Uuid) o, s.requests[id]? = some o →
      ∃ e, t.requests[id]? = some e ∧ e.message = o.message ∧ e.randomizer = o.randomizer)
    (fun _ _ o ho => ⟨o, ho, rfl, rfl⟩)
    (fun s t u hst htu id o ho => by
      obtain ⟨e, he, hm, hr⟩ := hst id o ho
      obtain ⟨e', he', hm', hr'⟩ := htu id e he
      exact ⟨e', he', hm'.trans hm, hr'.trans hr⟩)
    (fun s tx s' ha id o ho => applyTx_keeps ha ho) (reached pre) post
  rw [show reached (pre ++ post) = replay applyTx (reached pre) post from replay_append _ _ _]
  exact hrel id o ho

def ApprovedOn (policy : SignPolicy) (log : List (Tx C)) (id : Uuid) : Prop :=
  ∃ e, (reached log).requests[id]? = some e ∧ policy e.message = .ok ()

theorem ApprovedOn.grow {policy : SignPolicy} {pre : List (Tx C)} {id : Uuid} (h : ApprovedOn policy pre id)
    (post : List (Tx C)) : ApprovedOn policy (pre ++ post) id := by
  obtain ⟨o, ho, happ⟩ := h
  obtain ⟨e, he, hm, _⟩ := reached_keeps post ho
  exact ⟨e, he, by rw [hm]; exact happ⟩

/-! ## What a gated node signs and returns -/

/-- A use of nonces for an approved request, on a package over its message. -/
def SignedFor (policy : SignPolicy) (log : List (Tx C)) (id : Uuid) (pkg : C.SigningPackage) : Prop :=
  ∃ e, (reached log).requests[id]? = some e ∧ policy e.message = .ok () ∧ C.packageMessage pkg = e.message

/-- Returned with good reason: a commitment for an approved request, or a share
that the node's key made on a package over the message of one. -/
def Warranted (policy : SignPolicy) (log : List (Tx C)) (node : Node C) (calls : List (FrostCall C)) : Tx C → Prop
  | .submitCommitment id v _ => v = node.identifier ∧ ApprovedOn policy log id
  | .submitShare id v share => v = node.identifier ∧ ∃ nonces pkg r, .sign id nonces pkg r ∈ calls ∧
      C.sign pkg nonces node.bundle.keyPackage r = .ok share ∧ SignedFor policy log id pkg
  | _ => False

/-- The memory and the returned transactions of a gated node, against the chain. -/
structure Gated (node : Node C) (log : List (Tx C)) (σ : Signer C) (out : List (Tx C)) : Prop where
  identifier : σ.node.identifier = node.identifier
  bundle : σ.node.bundle = node.bundle
  policy : σ.node.policy = node.policy
  cached : ∀ (id : Uuid) nonces, σ.node.pending[id]? = some nonces → ApprovedOn node.policy log id
  signed : ∀ id nonces pkg r, .sign id nonces pkg r ∈ σ.calls → SignedFor node.policy log id pkg
  sent : ∀ tx ∈ out, Warranted node.policy log node σ.calls tx

theorem SignedFor.grow {policy : SignPolicy} {pre : List (Tx C)} {id : Uuid} {pkg : C.SigningPackage}
    (h : SignedFor policy pre id pkg) (post : List (Tx C)) : SignedFor policy (pre ++ post) id pkg := by
  obtain ⟨o, ho, happ, hpkg⟩ := h
  obtain ⟨e, he, hm, _⟩ := reached_keeps post ho
  exact ⟨e, he, by rw [hm]; exact happ, by rw [hm]; exact hpkg⟩

theorem Warranted.grow {policy : SignPolicy} {pre : List (Tx C)} {node : Node C} {calls : List (FrostCall C)}
    {tx : Tx C} (h : Warranted policy pre node calls tx) (post : List (Tx C)) :
    Warranted policy (pre ++ post) node calls tx := by
  cases tx with
  | submitCommitment id v com => exact ⟨h.1, h.2.grow post⟩
  | submitShare id v share =>
    obtain ⟨hv, nonces, pkg, r, hmem, hsign, hfor⟩ := h
    exact ⟨hv, nonces, pkg, r, hmem, hsign, hfor.grow post⟩
  | _ => exact h.elim

theorem Warranted.mono {policy : SignPolicy} {log : List (Tx C)} {node : Node C} {calls calls' : List (FrostCall C)}
    {tx : Tx C} (h : Warranted policy log node calls tx) (hc : ∀ c ∈ calls, c ∈ calls') :
    Warranted policy log node calls' tx := by
  cases tx with
  | submitCommitment id v com => exact h
  | submitShare id v share =>
    obtain ⟨hv, nonces, pkg, r, hmem, hsign, hfor⟩ := h
    exact ⟨hv, nonces, pkg, r, hc _ hmem, hsign, hfor⟩
  | _ => exact h.elim

namespace Gated

variable {node : Node C} {log : List (Tx C)} {σ : Signer C} {out : List (Tx C)}

theorem grow (h : Gated node log σ out) (post : List (Tx C)) : Gated node (log ++ post) σ out where
  identifier := h.identifier
  bundle := h.bundle
  policy := h.policy
  cached := fun id nonces hid => (h.cached id nonces hid).grow post
  signed := fun id nonces pkg r hmem => (h.signed id nonces pkg r hmem).grow post
  sent := fun tx htx => (h.sent tx htx).grow post

theorem step (h : Gated node log σ out) {σ' : Signer C} {calls : List (FrostCall C)} {txs : List (Tx C)}
    (hi : σ'.node.identifier = σ.node.identifier) (hb : σ'.node.bundle = σ.node.bundle)
    (hpol : σ'.node.policy = σ.node.policy)
    (hp : ∀ (id : Uuid) nonces, σ'.node.pending[id]? = some nonces →
      σ.node.pending[id]? = some nonces ∨ ApprovedOn node.policy log id)
    (hc : σ'.calls = σ.calls ++ calls)
    (hs : ∀ id nonces pkg r, .sign id nonces pkg r ∈ calls → SignedFor node.policy log id pkg)
    (ht : ∀ tx ∈ txs, Warranted node.policy log node σ'.calls tx) : Gated node log σ' (out ++ txs) where
  identifier := hi.trans h.identifier
  bundle := hb.trans h.bundle
  policy := hpol.trans h.policy
  cached := fun id nonces hid => (hp id nonces hid).elim (h.cached id nonces) fun ha => ha
  signed := fun id nonces pkg r hmem => by
    rw [hc] at hmem
    exact (List.mem_append.mp hmem).elim (h.signed id nonces pkg r) (hs id nonces pkg r)
  sent := fun tx htx => by
    rcases List.mem_append.mp htx with htx | htx
    · exact (h.sent tx htx).mono fun c hmem => by
        rw [hc]; exact List.mem_append_left _ hmem
    · exact ht tx htx

theorem reaction (hp : PackageLaws C) (h : Gated node log σ out) {pre post : List (Tx C)} (hlog : log = pre ++ post)
    {id : Uuid} {entry : RequestEntry C} (he : (reached pre).requests[id]? = some entry)
    {r : Except Error (Option (Tx C))} {σ' : Signer C} (hr : Reaction σ id entry r σ') :
    Gated node log σ' (out ++ emitted r) := by
  obtain ⟨e, hnow, hmsg, _⟩ := reached_keeps post he
  rw [← hlog] at hnow
  -- a package cut for this entry carries its message, and nonces are cached for approved ones
  have hpackage : ∀ {pkg parts shares nonces}, entry.status = .signing pkg parts shares →
      σ.node.pending[id]? = some nonces → SignedFor node.policy log id pkg := by
    intro pkg parts shares nonces hs hid
    obtain ⟨g, _, hval⟩ := (reached_valid pre).request he
    have hst := hval.status
    rw [hs] at hst
    obtain ⟨chosen, _, rfl⟩ := hst.1.package
    obtain ⟨e', he', happ⟩ := h.cached id nonces hid
    rw [hnow] at he'; cases he'
    exact ⟨e, hnow, happ, by rw [hp.message, hmsg]⟩
  have hrest : ∀ (id' : Uuid) nonces', (σ.node.pending.erase id)[id']? = some nonces' →
      σ.node.pending[id']? = some nonces' ∨ ApprovedOn node.policy log id' := by
    intro id' nonces' hid'
    rw [getElem?_erase'] at hid'
    split at hid'
    · cases hid'
    · exact Or.inl hid'
  cases hr with
  | idle => exact h.step rfl rfl rfl (fun _ _ => Or.inl) (List.append_nil _).symm (by simp) (by simp [emitted])
  | sawCommitment =>
    exact h.step rfl rfl rfl (fun _ _ => Or.inl) (List.append_nil _).symm (by simp) (by simp [emitted])
  | sawShare => exact h.step rfl rfl rfl (fun _ _ => Or.inl) (List.append_nil _).symm (by simp) (by simp [emitted])
  | inUse nonces _ => exact h.step rfl rfl rfl (fun _ _ => Or.inl) rfl (by simp) (by simp [emitted])
  | committed nonces commitments _ happ _ =>
    have hok : ApprovedOn node.policy log id := ⟨e, hnow, by rw [hmsg, ← h.policy]; exact happ⟩
    refine h.step rfl rfl rfl ?_ rfl (by simp) ?_
    · intro id' nonces' hid'
      change (σ.node.pending.insert id nonces)[id']? = some nonces' at hid'
      rw [getElem?_insert'] at hid'
      split at hid'
      · rename_i heq; subst heq; exact Or.inr hok
      · exact Or.inl hid'
    · simpa [emitted, Warranted] using ⟨h.identifier, hok⟩
  | signFailed nonces err hs hid =>
    refine h.step rfl rfl rfl hrest rfl ?_ (by simp [emitted])
    intro id' nonces' pkg' r' hmem
    cases List.mem_singleton.mp hmem
    exact hpackage hs hid
  | signed nonces share hs _ hid hsign =>
    refine h.step rfl rfl rfl hrest rfl ?_ ?_
    · intro id' nonces' pkg' r' hmem
      cases List.mem_singleton.mp hmem
      exact hpackage hs hid
    · intro tx htx
      rw [List.mem_singleton.mp htx]
      refine ⟨h.identifier, nonces, _, _, List.mem_append_right _ (List.mem_singleton_self _), ?_, hpackage hs hid⟩
      rw [← h.bundle]; exact hsign

theorem react (hp : PackageLaws C) (h : Gated node log σ out) (k : Nat) (rng : C.Rng) :
    Gated node log (σ.react (reached (log.take k)) rng).1 (out ++ (σ.react (reached (log.take k)) rng).2) :=
  Signer.react_invariant (P := fun out σ => Gated node log σ out)
    (fun _ _ _ h => ⟨h.identifier, h.bundle, h.policy, h.cached, h.signed,
      fun tx htx => h.sent tx (List.mem_append_left _ htx)⟩)
    (fun _ _ he _ _ _ _ h hr => h.reaction hp (List.take_append_drop k log).symm he hr) h

theorem start (boot : List (Tx C)) (bundle : KeyShareBundle C) (policy : SignPolicy) :
    Gated ((Node.new bundle).withPolicy policy) boot
      { node := (Node.new bundle).withPolicy policy, calls := [] } [] where
  identifier := rfl
  bundle := rfl
  policy := rfl
  cached := fun id nonces hid => by simp [Node.new, Node.withPolicy] at hid
  signed := fun _ _ _ _ hmem => by cases hmem
  sent := fun _ htx => by cases htx

end Gated

/-- **Run.** Every node of a run is gated by its own policy, whoever submits what. -/
theorem gated_run (hp : PackageLaws C) (free : Tx C → Bool) (boot : List (Tx C)) (bundle : P → KeyShareBundle C)
    (policy : P → SignPolicy) (events : List (Event (Tx C) P C.Rng)) (p : P) :
    let node := fun p => (Node.new (bundle p)).withPolicy (policy p)
    let w := (signers free).execAll (signersStart boot node) events
    Gated (node p) w.log (w.mem p) (w.sent p) := by
  intro node w
  have hinv : System.PartyInvariant (signers free)
      (fun log p (σ : Signer C) out => Gated (node p) log σ out) := by
    constructor
    · intro log p σ out h a
      exact h.grow [a]
    · intro log p σ out h k rng
      exact h.react hp k rng
  exact hinv.execAll (fun p => Gated.start boot (bundle p) (policy p)) events p

/-! ## Completed requests -/

def Aggregated (log : List (Tx C)) (pkg : C.SigningPackage) (shares : BTreeMap C.Identifier C.SignatureShare) : Prop :=
  ∃ pre post id v share g e parts others sig, log = pre ++ .submitShare id v share :: post ∧
    (reached pre).group = some g ∧ (reached pre).requests[id]? = some e ∧ e.status = .signing pkg parts others ∧
    v ∈ parts ∧ shares = others.insert v share ∧
    C.aggregate pkg shares g.pkp (C.fromRandomizer (C.verifyingKey g.pkp) e.randomizer) = .ok sig

theorem aggregateIfComplete_completed {pkp : C.PublicKeyPackage} {r : C.Randomizer} {pkg : C.SigningPackage}
    {parts parts' : Finset C.Identifier} {shares : BTreeMap C.Identifier C.SignatureShare} {sig : C.Signature}
    (h : aggregateIfComplete pkp r pkg parts shares = .completed parts' sig) :
    parts' = parts ∧ shares.size = parts.card ∧
      C.aggregate pkg shares pkp (C.fromRandomizer (C.verifyingKey pkp) r) = .ok sig := by
  unfold aggregateIfComplete at h
  by_cases hd : shares.size = parts.card
  · rw [if_pos hd] at h
    cases ha : C.aggregate pkg shares pkp (C.fromRandomizer (C.verifyingKey pkp) r) with
    | ok sig' => rw [ha] at h; cases h; exact ⟨rfl, hd, rfl⟩
    | error e => rw [ha] at h; cases h
  · rw [if_neg hd] at h; cases h

theorem entryStep_completed {g : GroupConfig C} {id : Uuid} {o e : RequestEntry C} {tx : Tx C}
    {parts : Finset C.Identifier} {sig : C.Signature} (hval : o.Valid g id)
    (h : entryStep g (some o) tx = some e) (hs : e.status = .completed parts sig) :
    ∃ id' v share pkg others, tx = .submitShare id' v share ∧ o.status = .signing pkg parts others ∧ v ∈ parts ∧
      dom (others.insert v share) = parts ∧
      C.aggregate pkg (others.insert v share) g.pkp (C.fromRandomizer (C.verifyingKey g.pkp) o.randomizer) = .ok sig := by
  cases tx with
  | submitRequest id' msg r => cases h
  | submitCommitment id' v com =>
    obtain ⟨_, _, m, _, _, _, rfl⟩ := entryStep_submitCommitment.mp h
    dsimp only at hs
    unfold thresholdCut at hs
    split at hs <;> cases hs
  | submitShare id' v share =>
    obtain ⟨_, o', pkg, parts', others, ho, hst, hv, hm, rfl⟩ := entryStep_submitShare.mp h
    cases ho
    obtain ⟨rfl, hsz, hagg⟩ := aggregateIfComplete_completed hs
    have hvs := hval.status
    rw [hst] at hvs
    have hsub : dom (others.insert v share) ⊆ parts := by
      rw [dom_insert]; exact Finset.insert_subset hv hvs.2.1
    exact ⟨id', v, share, pkg, others, rfl, hst, hv, dom_eq_of_size hsub hsz.ge, hagg⟩
  | _ => cases h

theorem completed_aggregated (hp : PackageLaws C) {log : List (Tx C)} {id : Uuid} {e : RequestEntry C}
    {parts : Finset C.Identifier} {sig : C.Signature} (he : (reached log).requests[id]? = some e)
    (hs : e.status = .completed parts sig) :
    ∃ pkg shares, Aggregated log pkg shares ∧ dom shares = parts ∧ C.packageMessage pkg = e.message := by
  obtain ⟨pre, tx, post, g, o', hlog, hid, hg, hstep, _, ⟨hm', hs'⟩, hnew⟩ :=
    exists_entry_gain (Q := fun o => o.message = e.message ∧ o.status = .completed parts sig) he ⟨rfl, hs⟩
  rcases entryStep_content hid hstep with ⟨o, hold, hom, _⟩ | ⟨hnone, rfl⟩
  · have hval := (reached_valid pre).request_valid hg hold
    rw [hold] at hstep
    obtain ⟨id₂, v, share, pkg, others, rfl, hst, hv, hdom, hagg⟩ := entryStep_completed hval hstep hs'
    have hvs := hval.status
    rw [hst] at hvs
    obtain ⟨chosen, _, hpkg⟩ := hvs.1.package
    cases hid
    refine ⟨pkg, others.insert v share, ⟨pre, post, id, v, share, g, o, parts, others, sig, hlog, hg, hold, hst, hv,
      rfl, hagg⟩, hdom, ?_⟩
    rw [hpkg, hp.message, hom, hm']
  · -- a new entry awaits commitments
    obtain ⟨_, hfresh⟩ := entryStep_submitRequest.mp hstep
    rw [hfresh] at hs'; cases hs'

/-- Aggregation succeeded only on shares of this node that its key made, on the
package aggregated, in a call of its own. -/
def GenuineShares (log : List (Tx C)) (node : Node C) (calls : List (FrostCall C)) : Prop :=
  ∀ pkg shares share, Aggregated log pkg shares → shares[node.identifier]? = some share →
    ∃ id nonces r, .sign id nonces pkg r ∈ calls ∧ C.sign pkg nonces node.bundle.keyPackage r = .ok share

/-- What the gate of an escrow node holds against a chain: what it returned is
for authorized messages, its shares are on packages over those messages, and
no request has completed with it among the participants otherwise. -/
structure EscrowGate {W : Type} (fromSlice : Bytes → Except String (ReleaseProposal W)) (policy : EscrowPolicy W)
    (node : Node C) (log : List (Tx C)) (calls : List (FrostCall C)) (sent : List (Tx C)) : Prop where
  returned : ∀ tx ∈ sent, ∃ id e, (tx.isCommitmentFor id = true ∨ tx.isShareFor id = true) ∧
    (reached log).requests[id]? = some e ∧ Authorized fromSlice policy e.message
  shares : ∀ id v share, .submitShare id v share ∈ sent → ∃ e nonces pkg r,
    (reached log).requests[id]? = some e ∧ Authorized fromSlice policy e.message ∧
      .sign id nonces pkg r ∈ calls ∧ C.sign pkg nonces node.bundle.keyPackage r = .ok share ∧
      C.packageMessage pkg = e.message
  completed : GenuineShares log node calls → ∀ (id : Uuid) e parts sig,
    (reached log).requests[id]? = some e → e.status = .completed parts sig → node.identifier ∈ parts →
      Authorized fromSlice policy e.message

theorem Gated.escrow {W : Type} (hp : PackageLaws C) {hex : Hex} {fromSlice : Bytes → Except String (ReleaseProposal W)}
    {policy : EscrowPolicy W} {node : Node C} {log : List (Tx C)} {σ : Signer C} {sent : List (Tx C)}
    (h : Gated node log σ sent) (hpolicy : node.policy = policy.approve hex fromSlice) :
    EscrowGate fromSlice policy node log σ.calls sent where
  returned := by
    intro tx htx
    have hw := h.sent tx htx
    rw [hpolicy] at hw
    cases tx with
    | submitCommitment id v com =>
      obtain ⟨_, e, he, happ⟩ := hw
      exact ⟨id, e, Or.inl (by simp [Tx.isCommitmentFor]), he, approve_ok.mp happ⟩
    | submitShare id v share =>
      obtain ⟨_, _, _, _, _, _, e, he, happ, _⟩ := hw
      exact ⟨id, e, Or.inr (by simp [Tx.isShareFor]), he, approve_ok.mp happ⟩
    | _ => exact hw.elim
  shares := by
    intro id v share htx
    obtain ⟨_, nonces, pkg, r, hmem, hsign, e, he, happ, hpkg⟩ := h.sent _ htx
    rw [hpolicy] at happ
    exact ⟨e, nonces, pkg, r, he, approve_ok.mp happ, hmem, hsign, hpkg⟩
  completed := by
    intro hgen id e parts sig he hs hmem
    obtain ⟨pkg, shares, hagg, hdom, hpkg⟩ := completed_aggregated hp he hs
    obtain ⟨share, hshare⟩ := mem_iff.mp (mem_dom.mp (hdom ▸ hmem))
    -- the share was made in a call the gate let through, on a package over this message
    obtain ⟨id', nonces, r, hcall, _⟩ := hgen pkg shares share hagg hshare
    obtain ⟨e', _, happ, hpkg'⟩ := h.signed id' nonces pkg r hcall
    rw [hpolicy] at happ
    rw [hpkg] at hpkg'
    rw [hpkg']
    exact approve_ok.mp happ

/-- **Gate.** In every run of one chain with a node under an escrow policy, and
an adversary who submits anything at any time, the gate holds. -/
theorem escrow_gate {W : Type} (hp : PackageLaws C) (hex : Hex) (fromSlice : Bytes → Except String (ReleaseProposal W))
    (policy : EscrowPolicy W) (bundle : KeyShareBundle C) (events : List (Event (Tx C) Unit C.Rng)) :
    let node := (Node.new bundle).withPolicy (policy.approve hex fromSlice)
    let w := (signers fun _ => true).execAll (signersStart [] fun _ => node) events
    EscrowGate fromSlice policy node w.log (w.mem ()).calls (w.sent ()) := by
  intro node w
  have hg : Gated node w.log (w.mem ()) (w.sent ()) :=
    gated_run hp (fun _ => true) [] (fun _ => bundle) (fun _ => policy.approve hex fromSlice) events ()
  exact hg.escrow hp rfl

namespace Ideal

def ascii (s : String) : Bytes := s.toList.map fun c => UInt8.ofNat c.toNat

def parcelId : EscrowId := ⟨Vector.replicate 32 0⟩

def parcelTerms : EscrowTerms where
  escrowId := parcelId
  amount := ⟨800000000⟩
  payee := ⟨"u_alice"⟩
  refundTo := ⟨"u_bob"⟩
  timeoutHeight := 1000
  condition := []

def parcelRelease : ReleaseProposal Unit where
  escrowId := parcelId
  intent := { payment := { amount := ⟨800000000⟩, recipient := ⟨"u_alice"⟩ }, witness := () }

def parcelMessage : Bytes :=
  ascii ("\x7b\"escrow_id\":\"" ++ hexEncode parcelId.bytes.toList ++
    "\",\"intent\":\x7b\"payment\":\x7b\"amount\":800000000,\"to\":\"u_alice\"\x7d,\"witness\":null\x7d\x7d")

/-- Decoding, on this message and on no other. -/
def parcelFromSlice (message : Bytes) : Except String (ReleaseProposal Unit) :=
  if message = parcelMessage then .ok parcelRelease else .error "expected value at line 1 column 1"

def parcelPolicy : EscrowPolicy Unit := (EscrowPolicy.new acceptAllVerifier).withEscrow parcelTerms

def pairBundle (v : Nat) : KeyShareBundle suite where
  keyPackage := { identifier := v, groupKey := 7, minSigners := 2 }
  publicKeyPackage := pairKeys

def parcelEvents : List (Event (Tx suite) Unit Nat) :=
  [.submit (.initGroup pair pairKeys [1, 2]), .submit (.submitRequest id0 parcelMessage (5 : Int)), .react () 2 10,
    .deliver () 0, .submit (.submitCommitment id0 (2 : Nat) (20 : Nat)), .react () 4 11]

end Ideal

open Sapphire.Ideal in
theorem escrow_gate_parcel :
    let node := (Node.new (pairBundle 1)).withPolicy (parcelPolicy.approve hex parcelFromSlice)
    let w := (signers fun _ => true).execAll (signersStart [] fun _ => node) parcelEvents
    EscrowGate parcelFromSlice parcelPolicy node w.log (w.mem ()).calls (w.sent ()) :=
  escrow_gate packageLaws hex parcelFromSlice parcelPolicy (pairBundle 1) parcelEvents

end Sapphire
