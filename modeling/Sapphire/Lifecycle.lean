import Sapphire.Keygen
import Sapphire.SigningLive

/-!
# From the ceremony to the signatures

Participants of a promoted ceremony become nodes of the group, on the chain that
promoted it. What the ceremony leaves there is what an honest signing begins with,
so that from a fresh chain on nothing stalls, up to the last signature.
-/

namespace Sapphire

open BTreeMap Replay

variable {C : Ciphersuite} {D : DkgWire C}

def DkgParticipant.intoNode (p : DkgParticipant D) : Except DkgError (Node C) :=
  match p.keyPackage with
  | none => .error (.inconsistent "DKG not complete: no key package")
  | some keyPackage =>
    match p.publicKeyPackage with
    | none => .error (.inconsistent "DKG not complete: no PKP")
    | some publicKeyPackage => .ok (.new { keyPackage, publicKeyPackage })

/-- It errs exactly before the local end of the key generation. -/
theorem DkgParticipant.intoNode_ok_iff {p : DkgParticipant D} :
    (∃ node, p.intoNode = .ok node) ↔ p.isComplete = true := by
  unfold intoNode isComplete
  cases p.keyPackage <;> cases p.publicKeyPackage <;> simp

/-- What part 3 derives are the key packages of one group, and they sign together. -/
structure HonestKeys (C : Ciphersuite) : Prop where
  identifier : ∀ (T : Transcript C) params, T.Drawn params → ∀ i ∈ T.members, ∀ keyPkg pkp, T.Derives i keyPkg pkp →
    C.identifier keyPkg = i
  shares : ∀ (T : Transcript C) params, T.Drawn params → ∀ i ∈ T.members, ∀ keyPkg pkp, T.Derives i keyPkg pkp →
    dom (C.verifyingShares pkp) = T.members
  signing : ∀ (T : Transcript C) (K : GroupKeys C), T.Drawn K.params → K.ids = T.members →
    (∀ i ∈ K.ids, T.Derives i (K.key i) K.pkp) → HonestSigning K

/-! ## A chain without requests -/

theorem Genuine.requestId? {T : Transcript C} {participant : C.Identifier → DkgParticipant D} {tx : Tx C}
    (h : Genuine T participant tx) : tx.requestId? = none := by
  cases tx <;> first | rfl | exact h.elim

theorem replay_requests {txs : List (Tx C)} (h : ∀ tx ∈ txs, tx.requestId? = none) (s : State C) :
    (replay applyTx s txs).requests = s.requests := by
  apply replay_invariant_of (P := fun t : State C => t.requests = s.requests) _ rfl h
  intro t tx t' ht hid ha
  rw [applyTx_requests_eq hid ha, ht]

section
variable {T : Transcript C} {params : MpcParams} {validators : BTreeMap C.Identifier EncPublicKey} {sim : DkgSim D}

theorem DkgSim.Faithful.exec_requests (h : sim.Faithful T params validators) (e : DkgEvent C) :
    (sim.exec e).chain.state.requests = sim.chain.state.requests := by
  have hpending : ∀ tx ∈ sim.chain.mempool, tx.requestId? = none := by
    rcases h.progress with ⟨_, hmem⟩ | ⟨_, hmem⟩
    · simp [hmem, Tx.requestId?]
    · exact fun tx htx => (hmem tx htx).requestId?
  cases e with
  | react i rng => simp only [exec, ChainSim.submitAll_state]
  | commit =>
    unfold exec
    cases hc : sim.chain.commitBlock with
    | error msg => rfl
    | ok r =>
      obtain ⟨results, chain⟩ := r
      change chain.state.requests = _
      rw [(ChainSim.commitBlock_state hc).1, replay_requests hpending]

theorem DkgSim.Live.execAll_requests (hfrost : HonestDkg C) (hwire : WireLaws D) (hdrawn : T.Drawn params)
    (hdom : dom validators = T.members) (hsize : validators.size = params.total.toNat)
    (h : sim.Live T params validators)
    {events : List (DkgEvent C)} (hcalls : ∀ call ∈ sim.part1Calls events, call.2 = .ok (T.round1 call.1)) :
    (sim.execAll events).chain.state.requests = sim.chain.state.requests := by
  induction events generalizing sim with
  | nil => rfl
  | cons e events ih =>
    have hlive : (sim.exec e).Live T params validators := h.exec hfrost hwire hdrawn hdom hsize fun call hc =>
      hcalls call (List.mem_append_left _ (by simp [hc]))
    have hrest := ih hlive fun call hc => hcalls call (List.mem_append_right _ hc)
    exact hrest.trans (h.faithful.exec_requests e)

/-! ## The end of a ceremony -/

theorem Genuine.needs_ceremony {participant : C.Identifier → DkgParticipant D} {tx : Tx C}
    (h : Genuine T participant tx) {s s' : State C} (ha : applyTx s tx = .ok s') : s.ceremony ≠ none := by
  intro hnone
  cases tx with
  | dkgRound1 v package =>
    obtain ⟨c, hc, _⟩ := applyDkgRound1_ok.mp ha
    rw [hnone] at hc; cases hc
  | dkgRound2 v w sealed =>
    obtain ⟨c, hc, _⟩ := applyDkgRound2_ok.mp ha
    rw [hnone] at hc; cases hc
  | dkgFinalize v pkp =>
    obtain ⟨c, hc, _⟩ := applyDkgFinalize_ok.mp ha
    rw [hnone] at hc; cases hc
  | _ => exact h.elim

/-- Once the group is there, nothing is pending and everybody has derived its keys. -/
theorem DkgSim.Live.ended (h : sim.Live T params validators) {g : GroupConfig C} (hg : sim.chain.state.group = some g) :
    sim.chain.mempool = [] ∧ ∀ i ∈ T.members, ∃ keyPkg pkp, T.Derives i keyPkg pkp ∧
      (sim.participant i).keyPackage = some keyPkg ∧ (sim.participant i).publicKeyPackage = some pkp := by
  have hnone : sim.chain.state.ceremony = none := by
    cases hc : sim.chain.state.ceremony with
    | none => rfl
    | some c => rw [h.faithful.valid.exclusive hc] at hg; cases hg
  have hgenuine : ∀ tx ∈ sim.chain.mempool, Genuine T sim.participant tx := by
    rcases h.faithful.progress with ⟨hs, _⟩ | ⟨_, hmem⟩
    · rw [hs] at hg; cases hg
    · exact hmem
  obtain ⟨t, hrun, hahead⟩ := h.ahead
  cases hmem : sim.chain.mempool with
  | cons tx txs =>
    rw [hmem] at hrun
    obtain ⟨m, ha, _⟩ := run_cons.mp hrun
    exact absurd hnone ((hgenuine tx (by simp [hmem])).needs_ceremony ha)
  | nil =>
    rw [hmem] at hrun
    cases hrun
    cases hahead with
    | pending hc _ => rw [hnone] at hc; cases hc
    | promoted _ hfin => exact ⟨rfl, fun i hi => (h.ready i hi).derived (hfin i hi)⟩

/-- The keys of the group that was promoted, each with its participant. -/
theorem DkgSim.Live.exists_keys (hfrost : HonestDkg C) (hkeys : HonestKeys C) (hdrawn : T.Drawn params)
    (hdom : dom validators = T.members) (h : sim.Live T params validators) {g : GroupConfig C}
    (hg : sim.chain.state.group = some g) :
    ∃ K : GroupKeys C, g = K.group ∧ K.params = params ∧ K.ids = T.members ∧ K.Honest ∧ HonestSigning K ∧
      ∀ i ∈ T.members, (sim.participant i).intoNode = .ok (.new { keyPackage := K.key i, publicKeyPackage := K.pkp }) := by
  have hprom := h.faithful.promoted hg
  obtain ⟨_, hderived⟩ := h.ended hg
  obtain ⟨v, hv, keyPkg₀, hderives₀, _⟩ := hprom.package
  have hv' : v ∈ T.members := by rw [← hdom]; exact mem_dom.mpr hv
  -- the keys are those of the members, and any others elsewhere
  have : Nonempty C.KeyPackage := ⟨keyPkg₀⟩
  have : Nonempty C.PublicKeyPackage := ⟨g.pkp⟩
  choose! key pkp hderives hkey hpkp using hderived
  have hsame : ∀ i ∈ T.members, pkp i = g.pkp := fun i hi =>
    hfrost.derives_same hdrawn hi (hderives i hi) hv' hderives₀
  let K : GroupKeys C := { params, ids := T.members, key, pkp := g.pkp }
  have hall : ∀ i ∈ K.ids, T.Derives i (K.key i) K.pkp := by
    intro i hi
    have hd := hderives i hi
    rw [hsame i hi] at hd
    exact hd
  refine ⟨K, ?_, rfl, rfl, ?_, hkeys.signing T K hdrawn rfl hall, fun i hi => ?_⟩
  · have hparams := hprom.same_params
    have hvalidators := hprom.same_validators
    rw [hdom] at hvalidators
    cases g
    cases hparams; cases hvalidators
    rfl
  · exact {
      threshold := hdrawn.threshold
      le := by
        have hle := UInt16.le_iff_toNat_le.mp hdrawn.le
        rw [← hdrawn.card] at hle
        exact hle
      total := hdrawn.card
      identifier := fun i hi => hkeys.identifier T params hdrawn i hi (K.key i) K.pkp (hall i hi)
      shares := hkeys.shares T params hdrawn v hv' keyPkg₀ g.pkp hderives₀ }
  · unfold DkgParticipant.intoNode
    rw [hkey i hi, hpkp i hi, hsame i hi]

end

/-! ## The whole of it -/

/-- **From a fresh chain to the last signature.** A ceremony that honest
participants have brought to a group leaves each of them with a node of it, and
from there signing does not stall either, under any policies and in any order. -/
theorem keygen_then_signing_never_stalls (hfrost : HonestDkg C) (hwire : WireLaws D) (hkeys : HonestKeys C)
    {params : MpcParams} (ht : 2 ≤ params.threshold.toNat) (hle : params.threshold ≤ params.total)
    {ids : List C.Identifier} (hd : ids.Nodup) (hlen : ids.length = params.total.toNat) (seed : C.Identifier → C.Rng)
    (events : List (DkgEvent C)) {g : GroupConfig C}
    (hg : (dkgRun D seed params ids events).chain.state.group = some g) :
    ∃ K : GroupKeys C, g = K.group ∧ K.params = params ∧ K.ids = ids.toFinset ∧
      (∀ i ∈ ids, ((dkgRun D seed params ids events).participant i).intoNode =
        .ok (.new { keyPackage := K.key i, publicKeyPackage := K.pkp })) ∧
      ∀ sim : SigningSim C, sim.chain = (dkgRun D seed params ids events).chain →
        (∀ i ∈ ids, ((dkgRun D seed params ids events).participant i).intoNode = .ok (sim.node i)) →
        ∀ policy signing, ((sim.withPolicies policy).execAll K.ids signing).NeverStalls K policy := by
  obtain ⟨T, hmembers, hdrawn, hcalls⟩ := exists_transcript hfrost hwire ht hle hd hlen seed events
  have hdom : dom (advertise D seed ids) = T.members := (dom_advertise hd).trans hmembers.symm
  have hsize : (advertise D seed ids).size = params.total.toNat := (size_advertise hd).trans hlen
  have hstart : (dkgStart D seed params ids).Live T params (advertise D seed ids) := dkgStart_live hd hlen
  have hrun := fun call hc => (hcalls call hc).1
  have hlive : (dkgRun D seed params ids events).Live T params (advertise D seed ids) :=
    dkgRun_live hfrost hwire hdrawn hdom hsize hstart hrun
  obtain ⟨hempty, _⟩ := hlive.ended hg
  obtain ⟨K, rfl, rfl, hids, hK, hsigning, hnode⟩ := hlive.exists_keys hfrost hkeys hdrawn hdom hg
  have hmem : ∀ i, i ∈ ids ↔ i ∈ T.members := fun i => by simp [hmembers]
  refine ⟨K, rfl, rfl, hids.trans hmembers, fun i hi => hnode i ((hmem i).mp hi), fun sim hchain hsim policy signing => ?_⟩
  have hnone : ∀ id : Uuid, sim.chain.state.requests[id]? = none := by
    intro id
    rw [hchain]
    have hreq := hstart.execAll_requests hfrost hwire hdrawn hdom hsize hrun
    change (dkgRun D seed K.params ids events).chain.state.requests = ∅ at hreq
    rw [hreq]
    simp
  have hfresh : ∀ i ∈ K.ids, sim.node i = .new { keyPackage := K.key i, publicKeyPackage := K.pkp } := by
    intro i hi
    rw [hids] at hi
    exact Except.ok.inj ((hsim i ((hmem i).mpr hi)).symm.trans (hnode i hi))
  have hbegin := SigningSim.live_of_fresh hK.identifier (by rw [hchain]; exact hlive.faithful.valid)
    (by rw [hchain]; exact hg)
    hnone (by rw [hchain]; exact hempty) hfresh policy
  exact (hbegin.execAll hK.pos hsigning signing).neverStalls hK.pos hsigning

namespace Ideal

theorem derives_keys {T : Transcript suite} {params : MpcParams} (hdrawn : T.Drawn params) {i : Nat}
    (hi : i ∈ T.members)
    {keyPkg : KeyPackage} {pkp : PublicKeyPackage} (h : T.Derives i keyPkg pkp) :
    keyPkg = { identifier := i, groupKey := pkp.key, minSigners := params.threshold.toNat } ∧
      pkp.minSigners = params.threshold.toNat ∧ pkp.shares = (T.others i).insert i (T.round1 i).2 := by
  obtain ⟨secretR2, sent, received, hs, _, hp⟩ := h
  obtain ⟨rfl, _⟩ := hs.unique (drawn_sends hdrawn hi)
  change Ideal.part3 (T.round1 i).1 (T.others i) received = _ at hp
  rw [drawn_round1 hdrawn hi] at hp
  unfold Ideal.part3 at hp
  split at hp
  · cases hp
  · cases hp
    exact ⟨rfl, rfl, rfl⟩

/-- Key packages of one key, each of which asks for the threshold. -/
structure Matching (K : GroupKeys suite) : Prop where
  key : ∀ i ∈ K.ids, K.key i = { identifier := i, groupKey := K.pkp.key, minSigners := K.threshold }
  minSigners : K.pkp.minSigners = K.threshold

theorem sign_matching {K : GroupKeys suite} (hK : Matching K) {S : Finset Nat} {drawn : Nat → Nat × Nat}
    {message : Bytes}
    {r : Int} (h : K.Draws S drawn) (hcard : K.threshold ≤ S.card) {i : Nat} (hi : i ∈ S) :
    suite.sign (packageOf S drawn message) (drawn i).1 (K.key i) r =
      .ok { signer := i, nonces := (drawn i).2, signed := { key := K.pkp.key + r, message } } := by
  obtain ⟨rng, hrng⟩ := h.2 i hi
  have hsame : (drawn i).1 = (drawn i).2 := by
    rw [← hrng]
    rfl
  have hown : (tabulate S fun i => (drawn i).2)[i]? = some (drawn i).1 := getElem?_tabulate.mpr ⟨hi, hsame.symm⟩
  change Ideal.sign ⟨tabulate S fun i => (drawn i).2, message⟩ (drawn i).1 (K.key i) r = _
  rw [hK.key i (h.1 hi)]
  unfold Ideal.sign
  rw [if_neg (by rw [size_tabulate]; exact not_lt.mpr hcard)]
  refine (if_neg (not_not.mpr hown)).trans ?_
  rw [hsame]

theorem matching_signing {K : GroupKeys suite} (hK : Matching K) : HonestSigning K where
  sign S drawn message randomizer h hcard i hi := ⟨_, sign_matching hK h hcard hi⟩
  aggregate S drawn message randomizer share h hcard hshare := by
    have hshares : tabulate S share =
        (tabulate S fun i => (drawn i).2).map fun i n => SignatureShare.mk i n
          { key := K.pkp.key + randomizer, message } := by
      refine eq_of_getElem?_iff fun i v => ?_
      rw [getElem?_tabulate, Std.ExtTreeMap.getElem?_map, Option.map_eq_some_iff]
      constructor
      · rintro ⟨hi, rfl⟩
        have heq := (hshare i hi).symm.trans (sign_matching hK h hcard hi)
        exact ⟨_, getElem?_tabulate.mpr ⟨hi, rfl⟩, (Except.ok.inj heq).symm⟩
      · rintro ⟨n, hn, rfl⟩
        obtain ⟨hi, rfl⟩ := getElem?_tabulate.mp hn
        exact ⟨hi, Except.ok.inj ((hshare i hi).symm.trans (sign_matching hK h hcard hi))⟩
    refine ⟨{ key := K.pkp.key + randomizer, message }, ?_, ?_⟩
    · change Ideal.aggregate ⟨tabulate S fun i => (drawn i).2, message⟩ (tabulate S share) K.pkp (K.pkp.key + randomizer) = _
      unfold Ideal.aggregate
      rw [hshares, Std.ExtTreeMap.toList_map, if_neg (not_not.mpr rfl),
        if_neg (by rw [size_tabulate, hK.minSigners]; exact not_lt.mpr hcard)]
    · change decide (Signed.mk (K.pkp.key + randomizer) message =
        { key := K.pkp.key + randomizer • (1 : Int), message }) = true
      simp

theorem honestKeys : HonestKeys suite where
  identifier T params hdrawn i hi keyPkg pkp h := by
    obtain ⟨rfl, _⟩ := derives_keys hdrawn hi h
    rfl
  shares T params hdrawn i hi keyPkg pkp h := by
    obtain ⟨_, _, hshares⟩ := derives_keys hdrawn hi h
    change dom pkp.shares = T.members
    rw [hshares, dom_insert, Transcript.others, dom_tabulate, Finset.insert_erase hi]
  signing T K hdrawn hids hderives := by
    have hmatch : ∀ i ∈ K.ids, K.key i = { identifier := i, groupKey := K.pkp.key, minSigners := K.threshold } ∧
        K.pkp.minSigners = K.threshold := by
      intro i hi
      obtain ⟨hkey, hmin, _⟩ := derives_keys hdrawn (hids ▸ hi) (hderives i hi)
      exact ⟨hkey, hmin⟩
    have hpos : 0 < K.ids.card := by
      rw [hids, hdrawn.card]
      have hle := UInt16.le_iff_toNat_le.mp hdrawn.le
      have := hdrawn.threshold
      omega
    obtain ⟨i, hi⟩ := Finset.card_pos.mp hpos
    exact matching_signing ⟨fun i hi => (hmatch i hi).1, (hmatch i hi).2⟩

end Ideal

theorem keygen_then_signing_never_stalls_pair :
    ∃ K : GroupKeys Ideal.suite, K.ids = ([1, 2] : List Nat).toFinset ∧
      (∀ i ∈ Ideal.dkgIds, ((dkgRun Ideal.box id Ideal.pair Ideal.dkgIds Ideal.dkgEvents).participant i).intoNode =
        .ok (.new { keyPackage := K.key i, publicKeyPackage := K.pkp })) ∧
      ∀ sim : SigningSim Ideal.suite, sim.chain = (dkgRun Ideal.box id Ideal.pair Ideal.dkgIds Ideal.dkgEvents).chain →
        (∀ i ∈ Ideal.dkgIds,
          ((dkgRun Ideal.box id Ideal.pair Ideal.dkgIds Ideal.dkgEvents).participant i).intoNode = .ok (sim.node i)) →
        ∀ policy signing, ((sim.withPolicies policy).execAll K.ids signing).NeverStalls K policy := by
  obtain ⟨g, hg⟩ := Option.isSome_iff_exists.mp Ideal.dkgEvents_promote
  obtain ⟨K, _, _, hids, hnodes, hsigning⟩ := keygen_then_signing_never_stalls Ideal.honestDkg Ideal.boxLaws Ideal.honestKeys
    (by decide) (by decide) (by decide) rfl id Ideal.dkgEvents hg
  exact ⟨K, hids, hnodes, hsigning⟩

end Sapphire
