import Sapphire.Atomicity
import Sapphire.Blocks
import Sapphire.SigningLive

/-!
# Sessions over a chain with open requests

A session asks every node of its slice about all requests of the chain, so what
is open there moves along with its own, and a request that some node can only
err on ends it. Requests do not meet: a reaction is a pass for each of them, a
block a fold for each. The two rounds of a session leave nothing to do for any
request, and the next session begins where this one did.
-/

namespace Sapphire

open BTreeMap Replay

variable {C : Ciphersuite}

/-! ## A block, request by request -/

/-- What a transaction for the request leaves of it, accepted or not. -/
def entryFeed (g : GroupConfig C) (old : Option (RequestEntry C)) (tx : Tx C) : Option (RequestEntry C) :=
  (entryStep g old tx).or old

theorem feed_request {s : State C} {g : GroupConfig C} (hg : s.group = some g) {tx : Tx C} {id : Uuid}
    (hid : tx.requestId? = some id) : (feed applyTx s tx).group = some g ∧ ∀ id' : Uuid,
      (feed applyTx s tx).requests[id']? =
        if tx.requestId? = some id' then entryFeed g s.requests[id']? tx else s.requests[id']? := by
  cases hstep : entryStep g s.requests[id]? tx with
  | some e =>
    rw [feed_ok ((applyTx_request_ok hid).mpr ⟨g, e, hg, hstep, rfl⟩)]
    refine ⟨hg, fun id' => ?_⟩
    rw [hid, State.withRequest_get]
    by_cases heq : id = id'
    · subst heq
      simp [entryFeed, hstep]
    · simp [heq]
  | none =>
    have hsame : feed applyTx s tx = s := by
      refine (feed_cases applyTx s tx).resolve_right fun ha => ?_
      obtain ⟨g', e, hg', he, _⟩ := (applyTx_request_ok hid).mp ha
      rw [hg] at hg'
      cases hg'
      rw [hstep] at he
      cases he
    rw [hsame]
    refine ⟨hg, fun id' => ?_⟩
    by_cases heq : tx.requestId? = some id'
    · rw [if_pos heq]
      cases hid.symm.trans heq
      simp [entryFeed, hstep]
    · rw [if_neg heq]

theorem replay_entry {g : GroupConfig C} {txs : List (Tx C)} (hreq : ∀ tx ∈ txs, ∃ id, tx.requestId? = some id)
    {s : State C} (hg : s.group = some g) : (replay applyTx s txs).group = some g ∧ ∀ id : Uuid,
      (replay applyTx s txs).requests[id]? =
        (txs.filter fun tx => tx.requestId? = some id).foldl (entryFeed g) s.requests[id]? := by
  induction txs generalizing s with
  | nil => exact ⟨hg, fun _ => rfl⟩
  | cons tx txs ih =>
    obtain ⟨id', hid⟩ := hreq tx List.mem_cons_self
    obtain ⟨hgroup, hentry⟩ := feed_request hg hid
    obtain ⟨hlast, hrest⟩ := ih (fun tx htx => hreq tx (List.mem_cons_of_mem _ htx)) hgroup
    refine ⟨hlast, fun id => ?_⟩
    rw [replay_cons, hrest id, hentry id]
    by_cases heq : tx.requestId? = some id
    · rw [if_pos heq, List.filter_cons_of_pos (by simpa using heq), List.foldl_cons]
    · rw [if_neg heq, List.filter_cons_of_neg (by simpa using heq)]

theorem commitBlock_requests {chain : ChainSim C} (hreq : ∀ tx ∈ chain.mempool, ∃ id, tx.requestId? = some id) :
    ∃ results chain', chain.commitBlock = .ok (results, chain') ∧ chain'.mempool = [] ∧
      chain'.state = replay applyTx chain.state chain.mempool := by
  have hpopulated : ChainSim.FinalizesPopulated chain.state chain.mempool := by
    intro pre v pkp post heq
    obtain ⟨id, hid⟩ := hreq (.dkgFinalize v pkp) (by rw [heq]; simp)
    cases hid
  obtain ⟨⟨s, accepted, results⟩, hloop⟩ := ChainSim.commitLoop_returns_iff.mpr hpopulated
  have hcommit := ChainSim.commitBlock_eq chain
  rw [hloop] at hcommit
  exact ⟨_, _, hcommit, rfl, ChainSim.commitLoop_state hloop⟩

/-! ## Commitments in a row -/

/-- The commitments of `m`, with some of those in the names of `l`. -/
structure ExtendsBy (m : BTreeMap C.Identifier C.SigningCommitments) (l : List C.Identifier)
    (c : C.Identifier → C.SigningCommitments) (m' : BTreeMap C.Identifier C.SigningCommitments) : Prop where
  kept : ∀ (i : C.Identifier) v, m[i]? = some v → m'[i]? = some v
  only : ∀ (i : C.Identifier) v, m'[i]? = some v → m[i]? = some v ∨ i ∈ l ∧ v = c i

namespace ExtendsBy

variable {m m₁ m' : BTreeMap C.Identifier C.SigningCommitments} {l : List C.Identifier} {i : C.Identifier}
  {c : C.Identifier → C.SigningCommitments}

theorem refl (m : BTreeMap C.Identifier C.SigningCommitments) (l : List C.Identifier)
    (c : C.Identifier → C.SigningCommitments) : ExtendsBy m l c m := ⟨fun _ _ h => h, fun _ _ h => Or.inl h⟩

theorem insert (him : i ∉ m) : ExtendsBy m (i :: l) c (m.insert i (c i)) where
  kept j v hj := by
    have hne : i ≠ j := fun heq => him (heq ▸ mem_of_getElem? hj)
    rw [getElem?_insert_ne _ _ hne]
    exact hj
  only j v hj := by
    rw [getElem?_insert'] at hj
    by_cases hij : i = j
    · subst hij
      rw [if_pos rfl] at hj
      exact Or.inr ⟨List.mem_cons_self, (Option.some.inj hj).symm⟩
    · rw [if_neg hij] at hj
      exact Or.inl hj

theorem later (h : ExtendsBy m (i :: l) c m₁) (h' : ExtendsBy m₁ l c m') : ExtendsBy m (i :: l) c m' where
  kept j v hj := h'.kept j v (h.kept j v hj)
  only j v hj := by
    rcases h'.only j v hj with hj | ⟨hjl, hv⟩
    · exact h.only j v hj
    · exact Or.inr ⟨List.mem_cons_of_mem _ hjl, hv⟩

end ExtendsBy

/-- What comes of a request that waits when the members of `l` commit in turn. -/
inductive Gathered (K : GroupKeys C) (m : BTreeMap C.Identifier C.SigningCommitments) (l : List C.Identifier)
    (c : C.Identifier → C.SigningCommitments) (message : Bytes) : RequestStatus C → Prop
  | waits {m'} : m.size + l.length < K.threshold → ExtendsBy m l c m' → (∀ i ∈ l, i ∈ m') →
      Gathered K m l c message (.awaitingCommitments m')
  | cut {m'} : K.threshold ≤ m.size + l.length → ExtendsBy m l c m' → m'.size = K.threshold →
      Gathered K m l c message (.signing (C.signingPackage m' message) (dom m') ∅)

section
variable {K : GroupKeys C} {id : Uuid} {c : C.Identifier → C.SigningCommitments}

theorem foldl_surplus {e : RequestEntry C} {pkg parts shares} (hs : e.status = .signing pkg parts shares)
    (l : List C.Identifier) :
    (l.map fun i => Tx.submitCommitment id i (c i)).foldl (entryFeed K.group) (some e) = some e := by
  induction l with
  | nil => rfl
  | cons i l ih =>
    have hnone : entryStep K.group (some e) (.submitCommitment id i (c i)) = none := by
      refine Option.eq_none_iff_forall_ne_some.mpr fun e' he => ?_
      obtain ⟨_, o, m, ho, ho', _⟩ := entryStep_submitCommitment.mp he
      cases ho
      rw [hs] at ho'
      cases ho'
    rw [List.map_cons, List.foldl_cons, entryFeed, hnone]
    exact ih

theorem foldl_commitments {l : List C.Identifier} (hd : l.Nodup) : ∀ {e : RequestEntry C}
    {m : BTreeMap C.Identifier C.SigningCommitments}, (∀ i ∈ l, i ∈ K.ids ∧ i ∉ m) →
      e.status = .awaitingCommitments m → m.size < K.threshold →
      ∃ status, (l.map fun i => Tx.submitCommitment id i (c i)).foldl (entryFeed K.group) (some e) =
        some { e with status } ∧ Gathered K m l c e.message status := by
  induction l with
  | nil =>
    intro e m _ hs hlt
    refine ⟨e.status, rfl, ?_⟩
    rw [hs]
    exact .waits hlt (.refl m [] c) (by simp)
  | cons i l ih =>
    intro e m hl hs hlt
    obtain ⟨hnew, hd⟩ := List.nodup_cons.mp hd
    obtain ⟨hi, him⟩ := hl i List.mem_cons_self
    have hsize : (m.insert i (c i)).size = m.size + 1 := size_insert_of_not_mem (c i) him
    have hbound : K.threshold < 65536 := K.params.threshold.toNat_lt
    have hstep : entryStep K.group (some e) (.submitCommitment id i (c i)) =
        some { e with status := thresholdCut K.params e.message (m.insert i (c i)) } :=
      entryStep_submitCommitment.mpr ⟨hi, e, m, rfl, hs, him, rfl⟩
    have hext : ExtendsBy m (i :: l) c (m.insert i (c i)) := .insert him
    rw [List.map_cons, List.foldl_cons, entryFeed, hstep, thresholdCut_eq (by omega)]
    by_cases hfull : K.threshold ≤ m.size + 1
    · have hle : K.params.threshold.toNat ≤ (m.insert i (c i)).size := by rw [hsize]; exact hfull
      have hcut : cut K.params.threshold.toNat (m.insert i (c i)) = m.insert i (c i) :=
        cut_of_size (by rw [hsize]; exact hlt)
      rw [if_pos hle, hcut]
      refine ⟨_, foldl_surplus rfl l, .cut ?_ hext ?_⟩
      · rw [List.length_cons]; omega
      · rw [hsize]; omega
    · have hlt' : ¬ K.params.threshold.toNat ≤ (m.insert i (c i)).size := by rw [hsize]; exact hfull
      rw [if_neg hlt']
      have hrest : ∀ j ∈ l, j ∈ K.ids ∧ j ∉ m.insert i (c i) := by
        intro j hj
        obtain ⟨hjK, hjm⟩ := hl j (List.mem_cons_of_mem _ hj)
        refine ⟨hjK, fun hmem => ?_⟩
        rcases mem_insert'.mp hmem with rfl | hmem
        · exact hnew hj
        · exact hjm hmem
      obtain ⟨status, hfold, hgathered⟩ := ih hd hrest
        (e := { e with status := .awaitingCommitments (m.insert i (c i)) }) rfl (by rw [hsize]; omega)
      have hlen : (m.insert i (c i)).size + l.length = m.size + (i :: l).length := by
        rw [hsize, List.length_cons]; omega
      refine ⟨status, hfold, ?_⟩
      cases hgathered with
      | waits h hm' hall =>
        refine .waits (hlen ▸ h) (hext.later hm') fun j hj => ?_
        rcases List.mem_cons.mp hj with rfl | hj
        · exact mem_of_getElem? (hm'.kept j (c j) (by rw [getElem?_insert', if_pos rfl]))
        · exact hall j hj
      | cut h hm' hm's => exact .cut (hlen ▸ h) (hext.later hm') hm's

end

/-! ## A reaction, request by request -/

/-- What a reaction has made of a request: what it has returned for it, and what the node then remembers of it. -/
inductive Answered (node : Node C) (id : Uuid) (e : RequestEntry C) (node' : Node C) : List (Tx C) → Prop
  | idle : ¬ node.Fails id e → ¬ node.Answers id e → node'.pending[id]? = node.pending[id]? →
      (id ∈ node.committedRequests → id ∈ node'.committedRequests) →
      (id ∈ node.sharedRequests → id ∈ node'.sharedRequests) →
      (∀ m, e.status = .awaitingCommitments m → id ∈ node'.sharedRequests → id ∈ node.sharedRequests) →
      Answered node id e node' []
  | commitment (drawn : C.SigningNonces × C.SigningCommitments) : node.CommitDue id e →
      (∃ rng, (C.commit (C.signingShare node.bundle.keyPackage) rng).1 = drawn) →
      node'.pending[id]? = some drawn.1 → id ∈ node'.committedRequests →
      (id ∈ node'.sharedRequests ↔ id ∈ node.sharedRequests) →
      Answered node id e node' [.submitCommitment id node.identifier drawn.2]
  | share {pkg nonces share} : node.SignDue id e pkg nonces →
      C.sign pkg nonces node.bundle.keyPackage e.randomizer = .ok share → id ∈ node'.sharedRequests →
      Answered node id e node' [.submitShare id node.identifier share]

namespace Answered

variable {node node' node₁ node₂ : Node C} {id : Uuid} {e : RequestEntry C} {txs : List (Tx C)}

theorem requestId (h : Answered node id e node' txs) : ∀ tx ∈ txs, tx.requestId? = some id := by
  intro tx htx
  cases h with
  | idle => cases htx
  | commitment => rw [List.mem_singleton.mp htx]; rfl
  | share => rw [List.mem_singleton.mp htx]; rfl

theorem of_agrees (hbefore : node.AgreesAt id node₁) (h : Answered node₁ id e node₂ txs)
    (hafter : node₂.AgreesAt id node') : Answered node id e node' txs := by
  cases h with
  | idle hf ha hp hc hs hs' =>
    refine .idle (fun h => hf (hbefore.fails.mpr h)) (fun h => ha (hbefore.answers.mpr h))
      (hafter.pending.trans (hp.trans hbefore.pending)) (fun h => ?_) (fun h => ?_) fun m hm h => ?_
    · exact hafter.committed.mpr (hc (hbefore.committed.mpr h))
    · exact hafter.shared.mpr (hs (hbefore.shared.mpr h))
    · exact hbefore.shared.mp (hs' m hm (hafter.shared.mp h))
  | commitment drawn hdue hdrawn hp hc hs =>
    rw [hbefore.bundle] at hdrawn
    rw [hbefore.identifier]
    exact .commitment drawn (hbefore.commitDue.mp hdue) hdrawn (hafter.pending.trans hp) (hafter.committed.mpr hc)
      (hafter.shared.trans (hs.trans hbefore.shared))
  | share hdue hsign hs =>
    rw [hbefore.bundle] at hsign
    rw [hbefore.identifier]
    exact .share (hbefore.signDue.mp hdue) hsign (hafter.shared.mpr hs)

end Answered

namespace Reaction

variable {σ σ' : Signer C} {id : Uuid} {e : RequestEntry C}

theorem idle_pending {r : Except Error (Option (Tx C))} (h : Reaction σ id e r σ') (hr : r = .ok none) :
    σ'.node.pending[id]? = σ.node.pending[id]? := by
  cases h <;> first | rfl | cases hr

theorem idle_mono {r : Except Error (Option (Tx C))} (h : Reaction σ id e r σ') (hr : r = .ok none) :
    (id ∈ σ.node.committedRequests → id ∈ σ'.node.committedRequests) ∧
      (id ∈ σ.node.sharedRequests → id ∈ σ'.node.sharedRequests) := by
  cases h with
  | idle => exact ⟨fun h => h, fun h => h⟩
  | sawCommitment => exact ⟨fun _ => Finset.mem_insert_self _ _, fun h => h⟩
  | sawShare => exact ⟨fun h => h, fun _ => Finset.mem_insert_self _ _⟩
  | _ => cases hr

end Reaction

namespace Ctx

variable {ctx : Ctx C} {id : Uuid} {e : RequestEntry C}

theorem reactEntry_fixed (ctx : Ctx C) (id : Uuid) (e : RequestEntry C) :
    (ctx.reactEntry id e).2.node.identifier = ctx.node.identifier ∧
      (ctx.reactEntry id e).2.node.bundle = ctx.node.bundle ∧
        (ctx.reactEntry id e).2.node.policy = ctx.node.policy := by
  have h := reactEntry_reaction ctx id e
  generalize (ctx.reactEntry id e).1 = r, (ctx.reactEntry id e).2.toSigner = σ at h
  cases h <;> exact ⟨rfl, rfl, rfl⟩

theorem reactEntry_awaiting_shared (ctx : Ctx C) (id : Uuid) {m : BTreeMap C.Identifier C.SigningCommitments}
    (hs : e.status = .awaitingCommitments m) :
    (ctx.reactEntry id e).2.node.sharedRequests = ctx.node.sharedRequests := by
  unfold reactEntry
  simp only [hs]
  by_cases hm : ctx.node.identifier ∈ m
  · rw [if_pos hm]; rfl
  by_cases hc : id ∈ ctx.node.committedRequests
  · rw [if_neg hm, if_pos hc]
  rw [if_neg hm, if_neg hc]
  cases ctx.node.policy e.message with
  | error reason => rfl
  | ok _ =>
    by_cases hp : id ∈ ctx.node.pending
    · obtain ⟨nonces, rng, heq⟩ := commit_inUse ctx hp
      simp only [heq]
      rfl
    · obtain ⟨nonces, commitments, rng, heq⟩ := commit_ok ctx hp
      simp only [heq]
      rfl

theorem reactEntry_answered (hf : ¬ ctx.node.Fails id e) :
    ∃ tx ctx', ctx.reactEntry id e = (.ok tx, ctx') ∧ Answered ctx.node id e ctx'.node tx.toList := by
  by_cases ha : ctx.node.Answers id e
  · cases ha with
    | commitment hdue hpend =>
      obtain ⟨m, hs, hm, hc, hp⟩ := hdue
      obtain ⟨drawn, hdrawn, hr, hn⟩ := ctx.reactEntry_draws id hs hm hc hp hpend
      refine ⟨_, _, Prod.ext hr rfl, ?_⟩
      rw [hn]
      refine .commitment drawn ⟨m, hs, hm, hc, hp⟩ ⟨_, hdrawn⟩ ?_ (Finset.mem_insert_self _ _) Iff.rfl
      simp [Node.holding, Node.insertPending, Node.insertCommitted]
    | share hdue hsign =>
      obtain ⟨parts, shares, hs, hi, hm, hr, hn⟩ := hdue
      obtain ⟨hret, hn'⟩ := ctx.reactEntry_shares id hs hi hm hr hn hsign
      refine ⟨_, _, Prod.ext hret rfl, ?_⟩
      rw [hn']
      exact .share ⟨parts, shares, hs, hi, hm, hr, hn⟩ hsign (Finset.mem_insert_self _ _)
  · obtain ⟨ctx', hr⟩ := ctx.reactEntry_idle hf ha
    have hreact := reactEntry_reaction ctx id e
    have hshared := fun m => reactEntry_awaiting_shared ctx id (e := e) (m := m)
    rw [hr] at hreact hshared
    refine ⟨none, ctx', hr, .idle hf ha ?_ ?_ ?_ fun m hm h => ?_⟩
    · exact hreact.idle_pending rfl
    · exact hreact.idle_mono rfl |>.1
    · exact hreact.idle_mono rfl |>.2
    · rw [← hshared m hm]; exact h

end Ctx

/-- What a call has made of each request of the state. -/
structure Reacted (s : State C) (node : Node C) (txs : List (Tx C)) (node' : Node C) : Prop where
  identifier : node'.identifier = node.identifier
  bundle : node'.bundle = node.bundle
  policy : node'.policy = node.policy
  answered : ∀ (id : Uuid) e, s.requests[id]? = some e →
    Answered node id e node' (txs.filter fun tx => tx.requestId? = some id)
  others : ∀ id : Uuid, s.requests[id]? = none → node.AgreesAt id node'
  named : ∀ tx ∈ txs, ∃ (id : Uuid) (e : RequestEntry C), s.requests[id]? = some e ∧ tx.requestId? = some id

namespace Ctx

theorem reactEntries_answered (node : Node C) : ∀ {l : List (Uuid × RequestEntry C)} (out : List (Tx C)) {ctx : Ctx C},
    l.Pairwise (fun a b => a.1 < b.1) → node.Ahead ctx l → (∀ entry ∈ l, ¬ node.Fails entry.1 entry.2) →
      ∃ txs ctx', ctx.reactEntries out l = (.ok (out ++ txs), ctx') ∧
        (ctx'.node.identifier = ctx.node.identifier ∧ ctx'.node.bundle = ctx.node.bundle ∧
          ctx'.node.policy = ctx.node.policy) ∧
        (∀ entry ∈ l, Answered node entry.1 entry.2 ctx'.node (txs.filter fun tx => tx.requestId? = some entry.1)) ∧
        (∀ id, (∀ entry ∈ l, entry.1 ≠ id) → ctx.node.AgreesAt id ctx'.node) ∧
        ∀ tx ∈ txs, ∃ entry ∈ l, tx.requestId? = some entry.1
  | [], out, ctx, _, _, _ => ⟨[], ctx, by simp [reactEntries], ⟨rfl, rfl, rfl⟩, by simp, fun _ _ => .refl _ _, by simp⟩
  | (id, e) :: l, out, ctx, hsorted, hahead, hf => by
    have hhere : node.AgreesAt id ctx.node := hahead (id, e) List.mem_cons_self
    obtain ⟨hlt, htail⟩ := List.pairwise_cons.mp hsorted
    have hne : ∀ entry ∈ l, entry.1 ≠ id := fun entry hentry => (ne_of_lt (hlt entry hentry)).symm
    obtain ⟨tx, ctx₁, hr, hanswered⟩ := ctx.reactEntry_answered fun h => hf (id, e) List.mem_cons_self (hhere.fails.mp h)
    have hfixed := reactEntry_fixed ctx id e
    have hreact := reactEntry_reaction ctx id e
    rw [hr] at hfixed hreact
    obtain ⟨txs, ctx', hrun, hfixed', hall, hothers, hnamed⟩ := reactEntries_answered node (out ++ tx.toList) htail
      (hahead.next hsorted hr) fun entry hentry => hf entry (List.mem_cons_of_mem _ hentry)
    refine ⟨tx.toList ++ txs, ctx', ?_, ?_, ?_, ?_, ?_⟩
    · rw [← List.append_assoc, ← hrun, reactEntries, hr]
      cases tx <;> simp
    · exact ⟨hfixed'.1.trans hfixed.1, hfixed'.2.1.trans hfixed.2.1, hfixed'.2.2.trans hfixed.2.2⟩
    · intro entry hentry
      rw [List.filter_append]
      rcases List.mem_cons.mp hentry with rfl | hentry
      · have hown : tx.toList.filter (fun tx => tx.requestId? = some id) = tx.toList :=
          List.filter_eq_self.mpr fun tx htx => by simpa using hanswered.requestId tx htx
        have hnone : txs.filter (fun tx => tx.requestId? = some id) = [] := by
          refine List.filter_eq_nil_iff.mpr fun tx htx => ?_
          obtain ⟨entry, hentry, hid⟩ := hnamed tx htx
          rw [hid]
          simpa using hne entry hentry
        rw [hown, hnone, List.append_nil]
        exact hanswered.of_agrees hhere (hothers id hne)
      · have hnone : tx.toList.filter (fun tx => tx.requestId? = some entry.1) = [] := by
          refine List.filter_eq_nil_iff.mpr fun tx htx => ?_
          rw [hanswered.requestId tx htx]
          simpa using (hne entry hentry).symm
        rw [hnone, List.nil_append]
        exact hall entry hentry
    · intro id' hid'
      have hid : id ≠ id' := hid' (id, e) List.mem_cons_self
      exact (hreact.frame hid).trans (hothers id' fun entry hentry => hid' entry (List.mem_cons_of_mem _ hentry))
    · intro tx' htx'
      rcases List.mem_append.mp htx' with htx' | htx'
      · exact ⟨(id, e), List.mem_cons_self, hanswered.requestId tx' htx'⟩
      · obtain ⟨entry, hentry, hid⟩ := hnamed tx' htx'
        exact ⟨entry, List.mem_cons_of_mem _ hentry, hid⟩

variable {s : State C} {g : GroupConfig C} (ctx : Ctx C)

theorem react_reacted (hg : s.group = some g) (hv : ctx.node.identifier ∈ g.validators)
    (hf : ∀ (id : Uuid) e, s.requests[id]? = some e → ¬ ctx.node.Fails id e) :
    ∃ txs ctx', ctx.react s = (.ok txs, ctx') ∧ Reacted s ctx.node txs ctx'.node := by
  have hmem : ∀ {id : Uuid} {e : RequestEntry C}, (id, e) ∈ s.requests.toList ↔ s.requests[id]? = some e :=
    Std.ExtTreeMap.mem_toList_iff_getElem?_eq_some
  obtain ⟨txs, ctx', hrun, ⟨hi, hb, hp⟩, hall, hothers, hnamed⟩ := reactEntries_answered ctx.node []
    (toList_sorted s.requests) (fun entry _ => .refl _ _) fun entry hentry => hf entry.1 entry.2 (hmem.mp hentry)
  refine ⟨txs, ctx', (ctx.react_active hg hv).1.trans hrun, hi, hb, hp, fun id e he => hall (id, e) (hmem.mpr he), ?_, ?_⟩
  · intro id hnone
    apply hothers
    rintro entry hentry rfl
    rw [hmem.mp hentry] at hnone
    cases hnone
  · intro tx htx
    obtain ⟨entry, hentry, hid⟩ := hnamed tx htx
    exact ⟨entry.1, entry.2, hmem.mp hentry, hid⟩

theorem react_fails (hg : s.group = some g) (hv : ctx.node.identifier ∈ g.validators)
    (hf : ∃ (id : Uuid) (e : RequestEntry C), s.requests[id]? = some e ∧ ctx.node.Fails id e) :
    ∃ e, (ctx.react s).1 = .error e := by
  obtain ⟨id, e, he, hfails⟩ := hf
  rw [(ctx.react_active hg hv).1]
  exact (reactEntries_error [] (toList_sorted s.requests) fun entry _ => .refl _ _).mpr
    ⟨(id, e), Std.ExtTreeMap.mem_toList_iff_getElem?_eq_some.mpr he, hfails⟩

end Ctx

end Sapphire
