import Sapphire.Nonces
import Sapphire.Diamond

/-!
# What an error of a reaction loses

`Node::react` remembers a request as it queues a transaction for it, and an
error further down the loop drops the queue but not the memory. Which requests
fail and which are answered can be read off the node and the state before the
call: no request changes what the node does with another.
-/

namespace Sapphire

variable {C : Ciphersuite}

namespace Node

/-! ## What becomes of a request -/

/-- The loop comes to `Node::commit` for the request. -/
def CommitDue (node : Node C) (requestId : Uuid) (entry : RequestEntry C) : Prop :=
  ∃ commitments, entry.status = .awaitingCommitments commitments ∧ node.identifier ∉ commitments ∧
    requestId ∉ node.committedRequests ∧ node.policy entry.message = .ok ()

/-- The loop comes to `frost_rerandomized::sign` for the request. -/
def SignDue (node : Node C) (requestId : Uuid) (entry : RequestEntry C) (signingPackage : C.SigningPackage)
    (nonces : C.SigningNonces) : Prop :=
  ∃ participants shares, entry.status = .signing signingPackage participants shares ∧
    node.identifier ∈ participants ∧ node.identifier ∉ shares ∧ requestId ∉ node.sharedRequests ∧
    node.pending[requestId]? = some nonces

inductive Fails (node : Node C) (requestId : Uuid) (entry : RequestEntry C) : Prop
  | sessionInUse : node.CommitDue requestId entry → requestId ∈ node.pending → Fails node requestId entry
  | frost {signingPackage nonces e} : node.SignDue requestId entry signingPackage nonces →
      C.sign signingPackage nonces node.bundle.keyPackage entry.randomizer = .error e → Fails node requestId entry

inductive Answers (node : Node C) (requestId : Uuid) (entry : RequestEntry C) : Prop
  | commitment : node.CommitDue requestId entry → requestId ∉ node.pending → Answers node requestId entry
  | share {signingPackage nonces share} : node.SignDue requestId entry signingPackage nonces →
      C.sign signingPackage nonces node.bundle.keyPackage entry.randomizer = .ok share → Answers node requestId entry

end Node

section
variable {ctx : Ctx C} {id : Uuid} {entry : RequestEntry C}

theorem Ctx.reactEntry_of_fails (h : ctx.node.Fails id entry) :
    ∃ e ctx', ctx.reactEntry id entry = (.error e, ctx') := by
  cases h with
  | sessionInUse hdue hpend =>
    obtain ⟨commitments, hs, hm, hc, hp⟩ := hdue
    obtain ⟨nonces, rng, heq⟩ := Ctx.commit_inUse ctx hpend
    unfold Ctx.reactEntry
    simp only [hs, hm, hc, hp, heq, if_false]
    exact ⟨_, _, rfl⟩
  | frost hdue herr =>
    obtain ⟨participants, shares, hs, hp, hsh, hr, hn⟩ := hdue
    unfold Ctx.reactEntry
    simp only [hs, hp, hsh, hr, not_true, if_false, Ctx.sign_some hn, herr, Except.mapError]
    exact ⟨_, _, rfl⟩

theorem Ctx.reactEntry_of_answers (h : ctx.node.Answers id entry) :
    ∃ tx ctx', ctx.reactEntry id entry = (.ok (some tx), ctx') := by
  cases h with
  | commitment hdue hpend =>
    obtain ⟨commitments, hs, hm, hc, hp⟩ := hdue
    obtain ⟨nonces, drawn, rng, heq⟩ := Ctx.commit_ok ctx hpend
    unfold Ctx.reactEntry
    simp only [hs, hm, hc, hp, heq, if_false]
    exact ⟨_, _, rfl⟩
  | share hdue hok =>
    obtain ⟨participants, shares, hs, hp, hsh, hr, hn⟩ := hdue
    unfold Ctx.reactEntry
    simp only [hs, hp, hsh, hr, not_true, if_false, Ctx.sign_some hn, hok, Except.mapError]
    exact ⟨_, _, rfl⟩

theorem Ctx.reactEntry_idle (hf : ¬ ctx.node.Fails id entry) (ha : ¬ ctx.node.Answers id entry) :
    ∃ ctx', ctx.reactEntry id entry = (.ok none, ctx') := by
  unfold Ctx.reactEntry
  cases hs : entry.status with
  | awaitingCommitments m =>
    by_cases hm : ctx.node.identifier ∈ m
    · simp only [hm, if_true]; exact ⟨_, rfl⟩
    by_cases hc : id ∈ ctx.node.committedRequests
    · simp only [hm, hc, if_true, if_false]; exact ⟨_, rfl⟩
    cases hp : ctx.node.policy entry.message with
    | error reason => simp only [hm, hc, hp, if_false]; exact ⟨_, rfl⟩
    | ok _ =>
      -- a commitment is due, so the loop fails or answers
      have hdue : ctx.node.CommitDue id entry := ⟨m, hs, hm, hc, hp⟩
      by_cases hpend : id ∈ ctx.node.pending
      · exact absurd (.sessionInUse hdue hpend) hf
      · exact absurd (.commitment hdue hpend) ha
  | signing pkg parts shares =>
    by_cases hp : ctx.node.identifier ∈ parts
    · by_cases hsh : ctx.node.identifier ∈ shares
      · simp only [hp, hsh, not_true, if_true, if_false]; exact ⟨_, rfl⟩
      by_cases hr : id ∈ ctx.node.sharedRequests
      · simp only [hp, hsh, hr, not_true, if_true, if_false]; exact ⟨_, rfl⟩
      cases hn : ctx.node.pending[id]? with
      | none => simp only [hp, hsh, hr, not_true, if_false, Ctx.sign_none hn]; exact ⟨_, rfl⟩
      | some nonces =>
        have hdue : ctx.node.SignDue id entry pkg nonces := ⟨parts, shares, hs, hp, hsh, hr, hn⟩
        cases hsign : C.sign pkg nonces ctx.node.bundle.keyPackage entry.randomizer with
        | error e => exact absurd (.frost hdue hsign) hf
        | ok share => exact absurd (.share hdue hsign) ha
    · simp only [hp, not_false_eq_true, if_true]; exact ⟨_, rfl⟩
  | completed parts sig => exact ⟨_, rfl⟩
  | failed reason => exact ⟨_, rfl⟩

end

/-! ## The loop leaves the other requests alone -/

/-- Two memories of a node that do the same with one request. -/
structure Node.AgreesAt (id : Uuid) (node node' : Node C) : Prop where
  identifier : node'.identifier = node.identifier
  bundle : node'.bundle = node.bundle
  policy : node'.policy = node.policy
  pending : node'.pending[id]? = node.pending[id]?
  committed : id ∈ node'.committedRequests ↔ id ∈ node.committedRequests
  shared : id ∈ node'.sharedRequests ↔ id ∈ node.sharedRequests

namespace Node.AgreesAt

variable {id : Uuid} {node node' node'' : Node C} {entry : RequestEntry C}

theorem refl (id : Uuid) (node : Node C) : node.AgreesAt id node := ⟨rfl, rfl, rfl, rfl, Iff.rfl, Iff.rfl⟩

theorem trans (h : node.AgreesAt id node') (h' : node'.AgreesAt id node'') : node.AgreesAt id node'' :=
  ⟨h'.identifier.trans h.identifier, h'.bundle.trans h.bundle, h'.policy.trans h.policy, h'.pending.trans h.pending,
    h'.committed.trans h.committed, h'.shared.trans h.shared⟩

theorem mem_pending (h : node.AgreesAt id node') : id ∈ node'.pending ↔ id ∈ node.pending := by
  rw [BTreeMap.mem_iff, BTreeMap.mem_iff, h.pending]

theorem commitDue (h : node.AgreesAt id node') : node'.CommitDue id entry ↔ node.CommitDue id entry := by
  unfold CommitDue
  rw [h.identifier, h.policy, h.committed]

theorem signDue (h : node.AgreesAt id node') {pkg : C.SigningPackage} {nonces : C.SigningNonces} :
    node'.SignDue id entry pkg nonces ↔ node.SignDue id entry pkg nonces := by
  unfold SignDue
  rw [h.identifier, h.pending, h.shared]

theorem fails (h : node.AgreesAt id node') : node'.Fails id entry ↔ node.Fails id entry := by
  constructor
  · intro hfails
    rcases hfails with ⟨hdue, hpend⟩ | ⟨hdue, herr⟩
    · exact .sessionInUse (h.commitDue.mp hdue) (h.mem_pending.mp hpend)
    · rw [h.bundle] at herr
      exact .frost (h.signDue.mp hdue) herr
  · intro hfails
    rcases hfails with ⟨hdue, hpend⟩ | ⟨hdue, herr⟩
    · exact .sessionInUse (h.commitDue.mpr hdue) (h.mem_pending.mpr hpend)
    · rw [← h.bundle] at herr
      exact .frost (h.signDue.mpr hdue) herr

theorem answers (h : node.AgreesAt id node') : node'.Answers id entry ↔ node.Answers id entry := by
  constructor
  · intro hanswers
    rcases hanswers with ⟨hdue, hpend⟩ | ⟨hdue, hok⟩
    · exact .commitment (h.commitDue.mp hdue) fun hmem => hpend (h.mem_pending.mpr hmem)
    · rw [h.bundle] at hok
      exact .share (h.signDue.mp hdue) hok
  · intro hanswers
    rcases hanswers with ⟨hdue, hpend⟩ | ⟨hdue, hok⟩
    · exact .commitment (h.commitDue.mpr hdue) fun hmem => hpend (h.mem_pending.mp hmem)
    · rw [← h.bundle] at hok
      exact .share (h.signDue.mpr hdue) hok

end Node.AgreesAt

theorem Reaction.frame {σ σ' : Signer C} {id id' : Uuid} {entry : RequestEntry C} {r : Except Error (Option (Tx C))}
    (hr : Reaction σ id entry r σ') (hne : id ≠ id') : σ.node.AgreesAt id' σ'.node := by
  have hinsert (s : Finset Uuid) : id' ∈ insert id s ↔ id' ∈ s := by
    rw [Finset.mem_insert, or_iff_right (Ne.symm hne)]
  have herase (m : BTreeMap Uuid C.SigningNonces) : (m.erase id)[id']? = m[id']? := by
    simp [Std.ExtTreeMap.getElem?_erase, hne]
  cases hr with
  | idle => exact .refl _ _
  | sawCommitment => exact ⟨rfl, rfl, rfl, rfl, hinsert _, Iff.rfl⟩
  | sawShare => exact ⟨rfl, rfl, rfl, rfl, Iff.rfl, hinsert _⟩
  | inUse _ _ => exact .refl _ _
  | committed nonces _ _ _ _ =>
    refine ⟨rfl, rfl, rfl, ?_, hinsert _, Iff.rfl⟩
    show (σ.node.pending.insert id nonces)[id']? = σ.node.pending[id']?
    simp [Std.ExtTreeMap.getElem?_insert, hne]
  | signFailed _ _ _ _ => exact ⟨rfl, rfl, rfl, herase _, Iff.rfl, Iff.rfl⟩
  | signed _ _ _ _ _ _ => exact ⟨rfl, rfl, rfl, herase _, Iff.rfl, hinsert _⟩

/-! ## The queue at the error -/

namespace Ctx

/-- What the loop has queued when it ends, with an error or without. -/
def queuedEntries (ctx : Ctx C) (out : List (Tx C)) : List (Uuid × RequestEntry C) → List (Tx C)
  | [] => out
  | (requestId, entry) :: rest =>
    match ctx.reactEntry requestId entry with
    | (.error _, _) => out
    | (.ok none, ctx) => ctx.queuedEntries out rest
    | (.ok (some tx), ctx) => ctx.queuedEntries (out ++ [tx]) rest

def queued (ctx : Ctx C) (s : State C) : List (Tx C) :=
  match s.group with
  | none => []
  | some group => if ctx.node.identifier ∉ group.validators then [] else ctx.queuedEntries [] s.requests.toList

theorem queuedEntries_invariant {P : List (Tx C) → Signer C → Prop}
    (hs : ∀ id e T σ r σ', P T σ → Reaction σ id e r σ' → P (T ++ emitted r) σ') :
    ∀ (l : List (Uuid × RequestEntry C)) (out : List (Tx C)) (ctx : Ctx C), P out ctx.toSigner →
      P (ctx.queuedEntries out l) (ctx.reactEntries out l).2.toSigner
  | [], _, _, h => h
  | (id, e) :: l, out, ctx, h => by
    have hpass := hs id e _ _ _ _ h (reactEntry_reaction ctx id e)
    unfold queuedEntries reactEntries
    cases hr : ctx.reactEntry id e with
    | mk r ctx' =>
      rw [hr] at hpass
      cases r with
      | error err => simpa [emitted] using hpass
      | ok o =>
        cases o with
        | none => exact queuedEntries_invariant hs l out ctx' (by simpa [emitted] using hpass)
        | some tx => exact queuedEntries_invariant hs l (out ++ [tx]) ctx' hpass

theorem queuedEntries_returned : ∀ (l : List (Uuid × RequestEntry C)) (out : List (Tx C)) (ctx : Ctx C)
    {txs : List (Tx C)}, (ctx.reactEntries out l).1 = .ok txs → ctx.queuedEntries out l = txs
  | [], _, _, _, h => Except.ok.inj h
  | (id, e) :: l, out, ctx, txs, h => by
    unfold reactEntries at h
    unfold queuedEntries
    cases hr : ctx.reactEntry id e with
    | mk r ctx' =>
      rw [hr] at h
      cases r with
      | error err => cases h
      | ok o =>
        cases o with
        | none => exact queuedEntries_returned l out ctx' h
        | some tx => exact queuedEntries_returned l (out ++ [tx]) ctx' h

theorem queued_returned {ctx : Ctx C} {s : State C} {txs : List (Tx C)} (h : (ctx.react s).1 = .ok txs) :
    ctx.queued s = txs := by
  unfold react at h
  unfold queued
  cases hg : s.group with
  | none => rw [hg] at h; exact Except.ok.inj h
  | some g =>
    rw [hg] at h
    by_cases hv : ctx.node.identifier ∈ g.validators
    · simp only [hv, not_true, if_false] at h ⊢
      exact queuedEntries_returned _ _ _ h
    · simp only [hv, not_false_eq_true, if_true] at h ⊢
      exact Except.ok.inj h

end Ctx

/-- A node that still does the same with each of the requests ahead. -/
def Node.Ahead (node : Node C) (ctx : Ctx C) (l : List (Uuid × RequestEntry C)) : Prop :=
  ∀ entry ∈ l, node.AgreesAt entry.1 ctx.node

theorem Node.Ahead.next {node : Node C} {ctx ctx' : Ctx C} {id : Uuid} {e : RequestEntry C}
    {l : List (Uuid × RequestEntry C)} {r : Except Error (Option (Tx C))} (h : node.Ahead ctx ((id, e) :: l))
    (hsorted : ((id, e) :: l).Pairwise (fun a b => a.1 < b.1)) (hr : ctx.reactEntry id e = (r, ctx')) :
    node.Ahead ctx' l := by
  intro entry hentry
  have hlt := (List.pairwise_cons.mp hsorted).1 entry hentry
  have hreact := reactEntry_reaction ctx id e
  rw [hr] at hreact
  exact (h entry (List.mem_cons_of_mem _ hentry)).trans (hreact.frame (ne_of_lt hlt))

namespace Ctx

theorem reactEntries_error {node : Node C} : ∀ {l : List (Uuid × RequestEntry C)} (out : List (Tx C)) {ctx : Ctx C},
    l.Pairwise (fun a b => a.1 < b.1) → node.Ahead ctx l →
      ((∃ e, (ctx.reactEntries out l).1 = .error e) ↔ ∃ entry ∈ l, node.Fails entry.1 entry.2)
  | [], out, ctx, _, _ => by simp [reactEntries]
  | (id, e) :: l, out, ctx, hsorted, hahead => by
    have hhere := hahead (id, e) (by simp)
    have htail := (List.pairwise_cons.mp hsorted).2
    rw [List.exists_mem_cons_iff]
    unfold reactEntries
    by_cases hf : ctx.node.Fails id e
    · obtain ⟨err, ctx', hr⟩ := ctx.reactEntry_of_fails hf
      rw [hr]
      exact iff_of_true ⟨err, rfl⟩ (Or.inl (hhere.fails.mp hf))
    rw [or_iff_right fun h => hf (hhere.fails.mpr h)]
    by_cases ha : ctx.node.Answers id e
    · obtain ⟨tx, ctx', hr⟩ := ctx.reactEntry_of_answers ha
      rw [hr]
      exact reactEntries_error (out ++ [tx]) htail (hahead.next hsorted hr)
    · obtain ⟨ctx', hr⟩ := ctx.reactEntry_idle hf ha
      rw [hr]
      exact reactEntries_error out htail (hahead.next hsorted hr)

/-- A request is answered before the loop ends when none before it fails. -/
theorem queuedEntries_ne_nil {node : Node C} :
    ∀ {l : List (Uuid × RequestEntry C)} (out : List (Tx C)) {ctx : Ctx C},
      l.Pairwise (fun a b => a.1 < b.1) → node.Ahead ctx l →
        (ctx.queuedEntries out l ≠ [] ↔ out ≠ [] ∨ ∃ entry ∈ l, node.Answers entry.1 entry.2 ∧
          ∀ before ∈ l, before.1 < entry.1 → ¬ node.Fails before.1 before.2)
  | [], out, ctx, _, _ => by simp [queuedEntries]
  | (id, e) :: l, out, ctx, hsorted, hahead => by
    have hhere := hahead (id, e) (by simp)
    obtain ⟨hlt, htail⟩ := List.pairwise_cons.mp hsorted
    unfold queuedEntries
    by_cases ha : ctx.node.Answers id e
    · obtain ⟨tx, ctx', hr⟩ := ctx.reactEntry_of_answers ha
      rw [hr]
      refine iff_of_true ?_ (Or.inr ⟨(id, e), by simp, hhere.answers.mp ha, ?_⟩)
      · exact (queuedEntries_ne_nil _ htail (hahead.next hsorted hr)).mpr (Or.inl (by simp))
      · intro before hbefore hless
        rcases List.mem_cons.mp hbefore with rfl | hbefore
        · exact absurd hless (lt_irrefl _)
        · exact absurd hless (lt_asymm (hlt before hbefore))
    have hna : ¬ node.Answers id e := fun h => ha (hhere.answers.mpr h)
    by_cases hf : ctx.node.Fails id e
    · obtain ⟨err, ctx', hr⟩ := ctx.reactEntry_of_fails hf
      rw [hr]
      refine ⟨Or.inl, ?_⟩
      intro hqueue
      rcases hqueue with hout | ⟨entry, hentry, hanswer, hclear⟩
      · exact hout
      · rcases List.mem_cons.mp hentry with rfl | hentry
        · exact absurd hanswer hna
        · exact absurd (hhere.fails.mp hf) (hclear (id, e) (by simp) (hlt entry hentry))
    · obtain ⟨ctx', hr⟩ := ctx.reactEntry_idle hf ha
      rw [hr]
      refine (queuedEntries_ne_nil out htail (hahead.next hsorted hr)).trans (or_congr_right ?_)
      have hnf : ¬ node.Fails id e := fun h => hf (hhere.fails.mpr h)
      constructor
      · intro hsome
        obtain ⟨entry, hentry, hanswer, hclear⟩ := hsome
        refine ⟨entry, List.mem_cons_of_mem _ hentry, hanswer, fun before hbefore hless => ?_⟩
        rcases List.mem_cons.mp hbefore with rfl | hbefore
        · exact hnf
        · exact hclear before hbefore hless
      · intro hsome
        obtain ⟨entry, hentry, hanswer, hclear⟩ := hsome
        rcases List.mem_cons.mp hentry with rfl | hentry
        · exact absurd hanswer hna
        · exact ⟨entry, hentry, hanswer, fun before hbefore => hclear before (List.mem_cons_of_mem _ hbefore)⟩

end Ctx

/-! ## What is remembered is not returned again -/

def Node.Recorded (node : Node C) : Tx C → Prop
  | .submitCommitment id _ _ => id ∈ node.committedRequests
  | .submitShare id _ _ => id ∈ node.sharedRequests
  | _ => False

namespace Signer

def reacts (σ : Signer C) (s : State C) (rngs : List C.Rng) : Signer C :=
  rngs.foldl (fun σ rng => (σ.react s rng).1) σ

/-- Some later reaction to the state returns a transaction of the same kind for the same request. -/
def StillReturns (σ : Signer C) (s : State C) (tx : Tx C) : Prop :=
  ∃ rngs rng, ∃ tx' ∈ ((σ.reacts s rngs).react s rng).2, tx'.slot = tx.slot

end Signer

/-- A queue beside the signer, since the node it began with. -/
structure Remembered (node : Node C) (queue : List (Tx C)) (σ : Signer C) : Prop where
  once : Once queue σ
  recorded : ∀ tx ∈ queue, σ.node.Recorded tx
  fresh : ∀ tx ∈ queue, ¬ node.Recorded tx
  committed : node.committedRequests ⊆ σ.node.committedRequests
  shared : node.sharedRequests ⊆ σ.node.sharedRequests

theorem Node.Recorded.mono {node node' : Node C} (hc : node.committedRequests ⊆ node'.committedRequests)
    (hs : node.sharedRequests ⊆ node'.sharedRequests) {tx : Tx C} (h : node.Recorded tx) : node'.Recorded tx := by
  cases tx with
  | submitCommitment id v com => exact hc h
  | submitShare id v share => exact hs h
  | _ => cases h

namespace Remembered

variable {node : Node C} {queue : List (Tx C)} {σ σ' : Signer C}

theorem start (node : Node C) (calls : List (FrostCall C)) : Remembered node [] { node, calls } where
  once := ⟨fun _ => Nat.zero_le _, fun _ => Nat.zero_le _⟩
  recorded := by simp
  fresh := by simp
  committed := subset_rfl
  shared := subset_rfl

theorem grow (h : Remembered node queue σ) {out : List (Tx C)} (honce : Once (queue ++ out) σ')
    (hc : σ.node.committedRequests ⊆ σ'.node.committedRequests) (hs : σ.node.sharedRequests ⊆ σ'.node.sharedRequests)
    (hout : ∀ tx ∈ out, σ'.node.Recorded tx ∧ ¬ σ.node.Recorded tx) : Remembered node (queue ++ out) σ' where
  once := honce
  recorded := by
    intro tx htx
    rcases List.mem_append.mp htx with htx | htx
    · exact (h.recorded tx htx).mono hc hs
    · exact (hout tx htx).1
  fresh := by
    intro tx htx
    rcases List.mem_append.mp htx with htx | htx
    · exact h.fresh tx htx
    · exact fun hbefore => (hout tx htx).2 (hbefore.mono h.committed h.shared)
  committed := h.committed.trans hc
  shared := h.shared.trans hs

theorem reaction (h : Remembered node queue σ) {id : Uuid} {entry : RequestEntry C}
    {r : Except Error (Option (Tx C))} (hr : Reaction σ id entry r σ') : Remembered node (queue ++ emitted r) σ' := by
  have honce := h.once.reaction hr
  cases hr with
  | idle => exact h.grow honce subset_rfl subset_rfl (by simp [emitted])
  | sawCommitment => exact h.grow honce (Finset.subset_insert _ _) subset_rfl (by simp [emitted])
  | sawShare => exact h.grow honce subset_rfl (Finset.subset_insert _ _) (by simp [emitted])
  | inUse _ _ => exact h.grow honce subset_rfl subset_rfl (by simp [emitted])
  | signFailed _ _ _ _ => exact h.grow honce subset_rfl subset_rfl (by simp [emitted])
  | committed _ _ hid _ _ =>
    apply h.grow honce (Finset.subset_insert _ _) subset_rfl
    intro tx htx
    rw [List.mem_singleton.mp htx]
    exact ⟨Finset.mem_insert_self _ _, hid⟩
  | signed _ _ _ hid _ _ =>
    apply h.grow honce subset_rfl (Finset.subset_insert _ _)
    intro tx htx
    rw [List.mem_singleton.mp htx]
    exact ⟨Finset.mem_insert_self _ _, hid⟩

end Remembered

theorem Once.reacts {queue : List (Tx C)} {σ : Signer C} (h : Once queue σ) (s : State C) (rngs : List C.Rng) :
    Once queue (σ.reacts s rngs) := by
  induction rngs generalizing σ with
  | nil => exact h
  | cons rng rngs ih => exact ih (h.react s rng).drop

theorem not_both_of_countP {p : Tx C → Bool} {before after : List (Tx C)} {marked : Prop} [Decidable marked]
    (h : (before ++ after).countP p ≤ if marked then 1 else 0) {tx tx' : Tx C} (htx : tx ∈ before) (hp : p tx = true)
    (htx' : tx' ∈ after) : ¬ p tx' = true := by
  intro hp'
  rw [List.countP_append] at h
  have hbefore : 0 < before.countP p := List.countP_pos_iff.mpr ⟨tx, htx, hp⟩
  have hafter : 0 < after.countP p := List.countP_pos_iff.mpr ⟨tx', htx', hp'⟩
  split at h <;> omega

/-- One commitment and one share for a request, over the queue and everything later. -/
theorem Remembered.lost {node : Node C} {queue : List (Tx C)} {σ : Signer C} (h : Remembered node queue σ)
    {s : State C} {tx : Tx C} (htx : tx ∈ queue) : ¬ σ.StillReturns s tx := by
  intro hreturns
  obtain ⟨rngs, rng, tx', htx', hslot⟩ := hreturns
  have honce := (h.once.reacts s rngs).react s rng
  have hrecorded := h.recorded tx htx
  cases tx with
  | submitCommitment id v com =>
    cases tx' <;> cases hslot
    exact not_both_of_countP (honce.commitment id) htx (by simp [Tx.isCommitmentFor]) htx' (by simp [Tx.isCommitmentFor])
  | submitShare id v share =>
    cases tx' <;> cases hslot
    exact not_both_of_countP (honce.share id) htx (by simp [Tx.isShareFor]) htx' (by simp [Tx.isShareFor])
  | _ => cases hrecorded

theorem Ctx.queued_remembered (ctx : Ctx C) (s : State C) :
    Remembered ctx.node (ctx.queued s) (ctx.react s).2.toSigner := by
  have hstart : Remembered ctx.node [] ctx.toSigner := .start ctx.node ctx.calls
  unfold queued react
  cases s.group with
  | none => exact hstart
  | some g =>
    by_cases hv : ctx.node.identifier ∈ g.validators
    · simp only [hv, not_true, if_false]
      exact queuedEntries_invariant (P := Remembered ctx.node) (fun _ _ _ _ _ _ h hr => h.reaction hr) _ _ ctx hstart
    · simp only [hv, not_false_eq_true, if_true]
      exact hstart

/-! ## Error atomicity -/

/-- An error of the call loses no transaction it had queued: the node does not
remember it, or returns it later. -/
def Node.ErrorAtomic (node : Node C) (s : State C) (rng : C.Rng) : Prop :=
  let ctx : Ctx C := { node, calls := [], rng }
  ∀ e, (ctx.react s).1 = .error e → ∀ tx ∈ ctx.queued s, ¬ node.Recorded tx →
    ¬ (ctx.react s).2.node.Recorded tx ∨ (ctx.react s).2.toSigner.StillReturns s tx

/-- Where a validator has a request that fails, it has none that it answers
before the first of those, in the order of their ids. -/
def Node.FailsFirst (node : Node C) (s : State C) : Prop :=
  ∀ group, s.group = some group → node.identifier ∈ group.validators →
    ∀ (i j : Uuid) ei ej, s.requests[i]? = some ei → s.requests[j]? = some ej →
      node.Answers i ei → node.Fails j ej → ∃ (k : Uuid) (ek : RequestEntry C),
        k < i ∧ s.requests[k]? = some ek ∧ node.Fails k ek

theorem Ctx.react_active (ctx : Ctx C) {s : State C} {group : GroupConfig C} (hg : s.group = some group)
    (hv : ctx.node.identifier ∈ group.validators) :
    ctx.react s = ctx.reactEntries [] s.requests.toList ∧ ctx.queued s = ctx.queuedEntries [] s.requests.toList := by
  unfold react queued
  simp [hg, hv]

theorem Ctx.error_active {ctx : Ctx C} {s : State C} {e : Error} (h : (ctx.react s).1 = .error e) :
    ∃ group, s.group = some group ∧ ctx.node.identifier ∈ group.validators := by
  unfold react at h
  cases hg : s.group with
  | none => rw [hg] at h; cases h
  | some group =>
    by_cases hv : ctx.node.identifier ∈ group.validators
    · exact ⟨group, rfl, hv⟩
    · rw [hg] at h
      simp only [hv, not_false_eq_true, if_true] at h
      cases h

/-- A reaction whose error loses nothing is one without an error, or with none of
the answered requests before the first that fails. -/
theorem error_atomic_iff (node : Node C) (s : State C) (rng : C.Rng) : node.ErrorAtomic s rng ↔ node.FailsFirst s := by
  set ctx : Ctx C := { node, calls := [], rng } with hctx
  have hsorted := BTreeMap.toList_sorted s.requests
  have hahead : node.Ahead ctx s.requests.toList := fun entry _ => .refl _ _
  have hmem : ∀ {id : Uuid} {e : RequestEntry C}, (id, e) ∈ s.requests.toList ↔ s.requests[id]? = some e :=
    Std.ExtTreeMap.mem_toList_iff_getElem?_eq_some
  constructor
  · intro h group hg hv i j ei ej hi hj hanswers hfails
    obtain ⟨hreact, hqueued⟩ := ctx.react_active hg hv
    by_contra hnone
    obtain ⟨e, herr⟩ := (Ctx.reactEntries_error [] hsorted hahead).mpr ⟨(j, ej), hmem.mpr hj, hfails⟩
    have hqueue : ctx.queued s ≠ [] := by
      rw [hqueued]
      refine (Ctx.queuedEntries_ne_nil [] hsorted hahead).mpr (Or.inr ⟨(i, ei), hmem.mpr hi, hanswers, ?_⟩)
      intro before hbefore hless hfail
      exact hnone ⟨before.1, before.2, hless, hmem.mp hbefore, hfail⟩
    obtain ⟨tx, htx⟩ := List.exists_mem_of_ne_nil _ hqueue
    have hremembered := ctx.queued_remembered s
    rcases h e (hreact ▸ herr) tx htx (hremembered.fresh tx htx) with hnot | hstill
    · exact hnot (hremembered.recorded tx htx)
    · exact hremembered.lost htx hstill
  · intro h e herr tx htx _
    exfalso
    obtain ⟨group, hg, hv⟩ := Ctx.error_active herr
    obtain ⟨hreact, hqueued⟩ := ctx.react_active hg hv
    obtain ⟨⟨j, ej⟩, hj, hfails⟩ := (Ctx.reactEntries_error [] hsorted hahead).mp ⟨e, hreact ▸ herr⟩
    have hqueue : ctx.queuedEntries [] s.requests.toList ≠ [] := hqueued ▸ List.ne_nil_of_mem htx
    rcases (Ctx.queuedEntries_ne_nil [] hsorted hahead).mp hqueue with hnil | ⟨⟨i, ei⟩, hi, hanswers, hclear⟩
    · exact hnil rfl
    obtain ⟨k, ek, hlt, hk, hfail⟩ := h group hg hv i j ei ej (hmem.mp hi) (hmem.mp hj) hanswers hfails
    exact hclear (k, ek) (hmem.mpr hk) hlt hfail

namespace Ideal

/-- A group whose chain asks for one signer, with a key that asks for two. -/
def soleParams : MpcParams := { threshold := 1, total := 2 }

def lateId : Uuid := ⟨Vector.replicate 16 9⟩

def soleBundle : KeyShareBundle suite :=
  { keyPackage := { identifier := 1, groupKey := 7, minSigners := 2 }, publicKeyPackage := pairKeys }

def soleBoot : List (Tx suite) := [.initGroup soleParams pairKeys [1, 2], .submitRequest lateId [1] (5 : Int)]

def soleFirst : Signer suite × List (Tx suite) :=
  Signer.react { node := Node.new soleBundle, calls := [] } (reached soleBoot) (7 : Nat)

/-- The commitment for the late request starts its signing, then an early one is made. -/
def soleState : State suite := reached (soleBoot ++ soleFirst.2 ++ [.submitRequest id0 [2] (6 : Int)])

end Ideal

theorem error_not_atomic : ¬ Ideal.soleFirst.1.node.ErrorAtomic Ideal.soleState (8 : Nat) := by
  intro h
  set ctx : Ctx Ideal.suite := { node := Ideal.soleFirst.1.node, calls := [], rng := (8 : Nat) } with hctx
  have herr : (ctx.react Ideal.soleState).1 = .error (.frost "Incorrect number of commitments.") := rfl
  have hqueued : ctx.queued Ideal.soleState = [.submitCommitment Ideal.id0 (1 : Nat) (8 : Nat)] := rfl
  have hremembered := ctx.queued_remembered Ideal.soleState
  have htx : (.submitCommitment Ideal.id0 (1 : Nat) (8 : Nat)) ∈ ctx.queued Ideal.soleState := by
    rw [hqueued]
    exact List.mem_singleton.mpr rfl
  rcases h _ herr _ htx (hremembered.fresh _ htx) with hnot | hstill
  · exact hnot (hremembered.recorded _ htx)
  · exact hremembered.lost htx hstill

end Sapphire
