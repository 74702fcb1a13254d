import Sapphire.SigningTrack

/-!
# Signing under any schedule

A reaction does all there is to do for a member, so where everybody has
nothing left to do every request has its signature or lacks approval; and two
reactions of everybody, with a block after each, get there.
-/

namespace Sapphire

open BTreeMap Replay

variable {C : Ciphersuite}

/-! ## Reactions -/

namespace Ctx

variable {e : RequestEntry C}

theorem reactEntry_draws (ctx : Ctx C) (id : Uuid) {m : BTreeMap C.Identifier C.SigningCommitments}
    (hs : e.status = .awaitingCommitments m) (hm : ctx.node.identifier ∉ m) (hc : id ∉ ctx.node.committedRequests)
    (hpolicy : ctx.node.policy e.message = .ok ()) (hp : id ∉ ctx.node.pending) :
    ∃ drawn, (C.commit (C.signingShare ctx.node.bundle.keyPackage) ctx.rng).1 = drawn ∧
      (ctx.reactEntry id e).1 = .ok (some (.submitCommitment id ctx.node.identifier drawn.2)) ∧
      (ctx.reactEntry id e).2.node = ctx.node.holding id drawn.1 := by
  have hcommit : ctx.commit id = (.ok (C.commit (C.signingShare ctx.node.bundle.keyPackage) ctx.rng).1.2,
      { toSigner := (ctx.log (.commit id (C.commit (C.signingShare ctx.node.bundle.keyPackage) ctx.rng).1.1)).modify
          (·.insertPending id (C.commit (C.signingShare ctx.node.bundle.keyPackage) ctx.rng).1.1),
        rng := (C.commit (C.signingShare ctx.node.bundle.keyPackage) ctx.rng).2 }) := if_neg hp
  refine ⟨_, rfl, ?_⟩
  unfold reactEntry
  simp only [hs, hm, hc, hpolicy, hcommit, if_false]
  exact ⟨trivial, rfl⟩

theorem reactEntry_shares (ctx : Ctx C) (id : Uuid) {pkg : C.SigningPackage} {parts : Finset C.Identifier}
    {shares : BTreeMap C.Identifier C.SignatureShare} {nonces : C.SigningNonces} {share : C.SignatureShare}
    (hs : e.status = .signing pkg parts shares) (hi : ctx.node.identifier ∈ parts)
    (hm : ctx.node.identifier ∉ shares) (hfresh : id ∉ ctx.node.sharedRequests)
    (hn : ctx.node.pending[id]? = some nonces)
    (hsign : C.sign pkg nonces ctx.node.bundle.keyPackage e.randomizer = .ok share) :
    (ctx.reactEntry id e).1 = .ok (some (.submitShare id ctx.node.identifier share)) ∧
      (ctx.reactEntry id e).2.node = ctx.node.signed id := by
  unfold reactEntry
  simp only [hs, hi, hm, hfresh, sign_some hn, hsign, Except.mapError, not_true, if_false]
  exact ⟨trivial, rfl⟩

/-- Nothing left to do for the request: the memory may be brought up to date, and nothing is returned. -/
theorem reactEntry_settled (ctx : Ctx C) (id : Uuid) (e : RequestEntry C)
    (hcommit : ∀ m, e.status = .awaitingCommitments m →
      id ∈ ctx.node.committedRequests ∨ ctx.node.policy e.message ≠ .ok () ∧ ctx.node.identifier ∉ m)
    (hshare : ∀ pkg parts shares, e.status = .signing pkg parts shares → ctx.node.identifier ∈ parts →
      id ∈ ctx.node.sharedRequests) :
    (ctx.reactEntry id e).1 = .ok none ∧ (ctx.reactEntry id e).2.node = ctx.node := by
  unfold reactEntry
  cases hs : e.status with
  | awaitingCommitments m =>
    rcases hcommit m hs with hc | ⟨hp, hm⟩
    · by_cases hm : ctx.node.identifier ∈ m
      · have heq : ctx.node.insertCommitted id = ctx.node := by simp [Node.insertCommitted, hc]
        simp only [hm, if_true]
        exact ⟨trivial, heq⟩
      · simp [hm, hc]
    · by_cases hc : id ∈ ctx.node.committedRequests
      · simp [hm, hc]
      · cases hpol : ctx.node.policy e.message with
        | ok _ => exact absurd hpol hp
        | error reason => simp [hm, hc, hpol]
  | signing pkg parts shares =>
    by_cases hi : ctx.node.identifier ∈ parts
    · have hc := hshare pkg parts shares hs hi
      by_cases hm : ctx.node.identifier ∈ shares
      · have heq : ctx.node.insertShared id = ctx.node := by simp [Node.insertShared, hc]
        simp only [hi, hm, not_true, if_true, if_false]
        exact ⟨trivial, heq⟩
      · simp [hi, hm, hc]
    · simp [hi]
  | completed parts sig => exact ⟨rfl, rfl⟩
  | failed reason => exact ⟨rfl, rfl⟩

end Ctx

/-- Every share of a member among the transactions is accepted where it stands. -/
def SharesTaken (members : Finset C.Identifier) : State C → List (Tx C) → Prop
  | _, [] => True
  | t, tx :: txs => (∀ id v share, tx = .submitShare id v share → v ∈ members → ∃ t', applyTx t tx = .ok t') ∧
      SharesTaken members (feed applyTx t tx) txs

theorem SharesTaken.append {members : Finset C.Identifier} {t : State C} {txs txs' : List (Tx C)}
    (h : SharesTaken members t txs) (h' : SharesTaken members (replay applyTx t txs) txs') :
    SharesTaken members t (txs ++ txs') := by
  induction txs generalizing t with
  | nil => exact h'
  | cons tx txs ih => exact ⟨h.1, ih h.2 h'⟩

/-- What a member's reaction to the entry `o` has seen to at the entry `e`. -/
structure Acted (policy : SignPolicy) (i : C.Identifier) (o e : RequestEntry C) : Prop where
  commits : ∀ m, e.status = .awaitingCommitments m → i ∈ m ∨ policy o.message ≠ .ok ()
  signs : ∀ pkg parts shares, o.status = .signing pkg parts shares → i ∈ parts →
    (∃ shares', e.status = .signing pkg parts shares' ∧ i ∈ shares') ∨ ∃ sig, e.status = .completed parts sig

theorem Acted.leads {policy : SignPolicy} {i : C.Identifier} {o e e' : RequestEntry C} (h : Acted policy i o e)
    (hl : e.status.Leads e'.status) (hok : ∀ reason, e'.status ≠ .failed reason) : Acted policy i o e' where
  commits := fun m hm => by
    rw [hm] at hl
    obtain ⟨m₀, hm₀, hsub⟩ := hl.to_awaiting
    exact (h.commits m₀ hm₀).imp_left (hsub i)
  signs := fun pkg parts shares hs hi => by
    rcases h.signs pkg parts shares hs hi with ⟨shares', hs', hi'⟩ | ⟨sig, hs'⟩
    · rw [hs'] at hl
      obtain ⟨shares'', hs'', hsub⟩ | ⟨sig, hs''⟩ | ⟨reason, hs''⟩ := hl.of_signing
      · exact Or.inl ⟨shares'', hs'', hsub i hi'⟩
      · exact Or.inr ⟨sig, hs''⟩
      · exact absurd hs'' (hok reason)
    · rw [hs'] at hl
      exact Or.inr ⟨sig, hl.of_completed⟩

theorem Acted.earlier {policy : SignPolicy} {i : C.Identifier} {o o' e : RequestEntry C} (h : Acted policy i o' e)
    (hm : o'.message = o.message) (ho : o.status.Leads o'.status) (hl : o'.status.Leads e.status)
    (hok : ∀ reason, e.status ≠ .failed reason) : Acted policy i o e where
  commits := by
    rw [← hm]
    exact h.commits
  signs := fun pkg parts shares hs hi => by
    rw [hs] at ho
    obtain ⟨shares', hs', _⟩ | ⟨sig, hs'⟩ | ⟨reason, hs'⟩ := ho.of_signing
    · exact h.signs pkg parts shares' hs' hi
    · rw [hs'] at hl
      exact Or.inr ⟨sig, hl.of_completed⟩
    · rw [hs'] at hl
      exact absurd hl.of_failed (hok reason)

section
variable {K : GroupKeys C} {policy : C.Identifier → SignPolicy} {s t : State C} {node : C.Identifier → Node C}
  {id : Uuid}

theorem Tracks.not_failed (h : Tracks K policy s t node) {e : RequestEntry C} (he : t.requests[id]? = some e)
    (reason : String) : e.status ≠ .failed reason := by
  intro hs
  have := h.tracked id e he
  rw [hs] at this
  exact this

/-- Once nothing is left for the member to do, the entry shows it. -/
theorem Tracks.acted (h : Tracks K policy s t node) {i : C.Identifier} (hi : i ∈ K.ids) {o : RequestEntry C}
    (ho : s.requests[id]? = some o)
    (hcommit : ∀ m, o.status = .awaitingCommitments m →
      id ∈ (node i).committedRequests ∨ policy i o.message ≠ .ok ())
    (hshare : ∀ pkg parts shares, o.status = .signing pkg parts shares → i ∈ parts → id ∈ (node i).sharedRequests) :
    ∃ e, t.requests[id]? = some e ∧ Acted (policy i) i o e := by
  obtain ⟨e, he, hm, hr, hl⟩ := h.leads id o ho
  have htracked := h.tracked id e he
  refine ⟨e, he, fun m hst => ?_, fun pkg parts shares hs hp => ?_⟩
  · rw [hst] at hl htracked
    obtain ⟨m₀, hm₀, _⟩ := hl.to_awaiting
    exact (hcommit m₀ hm₀).imp_left (htracked i hi).1.mpr
  · have hshared := hshare pkg parts shares hs hp
    rw [hs] at hl
    obtain ⟨shares', hs', _⟩ | hdone | ⟨reason, hs'⟩ := hl.of_signing
    · rw [hs'] at htracked
      obtain ⟨_, _, _, _, hall⟩ := htracked
      exact Or.inl ⟨shares', hs', (hall i hp).2.1.mpr hshared⟩
    · exact Or.inr hdone
    · exact absurd hs' (h.not_failed he reason)

/-- **Step.** One request under a member's loop. -/
theorem Tracks.reactEntry (hpos : 0 < K.threshold) (hsigning : HonestSigning K) (h : Tracks K policy s t node)
    {i : C.Identifier} (hi : i ∈ K.ids) {o : RequestEntry C} (ho : s.requests[id]? = some o) {ctx : Ctx C}
    (hctx : ctx.node = node i) :
    ∃ tx, (ctx.reactEntry id o).1 = .ok tx ∧
      Tracks K policy s (replay applyTx t tx.toList) (Function.update node i (ctx.reactEntry id o).2.node) ∧
      SharesTaken K.ids t tx.toList ∧
      ∃ e, (replay applyTx t tx.toList).requests[id]? = some e ∧ Acted (policy i) i o e := by
  have hof := h.member i hi
  have hid : ctx.node.identifier = i := by rw [hctx]; exact hof.identifier
  have hkey : ctx.node.bundle.keyPackage = K.key i := by rw [hctx]; exact hof.keyPackage
  have hpol : ctx.node.policy = policy i := by rw [hctx]; exact hof.policy
  obtain ⟨e, he, hm, hr, hl⟩ := h.leads id o ho
  by_cases hcommit : ∀ m, o.status = .awaitingCommitments m →
      id ∈ (node i).committedRequests ∨ policy i o.message ≠ .ok ()
  · by_cases hshare : ∀ pkg parts shares, o.status = .signing pkg parts shares → i ∈ parts →
        id ∈ (node i).sharedRequests
    · -- nothing to do
      have hseen := h.seen id o ho
      obtain ⟨hr, hn⟩ := ctx.reactEntry_settled id o (fun m hst => by
        rw [hctx, hof.policy, hof.identifier]
        by_cases hc : id ∈ (node i).committedRequests
        · exact Or.inl hc
        · rw [hst] at hseen
          exact Or.inr ⟨(hcommit m hst).resolve_left hc, fun hmem => hc (hseen i hi hmem)⟩)
        (fun pkg parts shares hst hp => by
          rw [hctx]
          exact hshare pkg parts shares hst (by rwa [hid] at hp))
      refine ⟨none, hr, ?_, trivial, h.acted hi ho hcommit hshare⟩
      rw [hn, hctx, Function.update_eq_self]
      exact h
    · push Not at hshare
      obtain ⟨pkg, parts, shares, hst, hp, hnew⟩ := hshare
      rw [hst] at hl
      have htracked := h.tracked id e he
      -- selected, and it has not signed: the request is still in this phase
      obtain ⟨shares', hs', hsub⟩ | ⟨sig, hs'⟩ | ⟨reason, hs'⟩ := hl.of_signing
      · have hni : i ∉ shares' := by
          rw [hs'] at htracked
          obtain ⟨_, _, _, _, hall⟩ := htracked
          exact fun hmem => hnew ((hall i hp).2.1.mp hmem)
        obtain ⟨nonces, share, t', hpend, hsign, ha, htracks⟩ := h.signs hsigning he hs' hp hni
        obtain ⟨hr', hn'⟩ := ctx.reactEntry_shares id hst (by rwa [hid])
          (by rw [hid]; exact fun hmem => hni (hsub i hmem)) (by rwa [hctx]) (by rw [hctx]; exact hpend)
          (by rw [hkey, ← hr]; exact hsign)
        rw [hid] at hr'
        have hfeed : replay applyTx t [.submitShare id i share] = t' := feed_ok ha
        refine ⟨_, hr', ?_, ⟨fun _ _ _ _ _ => ⟨t', ha⟩, trivial⟩, ?_⟩
        · rw [hn', hctx]
          change Tracks K policy s (replay applyTx t [.submitShare id i share]) _
          rw [hfeed]
          exact htracks
        · change ∃ e, (replay applyTx t [.submitShare id i share]).requests[id]? = some e ∧ _
          rw [hfeed]
          refine htracks.acted hi ho (fun m hm' => ?_) fun _ _ _ _ _ => ?_
          · rw [hst] at hm'; cases hm'
          · simp [Node.signed, Node.insertShared]
      · rw [hs'] at htracked
        exact absurd (htracked.2.2.1 i hp).2 hnew
      · exact absurd hs' (h.not_failed he reason)
  · push Not at hcommit
    obtain ⟨m, hst, hnew, hpolicy⟩ := hcommit
    have hseen := h.seen id o ho
    rw [hst] at hseen
    obtain ⟨drawn, hdrawn, hr', hn'⟩ := ctx.reactEntry_draws id hst
      (by rw [hid]; exact fun hmem => hnew (hseen i hi hmem)) (by rwa [hctx]) (by rw [hpol]; exact hpolicy)
      (by rw [hctx]; exact fun hmem => hnew (hof.cached id hmem))
    rw [hid] at hr'
    rw [hkey] at hdrawn
    have htracks := h.commits hpos hi he hnew (by rw [hm]; exact hpolicy) hdrawn
    refine ⟨_, hr', ?_, ⟨fun _ _ _ heq => ?_, trivial⟩, ?_⟩
    · rw [hn', hctx]
      exact htracks
    · cases heq
    · refine htracks.acted hi ho (fun _ _ => ?_) fun pkg parts shares hs' => ?_
      · simp [Node.holding, Node.insertPending, Node.insertCommitted]
      · rw [hst] at hs'; cases hs'

/-- The loop, over requests of the committed state. -/
theorem Tracks.reactEntries (hpos : 0 < K.threshold) (hsigning : HonestSigning K) {i : C.Identifier} (hi : i ∈ K.ids) :
    ∀ (l : List (Uuid × RequestEntry C)) (out : List (Tx C)) {t : State C} {node : C.Identifier → Node C} {ctx : Ctx C},
      Tracks K policy s t node → ctx.node = node i → (∀ id o, (id, o) ∈ l → s.requests[id]? = some o) →
      ∃ more, (ctx.reactEntries out l).1 = .ok (out ++ more) ∧
        Tracks K policy s (replay applyTx t more) (Function.update node i (ctx.reactEntries out l).2.node) ∧
        SharesTaken K.ids t more ∧
        ∀ id o, (id, o) ∈ l → ∃ e, (replay applyTx t more).requests[id]? = some e ∧ Acted (policy i) i o e
  | [], out, t, node, ctx, h, hctx, _ => by
    refine ⟨[], by simp [Ctx.reactEntries], ?_, trivial, by simp⟩
    unfold Ctx.reactEntries
    rw [hctx, Function.update_eq_self]
    exact h
  | (id, o) :: l, out, t, node, ctx, h, hctx, hl => by
    obtain ⟨tx, hr, htracks, htaken, e, he, hacted⟩ := h.reactEntry hpos hsigning hi (hl id o (by simp)) hctx
    let ctx' := (ctx.reactEntry id o).2
    have hstep : ctx.reactEntries out ((id, o) :: l) = ctx'.reactEntries (out ++ tx.toList) l := by
      rw [Ctx.reactEntries, show ctx.reactEntry id o = (.ok tx, ctx') from Prod.ext hr rfl]
      cases tx with
      | none => simp
      | some tx => rfl
    obtain ⟨more, hrest, htracks', htaken', hacted'⟩ := Tracks.reactEntries hpos hsigning hi l (out ++ tx.toList)
      htracks (show ctx'.node = Function.update node i ctx'.node i by rw [Function.update_self])
      fun id' o' hm => hl id' o' (List.mem_cons_of_mem _ hm)
    rw [Function.update_idem] at htracks'
    rw [← replay_append] at htracks' hacted'
    refine ⟨tx.toList ++ more, ?_, by rw [hstep]; exact htracks', htaken.append htaken', fun id' o' hm => ?_⟩
    · rw [hstep, hrest, List.append_assoc]
    rcases List.mem_cons.mp hm with heq | hm
    · cases heq
      obtain ⟨e', he', _, _, hlead⟩ := replay_leads (replay applyTx t tx.toList) more _ e he
      rw [← replay_append] at he'
      exact ⟨e', he', hacted.leads hlead (htracks'.not_failed he')⟩
    · exact hacted' id' o' hm

/-- **Reaction.** It returns no error; what it returns is accounted for, and its part in every request is done. -/
theorem Tracks.react (hpos : 0 < K.threshold) (hsigning : HonestSigning K) (h : Tracks K policy s t node)
    {i : C.Identifier} (hi : i ∈ K.ids) (rng : C.Rng) :
    ∃ out ctx, Ctx.react { node := node i, calls := [], rng } s = (.ok out, ctx) ∧
      Tracks K policy s (replay applyTx t out) (Function.update node i ctx.node) ∧ SharesTaken K.ids t out ∧
      ∀ (id : Uuid) o, s.requests[id]? = some o →
        ∃ e, (replay applyTx t out).requests[id]? = some e ∧ Acted (policy i) i o e := by
  let ctx : Ctx C := { node := node i, calls := [], rng }
  have hmem : ctx.node.identifier ∈ K.group.validators := by
    rw [show ctx.node.identifier = i from (h.member i hi).identifier]
    exact hi
  have hreact : ctx.react s = ctx.reactEntries [] s.requests.toList := by
    unfold Ctx.react
    simp only [h.committed, hmem, not_true, if_false]
  obtain ⟨out, hout, htracks, htaken, hacted⟩ := Tracks.reactEntries hpos hsigning hi s.requests.toList [] h
    (show ctx.node = node i from rfl) fun id o hm => Std.ExtTreeMap.mem_toList_iff_getElem?_eq_some.mp hm
  rw [List.nil_append] at hout
  refine ⟨out, (ctx.reactEntries [] s.requests.toList).2, ?_, htracks, htaken, fun id o ho => ?_⟩
  · exact hreact.trans (Prod.ext hout rfl)
  · exact hacted id o (Std.ExtTreeMap.mem_toList_iff_getElem?_eq_some.mpr ho)

/-- When the mempool is committed, everybody may see what it made of the state. -/
theorem Tracks.rebase (h : Tracks K policy s t node) : Tracks K policy t t node where
  base := h.valid
  valid := h.valid
  group := h.group
  committed := h.group
  leads := .refl t
  member := h.member
  known := h.known
  signedAfter := h.signedAfter
  tracked := h.tracked
  seen := fun id o ho => by
    have htracked := h.tracked id o ho
    have hv := (h.valid.request_valid h.group ho).status
    cases hs : o.status with
    | awaitingCommitments m =>
      rw [hs] at htracked
      exact fun i hi hm => (htracked i hi).1.mp hm
    | signing pkg parts shares =>
      rw [hs] at htracked hv
      obtain ⟨_, _, _, _, hall⟩ := htracked
      exact fun i _ hm => (hall i (hv.2.1 (mem_dom.mpr hm))).2.1.mp hm
    | completed parts sig => trivial
    | failed reason => trivial

end

/-! ## Runs -/

structure SigningSim.Live (K : GroupKeys C) (policy : C.Identifier → SignPolicy) (sim : SigningSim C) : Prop where
  tracks : Tracks K policy sim.chain.state (replay applyTx sim.chain.state sim.chain.mempool) sim.node
  taken : SharesTaken K.ids sim.chain.state sim.chain.mempool

namespace SigningSim

variable {K : GroupKeys C} {policy : C.Identifier → SignPolicy} {sim : SigningSim C}

theorem Live.submit (h : sim.Live K policy) {tx : Tx C} (hf : tx.validator?.all (· ∉ K.ids) = true) :
    ({ sim with chain := sim.chain.submit tx } : SigningSim C).Live K policy := by
  refine ⟨?_, h.taken.append ⟨fun id v share heq hv => ?_, trivial⟩⟩
  · change Tracks K policy sim.chain.state (replay applyTx sim.chain.state (sim.chain.mempool ++ [tx])) sim.node
    rw [replay_append]
    exact h.tracks.foreign hf
  · subst heq
    exact absurd hv (by simpa [Tx.validator?] using hf)

theorem Live.react (hpos : 0 < K.threshold) (hsigning : HonestSigning K) (h : sim.Live K policy) {i : C.Identifier}
    (hi : i ∈ K.ids) (rng : C.Rng) :
    ∃ out, (sim.reaction i rng).1 = .ok out ∧ (sim.exec K.ids (.react i rng)).chain = sim.chain.submitAll out ∧
      (sim.exec K.ids (.react i rng)).Live K policy ∧
      ∀ (id : Uuid) o, sim.chain.state.requests[id]? = some o →
        ∃ e, (replay applyTx sim.chain.state (sim.chain.mempool ++ out)).requests[id]? = some e ∧
          Acted (policy i) i o e := by
  obtain ⟨out, ctx, hreact, htracks, htaken, hacted⟩ := h.tracks.react hpos hsigning hi rng
  have hr : sim.reaction i rng = (.ok out, ctx) := hreact
  have hexec : sim.exec K.ids (.react i rng) =
      { chain := sim.chain.submitAll out, node := Function.update sim.node i ctx.node } := by
    simp only [exec, hi, if_true, hr, returned]
  rw [← replay_append] at htracks hacted
  refine ⟨out, by rw [hr], by rw [hexec], ?_, hacted⟩
  rw [hexec]
  exact ⟨htracks, h.taken.append htaken⟩

theorem Live.commit (h : sim.Live K policy) : (sim.exec K.ids .commit).Live K policy := by
  unfold exec
  cases hc : sim.chain.commitBlock with
  | error msg => exact h
  | ok r =>
    obtain ⟨results, chain⟩ := r
    obtain ⟨hs, hm⟩ := ChainSim.commitBlock_state hc
    refine ⟨?_, ?_⟩
    · change Tracks K policy chain.state (replay applyTx chain.state chain.mempool) sim.node
      rw [hm, hs]
      exact h.tracks.rebase
    · change SharesTaken K.ids chain.state chain.mempool
      rw [hm]
      trivial

theorem Live.exec (hpos : 0 < K.threshold) (hsigning : HonestSigning K) (h : sim.Live K policy) (e : SigningEvent C) :
    (sim.exec K.ids e).Live K policy := by
  cases e with
  | submit tx =>
    by_cases hf : tx.validator?.all (· ∉ K.ids) = true
    · rw [SigningSim.exec, if_pos hf]
      exact h.submit hf
    · rw [SigningSim.exec, if_neg hf]
      exact h
  | react i rng =>
    by_cases hi : i ∈ K.ids
    · obtain ⟨_, _, _, hlive, _⟩ := h.react hpos hsigning hi rng
      exact hlive
    · rw [SigningSim.exec, if_neg hi]
      exact h
  | commit => exact h.commit

theorem Live.execAll (hpos : 0 < K.threshold) (hsigning : HonestSigning K) (h : sim.Live K policy)
    (events : List (SigningEvent C)) : (sim.execAll K.ids events).Live K policy := by
  induction events generalizing sim with
  | nil => exact h
  | cons e events ih => exact ih (h.exec hpos hsigning e)

end SigningSim

/-! ## Blocks of a live run -/

/-- With a group there is no ceremony, and without one nothing panics. -/
theorem commitLoop_taken {members : Finset C.Identifier} {g : GroupConfig C} {t : State C} {txs : List (Tx C)}
    (hval : t.Valid) (hg : t.group = some g) (h : SharesTaken members t txs) (acc : List (Tx C))
    (res : List (TxResult C)) :
    ∃ acc' more, ChainSim.commitLoop t acc res txs = .ok (replay applyTx t txs, acc', res ++ more) ∧
      ∀ r ∈ more, ∀ id v share, r.1 = .submitShare id v share → v ∈ members → r.2 = .ok () := by
  induction txs generalizing t acc res with
  | nil => exact ⟨acc, [], by simp [ChainSim.commitLoop], by simp⟩
  | cons tx txs ih =>
    obtain ⟨hshare, hrest⟩ := h
    rw [ChainSim.commitLoop, replay_cons]
    cases ha : applyTx t tx with
    | ok t' =>
      rw [feed_ok ha] at hrest ⊢
      obtain ⟨acc', more, hloop, hall⟩ := ih (applyTx_valid hval ha) ((hval.advances ha).group g hg) hrest (acc ++ [tx])
        (res ++ [(tx, .ok ())])
      refine ⟨acc', (tx, .ok ()) :: more, by simp [hloop], fun r hr id v share heq hv => ?_⟩
      rcases List.mem_cons.mp hr with rfl | hr
      · rfl
      · exact hall r hr id v share heq hv
    | error f =>
      rw [feed_error ha] at hrest ⊢
      cases f with
      | err e =>
        obtain ⟨acc', more, hloop, hall⟩ := ih hval hg hrest acc (res ++ [(tx, .error e)])
        refine ⟨acc', (tx, .error e) :: more, by simp [hloop], fun r hr id v share heq hv => ?_⟩
        rcases List.mem_cons.mp hr with rfl | hr
        · obtain ⟨t', ht'⟩ := hshare id v share heq hv
          rw [ha] at ht'; cases ht'
        · exact hall r hr id v share heq hv
      | panic msg =>
        obtain ⟨_, _, c, _, hc, _⟩ := applyTx_panic ha
        rw [hval.exclusive hc] at hg; cases hg

namespace SigningSim

variable {K : GroupKeys C} {policy : C.Identifier → SignPolicy} {sim : SigningSim C}

theorem Live.commitBlock (h : sim.Live K policy) : ∃ results chain, sim.chain.commitBlock = .ok (results, chain) ∧
    ∀ r ∈ results, ∀ id v share, r.1 = .submitShare id v share → v ∈ K.ids → r.2 = .ok () := by
  obtain ⟨acc, results, hloop, hall⟩ := commitLoop_taken h.tracks.base h.tracks.committed h.taken [] []
  let chain : ChainSim C :=
    { state := replay applyTx sim.chain.state sim.chain.mempool, mempool := [],
      blockHeight := sim.chain.blockHeight + 1, lastBlock := acc }
  refine ⟨results, chain, ?_, hall⟩
  unfold ChainSim.commitBlock
  rw [hloop]
  rfl

/-- The state when the mempool has been committed. -/
def ahead (sim : SigningSim C) : State C := replay applyTx sim.chain.state sim.chain.mempool

theorem Live.exec_commit (h : sim.Live K policy) :
    (sim.exec K.ids .commit).chain.state = sim.ahead ∧ (sim.exec K.ids .commit).chain.mempool = [] := by
  obtain ⟨results, chain, hc, _⟩ := h.commitBlock
  unfold SigningSim.exec
  rw [hc]
  exact ChainSim.commitBlock_state hc

/-- Neither the committed state nor what the mempool will make of it goes back. -/
theorem Live.exec_leads (hpos : 0 < K.threshold) (hsigning : HonestSigning K) (h : sim.Live K policy)
    (e : SigningEvent C) :
    sim.chain.state.Leads (sim.exec K.ids e).chain.state ∧ sim.ahead.Leads (sim.exec K.ids e).ahead := by
  cases e with
  | submit tx =>
    by_cases hf : tx.validator?.all (· ∉ K.ids) = true
    · rw [SigningSim.exec, if_pos hf]
      refine ⟨.refl _, ?_⟩
      change State.Leads _ (replay applyTx sim.chain.state (sim.chain.mempool ++ [tx]))
      rw [replay_append]
      exact replay_leads _ _
    · rw [SigningSim.exec, if_neg hf]
      exact ⟨.refl _, .refl _⟩
  | react i rng =>
    by_cases hi : i ∈ K.ids
    · obtain ⟨out, _, hchain, _, _⟩ := h.react hpos hsigning hi rng
      unfold ahead
      rw [hchain]
      refine ⟨.refl _, ?_⟩
      change State.Leads _ (replay applyTx sim.chain.state (sim.chain.mempool ++ out))
      rw [replay_append]
      exact replay_leads _ _
    · rw [SigningSim.exec, if_neg hi]
      exact ⟨.refl _, .refl _⟩
  | commit =>
    obtain ⟨hs, hm⟩ := h.exec_commit
    unfold ahead at *
    rw [hs, hm]
    exact ⟨replay_leads _ _, .refl _⟩

theorem Live.execAll_leads (hpos : 0 < K.threshold) (hsigning : HonestSigning K) (h : sim.Live K policy)
    (events : List (SigningEvent C)) :
    sim.chain.state.Leads (sim.execAll K.ids events).chain.state ∧
      sim.ahead.Leads (sim.execAll K.ids events).ahead := by
  induction events generalizing sim with
  | nil => exact ⟨.refl _, .refl _⟩
  | cons e events ih =>
    obtain ⟨hs, ht⟩ := h.exec_leads hpos hsigning e
    obtain ⟨hs', ht'⟩ := ih (h.exec hpos hsigning e)
    exact ⟨hs.trans hs', ht.trans ht'⟩

/-- Whoever reacts in the course of some events has done its part for every request there was before them. -/
theorem Live.acted (hpos : 0 < K.threshold) (hsigning : HonestSigning K) (h : sim.Live K policy)
    {events : List (SigningEvent C)} {i : C.Identifier} (hi : i ∈ K.ids) {rng : C.Rng} (hmem : .react i rng ∈ events)
    {id : Uuid} {o : RequestEntry C} (ho : sim.chain.state.requests[id]? = some o) :
    ∃ e, (sim.execAll K.ids events).ahead.requests[id]? = some e ∧ Acted (policy i) i o e := by
  obtain ⟨pre, post, rfl⟩ := List.append_of_mem hmem
  let sim₁ := sim.execAll K.ids pre
  have hlive₁ : sim₁.Live K policy := h.execAll hpos hsigning pre
  obtain ⟨o₁, ho₁, hm₁, _, hl₁⟩ := (h.execAll_leads hpos hsigning pre).1 id o ho
  obtain ⟨out, _, hchain, hlive₂, hacted⟩ := hlive₁.react hpos hsigning hi rng
  obtain ⟨e₁, he₁, hacted₁⟩ := hacted id o₁ ho₁
  have hsim : sim.execAll K.ids (pre ++ .react i rng :: post) = sim₁.execAll K.ids (.react i rng :: post) :=
    List.foldl_append
  have he₁' : (sim₁.exec K.ids (.react i rng)).ahead.requests[id]? = some e₁ := by
    unfold ahead
    rw [hchain]
    exact he₁
  obtain ⟨e, he, _, _, hl⟩ := (hlive₂.execAll_leads hpos hsigning post).2 id e₁ he₁'
  have hok := (hlive₂.execAll hpos hsigning post).tracks.not_failed he
  obtain ⟨e', he', _, _, hl'⟩ :=
    (hlive₁.tracks.leads.trans (hlive₁.execAll_leads hpos hsigning (.react i rng :: post)).2) id o₁ ho₁
  obtain rfl : e' = e := Option.some.inj (he'.symm.trans he)
  rw [hsim]
  exact ⟨e', he', (hacted₁.leads hl hok).earlier hm₁ hl₁ hl' hok⟩

end SigningSim

/-! ## Never stalling -/

/-- The members whose policy lets the message pass. -/
def GroupKeys.approvers (K : GroupKeys C) (policy : C.Identifier → SignPolicy) (message : Bytes) :
    Finset C.Identifier :=
  K.ids.filter fun i => (policy i message).isOk

theorem GroupKeys.mem_approvers {K : GroupKeys C} {policy : C.Identifier → SignPolicy} {message : Bytes}
    {i : C.Identifier} : i ∈ K.approvers policy message ↔ i ∈ K.ids ∧ policy i message = .ok () := by
  unfold approvers
  rw [Finset.mem_filter]
  cases h : policy i message <;> simp [Except.isOk, Except.toBool]

/-- The signature is there if a threshold approves, and otherwise the commitments of those who do. -/
structure RequestEntry.Settled (K : GroupKeys C) (policy : C.Identifier → SignPolicy) (e : RequestEntry C) : Prop where
  enough : K.threshold ≤ (K.approvers policy e.message).card → ∃ parts sig, e.status = .completed parts sig ∧
    parts ⊆ K.approvers policy e.message ∧ parts.card = K.threshold ∧
    C.verify (C.verifyingKey K.pkp + e.randomizer • C.generator) e.message sig = true
  short : (K.approvers policy e.message).card < K.threshold →
    ∃ m, e.status = .awaitingCommitments m ∧ dom m = K.approvers policy e.message

section
variable {K : GroupKeys C} {policy : C.Identifier → SignPolicy} {s t : State C} {node : C.Identifier → Node C}
  {id : Uuid}

theorem Tracks.approved (h : Tracks K policy s t node) {e : RequestEntry C} (he : t.requests[id]? = some e)
    {i : C.Identifier} (hi : i ∈ K.ids) (hc : id ∈ (node i).committedRequests) : i ∈ K.approvers policy e.message := by
  obtain ⟨e', he', hp⟩ := h.known i hi id hc
  rw [he] at he'; cases he'
  exact GroupKeys.mem_approvers.mpr ⟨hi, hp⟩

/-- Those selected have all approved. -/
theorem Tracks.selected (h : Tracks K policy s t node) {e : RequestEntry C} (he : t.requests[id]? = some e)
    {pkg : C.SigningPackage} {parts : Finset C.Identifier} {shares : BTreeMap C.Identifier C.SignatureShare}
    (hs : e.status = .signing pkg parts shares) : parts ⊆ K.approvers policy e.message ∧ parts.card = K.threshold := by
  have htracked := h.tracked id e he
  rw [hs] at htracked
  obtain ⟨_, hdraws, hcard, _, hall⟩ := htracked
  exact ⟨fun i hi => h.approved he (hdraws.1 hi) (hall i hi).1, hcard⟩

/-- An open request that every approving member has committed to lacks approval. -/
theorem Tracks.awaits (hpos : 0 < K.threshold) (h : Tracks K policy s t node) {e : RequestEntry C}
    (he : t.requests[id]? = some e) {m : BTreeMap C.Identifier C.SigningCommitments}
    (hs : e.status = .awaitingCommitments m) (hall : ∀ i ∈ K.ids, i ∈ m ∨ policy i e.message ≠ .ok ()) :
    dom m = K.approvers policy e.message ∧ (K.approvers policy e.message).card < K.threshold := by
  have htracked := h.tracked id e he
  have hv := (h.valid.request_valid h.group he).status
  rw [hs] at htracked hv
  obtain ⟨hsub, hsize⟩ := hv
  have hdom : dom m = K.approvers policy e.message := by
    ext i
    rw [mem_dom]
    constructor
    · intro hi
      have hik : i ∈ K.ids := hsub (mem_dom.mpr hi)
      exact h.approved he hik ((htracked i hik).1.mp hi)
    · intro hi
      obtain ⟨hik, hp⟩ := GroupKeys.mem_approvers.mp hi
      exact (hall i hik).resolve_right fun hne => hne hp
  refine ⟨hdom, ?_⟩
  have hthr : K.group.params.threshold.toNat = K.threshold := rfl
  rw [← hdom, card_dom]
  omega

/-- Not every selected member has signed while the request is in the signing phase. -/
theorem Tracks.unsigned (hpos : 0 < K.threshold) (h : Tracks K policy s t node) {e : RequestEntry C}
    (he : t.requests[id]? = some e) {pkg : C.SigningPackage} {parts : Finset C.Identifier}
    {shares : BTreeMap C.Identifier C.SignatureShare} (hs : e.status = .signing pkg parts shares) :
    ∃ i ∈ parts, i ∈ K.ids ∧ i ∉ shares := by
  obtain ⟨hsub, hcard⟩ := h.selected he hs
  have hv := (h.valid.request_valid h.group he).status
  rw [hs] at hv
  obtain ⟨_, hdom, hlt⟩ := hv
  obtain ⟨i, hi, hni⟩ := exists_missing (hlt (by omega))
  exact ⟨i, hi, (GroupKeys.mem_approvers.mp (hsub hi)).1, hni⟩

theorem Tracks.settled (hpos : 0 < K.threshold) (h : Tracks K policy s t node) {e : RequestEntry C}
    (he : t.requests[id]? = some e)
    (hcommits : ∀ m, e.status = .awaitingCommitments m → ∀ i ∈ K.ids, i ∈ m ∨ policy i e.message ≠ .ok ())
    (hsigns : ∀ pkg parts shares, e.status ≠ .signing pkg parts shares) : e.Settled K policy := by
  cases hs : e.status with
  | awaitingCommitments m =>
    obtain ⟨hdom, hlt⟩ := h.awaits hpos he hs (hcommits m hs)
    exact ⟨fun hle => by omega, fun _ => ⟨m, hs, hdom⟩⟩
  | signing pkg parts shares => exact absurd hs (hsigns pkg parts shares)
  | completed parts sig =>
    have htracked := h.tracked id e he
    rw [hs] at htracked
    obtain ⟨hsub, hcard, hall, hverify⟩ := htracked
    have hparts : parts ⊆ K.approvers policy e.message := fun i hi => h.approved he (hsub hi) (hall i hi).1
    refine ⟨fun _ => ⟨parts, sig, hs, hparts, hcard, hverify⟩, fun hlt => ?_⟩
    have := Finset.card_le_card hparts
    omega
  | failed reason => exact absurd hs (h.not_failed he reason)

end

namespace SigningSim

variable {K : GroupKeys C} {policy : C.Identifier → SignPolicy} {sim : SigningSim C}

structure NeverStalls (K : GroupKeys C) (policy : C.Identifier → SignPolicy) (sim : SigningSim C) : Prop where
  reacts : ∀ i ∈ K.ids, ∀ rng, ∃ out, (sim.reaction i rng).1 = .ok out
  accepts : ∃ results chain, sim.chain.commitBlock = .ok (results, chain) ∧
    ∀ r ∈ results, ∀ id v share, r.1 = .submitShare id v share → v ∈ K.ids → r.2 = .ok ()
  sound : ∀ (id : Uuid) e, sim.chain.state.requests[id]? = some e → (∀ reason, e.status ≠ .failed reason) ∧
    ∀ parts sig, e.status = .completed parts sig →
      C.verify (C.verifyingKey K.pkp + e.randomizer • C.generator) e.message sig = true
  quiet : sim.chain.mempool = [] → (∀ i ∈ K.ids, ∃ rng, (sim.reaction i rng).1 = .ok []) →
    ∀ (id : Uuid) e, sim.chain.state.requests[id]? = some e → e.Settled K policy

theorem Live.neverStalls (hpos : 0 < K.threshold) (hsigning : HonestSigning K) (h : sim.Live K policy) :
    sim.NeverStalls K policy where
  reacts := fun i hi rng => by
    obtain ⟨out, hout, _⟩ := h.react hpos hsigning hi rng
    exact ⟨out, hout⟩
  accepts := h.commitBlock
  sound := fun id e he => by
    -- what is settled in the committed state is so in the state ahead
    obtain ⟨e', he', hm, hr, hl⟩ := h.tracks.leads id e he
    refine ⟨fun reason hs => ?_, fun parts sig hs => ?_⟩
    · rw [hs] at hl
      exact h.tracks.not_failed he' reason hl.of_failed
    · rw [hs] at hl
      have htracked := h.tracks.tracked id e' he'
      rw [hl.of_completed, hm, hr] at htracked
      exact htracked.2.2.2
  quiet := fun hempty hquiet id e he => by
    have hahead : replay applyTx sim.chain.state sim.chain.mempool = sim.chain.state := by
      rw [hempty]
      rfl
    have htracks := h.tracks
    rw [hahead] at htracks
    have hacted : ∀ i ∈ K.ids, Acted (policy i) i e e := by
      intro i hi
      obtain ⟨rng, hrng⟩ := hquiet i hi
      obtain ⟨out, hout, _, _, hall⟩ := h.react hpos hsigning hi rng
      obtain rfl : [] = out := Except.ok.inj (hrng.symm.trans hout)
      obtain ⟨e', he', hacted⟩ := hall id e he
      rw [List.append_nil, hahead, he] at he'
      cases he'
      exact hacted
    refine htracks.settled hpos he (fun m hm i hi => (hacted i hi).commits m hm) fun pkg parts shares hs => ?_
    obtain ⟨i, hp, hi, hni⟩ := htracks.unsigned hpos he hs
    rcases (hacted i hi).signs pkg parts shares hs hp with ⟨shares', hs', hmem⟩ | ⟨sig, hs'⟩
    · rw [hs] at hs'; cases hs'
      exact hni hmem
    · rw [hs] at hs'; cases hs'

/-- Fresh nodes on a chain that has their group, no request, and nothing pending. -/
theorem live_of_fresh (hkey : ∀ i ∈ K.ids, C.identifier (K.key i) = i) (hval : sim.chain.state.Valid)
    (hgroup : sim.chain.state.group = some K.group) (hnone : ∀ id : Uuid, sim.chain.state.requests[id]? = none)
    (hempty : sim.chain.mempool = [])
    (hnode : ∀ i ∈ K.ids, sim.node i = .new { keyPackage := K.key i, publicKeyPackage := K.pkp })
    (policy : C.Identifier → SignPolicy) : (sim.withPolicies policy).Live K policy := by
  refine ⟨?_, ?_⟩
  · change Tracks K policy sim.chain.state (replay applyTx sim.chain.state sim.chain.mempool)
      fun i => (sim.node i).withPolicy (policy i)
    rw [hempty]
    exact {
      base := hval
      valid := hval
      group := hgroup
      committed := hgroup
      leads := .refl _
      member := fun i hi => by
        rw [hnode i hi]
        exact ⟨hkey i hi, rfl, rfl, fun id hid => by simp [Node.new, Node.withPolicy] at hid⟩
      known := fun i hi id hid => by
        rw [hnode i hi] at hid
        simp [Node.new, Node.withPolicy] at hid
      signedAfter := fun i hi id hid => by
        rw [hnode i hi] at hid
        simp [Node.new, Node.withPolicy] at hid
      tracked := fun id e he => by rw [replay_nil, hnone id] at he; cases he
      seen := fun id o ho => by rw [hnone id] at ho; cases ho }
  · change SharesTaken K.ids sim.chain.state sim.chain.mempool
    rw [hempty]
    trivial

theorem start_live (hK : K.Honest) {validators : List C.Identifier} (hvalidators : validators.toFinset = K.ids)
    (policy : C.Identifier → SignPolicy) : ((start K validators).withPolicies policy).Live K policy := by
  have hrest := start_rested hK hvalidators
  have hval : (start K validators).chain.state.Valid := by
    unfold start
    cases hc : (ChainSim.new.submit (.initGroup K.params K.pkp validators)).commitBlock with
    | error msg => exact .default
    | ok r =>
      obtain ⟨results, chain⟩ := r
      change chain.state.Valid
      rw [(ChainSim.commitBlock_state hc).1]
      exact reached_valid _
  have hnone : ∀ id : Uuid, (start K validators).chain.state.requests[id]? = none := by
    intro id
    cases he : (start K validators).chain.state.requests[id]? with
    | none => rfl
    | some e => cases (hrest.requests id e he).1
  exact live_of_fresh hK.identifier hval hrest.group hnone hrest.mempool (fun _ _ => rfl) policy

end SigningSim

theorem GroupKeys.Honest.pos {K : GroupKeys C} (hK : K.Honest) : 0 < K.threshold := by
  have := hK.threshold
  omega

/-- **Honest signing never stalls**, whatever is asked for, whatever the policies
let pass, and in whatever order members react and blocks are committed. -/
theorem honest_signing_never_stalls {K : GroupKeys C} (hK : K.Honest) (hsigning : HonestSigning K)
    {validators : List C.Identifier} (hvalidators : validators.toFinset = K.ids) (policy : C.Identifier → SignPolicy)
    (events : List (SigningEvent C)) :
    (((SigningSim.start K validators).withPolicies policy).execAll K.ids events).NeverStalls K policy :=
  ((SigningSim.start_live hK hvalidators policy).execAll hK.pos hsigning events).neverStalls hK.pos hsigning

/-- **Two rounds.** Once all members have reacted and a block is committed, and that
again, every request of before is settled, whatever else happened in between. -/
theorem settled_after_two_rounds {K : GroupKeys C} (hK : K.Honest) (hsigning : HonestSigning K)
    {validators : List C.Identifier} (hvalidators : validators.toFinset = K.ids) (policy : C.Identifier → SignPolicy)
    (before first second : List (SigningEvent C)) (hfirst : ∀ i ∈ K.ids, ∃ rng, .react i rng ∈ first)
    (hsecond : ∀ i ∈ K.ids, ∃ rng, .react i rng ∈ second) (id : Uuid) (o : RequestEntry C)
    (ho : (((SigningSim.start K validators).withPolicies policy).execAll K.ids before).chain.state.requests[id]? =
      some o) :
    ∃ e, (((SigningSim.start K validators).withPolicies policy).execAll K.ids
        (before ++ first ++ [.commit] ++ second ++ [.commit])).chain.state.requests[id]? = some e ∧
      e.message = o.message ∧ e.randomizer = o.randomizer ∧ e.Settled K policy := by
  have hpos := hK.pos
  let sim₀ := ((SigningSim.start K validators).withPolicies policy).execAll K.ids before
  let sim₁ := sim₀.execAll K.ids (first ++ [.commit])
  let sim₂ := sim₁.execAll K.ids (second ++ [.commit])
  have hlive₀ : sim₀.Live K policy := (SigningSim.start_live hK hvalidators policy).execAll hpos hsigning before
  have hlive₁ : sim₁.Live K policy := hlive₀.execAll hpos hsigning _
  have hlive₂ : sim₂.Live K policy := hlive₁.execAll hpos hsigning _
  have hsim : ((SigningSim.start K validators).withPolicies policy).execAll K.ids
      (before ++ first ++ [.commit] ++ second ++ [.commit]) = sim₂ := by
    simp only [sim₀, sim₁, sim₂, SigningSim.execAll, List.foldl_append]
  -- a run that ends in a commit has nothing ahead of its state
  have hend : ∀ {sim : SigningSim C} (l : List (SigningEvent C)), sim.Live K policy →
      (sim.execAll K.ids (l ++ [.commit])).ahead = (sim.execAll K.ids (l ++ [.commit])).chain.state := by
    intro sim l hlive
    have hcommit : sim.execAll K.ids (l ++ [.commit]) = (sim.execAll K.ids l).exec K.ids .commit := List.foldl_append
    obtain ⟨_, hmem⟩ := (hlive.execAll hpos hsigning l).exec_commit
    unfold SigningSim.ahead
    rw [hcommit, hmem]
    rfl
  have hend₁ : sim₁.ahead = sim₁.chain.state := hend first hlive₀
  have hend₂ : sim₂.ahead = sim₂.chain.state := hend second hlive₁
  obtain ⟨e₁, he₁, hm₁, hr₁, _⟩ := (hlive₀.execAll_leads hpos hsigning (first ++ [.commit])).1 id o ho
  obtain ⟨e₂, he₂, hm₂, hr₂, hl₂⟩ := (hlive₁.execAll_leads hpos hsigning (second ++ [.commit])).1 id e₁ he₁
  have htracks₁ := hlive₁.tracks
  have htracks₂ := hlive₂.tracks
  rw [show replay applyTx sim₁.chain.state sim₁.chain.mempool = sim₁.chain.state from hend₁] at htracks₁
  rw [show replay applyTx sim₂.chain.state sim₂.chain.mempool = sim₂.chain.state from hend₂] at htracks₂
  have hacted₁ : ∀ i ∈ K.ids, Acted (policy i) i o e₁ := by
    intro i hi
    obtain ⟨rng, hmem⟩ := hfirst i hi
    obtain ⟨e, he, hacted⟩ := hlive₀.acted hpos hsigning hi (List.mem_append_left [.commit] hmem) ho
    rw [show (sim₀.execAll K.ids (first ++ [.commit])).ahead = sim₁.chain.state from hend₁, he₁] at he
    cases he
    exact hacted
  have hacted₂ : ∀ i ∈ K.ids, Acted (policy i) i e₁ e₂ := by
    intro i hi
    obtain ⟨rng, hmem⟩ := hsecond i hi
    obtain ⟨e, he, hacted⟩ := hlive₁.acted hpos hsigning hi (List.mem_append_left [.commit] hmem) he₁
    rw [show (sim₁.execAll K.ids (second ++ [.commit])).ahead = sim₂.chain.state from hend₂, he₂] at he
    cases he
    exact hacted
  rw [hsim]
  refine ⟨e₂, he₂, hm₂.trans hm₁, hr₂.trans hr₁, htracks₂.settled hpos he₂ (fun m hm i hi => ?_) ?_⟩
  · rw [hm₂]
    exact (hacted₂ i hi).commits m hm
  intro pkg parts shares hs₂
  obtain ⟨i, hp, hi, hni⟩ := htracks₂.unsigned hpos he₂ hs₂
  cases hs₁ : e₁.status with
  | awaitingCommitments m =>
    -- everybody who approves had committed, and they were too few
    obtain ⟨_, hlt⟩ := htracks₁.awaits hpos he₁ hs₁ fun j hj => by
      rw [hm₁]
      exact (hacted₁ j hj).commits m hs₁
    obtain ⟨hsub, hcard⟩ := htracks₂.selected he₂ hs₂
    rw [hm₂] at hsub
    have := Finset.card_le_card hsub
    omega
  | signing pkg₁ parts₁ shares₁ =>
    rw [hs₁, hs₂] at hl₂
    obtain ⟨shares', hs', _⟩ | ⟨sig, hs'⟩ | ⟨reason, hs'⟩ := hl₂.of_signing
    · cases hs'
      rcases (hacted₂ i hi).signs _ _ _ hs₁ hp with ⟨shares', hs', hmem⟩ | ⟨sig, hs'⟩
      · rw [hs₂] at hs'; cases hs'
        exact hni hmem
      · rw [hs₂] at hs'; cases hs'
    · cases hs'
    · cases hs'
  | completed parts₁ sig =>
    rw [hs₁, hs₂] at hl₂
    cases hl₂.of_completed
  | failed reason => exact htracks₁.not_failed he₁ reason hs₁

namespace Ideal

/-- The second member signs for nothing that begins with 9. -/
def duoPolicy (i : Nat) : SignPolicy := fun message => if i = 2 ∧ message.head? = some 9 then .error "no" else .ok ()

def duoAsk : List (SigningEvent suite) := [.submit (.submitRequest id0 [42] (5 : Int)), .commit]

def duoReact : List (SigningEvent suite) := [.react (2 : Nat) (10 : Nat), .react (1 : Nat) (11 : Nat)]

def duoEvents : List (SigningEvent suite) := duoAsk ++ duoReact ++ [.commit] ++ duoReact ++ [.commit]

theorem duoEvents_quiet : ∀ i ∈ duoKeys.ids, ∃ rng,
    ((((SigningSim.start duoKeys ([1, 2] : List Nat)).withPolicies duoPolicy).execAll duoKeys.ids duoEvents).reaction
      i rng).1 = .ok [] := by
  intro i hi
  have hi' : i = (1 : Nat) ∨ i = (2 : Nat) := by simpa [duoKeys] using hi
  rcases hi' with rfl | rfl
  · exact ⟨(12 : Nat), rfl⟩
  · exact ⟨(13 : Nat), rfl⟩

end Ideal

/-- To the end of the run, where nothing is left to do. -/
theorem honest_signing_never_stalls_duo :
    (((SigningSim.start Ideal.duoKeys ([1, 2] : List Nat)).withPolicies Ideal.duoPolicy).execAll Ideal.duoKeys.ids
        Ideal.duoEvents).NeverStalls Ideal.duoKeys Ideal.duoPolicy ∧
      ∃ e, (((SigningSim.start Ideal.duoKeys ([1, 2] : List Nat)).withPolicies Ideal.duoPolicy).execAll Ideal.duoKeys.ids
        Ideal.duoEvents).chain.state.requests[Ideal.id0]? = some e ∧ e.Settled Ideal.duoKeys Ideal.duoPolicy := by
  have hstalls : (((SigningSim.start Ideal.duoKeys ([1, 2] : List Nat)).withPolicies Ideal.duoPolicy).execAll
      Ideal.duoKeys.ids Ideal.duoEvents).NeverStalls Ideal.duoKeys Ideal.duoPolicy :=
    honest_signing_never_stalls Ideal.duoKeys_honest Ideal.duoKeys_signing rfl Ideal.duoPolicy Ideal.duoEvents
  exact ⟨hstalls, _, rfl, hstalls.quiet rfl Ideal.duoEvents_quiet Ideal.id0 _ rfl⟩

theorem settled_after_two_rounds_duo :
    ∃ e, (((SigningSim.start Ideal.duoKeys ([1, 2] : List Nat)).withPolicies Ideal.duoPolicy).execAll Ideal.duoKeys.ids
        (Ideal.duoAsk ++ Ideal.duoReact ++ [.commit] ++ Ideal.duoReact ++ [.commit])).chain.state.requests[Ideal.id0]? =
          some e ∧ e.message = [42] ∧ e.randomizer = (5 : Int) ∧ e.Settled Ideal.duoKeys Ideal.duoPolicy := by
  have hall : ∀ i ∈ Ideal.duoKeys.ids, ∃ rng, .react i rng ∈ Ideal.duoReact := by
    intro i hi
    have hi' : i = (1 : Nat) ∨ i = (2 : Nat) := by simpa [Ideal.duoKeys] using hi
    rcases hi' with rfl | rfl
    · exact ⟨(11 : Nat), by simp [Ideal.duoReact]⟩
    · exact ⟨(10 : Nat), by simp [Ideal.duoReact]⟩
  exact settled_after_two_rounds Ideal.duoKeys_honest Ideal.duoKeys_signing rfl Ideal.duoPolicy Ideal.duoAsk
    Ideal.duoReact Ideal.duoReact hall hall Ideal.id0 (opened Ideal.id0 [42] (5 : Int)) rfl

end Sapphire
