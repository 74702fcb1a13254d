import Sapphire.Diamond

/-!
# What a step may change

An accepted transaction never takes anything back: it extends the ceremony by
one entry or turns it into the group, or it moves one request forward. What
the transaction claimed stays claimed, also where promotion or the next phase
of a request throws the record of it away.
-/

namespace Sapphire

open BTreeMap Replay

variable {C : Ciphersuite}

/-! ## The order of states -/

structure DkgCeremony.Extends (c c' : DkgCeremony C) : Prop where
  params : c'.params = c.params
  validators : c'.validators = c.validators
  round1 : Grows c.round1 c'.round1
  round2 : Grows c.round2 c'.round2
  finalize : Grows c.finalize c'.finalize

/-- `AwaitingCommitments`, then `Signing`, then settled: within a phase entries
are kept, the signing package and the participants stay, and a settled status
is final. -/
inductive RequestStatus.Advances : RequestStatus C → RequestStatus C → Prop
  | awaiting {m m'} : Grows m m' → Advances (.awaitingCommitments m) (.awaitingCommitments m')
  | cut {m pkg parts shares} : Advances (.awaitingCommitments m) (.signing pkg parts shares)
  | signing {pkg parts shares shares'} : Grows shares shares' →
      Advances (.signing pkg parts shares) (.signing pkg parts shares')
  | completed {pkg parts shares sig} : Advances (.signing pkg parts shares) (.completed parts sig)
  | failed {pkg parts shares reason} : Advances (.signing pkg parts shares) (.failed reason)
  | same {status} : Advances status status

structure State.Advances (s s' : State C) : Prop where
  group : ∀ g, s.group = some g → s'.group = some g
  ceremony : ∀ c, s.ceremony = some c →
    (∃ c', s'.ceremony = some c' ∧ c.Extends c') ∨ s'.ceremony = none ∧ ∃ g, s'.group = some g
  request : ∀ (id : Uuid) o, s.requests[id]? = some o → ∃ e, s'.requests[id]? = some e ∧
    e.message = o.message ∧ e.randomizer = o.randomizer ∧ o.status.Advances e.status
  one_request : ∃ id : Uuid, ∀ id' : Uuid, id' ≠ id → s'.requests[id']? = s.requests[id']?
  one_side : s'.requests = s.requests ∨ s'.ceremony = s.ceremony ∧ s'.group = s.group

theorem DkgCeremony.Extends.refl (c : DkgCeremony C) : c.Extends c :=
  ⟨rfl, rfl, .refl _, .refl _, .refl _⟩

/-! ## Requests advance -/

theorem thresholdCut_advances (params : MpcParams) (message : Bytes)
    {m : BTreeMap C.Identifier C.SigningCommitments} {v : C.Identifier} (com : C.SigningCommitments) (hv : v ∉ m) :
    RequestStatus.Advances (.awaitingCommitments m) (thresholdCut params message (m.insert v com)) := by
  unfold thresholdCut
  split
  · exact .cut
  · exact .awaiting (.insert com hv)

theorem aggregateIfComplete_advances (pkp : C.PublicKeyPackage) (r : C.Randomizer) (pkg : C.SigningPackage)
    (parts : Finset C.Identifier) {shares : BTreeMap C.Identifier C.SignatureShare} {v : C.Identifier}
    (share : C.SignatureShare) (hv : v ∉ shares) :
    RequestStatus.Advances (.signing pkg parts shares)
      (aggregateIfComplete pkp r pkg parts (shares.insert v share)) := by
  unfold aggregateIfComplete
  split
  · split
    · exact .completed
    · exact .failed
  · exact .signing (.insert share hv)

theorem entryStep_advances {g : GroupConfig C} {o e : RequestEntry C} {tx : Tx C}
    (h : entryStep g (some o) tx = some e) :
    e.message = o.message ∧ e.randomizer = o.randomizer ∧ o.status.Advances e.status := by
  cases tx with
  | submitCommitment id v com =>
    obtain ⟨_, o', m, ho, hs, hm, rfl⟩ := entryStep_submitCommitment.mp h
    cases ho
    rw [hs]
    exact ⟨rfl, rfl, thresholdCut_advances _ _ com hm⟩
  | submitShare id v share =>
    obtain ⟨_, o', pkg, parts, shares, ho, hs, _, hm, rfl⟩ := entryStep_submitShare.mp h
    cases ho
    rw [hs]
    exact ⟨rfl, rfl, aggregateIfComplete_advances _ _ _ _ share hm⟩
  | _ => cases h

/-! ## Steps advance -/

namespace State.Advances

variable {s : State C}

theorem of_ceremony {ceremony : Option (DkgCeremony C)} {group : Option (GroupConfig C)}
    (hg : ∀ g, s.group = some g → group = some g)
    (hc : ∀ c, s.ceremony = some c → (∃ c', ceremony = some c' ∧ c.Extends c') ∨ ceremony = none ∧ ∃ g, group = some g) :
    s.Advances { s with ceremony, group } where
  group := hg
  ceremony := hc
  request := fun _ o ho => ⟨o, ho, rfl, rfl, .same⟩
  one_request := ⟨⟨Vector.replicate 16 0⟩, fun _ _ => rfl⟩
  one_side := Or.inl rfl

theorem of_extends {c c' : DkgCeremony C} (hc : s.ceremony = some c) (he : c.Extends c') :
    s.Advances { s with ceremony := some c' } := by
  refine of_ceremony (fun g hg => hg) fun c₀ hc₀ => ?_
  rw [hc] at hc₀; cases hc₀
  exact Or.inl ⟨c', rfl, he⟩

theorem of_request {g : GroupConfig C} {id : Uuid} {tx : Tx C} {e : RequestEntry C}
    (h : entryStep g s.requests[id]? tx = some e) : s.Advances (s.withRequest id e) where
  group := fun g hg => hg
  ceremony := fun c hc => Or.inl ⟨c, hc, .refl c⟩
  request := fun id' o ho => by
    by_cases heq : id = id'
    · subst heq
      rw [ho] at h
      exact ⟨e, s.withRequest_self id e, entryStep_advances h⟩
    · exact ⟨o, (s.withRequest_of_ne e heq).trans ho, rfl, rfl, .same⟩
  one_request := ⟨id, fun id' hne => s.withRequest_of_ne e hne.symm⟩
  one_side := Or.inr ⟨rfl, rfl⟩

end State.Advances

/-- **Step.** An accepted transaction advances a valid state. -/
theorem State.Valid.advances {s s' : State C} {tx : Tx C} (h : s.Valid) (ha : applyTx s tx = .ok s') :
    s.Advances s' := by
  cases hid : tx.requestId? with
  | some id =>
    obtain ⟨g, e, _, hstep, rfl⟩ := (applyTx_request_ok hid).mp ha
    exact .of_request hstep
  | none =>
    cases tx with
    | initGroup params pkp validators =>
      obtain ⟨hg, hc, _, rfl⟩ := applyInitGroup_ok.mp ha
      exact .of_ceremony (fun g hg' => by rw [hg] at hg'; cases hg') (fun c hc' => by rw [hc] at hc'; cases hc')
    | dkgBegin params validators =>
      obtain ⟨hg, hc, _, rfl⟩ := applyDkgBegin_ok.mp ha
      exact .of_ceremony (fun g hg' => hg') (fun c hc' => by rw [hc] at hc'; cases hc')
    | dkgRound1 v package =>
      obtain ⟨c, hc, _, hr, rfl⟩ := applyDkgRound1_ok.mp ha
      exact .of_extends hc ⟨rfl, rfl, .insert package hr, .refl _, .refl _⟩
    | dkgRound2 v w sealed =>
      obtain ⟨c, hc, _, _, _, _, hr, rfl⟩ := applyDkgRound2_ok.mp ha
      exact .of_extends hc ⟨rfl, rfl, .refl _, .insert sealed hr, .refl _⟩
    | dkgFinalize v pkp =>
      obtain ⟨c, hc, _, _, hf, _, hfin⟩ := applyDkgFinalize_ok.mp ha
      cases hfin with
      | extended _ => exact .of_extends hc ⟨rfl, rfl, .refl _, .refl _, .insert pkp hf⟩
      | promoted _ _ =>
        refine .of_ceremony (fun g hg => ?_) (fun _ _ => Or.inr ⟨rfl, _, rfl⟩)
        rw [h.exclusive hc] at hg; cases hg
    | _ => cases hid

/-- **Monotonicity.** Every transaction that a reachable state accepts advances it. -/
theorem applyTx_monotonic (txs : List (Tx C)) {tx : Tx C} {s' : State C} (ha : applyTx (reached txs) tx = .ok s') :
    (reached txs).Advances s' := (reached_valid txs).advances ha

theorem applyTx_monotonic_pair : (reached (Ideal.pairRun.take 5)).Advances (reached Ideal.pairRun) :=
  applyTx_monotonic (Ideal.pairRun.take 5)
    (show applyTx (reached (Ideal.pairRun.take 5)) (.submitShare Ideal.id0 (2 : Nat) (Ideal.share 2 20 [42] 5)) =
      .ok (reached Ideal.pairRun) from rfl)

/-! ## Slots are taken once -/

def RequestStatus.HasCommitted (v : C.Identifier) : RequestStatus C → Prop
  | .awaitingCommitments m => v ∈ m
  | _ => True

def RequestStatus.HasShared (v : C.Identifier) : RequestStatus C → Prop
  | .awaitingCommitments _ => False
  | .signing _ _ shares => v ∈ shares
  | _ => True

/-- The ceremony has it, or has been promoted. -/
def State.Has (s : State C) (P : DkgCeremony C → Prop) : Prop :=
  (∃ g, s.group = some g) ∨ ∃ c, s.ceremony = some c ∧ P c

/-- Nothing more is accepted for the slot: its record is there, or a later phase is. -/
def State.Taken (s : State C) : Slot C → Prop
  | .bootstrap => s.Has fun _ => True
  | .r1 v => s.Has fun c => v ∈ c.round1
  | .r2 v w => s.Has fun c => toLex (v, w) ∈ c.round2
  | .fin v => s.Has fun c => v ∈ c.finalize
  | .req id => id ∈ s.requests
  | .com id v => ∃ e, s.requests[id]? = some e ∧ e.status.HasCommitted v
  | .share id v => ∃ e, s.requests[id]? = some e ∧ e.status.HasShared v

theorem RequestStatus.Advances.hasCommitted {o e : RequestStatus C} (h : o.Advances e) {v : C.Identifier}
    (hv : o.HasCommitted v) : e.HasCommitted v := by
  cases h with
  | awaiting hm => exact hm.mem hv
  | same => exact hv
  | _ => trivial

theorem RequestStatus.Advances.hasShared {o e : RequestStatus C} (h : o.Advances e) {v : C.Identifier}
    (hv : o.HasShared v) : e.HasShared v := by
  cases h with
  | awaiting _ => exact hv.elim
  | cut => exact hv.elim
  | signing hm => exact hm.mem hv
  | same => exact hv
  | _ => trivial

theorem State.Has.advances {s s' : State C} (h : s.Advances s') {P : DkgCeremony C → Prop}
    (hP : ∀ c c', c.Extends c' → P c → P c') (hs : s.Has P) : s'.Has P := by
  rcases hs with ⟨g, hg⟩ | ⟨c, hc, hp⟩
  · exact Or.inl ⟨g, h.group g hg⟩
  · rcases h.ceremony c hc with ⟨c', hc', he⟩ | ⟨_, hg⟩
    · exact Or.inr ⟨c', hc', hP c c' he hp⟩
    · exact Or.inl hg

theorem State.Taken.advances {s s' : State C} (h : s.Advances s') : ∀ σ, s.Taken σ → s'.Taken σ
  | .bootstrap, ht => State.Has.advances h (fun _ _ _ _ => trivial) ht
  | .r1 _, ht => State.Has.advances h (fun _ _ he hv => he.round1.mem hv) ht
  | .r2 _ _, ht => State.Has.advances h (fun _ _ he hv => he.round2.mem hv) ht
  | .fin _, ht => State.Has.advances h (fun _ _ he hv => he.finalize.mem hv) ht
  | .req id, ht => by
    obtain ⟨o, ho⟩ := mem_iff.mp (show id ∈ s.requests from ht)
    obtain ⟨e, he, _⟩ := h.request id o ho
    exact mem_of_getElem? he
  | .com id v, ⟨o, ho, hv⟩ =>
    let ⟨e, he, _, _, hadv⟩ := h.request id o ho
    ⟨e, he, hadv.hasCommitted hv⟩
  | .share id v, ⟨o, ho, hv⟩ =>
    let ⟨e, he, _, _, hadv⟩ := h.request id o ho
    ⟨e, he, hadv.hasShared hv⟩

/-- Of an open ceremony only its own record counts. -/
theorem State.Has.of_ceremony {s : State C} (h : s.Valid) {c : DkgCeremony C} (hc : s.ceremony = some c)
    {P : DkgCeremony C → Prop} : s.Has P ↔ P c := by
  constructor
  · rintro (⟨g, hg⟩ | ⟨c', hc', hp⟩)
    · rw [h.exclusive hc] at hg; cases hg
    · rw [hc] at hc'; cases hc'
      exact hp
  · intro hp
    exact Or.inr ⟨c, hc, hp⟩

theorem State.Has.of_none {s : State C} (hg : s.group = none) (hc : s.ceremony = none) {P : DkgCeremony C → Prop} :
    ¬ s.Has P := by
  rintro (⟨g, hg'⟩ | ⟨c, hc', _⟩)
  · rw [hg] at hg'; cases hg'
  · rw [hc] at hc'; cases hc'

theorem thresholdCut_hasCommitted (params : MpcParams) (message : Bytes)
    {m : BTreeMap C.Identifier C.SigningCommitments} {v : C.Identifier} (hv : v ∈ m) :
    (thresholdCut params message m).HasCommitted v := by
  unfold thresholdCut
  split
  · trivial
  · exact hv

theorem aggregateIfComplete_hasShared (pkp : C.PublicKeyPackage) (r : C.Randomizer) (pkg : C.SigningPackage)
    (parts : Finset C.Identifier) {shares : BTreeMap C.Identifier C.SignatureShare} {v : C.Identifier}
    (hv : v ∈ shares) : (aggregateIfComplete pkp r pkg parts shares).HasShared v := by
  unfold aggregateIfComplete
  split
  · split <;> trivial
  · exact hv

/-- What is accepted had a free slot, and takes it. -/
theorem applyTx_takes {s s' : State C} {tx : Tx C} (h : s.Valid) (ha : applyTx s tx = .ok s') :
    ¬ s.Taken tx.slot ∧ s'.Taken tx.slot := by
  cases tx with
  | initGroup params pkp validators =>
    obtain ⟨hg, hc, _, rfl⟩ := applyInitGroup_ok.mp ha
    exact ⟨State.Has.of_none hg hc, Or.inl ⟨_, rfl⟩⟩
  | dkgBegin params validators =>
    obtain ⟨hg, hc, _, rfl⟩ := applyDkgBegin_ok.mp ha
    exact ⟨State.Has.of_none hg hc, Or.inr ⟨_, rfl, trivial⟩⟩
  | dkgRound1 v package =>
    obtain ⟨c, hc, _, hr, rfl⟩ := applyDkgRound1_ok.mp ha
    exact ⟨fun ht => hr ((State.Has.of_ceremony h hc).mp ht), Or.inr ⟨_, rfl, by simp⟩⟩
  | dkgRound2 v w sealed =>
    obtain ⟨c, hc, _, _, _, _, hr, rfl⟩ := applyDkgRound2_ok.mp ha
    exact ⟨fun ht => hr ((State.Has.of_ceremony h hc).mp ht), Or.inr ⟨_, rfl, by simp⟩⟩
  | dkgFinalize v pkp =>
    obtain ⟨c, hc, _, _, hf, _, hfin⟩ := applyDkgFinalize_ok.mp ha
    refine ⟨fun ht => hf ((State.Has.of_ceremony h hc).mp ht), ?_⟩
    cases hfin with
    | extended _ => exact Or.inr ⟨_, rfl, by simp⟩
    | promoted _ _ => exact Or.inl ⟨_, rfl⟩
  | submitRequest id msg r =>
    obtain ⟨g, e, _, hstep, rfl⟩ := (applyTx_request_ok rfl).mp ha
    obtain ⟨hnone, _⟩ := entryStep_submitRequest.mp hstep
    exact ⟨not_mem_of_getElem? hnone, mem_of_getElem? (s.withRequest_self id e)⟩
  | submitCommitment id v com =>
    obtain ⟨g, e, _, hstep, rfl⟩ := (applyTx_request_ok rfl).mp ha
    obtain ⟨_, o, m, ho, hs, hm, rfl⟩ := entryStep_submitCommitment.mp hstep
    refine ⟨?_, _, s.withRequest_self id _, thresholdCut_hasCommitted _ _ (by simp)⟩
    rintro ⟨o', ho', hv⟩
    rw [ho] at ho'; cases ho'
    rw [hs] at hv
    exact hm hv
  | submitShare id v share =>
    obtain ⟨g, e, _, hstep, rfl⟩ := (applyTx_request_ok rfl).mp ha
    obtain ⟨_, o, pkg, parts, shares, ho, hs, _, hm, rfl⟩ := entryStep_submitShare.mp hstep
    refine ⟨?_, _, s.withRequest_self id _, aggregateIfComplete_hasShared _ _ _ _ (by simp)⟩
    rintro ⟨o', ho', hv⟩
    rw [ho] at ho'; cases ho'
    rw [hs] at hv
    exact hm hv

theorem accepted_slots (txs : List (Tx C)) : ((accepted applyTx State.default txs).map Tx.slot).Nodup := by
  have hstep : ∀ (s : State C) tx s', s.Valid → applyTx s tx = .ok s' →
      s'.Valid ∧ ¬ s.Taken tx.slot ∧ s'.Taken tx.slot ∧ ∀ σ, s.Taken σ → s'.Taken σ := by
    intro s tx s' h ha
    obtain ⟨hfree, htaken⟩ := applyTx_takes h ha
    exact ⟨applyTx_valid h ha, hfree, htaken, State.Taken.advances (h.advances ha)⟩
  exact (accepted_nodup hstep .default txs).1

theorem State.Taken.replay {s : State C} (hs : s.Valid) {σ : Slot C} (h : s.Taken σ) (txs : List (Tx C)) :
    (replay applyTx s txs).Taken σ :=
  (replay_invariant (P := fun s : State C => s.Valid ∧ s.Taken σ)
    (fun _ _ _ hs ha => ⟨applyTx_valid hs.1 ha, State.Taken.advances (hs.1.advances ha) σ hs.2⟩) ⟨hs, h⟩ txs).2

theorem taken_later {pre : List (Tx C)} {σ : Slot C} (h : (reached pre).Taken σ) (more : List (Tx C)) :
    (reached (pre ++ more)).Taken σ := by
  rw [show reached (pre ++ more) = Replay.replay applyTx (reached pre) more from replay_append _ _ _]
  exact State.Taken.replay (reached_valid pre) h more

theorem rejected_of_taken {s : State C} {tx : Tx C} (h : s.Valid) (ht : s.Taken tx.slot) :
    ∃ e, applyTx s tx = .error (.err e) := by
  cases ha : applyTx s tx with
  | ok s' => exact absurd ht (applyTx_takes h ha).1
  | error f =>
    cases f with
    | err e => exact ⟨e, rfl⟩
    | panic msg =>
      -- a ceremony of none has no finalize to repeat
      obtain ⟨v, pkp, c, rfl, hc, h0⟩ := applyTx_panic ha
      have hv : v ∈ c.finalize := (State.Has.of_ceremony h hc).mp ht
      have := (h.ceremony hc).total_pos (mem_dom.mp ((h.ceremony hc).finalize_sub (mem_dom.mpr hv)))
      omega

/-- **At most once.** Of all transactions of a run at most one is accepted for
a slot; after it every other for the slot is rejected, at every later point, and
changes nothing. -/
theorem slot_accepted_once (txs : List (Tx C)) :
    ((accepted applyTx State.default txs).map Tx.slot).Nodup ∧
      ∀ pre tx more s', applyTx (reached pre) tx = .ok s' → ∀ again : Tx C, again.slot = tx.slot →
        (∃ e, applyTx (reached (pre ++ tx :: more)) again = .error (.err e)) ∧
          reached (pre ++ tx :: more ++ [again]) = reached (pre ++ tx :: more) := by
  refine ⟨accepted_slots txs, ?_⟩
  intro pre tx more s' ha again hslot
  have htaken : (reached (pre ++ [tx])).Taken tx.slot := by
    have hs : reached (pre ++ [tx]) = s' := by
      rw [show reached (pre ++ [tx]) = replay applyTx (reached pre) [tx] from replay_append _ _ _]
      exact feed_ok ha
    rw [hs]; exact (applyTx_takes (reached_valid pre) ha).2
  have hlater : (reached (pre ++ tx :: more)).Taken again.slot := by
    rw [hslot, List.append_cons]
    exact taken_later htaken more
  obtain ⟨e, he⟩ := rejected_of_taken (reached_valid _) hlater
  refine ⟨⟨e, he⟩, ?_⟩
  rw [show reached (pre ++ tx :: more ++ [again]) = replay applyTx (reached (pre ++ tx :: more)) [again] from
    replay_append _ _ _]
  exact feed_error he

end Sapphire
