import Sapphire.Diamond

/-!
# Dead ends

There is no abort transaction, so a parameter that no transaction can satisfy
stays. Two steps lead into a dead end: beginning a ceremony of nobody, and
requesting a signature from a group whose threshold is zero or out of reach.
From every other reachable state the next missing contribution is accepted.
-/

namespace Sapphire

open BTreeMap Replay

variable {C : Ciphersuite}

def RequestStatus.Open : RequestStatus C → Prop
  | .awaitingCommitments _ => True
  | .signing _ _ _ => True
  | _ => False

/-- The validators can reach the threshold, and someone is selected when they do. -/
def GroupConfig.Servable (g : GroupConfig C) : Prop :=
  1 ≤ g.params.threshold.toNat ∧ g.params.threshold.toNat ≤ g.validators.card

/-- From here a group can still be committed, and every open request settled. -/
structure NoDeadEnd (s : State C) : Prop where
  group : s.group = none → ∃ txs, (replay applyTx s txs).group ≠ none
  request : ∀ g, s.group = some g → ∀ (id : Uuid) e, s.requests[id]? = some e → e.status.Open →
    ∃ txs e', (replay applyTx s txs).requests[id]? = some e' ∧ ¬ e'.status.Open

/-- What the steps into a dead end miss: a participant, or a threshold in reach. -/
def Viable (s : State C) : Tx C → Prop
  | .dkgBegin params _ => params.total.toNat ≠ 0
  | .submitRequest _ _ _ => ∀ g, s.group = some g → g.Servable
  | _ => True

/-- Anybody can contribute something: the types of contributions are inhabited. -/
structure Populated (C : Ciphersuite) : Prop where
  round1 : Nonempty C.Round1Package
  pkp : Nonempty C.PublicKeyPackage
  commitments : Nonempty C.SigningCommitments
  share : Nonempty C.SignatureShare

/-! ## States that are alive -/

structure State.Live (s : State C) : Prop where
  ceremony : ∀ c, s.ceremony = some c → c.total ≠ 0
  request : ∀ g, s.group = some g → ∀ (id : Uuid) e, s.requests[id]? = some e → e.status.Open → g.Servable

theorem entryStep_open {g : GroupConfig C} {old : Option (RequestEntry C)} {tx : Tx C} {e : RequestEntry C} {id : Uuid}
    (hid : tx.requestId? = some id) (h : entryStep g old tx = some e) :
    (∃ o, old = some o ∧ o.status.Open) ∨ ∃ msg r, tx = .submitRequest id msg r := by
  cases tx with
  | submitRequest id' msg r =>
    simp only [Tx.requestId?, Option.some.injEq] at hid; subst hid
    exact Or.inr ⟨msg, r, rfl⟩
  | submitCommitment id' v com =>
    obtain ⟨_, o, m, ho, hs, _⟩ := entryStep_submitCommitment.mp h
    exact Or.inl ⟨o, ho, by rw [hs]; trivial⟩
  | submitShare id' v share =>
    obtain ⟨_, o, pkg, parts, shares, ho, hs, _⟩ := entryStep_submitShare.mp h
    exact Or.inl ⟨o, ho, by rw [hs]; trivial⟩
  | _ => cases hid

/-- Out of a group that cannot serve, an open entry stays open. -/
theorem entryStep_stuck {g : GroupConfig C} {o e : RequestEntry C} {tx : Tx C} {id : Uuid} (hval : o.Valid g id)
    (hbad : ¬ g.Servable) (h : entryStep g (some o) tx = some e) : e.status.Open := by
  cases tx with
  | submitRequest id' msg r => cases h
  | submitCommitment id' v com =>
    obtain ⟨_, _, _, _, _, _, rfl⟩ := entryStep_submitCommitment.mp h
    unfold thresholdCut
    split <;> trivial
  | submitShare id' v share =>
    obtain ⟨_, o', pkg, parts, shares, ho', hs, hp, _⟩ := entryStep_submitShare.mp h
    cases ho'
    have hst := hval.status
    rw [hs] at hst
    -- a participant was selected, so the threshold was met
    have hpos := Finset.card_pos.mpr ⟨v, hp⟩
    have hle := Finset.card_le_card hst.1.sub
    rw [hst.1.card] at hpos hle
    exact absurd ⟨hpos, hle⟩ hbad
  | _ => cases h

theorem State.Live.of_ceremony {s : State C} (h : s.Valid) {c : DkgCeremony C} (hc : s.ceremony = some c) :
    s.Live ↔ c.total ≠ 0 := by
  constructor
  · intro hl
    exact hl.ceremony c hc
  · intro ht
    refine ⟨fun c' hc' => ?_, fun g hg => ?_⟩
    · rw [hc] at hc'; cases hc'; exact ht
    · rw [h.exclusive hc] at hg; cases hg

theorem State.Live.of_fresh {s : State C} (hc : s.ceremony = none) (hr : ∀ (id : Uuid) e, s.requests[id]? ≠ some e) :
    s.Live where
  ceremony := fun c hc' => by rw [hc] at hc'; cases hc'
  request := fun _ _ id e he => absurd he (hr id e)

section
variable {s : State C} (h : s.Valid) {tx : Tx C} {id : Uuid} (hid : tx.requestId? = some id) {g : GroupConfig C}
  (hg : s.group = some g) {e : RequestEntry C} (he : entryStep g s.requests[id]? tx = some e)
include h hid hg he

theorem withRequest_live (hl : s.Live) (hv : Viable s tx) : (s.withRequest id e).Live := by
  have hcer := h.no_ceremony hg
  refine ⟨fun c hc => absurd hc (by rw [State.withRequest_ceremony, hcer]; simp), ?_⟩
  intro g' hg' id' e' he' hopen
  rw [State.withRequest_group, hg] at hg'; cases hg'
  rw [State.withRequest_get] at he'
  split at he'
  · rcases entryStep_open hid he with ⟨o, ho, hopen'⟩ | ⟨msg, r, rfl⟩
    · exact hl.request g hg id o ho hopen'
    · exact hv g hg
  · exact hl.request g hg id' e' he' hopen

omit hid in
/-- An entry open before the step is open after it, unless the group can serve. -/
theorem live_of_withRequest (hl : (s.withRequest id e).Live) : s.Live := by
  have hcer := h.no_ceremony hg
  refine ⟨fun c hc => absurd hc (by rw [hcer]; simp), ?_⟩
  intro g' hg' id' o ho hopen
  rw [hg] at hg'; cases hg'
  by_contra hbad
  by_cases heq : id = id'
  · subst heq
    rw [ho] at he
    refine hbad (hl.request g hg id e ?_ (entryStep_stuck (h.request_valid hg ho) hbad he))
    rw [State.withRequest_get, if_pos rfl]
  · refine hbad (hl.request g hg id' o ?_ hopen)
    rw [State.withRequest_get, if_neg heq]
    exact ho

omit h in
theorem viable_of_withRequest (hl : (s.withRequest id e).Live) : Viable s tx := by
  cases tx with
  | submitRequest id' msg r =>
    intro g' hg'
    rw [hg] at hg'; cases hg'
    cases hid
    obtain ⟨_, rfl⟩ := entryStep_submitRequest.mp he
    exact hl.request g hg _ _ (State.withRequest_self ..) trivial
  | dkgBegin params validators => cases hid
  | _ => trivial

end

theorem applyTx_live {s s' : State C} {tx : Tx C} (h : s.Valid) (ha : applyTx s tx = .ok s') :
    s'.Live ↔ s.Live ∧ Viable s tx := by
  cases hid : tx.requestId? with
  | some id =>
    obtain ⟨g, e, hg, he, rfl⟩ := (applyTx_request_ok hid).mp ha
    constructor
    · intro hl
      exact ⟨live_of_withRequest h hg he hl, viable_of_withRequest hid hg he hl⟩
    · intro hboth
      exact withRequest_live h hid hg he hboth.1 hboth.2
  | none =>
    have hval' := applyTx_valid h ha
    cases tx with
    | initGroup params pkp validators =>
      obtain ⟨hg, hc, _, rfl⟩ := applyInitGroup_ok.mp ha
      have hfresh : ∀ (id : Uuid) e, s.requests[id]? ≠ some e := fun _ _ => h.no_request hg
      exact iff_of_true (.of_fresh hc hfresh) ⟨.of_fresh hc hfresh, trivial⟩
    | dkgBegin params validators =>
      obtain ⟨hg, hc, _, rfl⟩ := applyDkgBegin_ok.mp ha
      have hfresh : ∀ (id : Uuid) e, s.requests[id]? ≠ some e := fun _ _ => h.no_request hg
      rw [State.Live.of_ceremony hval' rfl, and_iff_right (.of_fresh hc hfresh)]
      rfl
    | dkgRound1 v p =>
      obtain ⟨c, hc, _, _, rfl⟩ := applyDkgRound1_ok.mp ha
      rw [State.Live.of_ceremony hval' rfl, State.Live.of_ceremony h hc]
      exact (and_iff_left trivial).symm
    | dkgRound2 v w sealed =>
      obtain ⟨c, hc, _, _, _, _, _, rfl⟩ := applyDkgRound2_ok.mp ha
      rw [State.Live.of_ceremony hval' rfl, State.Live.of_ceremony h hc]
      exact (and_iff_left trivial).symm
    | dkgFinalize v pkp =>
      obtain ⟨c, hc, h2, _, _, _, hfin⟩ := applyDkgFinalize_ok.mp ha
      have hpos := (DkgCeremony.r2Complete_iff.mp h2).1
      refine iff_of_true ?_ ⟨(State.Live.of_ceremony h hc).mpr hpos.ne', trivial⟩
      cases hfin with
      | extended _ => exact (State.Live.of_ceremony hval' rfl).mpr hpos.ne'
      | promoted _ _ => exact .of_fresh rfl fun _ _ => h.no_request (h.exclusive hc)
    | _ => cases hid

/-! ## From a live state the goal is in reach -/

def State.ceremonyLeft (s : State C) : Nat :=
  match s.ceremony with
  | some c => (2 * c.total + c.total * (c.total - 1)) - (c.round1.size + c.round2.size + c.finalize.size)
  | none => 0

theorem State.ceremonyLeft_eq {s : State C} {c : DkgCeremony C} (hc : s.ceremony = some c) :
    s.ceremonyLeft = (2 * c.total + c.total * (c.total - 1)) - (c.round1.size + c.round2.size + c.finalize.size) := by
  unfold ceremonyLeft; rw [hc]

/-- In a live ceremony the next missing contribution is accepted: a round-1
package, then an envelope, then a finalize that agrees with the stored ones. -/
theorem DkgCeremony.Valid.advances (hC : Populated C) {s : State C} {c : DkgCeremony C} (h : c.Valid)
    (hc : s.ceremony = some c) (ht : c.total ≠ 0) :
    ∃ tx s', applyTx s tx = .ok s' ∧ Viable s tx ∧
      (s'.group ≠ none ∨ s'.group = s.group ∧ s'.ceremonyLeft < s.ceremonyLeft) := by
  have hlt := h.pending ht
  have hle1 : c.round1.size ≤ c.total := by
    rw [← h.card_validators]; exact size_le_of_subset h.round1_sub
  have hle2 : c.round2.size ≤ c.total * (c.total - 1) := by
    rw [← h.card_pairs]; exact size_le_of_subset h.round2_sub
  rw [State.ceremonyLeft_eq hc]
  rcases Nat.lt_or_ge c.round1.size c.total with h1 | h1
  · obtain ⟨v, hv, hm⟩ := exists_missing (h.card_validators ▸ h1)
    obtain ⟨p⟩ := hC.round1
    have hsz := size_insert_of_not_mem p hm
    refine ⟨.dkgRound1 v p, _, applyDkgRound1_ok.mpr ⟨c, hc, mem_dom.mp hv, hm, rfl⟩, trivial, Or.inr ⟨rfl, ?_⟩⟩
    rw [State.ceremonyLeft_eq rfl]
    show (2 * c.total + c.total * (c.total - 1)) - ((c.round1.insert v p).size + c.round2.size + c.finalize.size) < _
    omega
  rcases Nat.lt_or_ge c.round2.size (c.total * (c.total - 1)) with h2 | h2
  · obtain ⟨vw, hvw, hm⟩ := exists_missing (h.card_pairs ▸ h2)
    obtain ⟨hv, hw, hne⟩ := DkgCeremony.mem_pairs.mp (show toLex (vw.1, vw.2) ∈ c.pairs from hvw)
    have h1' : c.r1Complete = true := DkgCeremony.r1Complete_iff.mpr (by omega)
    have hsz := size_insert_of_not_mem (⟨[]⟩ : Sealed) hm
    refine ⟨.dkgRound2 vw.1 vw.2 ⟨[]⟩, _, applyDkgRound2_ok.mpr ⟨c, hc, h1', hne, hv, hw, hm, rfl⟩, trivial,
      Or.inr ⟨rfl, ?_⟩⟩
    rw [State.ceremonyLeft_eq rfl]
    show (2 * c.total + c.total * (c.total - 1)) - (c.round1.size + (c.round2.insert vw ⟨[]⟩).size + c.finalize.size) < _
    omega
  · obtain ⟨v, hv, hm⟩ := exists_missing (h.card_validators ▸ hlt)
    have h2' : c.r2Complete = .ok true := DkgCeremony.r2Complete_iff.mpr ⟨by omega, by omega⟩
    obtain ⟨pkp, hmatch⟩ : ∃ pkp, c.mismatch pkp = false := by
      cases hf : first? c.finalize with
      | none =>
        obtain ⟨pkp⟩ := hC.pkp
        exact ⟨pkp, DkgCeremony.mismatch_iff.mpr fun k p hp => by rw [hf] at hp; cases hp⟩
      | some kp =>
        refine ⟨kp.2, DkgCeremony.mismatch_iff.mpr fun k p hp => ?_⟩
        rw [hf] at hp; cases hp
        exact .refl _
    have hsz := size_insert_of_not_mem pkp hm
    obtain ⟨s', hs'⟩ : ∃ s', Finalized s { c with finalize := c.finalize.insert v pkp } s' :=
      Finalized.exists_of_mem (show v ∈ c.finalize.insert v pkp by simp)
    refine ⟨.dkgFinalize v pkp, s', applyDkgFinalize_ok.mpr ⟨c, hc, h2', mem_dom.mp hv, hm, hmatch, hs'⟩, trivial, ?_⟩
    cases hs' with
    | extended _ =>
      refine Or.inr ⟨rfl, ?_⟩
      rw [State.ceremonyLeft_eq rfl]
      show (2 * c.total + c.total * (c.total - 1)) - (c.round1.size + c.round2.size + (c.finalize.insert v pkp).size) < _
      omega
    | promoted _ _ => exact Or.inl (by simp)

theorem group_reachable (hC : Populated C) {s : State C} (h : s.Valid) (hl : s.Live) :
    ∃ txs, (replay applyTx s txs).group ≠ none := by
  refine exists_replay_of_measure (P := fun u : State C => u.Valid ∧ u.Live) (G := fun u => u.group ≠ none)
    State.ceremonyLeft ?_ ⟨h, hl⟩
  rintro u ⟨hu, hlu⟩ hg
  rw [not_not] at hg
  cases hc : u.ceremony with
  | none =>
    obtain ⟨pkp⟩ := hC.pkp
    refine ⟨.initGroup { threshold := 1, total := 1 } pkp (dom (C.verifyingShares pkp)).toList, _,
      applyInitGroup_ok.mpr ⟨hg, hc, by simp, rfl⟩, Or.inl (by simp)⟩
  | some c =>
    obtain ⟨tx, u', ha, hv, hgoal | ⟨_, hlt⟩⟩ := (hu.ceremony hc).advances hC hc (hlu.ceremony c hc)
    · exact ⟨tx, u', ha, Or.inl hgoal⟩
    · exact ⟨tx, u', ha, Or.inr ⟨⟨applyTx_valid hu ha, (applyTx_live hu ha).mpr ⟨hlu, hv⟩⟩, hlt⟩⟩

/-- What is missing from an open request before it is settled: the commitments
up to the threshold, and a share of everyone selected. -/
def RequestStatus.left (t : Nat) : RequestStatus C → Nat
  | .awaitingCommitments m => 2 * t + 1 - m.size
  | .signing _ parts shares => parts.card - shares.size
  | _ => 0

theorem thresholdCut_left {params : MpcParams} {message : Bytes} {m : BTreeMap C.Identifier C.SigningCommitments}
    {v : C.Identifier} (com : C.SigningCommitments) (hv : v ∉ m)
    (hm : m.size = 0 ∨ m.size < params.threshold.toNat) :
    (thresholdCut params message (m.insert v com)).left params.threshold.toNat <
      2 * params.threshold.toNat + 1 - m.size := by
  have ht := params.threshold.toNat_lt
  have hsz := size_insert_of_not_mem com hv
  rw [thresholdCut_eq (by omega)]
  by_cases hle : params.threshold.toNat ≤ (m.insert v com).size
  · rw [if_pos hle]
    show (dom (cut params.threshold.toNat (m.insert v com))).card - 0 < _
    rw [card_dom, size_cut, Nat.min_eq_left hle]
    omega
  · rw [if_neg hle]
    show 2 * params.threshold.toNat + 1 - (m.insert v com).size < _
    omega

theorem RequestEntry.Valid.advances (hC : Populated C) {g : GroupConfig C} {id : Uuid} {e : RequestEntry C}
    (h : e.Valid g id) (hserve : g.Servable) (ho : e.status.Open) :
    ∃ tx e', tx.requestId? = some id ∧ entryStep g (some e) tx = some e' ∧
      (¬ e'.status.Open ∨ e'.status.left g.params.threshold.toNat < e.status.left g.params.threshold.toNat) := by
  obtain ⟨hpos, hle⟩ := hserve
  have hst := h.status
  cases hs : e.status with
  | awaitingCommitments m =>
    rw [hs] at hst
    obtain ⟨_, hsz⟩ := hst
    obtain ⟨v, hv, hm⟩ := exists_missing (show m.size < g.validators.card by omega)
    obtain ⟨com⟩ := hC.commitments
    exact ⟨.submitCommitment id v com, _, rfl,
      entryStep_submitCommitment.mpr ⟨hv, e, m, rfl, hs, hm, rfl⟩, Or.inr (thresholdCut_left com hm hsz)⟩
  | signing pkg parts shares =>
    rw [hs] at hst
    obtain ⟨hcut, hsub, hlt⟩ := hst
    have hlt' := hlt (by rw [hcut.card]; omega)
    obtain ⟨v, hv, hm⟩ := exists_missing hlt'
    obtain ⟨share⟩ := hC.share
    have hsz := size_insert_of_not_mem share hm
    refine ⟨.submitShare id v share, _, rfl,
      entryStep_submitShare.mpr ⟨hcut.sub hv, e, pkg, parts, shares, rfl, hs, hv, hm, rfl⟩, ?_⟩
    dsimp only
    unfold aggregateIfComplete
    split
    · split <;> exact Or.inl (fun hopen => hopen)
    · refine Or.inr ?_
      show parts.card - (shares.insert v share).size < parts.card - shares.size
      omega
  | completed parts sig => rw [hs] at ho; exact ho.elim
  | failed reason => rw [hs] at ho; exact ho.elim

def State.requestLeft (g : GroupConfig C) (id : Uuid) (s : State C) : Nat :=
  match s.requests[id]? with
  | some e => e.status.left g.params.threshold.toNat
  | none => 0

theorem request_settles (hC : Populated C) {s : State C} (h : s.Valid) {g : GroupConfig C} (hg : s.group = some g)
    (hserve : g.Servable) {id : Uuid} {e : RequestEntry C} (he : s.requests[id]? = some e) :
    ∃ txs e', (replay applyTx s txs).requests[id]? = some e' ∧ ¬ e'.status.Open := by
  refine exists_replay_of_measure (P := fun u : State C => u.Valid ∧ u.group = some g ∧ ∃ e, u.requests[id]? = some e)
    (G := fun u => ∃ e, u.requests[id]? = some e ∧ ¬ e.status.Open) (State.requestLeft g id) ?_ ⟨h, hg, e, he⟩
  rintro u ⟨hu, hgu, o, ho⟩ hgoal
  have hopen : o.status.Open := by
    by_contra hclosed
    exact hgoal ⟨o, ho, hclosed⟩
  obtain ⟨tx, o', hid, hstep, hnext⟩ := (hu.request_valid hgu ho).advances hC hserve hopen
  have hget : (u.withRequest id o').requests[id]? = some o' := State.withRequest_self ..
  have ha : applyTx u tx = .ok (u.withRequest id o') :=
    (applyTx_request_ok hid).mpr ⟨g, o', hgu, by rw [ho]; exact hstep, rfl⟩
  refine ⟨tx, _, ha, ?_⟩
  rcases hnext with hclosed | hlt
  · exact Or.inl ⟨o', hget, hclosed⟩
  · refine Or.inr ⟨⟨applyTx_valid hu ha, hgu, o', hget⟩, ?_⟩
    unfold State.requestLeft
    rw [hget, ho]
    exact hlt

/-! ## From a dead state it is not -/

theorem empty_ceremony_stays {s s' : State C} {tx : Tx C} (h : s.Valid) {c : DkgCeremony C} (hc : s.ceremony = some c)
    (ht : c.total = 0) : applyTx s tx ≠ .ok s' := by
  intro ha
  have hphase := applyTx_phase h ha
  rw [State.phase_ceremony h hc] at hphase
  have hval := h.ceremony hc
  cases tx with
  | dkgRound1 v p =>
    obtain ⟨c', hc', hv, _⟩ := applyDkgRound1_ok.mp ha
    rw [hc] at hc'; cases hc'
    have := hval.total_pos hv; omega
  | dkgRound2 v w x =>
    obtain ⟨c', hc', _, _, hv, _⟩ := applyDkgRound2_ok.mp ha
    rw [hc] at hc'; cases hc'
    have := hval.total_pos hv; omega
  | dkgFinalize v pkp =>
    obtain ⟨c', hc', _, hv, _⟩ := applyDkgFinalize_ok.mp ha
    rw [hc] at hc'; cases hc'
    have := hval.total_pos hv; omega
  | _ => cases hphase

theorem requestId_of_group {s s' : State C} {tx : Tx C} (h : s.Valid) {g : GroupConfig C} (hg : s.group = some g)
    (ha : applyTx s tx = .ok s') : ∃ id, tx.requestId? = some id := by
  have hphase := applyTx_phase h ha
  rw [State.phase_requests hg] at hphase
  cases tx with
  | submitRequest id msg r => exact ⟨id, rfl⟩
  | submitCommitment id v com => exact ⟨id, rfl⟩
  | submitShare id v share => exact ⟨id, rfl⟩
  | _ => cases hphase

theorem live_of_noDeadEnd {s : State C} (h : s.Valid) (hn : NoDeadEnd s) : s.Live := by
  constructor
  · intro c hc ht
    obtain ⟨txs, hg⟩ := hn.group (h.exclusive hc)
    have hstay : replay applyTx s txs = s := by
      refine replay_invariant (P := fun u => u = s) (fun u tx u' hu ha => ?_) rfl txs
      subst hu
      exact absurd ha (empty_ceremony_stays h hc ht)
    rw [hstay, h.exclusive hc] at hg
    exact hg rfl
  · intro g hg id e he hopen
    by_contra hbad
    obtain ⟨txs, e', he', hclosed⟩ := hn.request g hg id e he hopen
    have hstay : ∃ o, (replay applyTx s txs).requests[id]? = some o ∧ o.status.Open := by
      refine (replay_invariant (P := fun u : State C => u.Valid ∧ u.group = some g ∧
        ∃ o, u.requests[id]? = some o ∧ o.status.Open) ?_ ⟨h, hg, e, he, hopen⟩ txs).2.2
      rintro u tx u' ⟨hu, hgu, o, ho, hopeno⟩ ha
      obtain ⟨id', hid⟩ := requestId_of_group hu hgu ha
      obtain ⟨g', o', hg', hstep, rfl⟩ := (applyTx_request_ok hid).mp ha
      rw [hgu] at hg'; cases hg'
      refine ⟨applyTx_valid hu ha, hgu, ?_⟩
      by_cases heq : id' = id
      · subst heq
        rw [ho] at hstep
        exact ⟨o', State.withRequest_self .., entryStep_stuck (hu.request_valid hgu ho) hbad hstep⟩
      · exact ⟨o, by rw [State.withRequest_get, if_neg heq]; exact ho, hopeno⟩
    obtain ⟨o, ho, hopeno⟩ := hstay
    rw [he'] at ho; cases ho
    exact hclosed hopeno

theorem noDeadEnd_iff_live (hC : Populated C) {s : State C} (h : s.Valid) : NoDeadEnd s ↔ s.Live := by
  constructor
  · intro hn
    exact live_of_noDeadEnd h hn
  · intro hl
    refine ⟨fun _ => group_reachable hC h hl, ?_⟩
    intro g hg id e he hopen
    exact request_settles hC h hg (hl.request g hg id e he hopen) he

/-- **No dead ends.** A reachable state is at no dead end exactly when every
accepted step of its run was viable: no ceremony of nobody, no request to a
group that cannot serve. -/
theorem no_dead_ends_iff (hC : Populated C) (txs : List (Tx C)) :
    NoDeadEnd (reached txs) ↔ EachStep applyTx Viable State.default txs := by
  have hlive : (State.default : State C).Live := .of_fresh rfl fun _ _ => State.Valid.default.no_request rfl
  have hrun : (reached txs).Live ↔ (State.default : State C).Live ∧ EachStep applyTx Viable State.default txs :=
    replay_iff (fun _ _ _ h ha => ⟨applyTx_valid h ha, applyTx_live h ha⟩) .default txs
  rw [noDeadEnd_iff_live hC (reached_valid txs), hrun, and_iff_right hlive]

theorem Ideal.populated : Populated Ideal.suite where
  round1 := ⟨(0 : Int)⟩
  pkp := ⟨Ideal.pairKeys⟩
  commitments := ⟨(0 : Nat)⟩
  share := ⟨Ideal.share 1 1 [] 0⟩

theorem no_dead_ends_iff_requested :
    NoDeadEnd (reached Ideal.requested) ↔ EachStep applyTx Viable State.default Ideal.requested :=
  no_dead_ends_iff Ideal.populated Ideal.requested

theorem dead_end : ¬ ∀ txs : List (Tx Ideal.suite), NoDeadEnd (reached txs) := by
  intro h
  let begin : Tx Ideal.suite := .dkgBegin { threshold := 0, total := 0 } ∅
  have hlive := live_of_noDeadEnd (reached_valid [begin]) (h [begin])
  exact hlive.ceremony _ rfl rfl

end Sapphire
