import Sapphire.Signature

/-!
# Which transactions commute

Two transactions for different slots that a reachable state accepts commute,
except for the three races that the arms decide by arrival: commitments at
the threshold, finalizes that disagree, and a ceremony of one. Pairs from
different phases are never accepted by one state, by the invariant.
-/

namespace Sapphire

open BTreeMap Replay

variable {C : Ciphersuite}

/-- What a transaction claims; the chain accepts one transaction per slot. -/
inductive Slot (C : Ciphersuite) where
  | bootstrap
  | r1 (sender : C.Identifier)
  | r2 (sender recipient : C.Identifier)
  | fin (sender : C.Identifier)
  | req (id : Uuid)
  | com (id : Uuid) (validator : C.Identifier)
  | share (id : Uuid) (validator : C.Identifier)

def Tx.slot : Tx C → Slot C
  | .initGroup _ _ _ => .bootstrap
  | .dkgBegin _ _ => .bootstrap
  | .dkgRound1 v _ => .r1 v
  | .dkgRound2 v w _ => .r2 v w
  | .dkgFinalize v _ => .fin v
  | .submitRequest id _ _ => .req id
  | .submitCommitment id v _ => .com id v
  | .submitShare id v _ => .share id v

/-- The races: (i) commitments for a request at most one short of its
threshold, (ii) finalizes that differ in verifying key or shares, (iii) round 1
and finalize of a one-participant ceremony. -/
def Conflict (s : State C) : Tx C → Tx C → Prop
  | .submitCommitment id _ _, .submitCommitment id' _ _ =>
    id = id' ∧ ∃ g e m, s.group = some g ∧ s.requests[id]? = some e ∧ e.status = .awaitingCommitments m ∧
      g.params.threshold.toNat ≤ m.size + 1
  | .dkgFinalize _ p, .dkgFinalize _ q => ¬ C.Agree p q
  | .dkgRound1 _ _, .dkgFinalize _ _ => ∃ c, s.ceremony = some c ∧ c.total = 1
  | .dkgFinalize _ _, .dkgRound1 _ _ => ∃ c, s.ceremony = some c ∧ c.total = 1
  | _, _ => False

theorem Conflict.symm {s : State C} {a b : Tx C} (h : Conflict s a b) : Conflict s b a := by
  cases a <;> cases b <;> try exact h
  · exact fun ha => h ha.symm
  · obtain ⟨rfl, hg⟩ := h
    exact ⟨rfl, hg⟩

/-! ## Phases -/

inductive Phase where
  | bootstrap
  | ceremony
  | requests
deriving DecidableEq

def Tx.phase : Tx C → Phase
  | .initGroup _ _ _ => .bootstrap
  | .dkgBegin _ _ => .bootstrap
  | .dkgRound1 _ _ => .ceremony
  | .dkgRound2 _ _ _ => .ceremony
  | .dkgFinalize _ _ => .ceremony
  | _ => .requests

def State.phase (s : State C) : Phase :=
  match s.group, s.ceremony with
  | some _, _ => .requests
  | none, some _ => .ceremony
  | none, none => .bootstrap

theorem State.phase_ceremony {s : State C} (h : s.Valid) {c : DkgCeremony C} (hc : s.ceremony = some c) :
    s.phase = .ceremony := by
  unfold phase; rw [h.exclusive hc, hc]

theorem State.phase_requests {s : State C} {g : GroupConfig C} (hg : s.group = some g) : s.phase = .requests := by
  unfold phase; rw [hg]

theorem applyTx_phase {s s' : State C} {tx : Tx C} (h : s.Valid) (ha : applyTx s tx = .ok s') : tx.phase = s.phase := by
  cases tx with
  | initGroup params pkp validators =>
    obtain ⟨hg, hc, _⟩ := applyInitGroup_ok.mp ha
    unfold State.phase; rw [hg, hc]; rfl
  | dkgBegin params validators =>
    obtain ⟨hg, hc, _⟩ := applyDkgBegin_ok.mp ha
    unfold State.phase; rw [hg, hc]; rfl
  | dkgRound1 v package =>
    obtain ⟨c, hc, _⟩ := applyDkgRound1_ok.mp ha
    rw [State.phase_ceremony h hc]; rfl
  | dkgRound2 v w sealed =>
    obtain ⟨c, hc, _⟩ := applyDkgRound2_ok.mp ha
    rw [State.phase_ceremony h hc]; rfl
  | dkgFinalize v pkp =>
    obtain ⟨c, hc, _⟩ := applyDkgFinalize_ok.mp ha
    rw [State.phase_ceremony h hc]; rfl
  | submitRequest id msg r =>
    obtain ⟨g, _, hg, _⟩ := (applyTx_request_ok rfl).mp ha
    rw [State.phase_requests hg]; rfl
  | submitCommitment id v com =>
    obtain ⟨g, _, hg, _⟩ := (applyTx_request_ok rfl).mp ha
    rw [State.phase_requests hg]; rfl
  | submitShare id v share =>
    obtain ⟨g, _, hg, _⟩ := (applyTx_request_ok rfl).mp ha
    rw [State.phase_requests hg]; rfl

/-! ## Ceremony pairs -/

def Meets (sa sb : State C) (a b : Tx C) : Prop := ∃ t, applyTx sa b = .ok t ∧ applyTx sb a = .ok t

theorem Meets.symm {sa sb : State C} {a b : Tx C} (h : Meets sa sb a b) : Meets sb sa b a :=
  let ⟨t, h1, h2⟩ := h; ⟨t, h2, h1⟩

section
variable {s sa sb : State C}

theorem meets_round1 {v w : C.Identifier} {p q : C.Round1Package} (hne : v ≠ w)
    (ha : applyDkgRound1 s v p = .ok sa) (hb : applyDkgRound1 s w q = .ok sb) :
    ∃ t, applyDkgRound1 sa w q = .ok t ∧ applyDkgRound1 sb v p = .ok t := by
  obtain ⟨c, hc, hv, hrv, rfl⟩ := applyDkgRound1_ok.mp ha
  obtain ⟨c', hc', hw, hrw, rfl⟩ := applyDkgRound1_ok.mp hb
  rw [hc] at hc'; cases hc'
  let ca : DkgCeremony C := { c with round1 := c.round1.insert v p }
  let cb : DkgCeremony C := { c with round1 := c.round1.insert w q }
  refine ⟨{ s with ceremony := some { c with round1 := (c.round1.insert v p).insert w q } }, ?_, ?_⟩
  · exact applyDkgRound1_ok.mpr ⟨ca, rfl, hw, by simp [ca, hne, hrw], rfl⟩
  · refine applyDkgRound1_ok.mpr ⟨cb, rfl, hv, by simp [cb, hne.symm, hrv], ?_⟩
    simp only [cb, insert_comm _ _ _ hne]

theorem meets_round2 {v w v' w' : C.Identifier} {x y : Sealed} (hne : toLex (v, w) ≠ toLex (v', w'))
    (ha : applyDkgRound2 s v w x = .ok sa) (hb : applyDkgRound2 s v' w' y = .ok sb) :
    ∃ t, applyDkgRound2 sa v' w' y = .ok t ∧ applyDkgRound2 sb v w x = .ok t := by
  obtain ⟨c, hc, h1, hvw, hv, hw, hr, rfl⟩ := applyDkgRound2_ok.mp ha
  obtain ⟨c', hc', h1', hvw', hv', hw', hr', rfl⟩ := applyDkgRound2_ok.mp hb
  rw [hc] at hc'; cases hc'
  have hr2 : toLex (v', w') ∉ c.round2.insert (toLex (v, w)) x := by
    rw [mem_insert']; rintro (h | h); exacts [hne h, hr' h]
  have hr1 : toLex (v, w) ∉ c.round2.insert (toLex (v', w')) y := by
    rw [mem_insert']; rintro (h | h); exacts [hne h.symm, hr h]
  let ca : DkgCeremony C := { c with round2 := c.round2.insert (toLex (v, w)) x }
  let cb : DkgCeremony C := { c with round2 := c.round2.insert (toLex (v', w')) y }
  let both : DkgCeremony C := { c with round2 := ca.round2.insert (toLex (v', w')) y }
  refine ⟨{ s with ceremony := some both }, ?_, ?_⟩
  · exact applyDkgRound2_ok.mpr ⟨ca, rfl, h1', hvw', hv', hw', hr2, rfl⟩
  · refine applyDkgRound2_ok.mpr ⟨cb, rfl, h1, hvw, hv, hw, hr1, ?_⟩
    simp only [both, ca, cb, insert_comm _ _ _ hne]

theorem Finalized.exists_of_mem {c : DkgCeremony C} {v : C.Identifier} (hv : v ∈ c.finalize) :
    ∃ t, Finalized s c t := by
  obtain ⟨k, p, hp⟩ := first?_some_of_mem hv
  by_cases hd : c.finalize.size = c.total
  · exact ⟨_, .promoted hd hp⟩
  · exact ⟨_, .extended hd⟩

/-- Finalizing overwrites ceremony and group, so it does not look at the old ceremony. -/
theorem Finalized.setCeremony {c : DkgCeremony C} {t : State C} (o : Option (DkgCeremony C)) (h : Finalized s c t) :
    Finalized { s with ceremony := o } c t := by
  cases h with
  | extended hd => exact .extended hd
  | promoted hd hp => exact .promoted hd hp

theorem finalize_extends (h : s.Valid) {c : DkgCeremony C} (hc : s.ceremony = some c) {v w : C.Identifier}
    (hne : v ≠ w) (hv : v ∈ c.validators) (hw : w ∈ c.validators) (hfw : w ∉ c.finalize) (p : C.PublicKeyPackage) :
    (c.finalize.insert v p).size ≠ c.total := by
  have hval := h.ceremony hc
  have hsub : dom (c.finalize.insert v p) ⊆ dom c.validators := by
    rw [dom_insert]; exact Finset.insert_subset (mem_dom.mpr hv) hval.finalize_sub
  have hlt := size_lt_of_not_mem hsub (mem_dom.mpr hw) (by simp [hne, hfw])
  rw [hval.card_validators] at hlt
  exact hlt.ne

theorem meets_finalize (h : s.Valid) {v w : C.Identifier} {p q : C.PublicKeyPackage} (hne : v ≠ w)
    (hpq : C.Agree p q) (ha : applyDkgFinalize s v p = .ok sa) (hb : applyDkgFinalize s w q = .ok sb) :
    ∃ t, applyDkgFinalize sa w q = .ok t ∧ applyDkgFinalize sb v p = .ok t := by
  obtain ⟨c, hc, h2, hv, hfv, hmp, hfa⟩ := applyDkgFinalize_ok.mp ha
  obtain ⟨c', hc', _, hw, hfw, hmq, hfb⟩ := applyDkgFinalize_ok.mp hb
  rw [hc] at hc'; cases hc'
  have hval := h.ceremony hc
  have hda := finalize_extends h hc hne hv hw hfw p
  have hdb := finalize_extends h hc hne.symm hw hv hfv q
  -- neither promotes alone, so both leave an extended ceremony
  have hsa : sa = { s with ceremony := some { c with finalize := c.finalize.insert v p } } := by
    cases hfa with
    | extended _ => rfl
    | promoted hd _ => exact absurd hd hda
  have hsb : sb = { s with ceremony := some { c with finalize := c.finalize.insert w q } } := by
    cases hfb with
    | extended _ => rfl
    | promoted hd _ => exact absurd hd hdb
  subst hsa; subst hsb
  let ca : DkgCeremony C := { c with finalize := c.finalize.insert v p }
  let cb : DkgCeremony C := { c with finalize := c.finalize.insert w q }
  have hva : ca.Valid := hval.withFinalize h2 hv hfv hmp hda
  have hvb : cb.Valid := hval.withFinalize h2 hw hfw hmq hdb
  have hq : ca.mismatch q = false := by
    refine hva.mismatch_iff.mpr fun k r hr => ?_
    exact (hval.agree_insert hmp hr (by simp : (c.finalize.insert v p)[v]? = some p)).trans hpq
  have hp : cb.mismatch p = false := by
    refine hvb.mismatch_iff.mpr fun k r hr => ?_
    exact (hval.agree_insert hmq hr (by simp : (c.finalize.insert w q)[w]? = some q)).trans hpq.symm
  let both : DkgCeremony C := { c with finalize := ca.finalize.insert w q }
  obtain ⟨t, ht⟩ : ∃ t, Finalized s both t := Finalized.exists_of_mem (show w ∈ both.finalize by simp [both])
  refine ⟨t, ?_, ?_⟩
  · exact applyDkgFinalize_ok.mpr ⟨ca, rfl, h2, hw, by simp [ca, hne, hfw], hq, ht.setCeremony _⟩
  · have hcomm : both = { c with finalize := cb.finalize.insert v p } := by
      simp only [both, ca, cb, insert_comm _ _ _ hne]
    rw [hcomm] at ht
    exact applyDkgFinalize_ok.mpr ⟨cb, rfl, h2, hv, by simp [cb, hne.symm, hfv], hp, ht.setCeremony _⟩

theorem no_round1_round2 (h : s.Valid) {v v' w' : C.Identifier} {p : C.Round1Package} {x : Sealed}
    (ha : applyDkgRound1 s v p = .ok sa) (hb : applyDkgRound2 s v' w' x = .ok sb) : False := by
  obtain ⟨c, hc, hv, hr, _⟩ := applyDkgRound1_ok.mp ha
  obtain ⟨c', hc', h1, _⟩ := applyDkgRound2_ok.mp hb
  rw [hc] at hc'; cases hc'
  have := (h.ceremony hc).round1_lt hv hr
  have := DkgCeremony.r1Complete_iff.mp h1
  omega

/-- Round 1 and finalize are open together only when there are no pairs to wait for. -/
theorem total_of_round1_finalize (h : s.Valid) {v w : C.Identifier} {p : C.Round1Package} {q : C.PublicKeyPackage}
    (ha : applyDkgRound1 s v p = .ok sa) (hb : applyDkgFinalize s w q = .ok sb) :
    ∃ c, s.ceremony = some c ∧ c.total = 1 := by
  obtain ⟨c, hc, hv, hr, _⟩ := applyDkgRound1_ok.mp ha
  obtain ⟨c', hc', h2, _⟩ := applyDkgFinalize_ok.mp hb
  rw [hc] at hc'; cases hc'
  exact ⟨c, hc, (h.ceremony hc).total_of_r2Complete hv hr h2⟩

theorem no_round2_finalize (h : s.Valid) {v w v' : C.Identifier} {x : Sealed} {q : C.PublicKeyPackage}
    (ha : applyDkgRound2 s v w x = .ok sa) (hb : applyDkgFinalize s v' q = .ok sb) : False := by
  obtain ⟨c, hc, _, hne, hv, hw, hr, _⟩ := applyDkgRound2_ok.mp ha
  obtain ⟨c', hc', h2, _⟩ := applyDkgFinalize_ok.mp hb
  rw [hc] at hc'; cases hc'
  exact (h.ceremony hc).not_r2Complete hv hw hne hr h2

/-! ## Request pairs -/

theorem thresholdCut_below {params : MpcParams} {message : Bytes} {m : BTreeMap C.Identifier C.SigningCommitments}
    {v : C.Identifier} (com : C.SigningCommitments) (hv : v ∉ m) (hm : m.size + 1 < params.threshold.toNat) :
    thresholdCut params message (m.insert v com) = .awaitingCommitments (m.insert v com) := by
  have ht := params.threshold.toNat_lt
  have hs := size_insert_of_not_mem com hv
  rw [thresholdCut_eq (by omega), if_neg (by omega)]

theorem thresholdCut_reached {params : MpcParams} {message : Bytes} {m : BTreeMap C.Identifier C.SigningCommitments}
    {v : C.Identifier} (com : C.SigningCommitments) (hv : v ∉ m) (hs : m.size + 1 < 65536)
    (hm : params.threshold.toNat ≤ m.size + 1) :
    ∃ pkg parts, thresholdCut params message (m.insert v com) = .signing pkg parts ∅ := by
  have hsz := size_insert_of_not_mem com hv
  rw [thresholdCut_eq (by omega), if_pos (by omega)]
  exact ⟨_, _, rfl⟩

theorem aggregateIfComplete_below {pkp : C.PublicKeyPackage} {randomizer : C.Randomizer} {pkg : C.SigningPackage}
    {parts : Finset C.Identifier} {shares : BTreeMap C.Identifier C.SignatureShare} {v w : C.Identifier}
    (share : C.SignatureShare) (hsub : dom shares ⊆ parts) (hne : v ≠ w) (hv : v ∈ parts) (hw : w ∈ parts)
    (hw' : w ∉ shares) :
    aggregateIfComplete pkp randomizer pkg parts (shares.insert v share) =
      .signing pkg parts (shares.insert v share) := by
  have hsub' : dom (shares.insert v share) ⊆ parts := by
    rw [dom_insert]; exact Finset.insert_subset hv hsub
  have hlt := size_lt_of_not_mem hsub' hw (by simp [hne, hw'])
  unfold aggregateIfComplete
  rw [if_neg hlt.ne]

/-- Both commitments stay below the threshold, and the map does not tell who came first. -/
theorem commitments_meet {g : GroupConfig C} {id : Uuid} {o : RequestEntry C}
    {m : BTreeMap C.Identifier C.SigningCommitments}
    {v w : C.Identifier} (com com' : C.SigningCommitments) (hne : v ≠ w) (hv : v ∈ g.validators) (hw : w ∈ g.validators)
    (hvm : v ∉ m) (hwm : w ∉ m) (hbelow : m.size + 1 < g.params.threshold.toNat) :
    ∃ e, entryStep g (some { o with status := thresholdCut g.params o.message (m.insert v com) })
        (.submitCommitment id w com') = some e ∧
      entryStep g (some { o with status := thresholdCut g.params o.message (m.insert w com') })
        (.submitCommitment id v com) = some e := by
  let e : RequestEntry C := { o with status := thresholdCut g.params o.message ((m.insert v com).insert w com') }
  have hw' : w ∉ m.insert v com := by simp [hne, hwm]
  have hv' : v ∉ m.insert w com' := by simp [hne.symm, hvm]
  refine ⟨e, ?_, ?_⟩
  · exact entryStep_submitCommitment.mpr ⟨hw, _, _, rfl, thresholdCut_below com hvm hbelow, hw', rfl⟩
  · apply entryStep_submitCommitment.mpr
    refine ⟨hv, _, _, rfl, thresholdCut_below com' hwm hbelow, hv', ?_⟩
    simp only [e, insert_comm _ _ _ hne]

/-- The second participant is missing after the first share, whichever it was. -/
theorem shares_meet {g : GroupConfig C} {id : Uuid} {o : RequestEntry C} {pkg : C.SigningPackage}
    {parts : Finset C.Identifier} {shares : BTreeMap C.Identifier C.SignatureShare} {v w : C.Identifier}
    (share share' : C.SignatureShare) (hne : v ≠ w) (hv : v ∈ g.validators) (hw : w ∈ g.validators)
    (hsub : dom shares ⊆ parts) (hvp : v ∈ parts) (hwp : w ∈ parts) (hvs : v ∉ shares) (hws : w ∉ shares) :
    ∃ e, entryStep g (some { o with status := aggregateIfComplete g.pkp o.randomizer pkg parts (shares.insert v share) })
        (.submitShare id w share') = some e ∧
      entryStep g (some { o with status := aggregateIfComplete g.pkp o.randomizer pkg parts (shares.insert w share') })
        (.submitShare id v share) = some e := by
  let e : RequestEntry C := { o with
    status := aggregateIfComplete g.pkp o.randomizer pkg parts ((shares.insert v share).insert w share') }
  have hw' : w ∉ shares.insert v share := by simp [hne, hws]
  have hv' : v ∉ shares.insert w share' := by simp [hne.symm, hvs]
  refine ⟨e, ?_, ?_⟩
  · apply entryStep_submitShare.mpr
    exact ⟨hw, _, _, _, _, rfl, aggregateIfComplete_below share hsub hne hvp hwp hws, hwp, hw', rfl⟩
  · apply entryStep_submitShare.mpr
    refine ⟨hv, _, _, _, _, rfl, aggregateIfComplete_below share' hsub hne.symm hwp hvp hvs, hvp, hv', ?_⟩
    simp only [e, insert_comm _ _ _ hne]

theorem entryStep_meets {g : GroupConfig C} {id : Uuid} {old : Option (RequestEntry C)} {a b : Tx C}
    {ea eb : RequestEntry C} (ha : a.requestId? = some id) (hb : b.requestId? = some id) (hslot : a.slot ≠ b.slot)
    (hold : ∀ o, old = some o → o.Valid g id)
    (hrace : ∀ v com w com' o m, a = .submitCommitment id v com → b = .submitCommitment id w com' → old = some o →
      o.status = .awaitingCommitments m → m.size + 1 < g.params.threshold.toNat)
    (hea : entryStep g old a = some ea) (heb : entryStep g old b = some eb) :
    ∃ e, entryStep g (some ea) b = some e ∧ entryStep g (some eb) a = some e := by
  cases a with
  | submitRequest id' msg r =>
    simp only [Tx.requestId?, Option.some.injEq] at ha; subst ha
    obtain ⟨hn, _⟩ := entryStep_submitRequest.mp hea
    cases b with
    | submitRequest id msg' r' => cases hb; exact absurd rfl hslot
    | submitCommitment id w com =>
      obtain ⟨_, o, _, ho, _⟩ := entryStep_submitCommitment.mp heb
      rw [hn] at ho; cases ho
    | submitShare id w share =>
      obtain ⟨_, o, _, _, _, ho, _⟩ := entryStep_submitShare.mp heb
      rw [hn] at ho; cases ho
    | _ => cases hb
  | submitCommitment id' v com =>
    cases ha
    obtain ⟨hv, o, m, ho, hs, hvm, rfl⟩ := entryStep_submitCommitment.mp hea
    cases b with
    | submitRequest id msg' r' =>
      obtain ⟨hn, _⟩ := entryStep_submitRequest.mp heb
      rw [hn] at ho; cases ho
    | submitCommitment id w com' =>
      cases hb
      obtain ⟨hw, o', m', ho', hs', hwm, rfl⟩ := entryStep_submitCommitment.mp heb
      rw [ho] at ho'; cases ho'
      rw [hs] at hs'; cases hs'
      have hne : v ≠ w := fun h => hslot (by rw [h]; rfl)
      exact commitments_meet com com' hne hv hw hvm hwm (hrace v com w com' o m rfl rfl ho hs)
    | submitShare id w share =>
      obtain ⟨_, o', _, _, _, ho', hs', _⟩ := entryStep_submitShare.mp heb
      rw [ho] at ho'; cases ho'
      rw [hs] at hs'; cases hs'
    | _ => cases hb
  | submitShare id' v share =>
    cases ha
    obtain ⟨hv, o, pkg, parts, shares, ho, hs, hvp, hvs, rfl⟩ := entryStep_submitShare.mp hea
    cases b with
    | submitRequest id msg' r' =>
      obtain ⟨hn, _⟩ := entryStep_submitRequest.mp heb
      rw [hn] at ho; cases ho
    | submitCommitment id w com =>
      obtain ⟨_, o', _, ho', hs', _⟩ := entryStep_submitCommitment.mp heb
      rw [ho] at ho'; cases ho'
      rw [hs] at hs'; cases hs'
    | submitShare id w share' =>
      cases hb
      obtain ⟨hw, o', pkg', parts', shares', ho', hs', hwp, hws, rfl⟩ := entryStep_submitShare.mp heb
      rw [ho] at ho'; cases ho'
      rw [hs] at hs'; cases hs'
      have hne : v ≠ w := fun h => hslot (by rw [h]; rfl)
      have hst := (hold o ho).status
      rw [hs] at hst
      exact shares_meet share share' hne hv hw hst.2.1 hvp hwp hvs hws
    | _ => cases hb
  | _ => cases ha

theorem meets_request (h : s.Valid) {a b : Tx C} {id id' : Uuid} (hia : a.requestId? = some id)
    (hib : b.requestId? = some id') (hslot : a.slot ≠ b.slot) (hc : ¬ Conflict s a b) (ha : applyTx s a = .ok sa)
    (hb : applyTx s b = .ok sb) : Meets sa sb a b := by
  obtain ⟨g, ea, hg, hea, rfl⟩ := (applyTx_request_ok hia).mp ha
  obtain ⟨g', eb, hg', heb, rfl⟩ := (applyTx_request_ok hib).mp hb
  rw [hg] at hg'; cases hg'
  by_cases hid : id = id'
  · subst hid
    obtain ⟨e, h1, h2⟩ := entryStep_meets hia hib hslot (fun o ho => h.request_valid hg ho) (by
      rintro v com w com' o m rfl rfl ho hs
      by_contra hle
      exact hc ⟨rfl, g, o, m, hg, ho, hs, by omega⟩) hea heb
    refine ⟨s.withRequest id e, (applyTx_request_ok hib).mpr ⟨g, e, hg, ?_, ?_⟩,
      (applyTx_request_ok hia).mpr ⟨g, e, hg, ?_, ?_⟩⟩
    · rwa [State.withRequest_get, if_pos rfl]
    · rw [State.withRequest_twice]
    · rwa [State.withRequest_get, if_pos rfl]
    · rw [State.withRequest_twice]
  · refine ⟨(s.withRequest id ea).withRequest id' eb, (applyTx_request_ok hib).mpr ⟨g, eb, hg, ?_, rfl⟩,
      (applyTx_request_ok hia).mpr ⟨g, ea, hg, ?_, s.withRequest_comm ea eb hid⟩⟩
    · rwa [State.withRequest_get, if_neg hid]
    · rwa [State.withRequest_get, if_neg (Ne.symm hid)]

/-! ## The diamond -/

/-- **Without a race, both orders meet in one state.** -/
theorem meets_of_not_conflict (h : s.Valid) {a b : Tx C} (hslot : a.slot ≠ b.slot) (hc : ¬ Conflict s a b)
    (ha : applyTx s a = .ok sa) (hb : applyTx s b = .ok sb) : Meets sa sb a b := by
  have hphase : a.phase = b.phase := (applyTx_phase h ha).trans (applyTx_phase h hb).symm
  cases a with
  | initGroup params pkp validators => cases b <;> first | exact absurd rfl hslot | cases hphase
  | dkgBegin params validators => cases b <;> first | exact absurd rfl hslot | cases hphase
  | dkgRound1 v p =>
    cases b with
    | dkgRound1 w q => exact meets_round1 (fun hvw => hslot (by rw [hvw]; rfl)) ha hb
    | dkgRound2 w w' y => exact (no_round1_round2 h ha hb).elim
    | dkgFinalize w q => exact absurd (total_of_round1_finalize h ha hb) hc
    | _ => cases hphase
  | dkgRound2 v v' x =>
    cases b with
    | dkgRound1 w q => exact (no_round1_round2 h hb ha).elim
    | dkgRound2 w w' y =>
      refine meets_round2 (fun hvw => hslot ?_) ha hb
      cases hvw; rfl
    | dkgFinalize w q => exact (no_round2_finalize h ha hb).elim
    | _ => cases hphase
  | dkgFinalize v p =>
    cases b with
    | dkgRound1 w q => exact absurd (total_of_round1_finalize h hb ha) hc
    | dkgRound2 w w' y => exact (no_round2_finalize h hb ha).elim
    | dkgFinalize w q =>
      exact meets_finalize h (fun hvw => hslot (by rw [hvw]; rfl)) (not_not.mp hc) ha hb
    | _ => cases hphase
  | submitRequest id msg r =>
    cases b with
    | submitRequest id' msg' r' => exact meets_request h rfl rfl hslot hc ha hb
    | submitCommitment id' w com => exact meets_request h rfl rfl hslot hc ha hb
    | submitShare id' w share => exact meets_request h rfl rfl hslot hc ha hb
    | _ => cases hphase
  | submitCommitment id v com =>
    cases b with
    | submitRequest id' msg' r' => exact meets_request h rfl rfl hslot hc ha hb
    | submitCommitment id' w com' => exact meets_request h rfl rfl hslot hc ha hb
    | submitShare id' w share => exact meets_request h rfl rfl hslot hc ha hb
    | _ => cases hphase
  | submitShare id v share =>
    cases b with
    | submitRequest id' msg' r' => exact meets_request h rfl rfl hslot hc ha hb
    | submitCommitment id' w com => exact meets_request h rfl rfl hslot hc ha hb
    | submitShare id' w share' => exact meets_request h rfl rfl hslot hc ha hb
    | _ => cases hphase

theorem Conflict.commitments {id : Uuid} {v w : C.Identifier} {com com' : C.SigningCommitments} (h : s.Valid)
    (hc : Conflict s (.submitCommitment id v com) (.submitCommitment id w com'))
    (ha : applyTx s (.submitCommitment id v com) = .ok sa) (t : State C) :
    applyTx sa (.submitCommitment id w com') ≠ .ok t := by
  intro hab
  obtain ⟨_, g, o, m, hg, ho, hs, hle⟩ := hc
  obtain ⟨g', ea, hg', hea, rfl⟩ := (applyTx_request_ok rfl).mp ha
  rw [hg] at hg'; cases hg'
  obtain ⟨_, o', m', ho', hs', hvm, rfl⟩ := entryStep_submitCommitment.mp hea
  rw [ho] at ho'; cases ho'
  rw [hs] at hs'; cases hs'
  have hst := (h.request_valid hg ho).status
  rw [hs] at hst
  have hlt := g.params.threshold.toNat_lt
  have hsz := hst.2
  obtain ⟨pkg, parts, hcut⟩ : ∃ pkg parts, thresholdCut g.params o.message (m.insert v com) = .signing pkg parts ∅ :=
    thresholdCut_reached com hvm (by omega) hle
  obtain ⟨_, _, _, heb, _⟩ := (applyTx_request_ok rfl).mp hab
  obtain ⟨_, o₂, m₂, ho₂, hs₂, _⟩ := entryStep_submitCommitment.mp heb
  rw [State.withRequest_get, if_pos rfl] at ho₂; cases ho₂
  rw [hcut] at hs₂; cases hs₂

theorem Conflict.finalizes {v w : C.Identifier} {p q : C.PublicKeyPackage} (h : s.Valid) (hne : v ≠ w)
    (hc : ¬ C.Agree p q) (ha : applyDkgFinalize s v p = .ok sa) (hb : applyDkgFinalize s w q = .ok sb)
    (t : State C) : applyDkgFinalize sa w q ≠ .ok t := by
  intro hab
  obtain ⟨c, hs, h2, hv, hfv, hmp, hfa⟩ := applyDkgFinalize_ok.mp ha
  obtain ⟨c', hs', _, hw, hfw, _⟩ := applyDkgFinalize_ok.mp hb
  rw [hs] at hs'; cases hs'
  have hd := finalize_extends h hs hne hv hw hfw p
  cases hfa with
  | promoted hd' _ => exact hd hd'
  | extended _ =>
    obtain ⟨c₂, hs₂, _, _, _, hmq, _⟩ := applyDkgFinalize_ok.mp hab
    cases hs₂
    have hva := (h.ceremony hs).withFinalize h2 hv hfv hmp hd
    exact hc (hva.mismatch_iff.mp hmq v p (by simp))

/-- In a ceremony of one the finalize promotes, and round 1 comes too late. -/
theorem Conflict.single {v w : C.Identifier} {p : C.Round1Package} {q : C.PublicKeyPackage} (h : s.Valid)
    (hc : ∃ c, s.ceremony = some c ∧ c.total = 1) (hb : applyDkgFinalize s w q = .ok sb) (t : State C) :
    applyDkgRound1 sb v p ≠ .ok t := by
  intro hba
  obtain ⟨c, hs, htot⟩ := hc
  obtain ⟨c', hs', _, hw, hfw, _, hfb⟩ := applyDkgFinalize_ok.mp hb
  rw [hs] at hs'; cases hs'
  cases hfb with
  | extended hd =>
    have hlt := (h.ceremony hs).pending (by omega)
    have hsz := size_insert_of_not_mem q hfw
    change (c.finalize.insert w q).size ≠ c.total at hd
    omega
  | promoted _ _ =>
    obtain ⟨c₂, hs₂, _⟩ := applyDkgRound1_ok.mp hba
    cases hs₂

/-- **In a race, one of the two orders is rejected.** -/
theorem Conflict.diverges (h : s.Valid) {a b : Tx C} (hslot : a.slot ≠ b.slot) (hc : Conflict s a b)
    (ha : applyTx s a = .ok sa) (hb : applyTx s b = .ok sb) :
    ¬ ∃ t t', applyTx sa b = .ok t ∧ applyTx sb a = .ok t' := by
  rintro ⟨t, t', hab, hba⟩
  cases a with
  | submitCommitment id v com =>
    cases b with
    | submitCommitment id' w com' =>
      obtain rfl := hc.1
      exact Conflict.commitments h hc ha t hab
    | _ => exact hc
  | dkgFinalize v p =>
    cases b with
    | dkgFinalize w q => exact Conflict.finalizes h (fun hvw => hslot (by rw [hvw]; rfl)) hc ha hb t hab
    | dkgRound1 w q => exact Conflict.single h hc ha t hab
    | _ => exact hc
  | dkgRound1 v p =>
    cases b with
    | dkgFinalize w q => exact Conflict.single h hc hb t' hba
    | _ => exact hc
  | _ => exact hc

end

/-- Equal states, with group packages compared by verifying key and verifying shares. -/
def State.Same (s t : State C) : Prop :=
  s.ceremony = t.ceremony ∧ s.requests = t.requests ∧
    Option.Rel (fun g g' => g.params = g'.params ∧ C.Agree g.pkp g'.pkp ∧ g.validators = g'.validators) s.group t.group

theorem State.Same.refl (s : State C) : s.Same s := by
  refine ⟨rfl, rfl, ?_⟩
  cases s.group with
  | none => exact .none
  | some g => exact .some ⟨rfl, .refl _, rfl⟩

/-- **Diamond.** In every reachable state, two accepted transactions for
different slots are accepted in both orders and lead to the same state,
exactly when they are not a race. -/
theorem applyTx_diamond (txs : List (Tx C)) {a b : Tx C} {sa sb : State C} (hslot : a.slot ≠ b.slot)
    (ha : applyTx (reached txs) a = .ok sa) (hb : applyTx (reached txs) b = .ok sb) :
    (∃ t t', applyTx sa b = .ok t ∧ applyTx sb a = .ok t' ∧ t.Same t') ↔ ¬ Conflict (reached txs) a b := by
  constructor
  · rintro ⟨t, t', hab, hba, _⟩ hc
    exact hc.diverges (reached_valid txs) hslot ha hb ⟨t, t', hab, hba⟩
  · intro hc
    obtain ⟨t, hab, hba⟩ := meets_of_not_conflict (reached_valid txs) hslot hc ha hb
    exact ⟨t, t, hab, hba, .refl t⟩

namespace Ideal

def requested : List (Tx suite) := [.initGroup pair pairKeys [1, 2], .submitRequest id0 [42] (5 : Int)]

def firstCommit : Tx suite := .submitCommitment id0 (1 : Nat) (10 : Nat)

def secondCommit : Tx suite := .submitCommitment id0 (2 : Nat) (20 : Nat)

end Ideal

open Sapphire.Ideal in
theorem applyTx_diamond_pair :
    (∃ t t', applyTx (reached (requested ++ [firstCommit])) secondCommit = .ok t ∧
        applyTx (reached (requested ++ [secondCommit])) firstCommit = .ok t' ∧ t.Same t') ↔
      ¬ Conflict (reached requested) firstCommit secondCommit :=
  applyTx_diamond requested (a := firstCommit) (b := secondCommit)
    (by intro h; cases h) rfl rfl

end Sapphire
