import Sapphire.CeremonyOrder

/-!
# What the stored shapes mean

The chain decides by lengths: a phase is over when a map is as long as it can
get, a request advances when enough entries are in. In reachable states the
lengths say what the code takes them to say.
-/

namespace Sapphire

open BTreeMap Replay

variable {C : Ciphersuite}

/-! ## Ceremonies -/

/-- Each test of a ceremony says that a phase is covered. -/
structure DkgCeremony.Covered (s : State C) (c : DkgCeremony C) : Prop where
  no_group : s.group = none
  count : (dom c.validators).card = c.total
  round1 : c.r1Complete = true ↔ ∀ v ∈ c.validators, v ∈ c.round1
  round2 : ∃ b, c.r2Complete = .ok b ∧
    (b = true ↔ ∀ v ∈ c.validators, ∀ w ∈ c.validators, v ≠ w → toLex (v, w) ∈ c.round2)
  round2_after : c.round2 ≠ ∅ → c.r1Complete = true
  finalize_after : c.finalize ≠ ∅ → c.r2Complete = .ok true
  finalize_sub : ∀ v ∈ c.finalize, v ∈ c.validators
  finalize_agree : ∀ (v w : C.Identifier) p q, c.finalize[v]? = some p → c.finalize[w]? = some q → C.Agree p q
  pending : c.finalizeComplete = false

/-- **Coverage.** In every reachable state with a ceremony of at least one, counts mean coverage. -/
theorem ceremony_covered (txs : List (Tx C)) {c : DkgCeremony C} (hc : (reached txs).ceremony = some c)
    (htotal : 1 ≤ c.params.total.toNat) : c.Covered (reached txs) := by
  have hvalid := reached_valid txs
  have h := hvalid.ceremony hc
  exact {
    no_group := hvalid.exclusive hc
    count := h.card_validators
    round1 := h.r1Complete_iff_all
    round2 := by
      have hall := h.r2Complete_iff_all htotal
      rw [DkgCeremony.r2Complete_pos htotal] at hall ⊢
      exact ⟨_, rfl, by simpa using hall⟩
    round2_after := fun hne => DkgCeremony.r1Complete_iff.mpr (h.round2_after (ne_empty_of_size hne))
    finalize_after := fun hne => h.finalize_after (ne_empty_of_size hne)
    finalize_sub := fun v hv => mem_dom.mp (h.finalize_sub (mem_dom.mpr hv))
    finalize_agree := fun _ _ _ _ hv hw => h.agree hv hw
    pending := by
      have hlt := h.pending (Nat.one_le_iff_ne_zero.mp htotal)
      simpa [DkgCeremony.finalizeComplete] using hlt.ne }

def Ideal.duoHalf : DkgCeremony Ideal.suite :=
  { params := Ideal.pair, validators := Ideal.duoMembers,
    round1 := ((∅ : BTreeMap Nat Int).insert 1 1).insert 2 2,
    round2 := (∅ : BTreeMap (Nat ×ₗ Nat) Sealed).insert (toLex (1, 2)) ⟨[]⟩, finalize := ∅ }

theorem ceremony_covered_duo : Ideal.duoHalf.Covered (reached (Ideal.duoRun.take 4)) :=
  ceremony_covered (Ideal.duoRun.take 4) (c := Ideal.duoHalf) rfl (by decide)

/-! ## Parameters that were checked -/

def MpcParams.Checked (params : MpcParams) : Prop := MpcParams.new params.threshold params.total = .ok params

theorem MpcParams.Checked.pos {params : MpcParams} (h : params.Checked) : 0 < params.threshold.toNat := by
  unfold Checked MpcParams.new at h
  split at h
  · cases h
  · rename_i hn
    rw [Nat.pos_iff_ne_zero]
    intro h0
    exact hn (Or.inl (UInt16.toNat_inj.mp h0))

def Tx.ParamsChecked : Tx C → Prop
  | .initGroup params _ _ => params.Checked
  | .dkgBegin params _ => params.Checked
  | _ => True

structure State.ParamsChecked (s : State C) : Prop where
  ceremony : ∀ c, s.ceremony = some c → c.params.Checked
  group : ∀ g, s.group = some g → g.params.Checked

theorem applyTx_paramsChecked {s s' : State C} {tx : Tx C} (h : s.ParamsChecked) (htx : tx.ParamsChecked)
    (ha : applyTx s tx = .ok s') : s'.ParamsChecked := by
  cases tx with
  | initGroup params pkp validators =>
    obtain ⟨_, _, _, rfl⟩ := applyInitGroup_ok.mp ha
    exact ⟨h.ceremony, fun g hg => by cases hg; exact htx⟩
  | dkgBegin params validators =>
    obtain ⟨_, _, _, rfl⟩ := applyDkgBegin_ok.mp ha
    exact ⟨fun c hc => by cases hc; exact htx, h.group⟩
  | dkgRound1 v package =>
    obtain ⟨c, hc, _, _, rfl⟩ := applyDkgRound1_ok.mp ha
    exact ⟨fun c' hc' => by cases hc'; exact h.ceremony c hc, h.group⟩
  | dkgRound2 v w sealed =>
    obtain ⟨c, hc, _, _, _, _, _, rfl⟩ := applyDkgRound2_ok.mp ha
    exact ⟨fun c' hc' => by cases hc'; exact h.ceremony c hc, h.group⟩
  | dkgFinalize v pkp =>
    obtain ⟨c, hc, _, _, _, _, hfin⟩ := applyDkgFinalize_ok.mp ha
    cases hfin with
    | extended _ => exact ⟨fun c' hc' => by cases hc'; exact h.ceremony c hc, h.group⟩
    | promoted _ _ => exact ⟨fun _ hc' => (by cases hc'), fun g hg => by cases hg; exact h.ceremony c hc⟩
  | _ =>
    obtain ⟨g, e, _, _, rfl⟩ := (applyTx_request_ok rfl).mp ha
    exact ⟨h.ceremony, h.group⟩

theorem reached_paramsChecked {txs : List (Tx C)} (h : ∀ tx ∈ txs, tx.ParamsChecked) :
    (reached txs).ParamsChecked := by
  refine replay_invariant_of (Q := Tx.ParamsChecked) (fun _ _ _ hs htx ha => applyTx_paramsChecked hs htx ha) ?_ h
  exact ⟨fun _ hc => (by cases hc), fun _ hg => (by cases hg)⟩

/-! ## Requests -/

def RequestStatus.Represented (g : GroupConfig C) (message : Bytes) : RequestStatus C → Prop
  | .awaitingCommitments m => m.size < g.params.threshold.toNat ∧ dom m ⊆ g.validators
  | .signing pkg parts shares =>
    parts.card = g.params.threshold.toNat ∧ parts ⊆ g.validators ∧ dom (C.packageCommitments pkg) = parts ∧
      C.packageMessage pkg = message ∧ dom shares ⊂ parts
  | .completed parts _ => parts.card = g.params.threshold.toNat ∧ parts ⊆ g.validators
  | .failed _ => True

structure RequestEntry.Represented (g : GroupConfig C) (id : Uuid) (e : RequestEntry C) : Prop where
  key : e.requestId = id
  status : e.status.Represented g e.message

/-- The commitment that makes it the `threshold`-th distinct one selects all
that were made; any before it is only stored. -/
def CommitmentCounted (s s' : State C) (id : Uuid) (v : C.Identifier) (com : C.SigningCommitments) : Prop :=
  ∃ g o m e, s.group = some g ∧ s.requests[id]? = some o ∧ o.status = .awaitingCommitments m ∧ v ∉ m ∧
    s'.requests[id]? = some e ∧
    (m.size + 1 < g.params.threshold.toNat ∧ e.status = .awaitingCommitments (m.insert v com) ∨
      m.size + 1 = g.params.threshold.toNat ∧ ∃ pkg, e.status = .signing pkg (insert v (dom m)) ∅)

structure State.Represented (s : State C) : Prop where
  entry : ∀ (id : Uuid) e, s.requests[id]? = some e → ∃ g, s.group = some g ∧ e.Represented g id
  commitment : ∀ id v com s', applyTx s (.submitCommitment id v com) = .ok s' → CommitmentCounted s s' id v com

theorem RequestStatus.Valid.represented (hlaws : PackageLaws C) {g : GroupConfig C}
    (hpos : 0 < g.params.threshold.toNat)
    {message : Bytes} {r : C.Randomizer} {status : RequestStatus C} (h : status.Valid g message r) :
    status.Represented g message := by
  cases status with
  | awaitingCommitments m =>
    obtain ⟨hsub, hsize⟩ := h
    exact ⟨by omega, hsub⟩
  | signing pkg parts shares =>
    obtain ⟨hcut, hsub, hlt⟩ := h
    obtain ⟨chosen, hchosen, rfl⟩ := hcut.package
    refine ⟨hcut.card, hcut.sub, by rw [hlaws.commitments, hchosen], hlaws.message _ _, hsub.ssubset_of_ne ?_⟩
    rintro rfl
    have := hlt (by rw [hcut.card]; omega)
    rw [card_dom] at this; omega
  | completed parts sig =>
    obtain ⟨pkg, shares, hcut, _⟩ := h
    exact ⟨hcut.card, hcut.sub⟩
  | failed reason => trivial

theorem commitment_counted {s s' : State C} (hs : s.Valid) (hparams : s.ParamsChecked) {id : Uuid} {v : C.Identifier}
    {com : C.SigningCommitments} (ha : applyTx s (.submitCommitment id v com) = .ok s') :
    CommitmentCounted s s' id v com := by
  obtain ⟨g, e, hg, hstep, rfl⟩ := (applyTx_request_ok rfl).mp ha
  obtain ⟨_, o, m, ho, hst, hm, rfl⟩ := entryStep_submitCommitment.mp hstep
  have hvalid := (hs.request_valid hg ho).status
  rw [hst] at hvalid
  have hpos := (hparams.group g hg).pos
  have ht := g.params.threshold.toNat_lt
  have hsize := size_insert_of_not_mem com hm
  have hlt : m.size < g.params.threshold.toNat := by have := hvalid.2; omega
  refine ⟨g, o, m, _, hg, ho, hst, hm, s.withRequest_self id _, ?_⟩
  rw [thresholdCut_eq (by omega), hsize]
  by_cases hle : g.params.threshold.toNat ≤ m.size + 1
  · right
    rw [if_pos hle, dom_cut_of_size (by omega), dom_insert]
    exact ⟨by omega, _, rfl⟩
  · left
    rw [if_neg hle]
    exact ⟨by omega, rfl⟩

/-- **Requests.** In every state reached with parameters that `MpcParams::new` accepts. -/
theorem request_represented (hlaws : PackageLaws C) (txs : List (Tx C)) (hparams : ∀ tx ∈ txs, tx.ParamsChecked) :
    (reached txs).Represented where
  entry id e he := by
    obtain ⟨g, hg, hv⟩ := (reached_valid txs).request he
    have hpos := ((reached_paramsChecked hparams).group g hg).pos
    exact ⟨g, hg, hv.key, hv.status.represented hlaws hpos⟩
  commitment _ _ _ _ ha := commitment_counted (reached_valid txs) (reached_paramsChecked hparams) ha

theorem request_represented_pair : (reached Ideal.pairRun).Represented :=
  request_represented Ideal.packageLaws Ideal.pairRun (by
    simp [Ideal.pairRun, Tx.ParamsChecked, MpcParams.Checked, MpcParams.new, Ideal.pair])

end Sapphire
