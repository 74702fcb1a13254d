import Sapphire.ChainSteps
import Sapphire.Replay

/-!
# The invariant of reachable chain states

Counts in the ceremony mean coverage: keys stay among the validators, so a
full count is a full set. A request keeps the message and randomizer it was
created with, and its status carries what the next phase relies on.
-/

namespace Sapphire

open BTreeMap Replay

variable {C : Ciphersuite}

/-! ## Ceremonies -/

def DkgCeremony.pairs (c : DkgCeremony C) : Finset (C.Identifier ×ₗ C.Identifier) :=
  (dom c.validators).offDiag.map toLex.toEmbedding

theorem DkgCeremony.mem_pairs {c : DkgCeremony C} {v w : C.Identifier} :
    toLex (v, w) ∈ c.pairs ↔ v ∈ c.validators ∧ w ∈ c.validators ∧ v ≠ w := by
  simp [pairs, Finset.mem_offDiag]

theorem DkgCeremony.card_pairs (c : DkgCeremony C) : c.pairs.card = c.validators.size * (c.validators.size - 1) := by
  rw [pairs, Finset.card_map, Finset.offDiag_card, card_dom, Nat.mul_sub, Nat.mul_one]

structure DkgCeremony.Valid (c : DkgCeremony C) : Prop where
  count : c.validators.size = c.total
  round1_sub : dom c.round1 ⊆ dom c.validators
  round2_sub : dom c.round2 ⊆ c.pairs
  finalize_sub : dom c.finalize ⊆ dom c.validators
  round2_after : c.round2.size ≠ 0 → c.round1.size = c.total
  finalize_after : c.finalize.size ≠ 0 → c.r2Complete = .ok true
  agree : ∀ {v w : C.Identifier} {p q}, c.finalize[v]? = some p → c.finalize[w]? = some q → C.Agree p q
  pending : c.total ≠ 0 → c.finalize.size < c.total

namespace DkgCeremony.Valid

variable {c : DkgCeremony C} (h : c.Valid)
include h

theorem card_validators : (dom c.validators).card = c.total := by rw [card_dom, h.count]

theorem card_pairs : c.pairs.card = c.total * (c.total - 1) := by rw [c.card_pairs, h.count]

theorem total_pos {v : C.Identifier} (hv : v ∈ c.validators) : 0 < c.total := by
  rw [← h.count]; exact size_pos_of_mem hv

theorem round1_lt {v : C.Identifier} (hv : v ∈ c.validators) (hr : v ∉ c.round1) : c.round1.size < c.total := by
  have := size_lt_of_not_mem h.round1_sub (mem_dom.mpr hv) hr
  rwa [h.card_validators] at this

theorem round2_lt {v w : C.Identifier} (hv : v ∈ c.validators) (hw : w ∈ c.validators) (hne : v ≠ w)
    (hr : toLex (v, w) ∉ c.round2) : c.round2.size < c.total * (c.total - 1) := by
  have := size_lt_of_not_mem h.round2_sub (mem_pairs.mpr ⟨hv, hw, hne⟩) hr
  rwa [h.card_pairs] at this

theorem finalize_lt {v : C.Identifier} (hv : v ∈ c.validators) (hr : v ∉ c.finalize) :
    c.finalize.size < c.total := by
  have := size_lt_of_not_mem h.finalize_sub (mem_dom.mpr hv) hr
  rwa [h.card_validators] at this

theorem round2_empty_of_round1_lt (hr : c.round1.size < c.total) : c.round2.size = 0 := by
  by_contra hne
  have := h.round2_after hne; omega

theorem mismatch_iff {pkp : C.PublicKeyPackage} :
    c.mismatch pkp = false ↔ ∀ (v : C.Identifier) p, c.finalize[v]? = some p → C.Agree p pkp := by
  rw [DkgCeremony.mismatch_iff]
  constructor
  · intro hf v p hp
    obtain ⟨k, q, hq⟩ := first?_some_of_mem (mem_of_getElem? hp)
    exact (h.agree hp (first?_mem hq)).trans (hf k q hq)
  · intro ha k p hp
    exact ha k p (first?_mem hp)

theorem r1Complete_iff_all :
    c.r1Complete = true ↔ ∀ v ∈ c.validators, v ∈ c.round1 := by
  rw [DkgCeremony.r1Complete_iff, ← h.card_validators, size_eq_card_iff h.round1_sub]
  simp

theorem r2Complete_iff_all (hpos : 0 < c.total) :
    c.r2Complete = .ok true ↔ ∀ v ∈ c.validators, ∀ w ∈ c.validators, v ≠ w → toLex (v, w) ∈ c.round2 := by
  have hsize : c.r2Complete = .ok true ↔ c.round2.size = c.pairs.card := by
    rw [DkgCeremony.r2Complete_iff, h.card_pairs]
    simp [hpos]
  rw [hsize, size_eq_card_iff h.round2_sub]
  constructor
  · intro hall v hv w hw hne
    exact hall _ (DkgCeremony.mem_pairs.mpr ⟨hv, hw, hne⟩)
  · rintro hall k hk
    obtain ⟨hv, hw, hne⟩ := DkgCeremony.mem_pairs.mp hk
    exact hall _ hv _ hw hne

/-- A missing round-1 package leaves no pairs to wait for only in a ceremony of one. -/
theorem total_of_r2Complete {v : C.Identifier} (hv : v ∈ c.validators) (hr : v ∉ c.round1)
    (h2 : c.r2Complete = .ok true) : c.total = 1 := by
  obtain ⟨hpos, hsize⟩ := r2Complete_iff.mp h2
  have hzero := h.round2_empty_of_round1_lt (h.round1_lt hv hr)
  rw [hzero] at hsize
  rcases Nat.mul_eq_zero.mp hsize.symm with h0 | h0 <;> omega

theorem not_r2Complete {v w : C.Identifier} (hv : v ∈ c.validators) (hw : w ∈ c.validators) (hne : v ≠ w)
    (hr : toLex (v, w) ∉ c.round2) : c.r2Complete ≠ .ok true := by
  intro h2
  have hlt := h.round2_lt hv hw hne hr
  have hsize := (r2Complete_iff.mp h2).2
  omega

/-- The one participant of a ceremony would have ended it. -/
theorem finalize_empty_of_round1 {v : C.Identifier} (hv : v ∈ c.validators) (hr : v ∉ c.round1) :
    c.finalize.size = 0 := by
  by_contra hf
  have htotal := h.total_of_r2Complete hv hr (h.finalize_after hf)
  have hpending := h.pending (by omega)
  omega

theorem finalize_empty_of_round2 {v w : C.Identifier} (hv : v ∈ c.validators) (hw : w ∈ c.validators) (hne : v ≠ w)
    (hr : toLex (v, w) ∉ c.round2) : c.finalize.size = 0 := by
  by_contra hf
  exact h.not_r2Complete hv hw hne hr (h.finalize_after hf)

theorem withRound1 {v : C.Identifier} {package : C.Round1Package} (hv : v ∈ c.validators) (hr : v ∉ c.round1) :
    ({ c with round1 := c.round1.insert v package } : DkgCeremony C).Valid where
  count := h.count
  round1_sub := by
    rw [dom_insert]
    exact Finset.insert_subset (mem_dom.mpr hv) h.round1_sub
  round2_sub := h.round2_sub
  finalize_sub := h.finalize_sub
  round2_after := fun hne => absurd (h.round2_empty_of_round1_lt (h.round1_lt hv hr)) hne
  finalize_after := h.finalize_after
  agree := h.agree
  pending := h.pending

theorem withRound2 {v w : C.Identifier} {sealed : Sealed} (h1 : c.r1Complete = true) (hne : v ≠ w)
    (hv : v ∈ c.validators) (hw : w ∈ c.validators) (hr : toLex (v, w) ∉ c.round2) :
    ({ c with round2 := c.round2.insert (toLex (v, w)) sealed } : DkgCeremony C).Valid where
  count := h.count
  round1_sub := h.round1_sub
  round2_sub := by
    rw [dom_insert]
    exact Finset.insert_subset (mem_pairs.mpr ⟨hv, hw, hne⟩) h.round2_sub
  finalize_sub := h.finalize_sub
  round2_after := fun _ => r1Complete_iff.mp h1
  finalize_after := fun hf => absurd (h.finalize_empty_of_round2 hv hw hne hr) hf
  agree := h.agree
  pending := h.pending

theorem agree_insert {v : C.Identifier} {pkp : C.PublicKeyPackage} (hm : c.mismatch pkp = false)
    {a b : C.Identifier} {p q : C.PublicKeyPackage}
    (ha : (c.finalize.insert v pkp)[a]? = some p) (hb : (c.finalize.insert v pkp)[b]? = some q) : C.Agree p q := by
  have hall := h.mismatch_iff.mp hm
  rw [getElem?_insert'] at ha hb
  split at ha
  · cases ha
    split at hb
    · cases hb; exact .refl _
    · exact (hall _ _ hb).symm
  · split at hb
    · cases hb; exact hall _ _ ha
    · exact h.agree ha hb

theorem withFinalize {v : C.Identifier} {pkp : C.PublicKeyPackage} (h2 : c.r2Complete = .ok true)
    (hv : v ∈ c.validators) (hf : v ∉ c.finalize) (hm : c.mismatch pkp = false)
    (hd : (c.finalize.insert v pkp).size ≠ c.total) :
    ({ c with finalize := c.finalize.insert v pkp } : DkgCeremony C).Valid where
  count := h.count
  round1_sub := h.round1_sub
  round2_sub := h.round2_sub
  finalize_sub := by
    rw [dom_insert]
    exact Finset.insert_subset (mem_dom.mpr hv) h.finalize_sub
  round2_after := h.round2_after
  finalize_after := fun _ => h2
  agree := h.agree_insert hm
  pending := fun _ => by
    have := h.finalize_lt hv hf
    rw [size_insert_of_not_mem pkp hf] at hd ⊢
    show c.finalize.size + 1 < c.total
    omega

end DkgCeremony.Valid

/-! ## Requests -/

/-- What the threshold cut fixes: the selected participants and a signing
package over the entry's own message. -/
structure CutValid (g : GroupConfig C) (message : Bytes) (pkg : C.SigningPackage) (parts : Finset C.Identifier) :
    Prop where
  sub : parts ⊆ g.validators
  card : parts.card = g.params.threshold.toNat
  package : ∃ chosen, dom chosen = parts ∧ pkg = C.signingPackage chosen message

def RequestStatus.Valid (g : GroupConfig C) (message : Bytes) (randomizer : C.Randomizer) : RequestStatus C → Prop
  | .awaitingCommitments m => dom m ⊆ g.validators ∧ (m.size = 0 ∨ m.size < g.params.threshold.toNat)
  | .signing pkg parts shares =>
    CutValid g message pkg parts ∧ dom shares ⊆ parts ∧ (parts.card ≠ 0 → shares.size < parts.card)
  | .completed parts sig => ∃ pkg shares, CutValid g message pkg parts ∧ parts.Nonempty ∧ dom shares = parts ∧
      C.aggregate pkg shares g.pkp (C.fromRandomizer (C.verifyingKey g.pkp) randomizer) = .ok sig
  | .failed _ => True

structure RequestEntry.Valid (g : GroupConfig C) (id : Uuid) (e : RequestEntry C) : Prop where
  key : e.requestId = id
  status : e.status.Valid g e.message e.randomizer

theorem threshold_le_iff {t : UInt16} {n : Nat} : t ≤ UInt16.ofNat n ↔ t.toNat ≤ n % 65536 := by
  rw [UInt16.le_iff_toNat_le, UInt16.toNat_ofNat']

theorem thresholdCut_eq {params : MpcParams} {message : Bytes} {m : BTreeMap C.Identifier C.SigningCommitments}
    (hm : m.size < 65536) :
    thresholdCut params message m =
      if params.threshold.toNat ≤ m.size then
        .signing (C.signingPackage (cut params.threshold.toNat m) message) (dom (cut params.threshold.toNat m)) ∅
      else .awaitingCommitments m := by
  unfold thresholdCut
  simp only [threshold_le_iff, Nat.mod_eq_of_lt hm]

theorem thresholdCut_valid {g : GroupConfig C} {message : Bytes} {randomizer : C.Randomizer}
    {m : BTreeMap C.Identifier C.SigningCommitments} {v : C.Identifier} {com : C.SigningCommitments}
    (hsub : dom m ⊆ g.validators) (hsz : m.size = 0 ∨ m.size < g.params.threshold.toNat)
    (hv : v ∈ g.validators) (hm : v ∉ m) :
    (thresholdCut g.params message (m.insert v com)).Valid g message randomizer := by
  have ht := g.params.threshold.toNat_lt
  have hs := size_insert_of_not_mem com hm
  have hdom : dom (m.insert v com) ⊆ g.validators := by
    rw [dom_insert]; exact Finset.insert_subset hv hsub
  rw [thresholdCut_eq (by omega)]
  by_cases hle : g.params.threshold.toNat ≤ (m.insert v com).size
  · rw [if_pos hle]
    refine ⟨⟨(dom_cut_subset _ _).trans hdom, ?_, _, rfl, rfl⟩, by simp, fun hne => ?_⟩
    · rw [card_dom, size_cut, Nat.min_eq_left hle]
    · rw [Std.ExtTreeMap.size_empty]; omega
  · rw [if_neg hle]
    exact ⟨hdom, Or.inr (by omega)⟩

theorem aggregateIfComplete_valid {g : GroupConfig C} {message : Bytes} {randomizer : C.Randomizer}
    {pkg : C.SigningPackage} {parts : Finset C.Identifier} {shares : BTreeMap C.Identifier C.SignatureShare}
    {v : C.Identifier} {share : C.SignatureShare} (hcut : CutValid g message pkg parts)
    (hsub : dom shares ⊆ parts) (hsz : parts.card ≠ 0 → shares.size < parts.card)
    (hv : v ∈ parts) (hm : v ∉ shares) :
    (aggregateIfComplete g.pkp randomizer pkg parts (shares.insert v share)).Valid g message randomizer := by
  have hpos : parts.card ≠ 0 := (Finset.card_pos.mpr ⟨v, hv⟩).ne'
  have hs := size_insert_of_not_mem share hm
  have hdom : dom (shares.insert v share) ⊆ parts := by
    rw [dom_insert]; exact Finset.insert_subset hv hsub
  unfold aggregateIfComplete
  by_cases hd : (shares.insert v share).size = parts.card
  · rw [if_pos hd]
    cases ha : C.aggregate pkg (shares.insert v share) g.pkp (C.fromRandomizer (C.verifyingKey g.pkp) randomizer) with
    | ok sig => exact ⟨pkg, _, hcut, ⟨v, hv⟩, dom_eq_of_size hdom hd.ge, ha⟩
    | error e => trivial
  · rw [if_neg hd]
    exact ⟨hcut, hdom, fun _ => by have := hsz hpos; omega⟩

theorem entryStep_valid {g : GroupConfig C} {id : Uuid} {old : Option (RequestEntry C)} {tx : Tx C}
    {e : RequestEntry C} (hid : tx.requestId? = some id) (hold : ∀ o, old = some o → o.Valid g id)
    (h : entryStep g old tx = some e) : e.Valid g id := by
  cases tx with
  | submitRequest id' msg r =>
    simp only [Tx.requestId?, Option.some.injEq] at hid; subst hid
    obtain ⟨_, rfl⟩ := entryStep_submitRequest.mp h
    exact ⟨rfl, by simp [RequestStatus.Valid]⟩
  | submitCommitment id' v com =>
    obtain ⟨hv, o, m, ho, hs, hm, rfl⟩ := entryStep_submitCommitment.mp h
    have hval := hold o ho
    have hst := hval.status
    rw [hs] at hst
    exact ⟨hval.key, thresholdCut_valid hst.1 hst.2 hv hm⟩
  | submitShare id' v share =>
    obtain ⟨_, o, pkg, parts, shares, ho, hs, hv, hm, rfl⟩ := entryStep_submitShare.mp h
    have hval := hold o ho
    have hst := hval.status
    rw [hs] at hst
    exact ⟨hval.key, aggregateIfComplete_valid hst.1 hst.2.1 hst.2.2 hv hm⟩
  | _ => simp [Tx.requestId?] at hid

/-! ## States -/

structure State.Valid (s : State C) : Prop where
  exclusive : ∀ {c}, s.ceremony = some c → s.group = none
  ceremony : ∀ {c}, s.ceremony = some c → c.Valid
  request : ∀ {id : Uuid} {e}, s.requests[id]? = some e → ∃ g, s.group = some g ∧ e.Valid g id

namespace State.Valid

theorem default : (State.default : State C).Valid where
  exclusive := fun h => by simp [State.default] at h
  ceremony := fun h => by simp [State.default] at h
  request := fun h => by simp [State.default] at h

variable {s : State C} (h : s.Valid)
include h

theorem no_ceremony {g : GroupConfig C} (hg : s.group = some g) : s.ceremony = none := by
  cases hc : s.ceremony with
  | none => rfl
  | some c => rw [h.exclusive hc] at hg; cases hg

theorem no_request (hg : s.group = none) {id : Uuid} {e : RequestEntry C} : s.requests[id]? ≠ some e := by
  intro he
  obtain ⟨g, hg', _⟩ := h.request he
  rw [hg] at hg'; cases hg'

theorem request_valid {g : GroupConfig C} (hg : s.group = some g) {id : Uuid} {e : RequestEntry C}
    (he : s.requests[id]? = some e) : e.Valid g id := by
  obtain ⟨g', hg', hv⟩ := h.request he
  rw [hg] at hg'; cases hg'; exact hv

/-- Without a group there are no requests yet, so setting one leaves nothing to check. -/
theorem setGroup (hg : s.group = none) (g : GroupConfig C) :
    ({ s with ceremony := none, group := some g } : State C).Valid where
  exclusive := fun hc => by cases hc
  ceremony := fun hc => by cases hc
  request := fun he => absurd he (h.no_request hg)

theorem setCeremony (hg : s.group = none) {c : DkgCeremony C} (hc : c.Valid) :
    ({ s with ceremony := some c } : State C).Valid where
  exclusive := fun _ => hg
  ceremony := fun hc' => by cases hc'; exact hc
  request := h.request

theorem setRequest {g : GroupConfig C} (hg : s.group = some g) {id : Uuid} {e : RequestEntry C} (he : e.Valid g id) :
    (s.withRequest id e).Valid where
  exclusive := h.exclusive
  ceremony := h.ceremony
  request := fun {id' e'} h' => by
    rw [State.withRequest_get] at h'
    split at h'
    · rename_i hid; cases h'; subst hid
      exact ⟨g, hg, he⟩
    · exact h.request h'

end State.Valid

theorem DkgCeremony.Valid.begin {params : MpcParams} {validators : BTreeMap C.Identifier EncPublicKey}
    (hn : validators.size = params.total.toNat) :
    ({ params, validators, round1 := ∅, round2 := ∅, finalize := ∅ } : DkgCeremony C).Valid where
  count := hn
  round1_sub := by simp
  round2_sub := by simp
  finalize_sub := by simp
  round2_after := fun h => absurd Std.ExtTreeMap.size_empty h
  finalize_after := fun h => absurd Std.ExtTreeMap.size_empty h
  agree := fun h => by simp at h
  pending := fun h => by simpa [Nat.pos_iff_ne_zero] using h

theorem applyTx_valid {s s' : State C} {tx : Tx C} (h : s.Valid) (ha : applyTx s tx = .ok s') : s'.Valid := by
  cases tx with
  | initGroup params pkp validators =>
    obtain ⟨hg, hc, _, rfl⟩ := applyInitGroup_ok.mp ha
    have := h.setGroup hg { params, pkp, validators := validators.toFinset }
    rwa [← hc] at this
  | dkgBegin params validators =>
    obtain ⟨hg, _, hn, rfl⟩ := applyDkgBegin_ok.mp ha
    exact h.setCeremony hg (.begin hn)
  | dkgRound1 v package =>
    obtain ⟨c, hc, hv, hr, rfl⟩ := applyDkgRound1_ok.mp ha
    exact h.setCeremony (h.exclusive hc) ((h.ceremony hc).withRound1 hv hr)
  | dkgRound2 v w sealed =>
    obtain ⟨c, hc, h1, hne, hv, hw, hr, rfl⟩ := applyDkgRound2_ok.mp ha
    exact h.setCeremony (h.exclusive hc) ((h.ceremony hc).withRound2 h1 hne hv hw hr)
  | dkgFinalize v pkp =>
    obtain ⟨c, hc, h2, hv, hf, hm, hfin⟩ := applyDkgFinalize_ok.mp ha
    cases hfin with
    | extended hd => exact h.setCeremony (h.exclusive hc) ((h.ceremony hc).withFinalize h2 hv hf hm hd)
    | promoted hd hp => exact h.setGroup (h.exclusive hc) _
  | submitRequest id msg r =>
    obtain ⟨g, e, hg, he, rfl⟩ := (applyTx_request_ok rfl).mp ha
    exact h.setRequest hg (entryStep_valid rfl (fun o ho => h.request_valid hg ho) he)
  | submitCommitment id v com =>
    obtain ⟨g, e, hg, he, rfl⟩ := (applyTx_request_ok rfl).mp ha
    exact h.setRequest hg (entryStep_valid rfl (fun o ho => h.request_valid hg ho) he)
  | submitShare id v share =>
    obtain ⟨g, e, hg, he, rfl⟩ := (applyTx_request_ok rfl).mp ha
    exact h.setRequest hg (entryStep_valid rfl (fun o ho => h.request_valid hg ho) he)

/-- The state a replica reaches from `State::default()`, dropping what is rejected. -/
abbrev reached (txs : List (Tx C)) : State C := replay applyTx State.default txs

theorem reached_valid (txs : List (Tx C)) : (reached txs).Valid :=
  replay_invariant (fun _ _ _ h ha => applyTx_valid h ha) .default txs

/-- What holds of an entry, and did not of the one before, an accepted transaction for its id brought about. -/
theorem exists_entry_gain {Q : RequestEntry C → Prop} {log : List (Tx C)} {id : Uuid} {e : RequestEntry C}
    (he : (reached log).requests[id]? = some e) (hq : Q e) :
    ∃ pre tx post g e', log = pre ++ tx :: post ∧ tx.requestId? = some id ∧ (reached pre).group = some g ∧
      entryStep g (reached pre).requests[id]? tx = some e' ∧
      applyTx (reached pre) tx = .ok ((reached pre).withRequest id e') ∧ Q e' ∧
      ∀ o, (reached pre).requests[id]? = some o → ¬ Q o := by
  let gained : State C → Prop := fun s => ∃ o, s.requests[id]? = some o ∧ Q o
  have h0 : ¬ gained State.default := by
    rintro ⟨o, ho, _⟩
    simp [State.default] at ho
  obtain ⟨pre, tx, post, s', hlog, hn, ha, o, ho, hqo⟩ :=
    exists_gain applyTx h0 (show gained (reached log) from ⟨e, he, hq⟩)
  rcases applyTx_entry ha id with heq | ⟨g, e', hid, hg, hstep, rfl⟩
  · exact absurd ⟨o, heq ▸ ho, hqo⟩ hn
  · rw [State.withRequest_self] at ho; cases ho
    exact ⟨pre, tx, post, g, o, hlog, hid, hg, hstep, ha, hqo, fun o' ho' hq' => hn ⟨o', ho', hq'⟩⟩

end Sapphire
