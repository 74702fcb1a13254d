import Sapphire.Confluence
import Sapphire.Monotone
import Sapphire.View

/-!
# Gossip without consensus

A replica drops a transaction that comes too early, and what it drops it will
not be sent again: so replicas may differ. Where every transaction is offered
again and again they cannot, as long as the transactions do not race each
other: then every replica that has nothing left to accept is in one state.
-/

namespace Sapphire

open BTreeMap Replay

variable {C : Ciphersuite}

def Tx.params? : Tx C → Option MpcParams
  | .initGroup params _ _ => some params
  | .dkgBegin params _ => some params
  | _ => none

/-- Transactions of which no two claim one slot and no two race: all finalize
alike, no ceremony has one participant, and no more validators commit to a
request than its threshold. -/
structure Uncontested (U : Ledger C) : Prop where
  slots : ∀ a ∈ U, ∀ b ∈ U, a.slot = b.slot → a = b
  finalizes : ∀ v p w q, Tx.dkgFinalize v p ∈ U → Tx.dkgFinalize w q ∈ U → C.Agree p q
  total : ∀ params validators, Tx.dkgBegin params validators ∈ U → params.total ≠ 1
  committers : ∀ tx ∈ U, ∀ params, tx.params? = some params → ∀ (id : Uuid) (S : Finset C.Identifier),
    (∀ v ∈ S, ∃ com, Tx.submitCommitment id v com ∈ U) → S.card ≤ params.threshold.toNat

/-- A state that the transactions can lead to. -/
def ReachedBy (U : Ledger C) (s : State C) : Prop := ∃ txs : List (Tx C), (∀ tx ∈ txs, tx ∈ U) ∧ s = reached txs

section
variable {U : Ledger C} {s : State C}

theorem ReachedBy.exact (h : ReachedBy U s) : s.Valid ∧ ∃ L : Ledger C, L ⊆ U ∧ s.Exact L := by
  obtain ⟨txs, hall, rfl⟩ := h
  refine ⟨reached_valid txs, acceptedSet txs, fun tx htx => ?_, reached_exact txs⟩
  exact hall tx ((accepted_sublist applyTx State.default txs).subset htx)

theorem ReachedBy.group_params (h : ReachedBy U s) {g : GroupConfig C} (hg : s.group = some g) :
    ∃ tx ∈ U, tx.params? = some g.params := by
  obtain ⟨_, L, hsub, hexact⟩ := h.exact
  cases (hexact.view.group g).mp hg with
  | init hmem => exact ⟨_, hsub hmem, rfl⟩
  | promoted hc _ => exact ⟨_, hsub hc.begun, rfl⟩

theorem ReachedBy.committed (h : ReachedBy U s) {id : Uuid} {e : RequestEntry C} (he : s.requests[id]? = some e)
    {m : BTreeMap C.Identifier C.SigningCommitments} (hs : e.status = .awaitingCommitments m) :
    ∀ v ∈ m, ∃ com, Tx.submitCommitment id v com ∈ U := by
  obtain ⟨_, L, hsub, hexact⟩ := h.exact
  obtain ⟨g, _, hrecorded⟩ := (hexact.view.requests id e).mp he
  obtain ⟨commitments, shares, hcommitments, _, hstatus⟩ := hrecorded.status
  rw [hs] at hstatus
  obtain ⟨_, rfl⟩ := GroupConfig.lifecycle_awaiting hstatus.symm
  intro v hv
  obtain ⟨com, hcom⟩ := mem_iff.mp hv
  exact ⟨com, hsub ((hcommitments v com).mp hcom)⟩

theorem ReachedBy.ceremony_total (hU : Uncontested U) (h : ReachedBy U s) {c : DkgCeremony C}
    (hc : s.ceremony = some c) : c.params.total ≠ 1 := by
  obtain ⟨_, L, hsub, hexact⟩ := h.exact
  obtain ⟨hrecorded, _⟩ := (hexact.view.ceremony c).mp hc
  exact hU.total c.params c.validators (hsub hrecorded.begun)

theorem Uncontested.no_conflict (hU : Uncontested U) (h : ReachedBy U s) {a b : Tx C} (ha : a ∈ U) (hb : b ∈ U)
    (hne : a ≠ b) {sa sb : State C} (hsa : applyTx s a = .ok sa) (hsb : applyTx s b = .ok sb) : ¬ Conflict s a b := by
  intro hc
  -- a one-participant ceremony is not among them
  have hsingle : ¬ ∃ c, s.ceremony = some c ∧ c.total = 1 := by
    rintro ⟨c, hcer, htotal⟩
    exact h.ceremony_total hU hcer (UInt16.toNat_inj.mp htotal)
  cases a with
  | dkgRound1 v p =>
    cases b with
    | dkgFinalize w q => exact hsingle hc
    | _ => exact hc
  | dkgFinalize v p =>
    cases b with
    | dkgFinalize w q => exact hc (hU.finalizes v p w q ha hb)
    | dkgRound1 w q => exact hsingle hc
    | _ => exact hc
  | submitCommitment id v com =>
    cases b with
    | submitCommitment id' w com' =>
      obtain ⟨rfl, g, e, m, hg, he, hs, hlt⟩ := hc
      have hvw : v ≠ w := by
        rintro rfl
        exact hne (hU.slots _ ha _ hb rfl)
      -- those who have committed, and these two, are more than the threshold
      have hnew : ∀ {u : C.Identifier} {x : C.SigningCommitments} {t : State C},
          applyTx s (.submitCommitment id u x) = .ok t → u ∉ m := by
        intro u x t ht
        have hid : (Tx.submitCommitment id u x).requestId? = some id := rfl
        obtain ⟨g', e', hg', hstep, _⟩ := (applyTx_request_ok hid).mp ht
        rw [he] at hstep
        obtain ⟨_, o, m', ho, hs', hnot, _⟩ := entryStep_submitCommitment.mp hstep
        cases ho
        rw [hs] at hs'; cases hs'
        exact hnot
      obtain ⟨tx, htx, hparams⟩ := h.group_params hg
      have hcard := hU.committers tx htx g.params hparams id (insert v (insert w (dom m))) fun u hu => by
        rcases Finset.mem_insert.mp hu with rfl | hu
        · exact ⟨com, ha⟩
        rcases Finset.mem_insert.mp hu with rfl | hu
        · exact ⟨com', hb⟩
        · exact h.committed he hs u (mem_dom.mp hu)
      have hw : w ∉ dom m := fun hmem => hnew hsb (mem_dom.mp hmem)
      have hv : v ∉ insert w (dom m) := by
        intro hmem
        rcases Finset.mem_insert.mp hmem with heq | hmem
        · exact hvw heq
        · exact hnew hsa (mem_dom.mp hmem)
      rw [Finset.card_insert_of_notMem hv, Finset.card_insert_of_notMem hw, card_dom] at hcard
      omega
    | _ => exact hc
  | _ => exact hc

/-- Transactions that do not race are confluent. -/
theorem Uncontested.confluent (hU : Uncontested U) : Confluent applyTx (ReachedBy U) (· ∈ U) where
  keeps := by
    rintro s tx s' ⟨txs, hall, rfl⟩ htx ha
    refine ⟨txs ++ [tx], fun tx' htx' => ?_, ?_⟩
    · rcases List.mem_append.mp htx' with hmem | hmem
      · exact hall tx' hmem
      · rw [List.mem_singleton.mp hmem]; exact htx
    · have hreplay : reached (txs ++ [tx]) = feed applyTx (reached txs) tx := replay_append _ txs [tx]
      rw [hreplay, feed_ok ha]
  meets := by
    intro s a b sa sb h ha hb hne hsa hsb
    have hslot : a.slot ≠ b.slot := fun heq => hne (hU.slots a ha b hb heq)
    exact meets_of_not_conflict h.exact.1 hslot (hU.no_conflict h ha hb hne hsa hsb) hsa hsb

theorem ReachedBy.default (U : Ledger C) : ReachedBy U (State.default : State C) := ⟨[], by simp, rfl⟩

end

/-- **Quiescence is agreement.** Replicas that have been offered transactions of
one uncontested set, in whatever orders, and have none of it left to accept, are
in one state. -/
theorem quiescent_replicas_agree {U : Ledger C} (hU : Uncontested U) {txs txs' : List (Tx C)}
    (htxs : ∀ tx ∈ txs, tx ∈ U)
    (htxs' : ∀ tx ∈ txs', tx ∈ U) (hquiet : Saturated applyTx (· ∈ U) (reached txs))
    (hquiet' : Saturated applyTx (· ∈ U) (reached txs')) : reached txs = reached txs' := by
  have hsub : ∀ {l : List (Tx C)}, (∀ tx ∈ l, tx ∈ U) → ∀ tx ∈ accepted applyTx State.default l, tx ∈ U := by
    intro l hl tx htx
    exact hl tx ((accepted_sublist applyTx State.default l).subset htx)
  exact hU.confluent.saturated_unique (hsub htxs) (hsub htxs') (.default U) (run_accepted applyTx State.default txs)
    (run_accepted applyTx State.default txs') hquiet hquiet'

/-! ## Rounds -/

theorem accepted_nodup_of_default (txs : List (Tx C)) : (accepted applyTx State.default txs).Nodup :=
  (accepted_slots txs).of_map _

theorem accepted_length_le {us txs : List (Tx C)} (h : ∀ tx ∈ txs, tx ∈ us) :
    (accepted applyTx State.default txs).length ≤ us.length := by
  have hsub : accepted applyTx State.default txs ⊆ us := fun tx htx =>
    h tx ((accepted_sublist applyTx State.default txs).subset htx)
  exact (List.subperm_of_subset (accepted_nodup_of_default txs) hsub).length_le

/-- A run that has taken everything leaves nothing to take. -/
theorem saturated_of_run {us : List (Tx C)} {s : State C} (h : run applyTx State.default us = .ok s) :
    Saturated applyTx (· ∈ us) s := by
  intro tx htx s' ha
  have hacc : accepted applyTx State.default (us ++ [tx]) = us ++ [tx] := accepted_of_run (run_append.mpr ⟨s, h, by
    rw [run_cons]
    exact ⟨s', ha, run_nil s'⟩⟩)
  have hnodup := accepted_nodup_of_default (us ++ [tx])
  rw [hacc] at hnodup
  exact (List.nodup_append.mp hnodup).2.2 tx htx tx (List.mem_singleton_self tx) rfl

/-- **Redelivery converges.** If some replica accepts all of the transactions in
some order, every replica that is offered all of them once more often than there
are of them ends in its state, in whatever order they come in each round. -/
theorem rounds_converge {us : List (Tx C)} (hU : Uncontested {tx | tx ∈ us}) {s : State C}
    (hrun : run applyTx State.default us = .ok s) {rounds : List (List (Tx C))}
    (hr : ∀ round ∈ rounds, ∀ tx, tx ∈ round ↔ tx ∈ us) (hlen : us.length < rounds.length) :
    reached rounds.flatten = s := by
  have hall : ∀ tx ∈ rounds.flatten, tx ∈ us := by
    intro tx htx
    obtain ⟨round, hround, hmem⟩ := List.mem_flatten.mp htx
    exact (hr round hround tx).mp hmem
  have hquiet : Saturated applyTx (· ∈ us) (reached rounds.flatten) :=
    hU.confluent.rounds_saturate (.default _) (fun txs htxs => accepted_length_le htxs) hr hlen
  have hacc : ∀ tx ∈ accepted applyTx State.default rounds.flatten, tx ∈ us := fun tx htx =>
    hall tx ((accepted_sublist applyTx State.default rounds.flatten).subset htx)
  exact hU.confluent.saturated_unique hacc (fun _ htx => htx) (.default _)
    (run_accepted applyTx State.default rounds.flatten) hrun hquiet (saturated_of_run hrun)

theorem Ideal.duoRun_uncontested : Uncontested {tx | tx ∈ duoRun} where
  slots := by
    intro a ha b hb hslot
    have hall : ∀ a ∈ duoRun, ∀ b ∈ duoRun, a.slot = b.slot → a = b := by
      simp [duoRun, duoBegin, duoRound1, duoRound2, duoFinalize, Tx.slot]
    exact hall a ha b hb hslot
  finalizes := by
    intro v p w q hp hq
    have hall : ∀ v p, Tx.dkgFinalize v p ∈ duoRun → p = pairKeys := by
      intro v p hmem
      simp [duoRun, duoBegin, duoRound1, duoRound2, duoFinalize] at hmem
      rcases hmem with ⟨_, h⟩ | ⟨_, h⟩ <;> exact h
    rw [hall v p hp, hall w q hq]
    exact .refl _
  total := by
    intro params validators hmem
    change Tx.dkgBegin params validators ∈ duoRun at hmem
    simp [duoRun, duoBegin, duoRound1, duoRound2, duoFinalize] at hmem
    rw [hmem.1]
    decide
  committers := by
    intro tx _ params _ id S hS
    have hnone : ∀ v com, Tx.submitCommitment id v com ∉ duoRun := by
      simp [duoRun, duoBegin, duoRound1, duoRound2, duoFinalize]
    have hempty : S = ∅ := by
      apply Finset.eq_empty_of_forall_notMem
      intro v hv
      obtain ⟨com, hmem⟩ := hS v hv
      exact hnone v com hmem
    rw [hempty]
    exact Nat.zero_le _

theorem quiescent_replicas_agree_duo : reached Ideal.duoRun = reached Ideal.duoSwapped := by
  have hsame : ∀ tx, tx ∈ Ideal.duoSwapped ↔ tx ∈ Ideal.duoRun := fun tx =>
    Ideal.redelivery_swapped.perm.mem_iff.symm
  have hswapped : run applyTx State.default Ideal.duoSwapped = .ok (reached Ideal.duoSwapped) := rfl
  refine quiescent_replicas_agree Ideal.duoRun_uncontested (fun _ htx => htx) (fun tx htx => (hsame tx).mp htx)
    (saturated_of_run Ideal.duoRun_accepted) fun tx htx => ?_
  exact saturated_of_run hswapped tx ((hsame tx).mpr htx)

/-- The order that loses an envelope for good when it comes once. -/
theorem rounds_converge_early : reached (List.replicate 8 Ideal.duoEarly).flatten = reached Ideal.duoRun := by
  refine rounds_converge Ideal.duoRun_uncontested Ideal.duoRun_accepted (fun round hround tx => ?_) (by decide)
  rw [List.eq_of_mem_replicate hround]
  exact Ideal.redelivery_early.perm.mem_iff.symm

end Sapphire
