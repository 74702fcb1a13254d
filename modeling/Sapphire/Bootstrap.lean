import Sapphire.Signature

/-!
# When a committed group is well formed

`MpcParams::new` would reject a degenerate threshold, but neither bootstrap
arm calls it on the parameters it is given: `InitGroup` compares identifiers
and not the counts, a ceremony checks its count and not its threshold, and
promotion compares the packages only with each other.
-/

namespace Sapphire

open BTreeMap Replay

variable {C : Ciphersuite}

/-- What signing relies on: the package covers exactly the validators, as many
as the parameters say, and the threshold is one that `MpcParams::new` accepts. -/
structure GroupConfig.WellFormed (g : GroupConfig C) : Prop where
  covers : dom (C.verifyingShares g.pkp) = g.validators
  count : g.validators.card = g.params.total.toNat
  positive : 1 ≤ g.params.threshold.toNat
  bounded : g.params.threshold.toNat ≤ g.params.total.toNat

def State.WellFormed (s : State C) : Prop := ∀ g, s.group = some g → g.WellFormed

/-- The checks missing from the two arms that commit a group. A finalize
commits one when it is the last; the verifying shares it carries are those of
the package committed. -/
def CommitsSound (s : State C) : Tx C → Prop
  | .initGroup params _ validators =>
    validators.toFinset.card = params.total.toNat ∧ 1 ≤ params.threshold.toNat ∧
      params.threshold.toNat ≤ params.total.toNat
  | .dkgFinalize _ pkp => ∀ c, s.ceremony = some c → c.finalize.size + 1 = c.total →
    dom (C.verifyingShares pkp) = dom c.validators ∧ 1 ≤ c.params.threshold.toNat ∧
      c.params.threshold.toNat ≤ c.total
  | _ => True

theorem State.WellFormed.of_none {s : State C} (h : s.group = none) : s.WellFormed := by
  intro g hg
  rw [h] at hg; cases hg

theorem wellFormed_iff {s : State C} {g : GroupConfig C} (h : s.group = some g) : s.WellFormed ↔ g.WellFormed := by
  constructor
  · intro hw
    exact hw g h
  · intro hw g' hg'
    rw [h] at hg'; cases hg'
    exact hw

theorem agree_of_first {c : DkgCeremony C} (hval : c.Valid) {v k : C.Identifier} {pkp p : C.PublicKeyPackage}
    (hm : c.mismatch pkp = false) (hp : first? (c.finalize.insert v pkp) = some (k, p)) : C.Agree pkp p :=
  hval.agree_insert hm (by simp : (c.finalize.insert v pkp)[v]? = some pkp) (first?_mem hp)

theorem applyTx_wellFormed {s s' : State C} {tx : Tx C} (h : s.Valid) (ha : applyTx s tx = .ok s') :
    s'.WellFormed ↔ s.WellFormed ∧ CommitsSound s tx := by
  cases hid : tx.requestId? with
  | some id =>
    -- request transactions leave the group alone
    obtain ⟨g, e, hg, _, rfl⟩ := (applyTx_request_ok hid).mp ha
    have hsound : CommitsSound s tx := by cases tx <;> trivial
    exact (and_iff_left hsound).symm
  | none =>
    cases tx with
    | initGroup params pkp validators =>
      obtain ⟨hg, _, hd, rfl⟩ := applyInitGroup_ok.mp ha
      rw [wellFormed_iff rfl, and_iff_right (State.WellFormed.of_none hg)]
      constructor
      · intro hw
        exact ⟨hw.count, hw.positive, hw.bounded⟩
      · intro hw
        exact ⟨hd, hw.1, hw.2.1, hw.2.2⟩
    | dkgBegin params validators =>
      obtain ⟨hg, _, _, rfl⟩ := applyDkgBegin_ok.mp ha
      exact iff_of_true (.of_none hg) ⟨.of_none hg, trivial⟩
    | dkgRound1 v p =>
      obtain ⟨c, hc, _, _, rfl⟩ := applyDkgRound1_ok.mp ha
      exact iff_of_true (.of_none (h.exclusive hc)) ⟨.of_none (h.exclusive hc), trivial⟩
    | dkgRound2 v w sealed =>
      obtain ⟨c, hc, _, _, _, _, _, rfl⟩ := applyDkgRound2_ok.mp ha
      exact iff_of_true (.of_none (h.exclusive hc)) ⟨.of_none (h.exclusive hc), trivial⟩
    | dkgFinalize v pkp =>
      obtain ⟨c, hc, _, _, hf, hm, hfin⟩ := applyDkgFinalize_ok.mp ha
      have hgroup := h.exclusive hc
      have hval := h.ceremony hc
      have hsz := size_insert_of_not_mem pkp hf
      rw [and_iff_right (State.WellFormed.of_none hgroup)]
      cases hfin with
      | extended hd =>
        change (c.finalize.insert v pkp).size ≠ c.total at hd
        refine iff_of_true (.of_none hgroup) ?_
        intro c' hc' hlast
        rw [hc] at hc'; cases hc'
        omega
      | @promoted k p hd hp =>
        change (c.finalize.insert v pkp).size = c.total at hd
        have hagree := agree_of_first hval hm hp
        rw [wellFormed_iff rfl]
        constructor
        · intro hw c' hc' _
          rw [hc] at hc'; cases hc'
          rw [hagree.2]
          exact ⟨hw.covers, hw.positive, hw.bounded⟩
        · intro hw
          obtain ⟨hdom, hpos, hle⟩ := hw c hc (by omega)
          rw [hagree.2] at hdom
          exact ⟨hdom, hval.card_validators, hpos, hle⟩
    | _ => cases hid

/-- **Well-formed groups.** The group of a reachable state is well formed
exactly when the step that committed it made the checks the arms leave out. -/
theorem group_wellFormed_iff (txs : List (Tx C)) :
    (reached txs).WellFormed ↔ EachStep applyTx CommitsSound State.default txs := by
  have hnone : (State.default : State C).WellFormed := .of_none rfl
  have hrun : (reached txs).WellFormed ↔
      (State.default : State C).WellFormed ∧ EachStep applyTx CommitsSound State.default txs :=
    replay_iff (fun _ _ _ h ha => ⟨applyTx_valid h ha, applyTx_wellFormed h ha⟩) .default txs
  rw [hrun, and_iff_right hnone]

/-- `InitGroup` accepts zero-of-seven parameters for two validators. -/
theorem group_not_wellFormed : ¬ ∀ txs : List (Tx Ideal.suite), (reached txs).WellFormed := by
  intro h
  have hw := h [.initGroup { threshold := 0, total := 7 } Ideal.pairKeys [1, 2]] _ rfl
  exact absurd hw.positive (by decide)

end Sapphire
