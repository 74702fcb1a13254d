import Sapphire.Monotone

/-!
# From `DkgBegin` to the group

What an accepted `DkgBegin` starts ends in a group only by promotion. A
property of the transactions that were offered is one of all that is stored,
and of the finalizes that a promotion stands on.
-/

namespace Sapphire

open BTreeMap Replay

variable {C : Ciphersuite}

/-- Every entry satisfies `P` of the transaction that brought it. -/
structure DkgCeremony.Stored (P : Tx C → Prop) (c : DkgCeremony C) : Prop where
  round1 : ∀ (v : C.Identifier) package, c.round1[v]? = some package → P (.dkgRound1 v package)
  round2 : ∀ (v w : C.Identifier) sealed, c.round2[toLex (v, w)]? = some sealed → P (.dkgRound2 v w sealed)
  finalize : ∀ (v : C.Identifier) pkp, c.finalize[v]? = some pkp → P (.dkgFinalize v pkp)

/-- Every participant has finalized in agreement with the group's package, and one of them with it. -/
structure GroupConfig.PromotedBy (P : Tx C → Prop) (params : MpcParams)
    (validators : BTreeMap C.Identifier EncPublicKey) (g : GroupConfig C) : Prop where
  same_params : g.params = params
  same_validators : g.validators = dom validators
  package : ∃ v ∈ validators, P (.dkgFinalize v g.pkp)
  finalized : ∀ v ∈ validators, ∃ pkp, P (.dkgFinalize v pkp) ∧ C.Agree pkp g.pkp

inductive State.Begun (P : Tx C → Prop) (params : MpcParams) (validators : BTreeMap C.Identifier EncPublicKey)
    (s : State C) : Prop
  | pending {c} : s.ceremony = some c → c.params = params → c.validators = validators → c.Stored P →
      Begun P params validators s
  | promoted {g} : s.group = some g → g.PromotedBy P params validators → Begun P params validators s

variable {P Q : Tx C → Prop} {params : MpcParams} {validators : BTreeMap C.Identifier EncPublicKey} {s s' : State C}

theorem DkgCeremony.Stored.mono {c : DkgCeremony C} (hPQ : ∀ tx, P tx → Q tx) (h : c.Stored P) : c.Stored Q where
  round1 := fun v package hp => hPQ _ (h.round1 v package hp)
  round2 := fun v w sealed hp => hPQ _ (h.round2 v w sealed hp)
  finalize := fun v pkp hp => hPQ _ (h.finalize v pkp hp)

theorem DkgCeremony.Stored.empty (params : MpcParams) (validators : BTreeMap C.Identifier EncPublicKey) :
    ({ params, validators, round1 := ∅, round2 := ∅, finalize := ∅ } : DkgCeremony C).Stored P :=
  ⟨by simp, by simp, by simp⟩

theorem GroupConfig.PromotedBy.mono {g : GroupConfig C} (hPQ : ∀ tx, P tx → Q tx)
    (h : g.PromotedBy P params validators) : g.PromotedBy Q params validators where
  same_params := h.same_params
  same_validators := h.same_validators
  package := by
    obtain ⟨v, hv, hp⟩ := h.package
    exact ⟨v, hv, hPQ _ hp⟩
  finalized := fun v hv => by
    obtain ⟨pkp, hp, hagree⟩ := h.finalized v hv
    exact ⟨pkp, hPQ _ hp, hagree⟩

theorem State.Begun.mono (hPQ : ∀ tx, P tx → Q tx) (h : s.Begun P params validators) : s.Begun Q params validators := by
  cases h with
  | pending hc hparams hvalidators hstored => exact .pending hc hparams hvalidators (hstored.mono hPQ)
  | promoted hg hprom => exact .promoted hg (hprom.mono hPQ)

theorem State.Begun.of_begin (ha : applyTx s (.dkgBegin params validators) = .ok s') :
    s'.Begun P params validators := by
  obtain ⟨_, _, _, rfl⟩ := applyDkgBegin_ok.mp ha
  exact .pending rfl rfl rfl (.empty params validators)

theorem getElem?_insert_imp {K V : Type} [LinearOrder K] {R : K → V → Prop} {m : BTreeMap K V} {k : K} {v : V}
    (h : ∀ a b, m[a]? = some b → R a b) (hk : R k v) : ∀ a b, (m.insert k v)[a]? = some b → R a b := by
  intro a b hab
  rw [getElem?_insert'] at hab
  split at hab
  · rename_i heq
    cases hab; subst heq
    exact hk
  · exact h a b hab

theorem DkgCeremony.Stored.withFinalize {c : DkgCeremony C} (h : c.Stored P) {v : C.Identifier}
    {pkp : C.PublicKeyPackage} (hp : P (.dkgFinalize v pkp)) :
    ({ c with finalize := c.finalize.insert v pkp } : DkgCeremony C).Stored P :=
  ⟨h.round1, h.round2, getElem?_insert_imp h.finalize hp⟩

theorem DkgCeremony.Valid.dom_finalize {c : DkgCeremony C} (h : c.Valid) {v : C.Identifier} {pkp : C.PublicKeyPackage}
    (hv : v ∈ c.validators) (hsize : (c.finalize.insert v pkp).size = c.total) :
    dom (c.finalize.insert v pkp) = dom c.validators := by
  apply dom_eq_of_size
  · rw [dom_insert]
    exact Finset.insert_subset (mem_dom.mpr hv) h.finalize_sub
  · rw [h.card_validators]
    exact hsize.ge

theorem DkgCeremony.Valid.promotedBy {c : DkgCeremony C} (h : c.Valid) (hstored : c.Stored P) {v k : C.Identifier}
    {pkp first : C.PublicKeyPackage} (hv : v ∈ c.validators) (hm : c.mismatch pkp = false)
    (hp : P (.dkgFinalize v pkp)) (hsize : (c.finalize.insert v pkp).size = c.total)
    (hfirst : first? (c.finalize.insert v pkp) = some (k, first)) :
    (c.toGroup first).PromotedBy P c.params c.validators := by
  have hdom := h.dom_finalize hv hsize
  have hall := getElem?_insert_imp hstored.finalize hp
  refine ⟨rfl, rfl, ⟨k, ?_, hall k first (first?_mem hfirst)⟩, fun w hw => ?_⟩
  · rw [← mem_dom, ← hdom, mem_dom]
    exact mem_of_getElem? (first?_mem hfirst)
  · obtain ⟨q, hq⟩ := mem_iff.mp (mem_dom.mp (hdom ▸ mem_dom.mpr hw))
    exact ⟨q, hall w q hq, h.agree_insert hm hq (first?_mem hfirst)⟩

theorem State.Begun.step {tx : Tx C} (hs : s.Valid) (h : s.Begun P params validators) (hp : P tx)
    (ha : applyTx s tx = .ok s') : s'.Begun P params validators := by
  cases h with
  | promoted hg hprom => exact .promoted ((hs.advances ha).group _ hg) hprom
  | @pending c hc hparams hvalidators hstored =>
    cases tx with
    | initGroup params' pkp vs =>
      obtain ⟨_, hnone, _⟩ := applyInitGroup_ok.mp ha
      rw [hc] at hnone; cases hnone
    | dkgBegin params' vs =>
      obtain ⟨_, hnone, _⟩ := applyDkgBegin_ok.mp ha
      rw [hc] at hnone; cases hnone
    | dkgRound1 v package =>
      obtain ⟨c', hc', _, _, rfl⟩ := applyDkgRound1_ok.mp ha
      rw [hc] at hc'; cases hc'
      refine .pending rfl hparams hvalidators ⟨?_, hstored.round2, hstored.finalize⟩
      exact getElem?_insert_imp hstored.round1 hp
    | dkgRound2 v w sealed =>
      obtain ⟨c', hc', _, _, _, _, _, rfl⟩ := applyDkgRound2_ok.mp ha
      rw [hc] at hc'; cases hc'
      refine .pending rfl hparams hvalidators ⟨hstored.round1, fun a b boxed hab => ?_, hstored.finalize⟩
      exact getElem?_insert_imp (R := fun k boxed => P (.dkgRound2 (ofLex k).1 (ofLex k).2 boxed))
        (fun k boxed hk => hstored.round2 (ofLex k).1 (ofLex k).2 boxed hk) hp (toLex (a, b)) boxed hab
    | dkgFinalize v pkp =>
      obtain ⟨c', hc', _, hv, _, hm, hfin⟩ := applyDkgFinalize_ok.mp ha
      rw [hc] at hc'; cases hc'
      cases hfin with
      | extended _ => exact .pending rfl hparams hvalidators (hstored.withFinalize hp)
      | promoted hsize hfirst =>
        refine .promoted rfl ?_
        rw [← hparams, ← hvalidators]
        exact (hs.ceremony hc).promotedBy hstored hv hm hp hsize hfirst
    | _ =>
      obtain ⟨g, e, _, _, rfl⟩ := (applyTx_request_ok rfl).mp ha
      exact .pending hc hparams hvalidators hstored

theorem State.Begun.replay (hs : s.Valid) (h : s.Begun P params validators) {txs : List (Tx C)}
    (hp : ∀ tx ∈ txs, P tx) :
    (replay applyTx s txs).Begun P params validators :=
  (replay_invariant_of (P := fun s => s.Valid ∧ s.Begun P params validators) (Q := P)
    (fun _ _ _ hs hp ha => ⟨applyTx_valid hs.1 ha, hs.2.step hs.1 hp ha⟩) ⟨hs, h⟩ hp).2

theorem State.Begun.group (hs : s.Valid) (h : s.Begun P params validators) {g : GroupConfig C}
    (hg : s.group = some g) : g.PromotedBy P params validators := by
  cases h with
  | pending hc _ _ _ =>
    rw [hs.exclusive hc] at hg; cases hg
  | promoted hg' hprom =>
    rw [hg] at hg'; cases hg'
    exact hprom

theorem State.Begun.ceremony (hs : s.Valid) (h : s.Begun P params validators) {c : DkgCeremony C}
    (hc : s.ceremony = some c) : c.params = params ∧ c.validators = validators ∧ c.Stored P := by
  cases h with
  | pending hc' hparams hvalidators hstored =>
    rw [hc] at hc'; cases hc'
    exact ⟨hparams, hvalidators, hstored⟩
  | promoted hg _ =>
    rw [hs.exclusive hc] at hg; cases hg

end Sapphire
