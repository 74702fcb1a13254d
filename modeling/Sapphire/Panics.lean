import Sapphire.Signature

/-!
# Panics of the state machine

The arithmetic of `r2_complete`, the two `expect`s of promotion and the cast in
the threshold test. Only a ceremony of nobody makes one of them fail, and
`DkgBegin` accepts it.
-/

namespace Sapphire

open BTreeMap Replay

variable {C : Ciphersuite}

/-- `map.len() as u16` keeps its value where a commitment is counted. -/
def CastExact (s : State C) : Tx C → Prop
  | .submitCommitment id v commitments => ∀ g e map, s.group = some g → v ∈ g.validators → s.requests[id]? = some e →
      e.status = .awaitingCommitments map → v ∉ map →
      (UInt16.ofNat (map.insert v commitments).size).toNat = (map.insert v commitments).size
  | _ => True

structure PanicFree (s : State C) : Prop where
  returns : ∀ tx msg, applyTx s tx ≠ .error (.panic msg)
  casts : ∀ tx, CastExact s tx

def State.Populated (s : State C) : Prop := ∀ c, s.ceremony = some c → c.total ≠ 0

/-- An accepted `DkgBegin` is for somebody. -/
def BeginsPopulated (_ : State C) : Tx C → Prop
  | .dkgBegin params _ => params.total ≠ 0
  | _ => True

theorem State.Valid.castExact {s : State C} (h : s.Valid) (tx : Tx C) : CastExact s tx := by
  cases tx with
  | submitCommitment id v commitments =>
    intro g e map hg _ he hstatus hv
    have hvalid := (h.request_valid hg he).status
    rw [hstatus] at hvalid
    have ht := g.params.threshold.toNat_lt
    have hsize := size_insert_of_not_mem commitments hv
    rw [UInt16.toNat_ofNat']
    apply Nat.mod_eq_of_lt
    obtain ⟨_, hzero | hlt⟩ := hvalid
    · omega
    · omega
  | _ => trivial

theorem panic_of_empty {s : State C} {c : DkgCeremony C} (hc : s.ceremony = some c) (h0 : c.total = 0)
    (v : C.Identifier) (pkp : C.PublicKeyPackage) :
    applyTx s (.dkgFinalize v pkp) = .error (.panic "attempt to subtract with overflow") := by
  change applyDkgFinalize s v pkp = _
  unfold applyDkgFinalize
  simp only [hc, DkgCeremony.r2Complete_zero h0]

theorem panicFree_iff [Inhabited C.Identifier] [Inhabited C.PublicKeyPackage] {s : State C} (h : s.Valid) :
    PanicFree s ↔ s.Populated := by
  constructor
  · intro hfree c hc h0
    exact hfree.returns _ _ (panic_of_empty hc h0 default default)
  · intro hpop
    refine ⟨fun tx msg hpanic => ?_, h.castExact⟩
    obtain ⟨v, pkp, c, _, hc, h0⟩ := applyTx_panic hpanic
    exact hpop c hc h0

theorem State.populated_iff {s s' : State C} {c c' : DkgCeremony C} (hc : s.ceremony = some c)
    (hc' : s'.ceremony = some c') (hparams : c'.params = c.params) : s'.Populated ↔ s.Populated := by
  have htotal : c'.total = c.total := by rw [DkgCeremony.total, hparams, DkgCeremony.total]
  constructor
  · intro hpop d hd
    rw [hc] at hd
    cases hd
    rw [← htotal]
    exact hpop c' hc'
  · intro hpop d hd
    rw [hc'] at hd
    cases hd
    rw [htotal]
    exact hpop c hc

/-- **Step.** Only `DkgBegin` makes a ceremony of nobody, and nothing ends one. -/
theorem applyTx_populated {s s' : State C} {tx : Tx C} (ha : applyTx s tx = .ok s') :
    s'.Populated ↔ s.Populated ∧ BeginsPopulated s tx := by
  cases tx with
  | initGroup params pkp validators =>
    obtain ⟨_, _, _, rfl⟩ := applyInitGroup_ok.mp ha
    exact (and_iff_left trivial).symm
  | dkgBegin params validators =>
    obtain ⟨_, hc, _, rfl⟩ := applyDkgBegin_ok.mp ha
    have hnone : s.Populated := fun c h => by rw [hc] at h; cases h
    rw [and_iff_right hnone]
    constructor
    · intro hpop h0
      exact hpop _ rfl (by simp [DkgCeremony.total, h0])
    · intro hpos d hd
      cases hd
      intro h0
      exact hpos (UInt16.toNat_inj.mp h0)
  | dkgRound1 v package =>
    obtain ⟨c, hc, _, _, rfl⟩ := applyDkgRound1_ok.mp ha
    exact (State.populated_iff hc (by rfl) (by rfl)).trans (and_iff_left trivial).symm
  | dkgRound2 v w boxed =>
    obtain ⟨c, hc, _, _, _, _, _, rfl⟩ := applyDkgRound2_ok.mp ha
    exact (State.populated_iff hc (by rfl) (by rfl)).trans (and_iff_left trivial).symm
  | dkgFinalize v pkp =>
    obtain ⟨c, hc, h2, _, _, _, hfin⟩ := applyDkgFinalize_ok.mp ha
    have hpos := (DkgCeremony.r2Complete_iff.mp h2).1
    have hpop : s.Populated := fun d hd => by rw [hc] at hd; cases hd; exact hpos.ne'
    refine iff_of_true ?_ ⟨hpop, trivial⟩
    cases hfin with
    | extended _ => exact (State.populated_iff hc (by rfl) (by rfl)).mpr hpop
    | promoted _ _ => exact fun d hd => by cases hd
  | _ =>
    obtain ⟨g, e, _, _, rfl⟩ := (applyTx_request_ok rfl).mp ha
    exact (and_iff_left trivial).symm

theorem reached_populated_iff (txs : List (Tx C)) :
    (reached txs).Populated ↔ EachStep applyTx BeginsPopulated State.default txs := by
  have hdefault : (State.default : State C).Populated := fun c hc => by cases hc
  have hrun : (reached txs).Populated ↔
      (State.default : State C).Populated ∧ EachStep applyTx BeginsPopulated State.default txs :=
    replay_iff (fun _ _ _ h ha => ⟨applyTx_valid h ha, applyTx_populated ha⟩) .default txs
  rw [hrun, and_iff_right hdefault]

/-- A reachable state is free of panics exactly when no accepted `DkgBegin` of its run was for nobody. -/
theorem panic_free_iff [Inhabited C.Identifier] [Inhabited C.PublicKeyPackage] (txs : List (Tx C)) :
    PanicFree (reached txs) ↔ EachStep applyTx BeginsPopulated State.default txs := by
  rw [panicFree_iff (reached_valid txs), reached_populated_iff]

theorem finalize_panics : ¬ ∀ txs : List (Tx Ideal.suite), PanicFree (reached txs) := by
  intro h
  exact (h [.dkgBegin { threshold := 0, total := 0 } ∅]).returns (.dkgFinalize (1 : Nat) Ideal.pairKeys)
    "attempt to subtract with overflow" rfl

end Sapphire
