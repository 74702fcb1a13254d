import Sapphire.Accountability
import Sapphire.Ceremony

/-!
# Unanimity of a promotion

A ceremony is promoted when as many finalizes are stored as it has
participants, each from one of them and all in agreement. So each of them
finalized, and the promoted package is the one of any honest participant.
-/

namespace Sapphire

open BTreeMap Replay Parties

variable {C : Ciphersuite} {D : DkgWire C}

/-! ## Honest finalizes -/

/-- Participants react; anything may be submitted but a finalize that carries an honest identifier. -/
def finalizeParties (D : DkgWire C) (honest : C.Identifier → Bool) :
    System (State C) (Tx C) Fault C.Identifier (DkgParticipant D) C.Rng where
  init := State.default
  step := applyTx
  act := fun _ participant s rng => participant.react s rng
  free := fun tx =>
    match tx with
    | .dkgFinalize v _ => !honest v
    | _ => true

def finalizeRun (D : DkgWire C) (honest : C.Identifier → Bool) (seed : C.Identifier → C.Rng)
    (events : List (Event (Tx C) C.Identifier C.Rng)) : World (Tx C) C.Identifier (DkgParticipant D) :=
  (finalizeParties D honest).execAll (ceremonyStart D seed) events

/-- What a participant has finalized with is its own package. -/
structure OwnFinalize (v : C.Identifier) (participant : DkgParticipant D) (out : List (Tx C)) : Prop where
  identifier : participant.identifier = v
  finalize : ∀ w pkp, .dkgFinalize w pkp ∈ out →
    w = v ∧ participant.publicKeyPackage = some pkp ∧ participant.submittedFinalize = true

theorem OwnFinalize.keep {v : C.Identifier} {p p' : DkgParticipant D} {out more : List (Tx C)} (h : OwnFinalize v p out)
    (hid : p'.identifier = p.identifier) (hmore : ∀ w pkp, .dkgFinalize w pkp ∉ more)
    (hsub : p.submittedFinalize = true → p'.submittedFinalize = true ∧ p'.publicKeyPackage = p.publicKeyPackage) :
    OwnFinalize v p' (out ++ more) where
  identifier := hid.trans h.identifier
  finalize := fun w pkp hmem => by
    rcases List.mem_append.mp hmem with hmem | hmem
    · obtain ⟨hw, hpkp, hs⟩ := h.finalize w pkp hmem
      obtain ⟨hs', hkeep⟩ := hsub hs
      exact ⟨hw, hkeep.trans hpkp, hs'⟩
    · exact absurd hmem (hmore w pkp)

theorem sealAll_no_finalize (v : C.Identifier) (c : DkgCeremony C) :
    ∀ (pkgs : List (C.Identifier × C.Round2Package)) (rng : C.Rng) (out : List (Tx C)),
      (∀ w pkp, .dkgFinalize w pkp ∉ out) →
      ∀ w pkp, .dkgFinalize w pkp ∉ returned (DkgCtx.sealAll D v c rng out pkgs).1
  | [], _, _, h => h
  | (recipient, pkg) :: pkgs, rng, out, h => by
    unfold DkgCtx.sealAll
    cases c.validators[recipient]? with
    | none => simp [returned]
    | some recipientPk =>
      cases D.toVec pkg with
      | error e => simp [returned]
      | ok plaintext =>
        refine sealAll_no_finalize v c pkgs _ _ fun w pkp hmem => ?_
        rcases List.mem_append.mp hmem with hmem | hmem
        · exact h w pkp hmem
        · simp at hmem

theorem FinalizeReaction.ownFinalize {v : C.Identifier} {c : DkgCeremony C} {q q' : DkgParticipant D}
    {r : Except DkgFault (List (Tx C))} {out : List (Tx C)} (hr : FinalizeReaction c q r q') (h : OwnFinalize v q out) :
    OwnFinalize v q' (out ++ returned r) := by
  cases hr with
  | saw _ _ _ => exact h.keep rfl (by simp [returned]) (fun _ => ⟨rfl, rfl⟩)
  | finalize hdue _ _ _ =>
    -- it had not finalized before
    refine ⟨h.identifier, fun w pkp hmem => ?_⟩
    rcases List.mem_append.mp hmem with hmem | hmem
    · have := (h.finalize w pkp hmem).2.2
      rw [hdue.unsubmitted] at this; cases this
    · obtain ⟨rfl, rfl⟩ : w = q.identifier ∧ pkp = _ := by simpa [returned] using hmem
      exact ⟨h.identifier, rfl, rfl⟩
  | _ => exact h.keep rfl (by simp [returned]) (fun hs => ⟨hs, rfl⟩)

theorem Round2Reaction.ownFinalize {v : C.Identifier} {c : DkgCeremony C} {q q' : DkgParticipant D} {rng : C.Rng}
    {r : Except DkgFault (List (Tx C))} {out : List (Tx C)} (hr : Round2Reaction c q rng r q')
    (h : OwnFinalize v q out) : OwnFinalize v q' (out ++ returned r) := by
  cases hr with
  | @round2 secret secretR2 sent sealedTxs _ _ _ _ hsealed =>
    have hnone := sealAll_no_finalize (D := D) q.identifier c sent.toList rng [] (by simp)
    rw [hsealed] at hnone
    exact h.keep rfl hnone (fun hs => ⟨hs, rfl⟩)
  | later _ _ hfin => exact hfin.ownFinalize h
  | _ => exact h.keep rfl (by simp [returned]) (fun hs => ⟨hs, rfl⟩)

theorem DkgReaction.ownFinalize {v : C.Identifier} {c : DkgCeremony C} {p p' : DkgParticipant D} {rng : C.Rng}
    {r : Except DkgFault (List (Tx C))} {out : List (Tx C)} (hr : DkgReaction c p rng r p') (h : OwnFinalize v p out) :
    OwnFinalize v p' (out ++ returned r) := by
  cases hr with
  | later _ hreact => exact hreact.ownFinalize ⟨h.identifier, h.finalize⟩
  | _ => exact h.keep rfl (by simp [returned]) (fun hs => ⟨hs, rfl⟩)

theorem finalizeRun_own {honest : C.Identifier → Bool} {seed : C.Identifier → C.Rng}
    {events : List (Event (Tx C) C.Identifier C.Rng)} (v : C.Identifier) :
    OwnFinalize v ((finalizeRun D honest seed events).mem v) ((finalizeRun D honest seed events).sent v) := by
  have hinv : System.PartyInvariant (finalizeParties D honest)
      (fun _ v (participant : DkgParticipant D) out => OwnFinalize v participant out) := by
    constructor
    · intro _ _ _ _ h _
      exact h
    · intro log v participant out h k rng
      apply DkgParticipant.react_invariant (P := fun p' more => OwnFinalize v p' (out ++ more))
      · simpa using h
      · intro c r p' _ _ _ hreact
        exact hreact.ownFinalize h
  exact hinv.execAll (fun _ => ⟨rfl, by simp [ceremonyStart]⟩) events v

theorem honest_finalize_in_log {honest : C.Identifier → Bool} {seed : C.Identifier → C.Rng}
    {events : List (Event (Tx C) C.Identifier C.Rng)} {v : C.Identifier} {pkp : C.PublicKeyPackage}
    (hmem : .dkgFinalize v pkp ∈ (finalizeRun D honest seed events).log) (hh : honest v = true) :
    ((finalizeRun D honest seed events).mem v).publicKeyPackage = some pkp := by
  have hstart : System.Justified (finalizeParties D honest) [] (ceremonyStart D seed) := ⟨[], rfl, by simp⟩
  obtain ⟨log, hlog, hall⟩ := hstart.execAll events
  change (finalizeRun D honest seed events).log = _ at hlog
  rw [hlog, List.nil_append] at hmem
  rcases hall _ hmem with hfree | ⟨q, hq⟩
  · have hnot : (!honest v) = true := hfree
    rw [hh] at hnot; cases hnot
  · obtain ⟨rfl, hpkp, _⟩ := (finalizeRun_own q).finalize v pkp hq
    exact hpkp

/-! ## What is promoted -/

def Tx.finalizer? : Tx C → Option C.Identifier
  | .dkgFinalize v _ => some v
  | _ => none

/-- The participants that finalized along a log, in the order of acceptance. -/
def finalizers (log : List (Tx C)) : List C.Identifier :=
  (accepted applyTx State.default log).filterMap Tx.finalizer?

/-- After `DkgBegin` the chain stores, and promotes, only what it has accepted. -/
theorem begun_accepted {pre : List (Tx C)} {params : MpcParams} {validators : BTreeMap C.Identifier EncPublicKey}
    {s' : State C} (hbegin : applyTx (reached pre) (.dkgBegin params validators) = .ok s') (post : List (Tx C)) :
    let log := pre ++ .dkgBegin params validators :: post
    (reached log).Begun (· ∈ accepted applyTx State.default log) params validators := by
  intro log
  have hs' : s'.Valid := applyTx_valid (reached_valid pre) hbegin
  have hstep : ∀ (h : List (Tx C)) (s : State C) tx t, s.Valid ∧ s.Begun (· ∈ h) params validators →
      applyTx s tx = .ok t → t.Valid ∧ t.Begun (· ∈ h ++ [tx]) params validators := by
    intro h s tx t ⟨hs, hb⟩ ha
    have hmore : s.Begun (· ∈ h ++ [tx]) params validators := hb.mono fun _ hmem => List.mem_append_left _ hmem
    exact ⟨applyTx_valid hs ha, hmore.step hs (by simp) ha⟩
  have hrun := accepted_invariant (P := fun (h : List (Tx C)) (s : State C) => s.Valid ∧ s.Begun (· ∈ h) params validators)
    hstep
    (h := accepted applyTx State.default pre ++ [.dkgBegin params validators]) ⟨hs', .of_begin hbegin⟩ post
  have hacc : accepted applyTx State.default log =
      accepted applyTx State.default pre ++ [.dkgBegin params validators] ++ accepted applyTx s' post := by
    rw [accepted_append, accepted]
    simp [show replay applyTx State.default pre = reached pre from rfl, hbegin]
  have hreached : reached log = replay applyTx s' post := by
    rw [show reached log = replay applyTx (reached pre) (.dkgBegin params validators :: post) from replay_append _ _ _,
      replay_cons, feed_ok hbegin]
  rw [hacc, hreached]
  exact hrun.2

def Slot.finalizer? : Slot C → Option C.Identifier
  | .fin v => some v
  | _ => none

theorem finalizers_nodup (log : List (Tx C)) : (finalizers log).Nodup := by
  unfold finalizers
  have hslots := accepted_slots log
  have heq : (accepted applyTx State.default log).filterMap Tx.finalizer? =
      ((accepted applyTx State.default log).map Tx.slot).filterMap Slot.finalizer? := by
    rw [List.filterMap_map]
    congr 1
    funext tx
    cases tx <;> rfl
  rw [heq]
  refine hslots.filterMap fun σ τ v hσ hτ => ?_
  cases σ <;> cases τ <;> simp_all [Slot.finalizer?]

/-- **Unanimity.** A group promoted from a ceremony is its parameters and its
participants, each finalized once, and the package agrees with every honest one's. -/
theorem promotion_unanimous (D : DkgWire C) (honest : C.Identifier → Bool) (seed : C.Identifier → C.Rng)
    (events : List (Event (Tx C) C.Identifier C.Rng)) {pre post : List (Tx C)} {params : MpcParams}
    {validators : BTreeMap C.Identifier EncPublicKey} {s' : State C} {g : GroupConfig C}
    (hlog : (finalizeRun D honest seed events).log = pre ++ .dkgBegin params validators :: post)
    (hbegin : applyTx (reached pre) (.dkgBegin params validators) = .ok s')
    (hg : (reached (finalizeRun D honest seed events).log).group = some g) :
    g.params = params ∧ g.validators = dom validators ∧
      (∀ v ∈ validators, (finalizers (finalizeRun D honest seed events).log).count v = 1) ∧
      ∀ v ∈ validators, honest v = true →
        ∃ pkp, ((finalizeRun D honest seed events).mem v).publicKeyPackage = some pkp ∧ C.Agree pkp g.pkp := by
  have hbegun := begun_accepted hbegin post
  rw [← hlog] at hbegun
  have hprom := hbegun.group (reached_valid _) hg
  refine ⟨hprom.same_params, hprom.same_validators, fun v hv => ?_, fun v hv hh => ?_⟩
  · obtain ⟨pkp, hmem, _⟩ := hprom.finalized v hv
    exact List.count_eq_one_of_mem (finalizers_nodup _) (List.mem_filterMap.mpr ⟨_, hmem, rfl⟩)
  · obtain ⟨pkp, hmem, hagree⟩ := hprom.finalized v hv
    exact ⟨pkp, honest_finalize_in_log ((accepted_sublist _ _ _).subset hmem) hh, hagree⟩

def Ideal.duoFinalized : List (Event (Tx Ideal.suite) Nat Nat) :=
  Ideal.duoRounds ++ [.deliver 1 2, .submit (.dkgFinalize (2 : Nat) Ideal.transcriptKeys)]

open Sapphire.Ideal in
theorem promotion_unanimous_duo :
    ∃ g, (reached (finalizeRun wire onlyOne id duoFinalized).log).group = some g ∧
      g.params = pair ∧ g.validators = dom duoMembers ∧
        (∀ v ∈ duoMembers, (finalizers (finalizeRun wire onlyOne id duoFinalized).log).count v = 1) ∧
        ∀ v ∈ duoMembers, onlyOne v = true →
          ∃ pkp, ((finalizeRun wire onlyOne id duoFinalized).mem v).publicKeyPackage = some pkp ∧
            suite.Agree pkp g.pkp :=
  ⟨{ params := pair, pkp := transcriptKeys, validators := dom duoMembers }, rfl,
    promotion_unanimous wire onlyOne id duoFinalized
      (show (finalizeRun wire onlyOne id duoFinalized).log =
          [] ++ .dkgBegin pair duoMembers :: [.dkgRound1 (1 : Nat) (10 : Int), .dkgRound1 (2 : Nat) (20 : Int),
            .dkgRound2 (1 : Nat) (2 : Nat) ⟨[2, 10, 2]⟩, .dkgRound2 (2 : Nat) (1 : Nat) ⟨[1, 20, 1]⟩,
            .dkgFinalize (1 : Nat) transcriptKeys, .dkgFinalize (2 : Nat) transcriptKeys] from rfl) rfl rfl⟩

end Sapphire
