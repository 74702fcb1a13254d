import Sapphire.Dkg

/-!
# What a reaction of a participant does

The outcomes of `DkgParticipant::react` on a state with a ceremony it takes
part in, each with the guards it passed.
-/

namespace Sapphire

variable {C : Ciphersuite} {D : DkgWire C}

/-- The participant once it has looked whether its round 1 is on the chain. -/
def DkgParticipant.saw (participant : DkgParticipant D) (c : DkgCeremony C) : DkgParticipant D :=
  { participant with submittedR1 := participant.submittedR1 || decide (participant.identifier ∈ c.round1) }

theorem DkgParticipant.saw_of_submitted {participant : DkgParticipant D} (c : DkgCeremony C)
    (h : participant.submittedR1 = true) : participant.saw c = participant := by
  unfold saw
  rw [h, Bool.true_or, ← h]

/-- Every envelope is in and the participant has not finalized. -/
structure FinalizeDue (c : DkgCeremony C) (q : DkgParticipant D) : Prop where
  r2 : c.r2Complete = .ok true
  unsubmitted : q.submittedFinalize = false
  absent : q.identifier ∉ c.finalize

inductive FinalizeReaction (c : DkgCeremony C) (q : DkgParticipant D) :
    Except DkgFault (List (Tx C)) → DkgParticipant D → Prop
  | panic {f} : c.r2Complete = .error f → FinalizeReaction c q (.error (.ceremony f)) q
  | wait : c.r2Complete = .ok false → FinalizeReaction c q (.ok []) q
  | done : c.r2Complete = .ok true → q.submittedFinalize = true → FinalizeReaction c q (.ok []) q
  | saw : c.r2Complete = .ok true → q.submittedFinalize = false → q.identifier ∈ c.finalize →
      FinalizeReaction c q (.ok []) { q with submittedFinalize := true }
  | openFailed {f} : FinalizeDue c q → DkgCtx.openAll q ∅ c.round2.toList = .error f →
      FinalizeReaction c q (.error f) q
  | noSecret {received} : FinalizeDue c q → DkgCtx.openAll q ∅ c.round2.toList = .ok received →
      q.secretR2 = none → FinalizeReaction c q (.error (.err (.inconsistent "missing r2 secret for finalize"))) q
  | part3Failed {received secret e} : FinalizeDue c q → DkgCtx.openAll q ∅ c.round2.toList = .ok received →
      q.secretR2 = some secret → C.part3 secret (q.othersR1 c) received = .error e →
      FinalizeReaction c q (.error (.err (.frost (C.errorToString e)))) { q with secretR2 := none }
  | finalize {received secret keyPkg pkp} : FinalizeDue c q → DkgCtx.openAll q ∅ c.round2.toList = .ok received →
      q.secretR2 = some secret → C.part3 secret (q.othersR1 c) received = .ok (keyPkg, pkp) →
      FinalizeReaction c q (.ok [.dkgFinalize q.identifier pkp])
        { q with secretR2 := none, keyPackage := some keyPkg, publicKeyPackage := some pkp, submittedFinalize := true }

inductive Round2Reaction (c : DkgCeremony C) (q : DkgParticipant D) (rng : C.Rng) :
    Except DkgFault (List (Tx C)) → DkgParticipant D → Prop
  | wait : c.r1Complete = false → Round2Reaction c q rng (.ok []) q
  | noSecret : c.r1Complete = true → q.submittedR2 = false → q.secretR1 = none →
      Round2Reaction c q rng (.error (.err (.inconsistent "missing r1 secret for r2"))) q
  | part2Failed {secret e} : c.r1Complete = true → q.submittedR2 = false → q.secretR1 = some secret →
      C.part2 secret (q.othersR1 c) = .error e →
      Round2Reaction c q rng (.error (.err (.frost (C.errorToString e)))) { q with secretR1 := none }
  | sealFailed {secret secretR2 sent f} : c.r1Complete = true → q.submittedR2 = false → q.secretR1 = some secret →
      C.part2 secret (q.othersR1 c) = .ok (secretR2, sent) →
      (DkgCtx.sealAll D q.identifier c rng [] sent.toList).1 = .error f →
      Round2Reaction c q rng (.error f) { q with secretR1 := none, secretR2 := some secretR2 }
  | round2 {secret secretR2 sent out} : c.r1Complete = true → q.submittedR2 = false → q.secretR1 = some secret →
      C.part2 secret (q.othersR1 c) = .ok (secretR2, sent) →
      (DkgCtx.sealAll D q.identifier c rng [] sent.toList).1 = .ok out →
      Round2Reaction c q rng (.ok out) { q with secretR1 := none, secretR2 := some secretR2, submittedR2 := true }
  | later {r q'} : c.r1Complete = true → q.submittedR2 = true → FinalizeReaction c q r q' →
      Round2Reaction c q rng r q'

inductive DkgReaction (c : DkgCeremony C) (p : DkgParticipant D) (rng : C.Rng) :
    Except DkgFault (List (Tx C)) → DkgParticipant D → Prop
  | part1Failed {e} : p.submittedR1 = false → p.identifier ∉ c.round1 →
      (C.part1 p.identifier c.params.total c.params.threshold rng).1 = .error e →
      DkgReaction c p rng (.error (.err (.frost (C.errorToString e)))) p
  | round1 {secret package} : p.submittedR1 = false → p.identifier ∉ c.round1 →
      (C.part1 p.identifier c.params.total c.params.threshold rng).1 = .ok (secret, package) →
      DkgReaction c p rng (.ok [.dkgRound1 p.identifier package])
        { p with secretR1 := some secret, submittedR1 := true }
  | later {r p'} : (p.submittedR1 = true ∨ p.identifier ∈ c.round1) → Round2Reaction c (p.saw c) rng r p' →
      DkgReaction c p rng r p'

namespace DkgCtx

theorem reactFinalize_reaction (ctx : DkgCtx D) (c : DkgCeremony C) :
    FinalizeReaction c ctx.participant (ctx.reactFinalize c).1 (ctx.reactFinalize c).2.participant := by
  unfold reactFinalize
  cases h2 : c.r2Complete with
  | error f => exact .panic h2
  | ok b =>
    cases b with
    | false => exact .wait h2
    | true =>
      by_cases hs : ctx.participant.submittedFinalize = true
      · simp only [hs, if_true]; exact .done h2 hs
      by_cases hf : ctx.participant.identifier ∈ c.finalize
      · simp only [hs, hf, if_true]; exact .saw h2 (by simpa using hs) hf
      simp only [hs, hf, if_false]
      have hdue : FinalizeDue c ctx.participant := ⟨h2, by simpa using hs, hf⟩
      cases ho : openAll ctx.participant ∅ c.round2.toList with
      | error f => exact .openFailed hdue ho
      | ok received =>
        cases hk : ctx.participant.secretR2 with
        | none => exact .noSecret hdue ho hk
        | some secret =>
          cases hp : C.part3 secret (ctx.participant.othersR1 c) received with
          | error e => simp only [hp]; exact .part3Failed hdue ho hk hp
          | ok result => simp only [hp]; exact .finalize hdue ho hk hp

theorem reactRound2_reaction (ctx : DkgCtx D) (c : DkgCeremony C) :
    Round2Reaction c ctx.participant ctx.rng (ctx.reactRound2 c).1 (ctx.reactRound2 c).2.participant := by
  unfold reactRound2
  by_cases h1 : c.r1Complete = false
  · simp only [h1, if_true]; exact .wait h1
  have h1' : c.r1Complete = true := by simpa using h1
  by_cases hs : ctx.participant.submittedR2 = true
  · simp only [h1, hs, if_true]
    exact .later h1' hs (reactFinalize_reaction ctx c)
  have hs' : ctx.participant.submittedR2 = false := by simpa using hs
  simp only [h1, hs]
  cases hk : ctx.participant.secretR1 with
  | none => exact .noSecret h1' hs' hk
  | some secret =>
    cases hp : C.part2 secret (ctx.participant.othersR1 c) with
    | error e => simp only [hp]; exact .part2Failed h1' hs' hk hp
    | ok result =>
      cases hsealed : sealAll D ctx.participant.identifier c ctx.rng [] result.2.toList with
      | mk r rng =>
        simp only [hp, modify, hsealed]
        cases r with
        | error f => exact .sealFailed h1' hs' hk hp (by rw [hsealed])
        | ok out => exact .round2 h1' hs' hk hp (by rw [hsealed])

theorem reactRound1_reaction (ctx : DkgCtx D) (c : DkgCeremony C) :
    DkgReaction c ctx.participant ctx.rng (ctx.reactRound1 c).1 (ctx.reactRound1 c).2.participant := by
  unfold reactRound1
  by_cases hs : ctx.participant.submittedR1 = true
  · simp only [hs, if_true]
    refine .later (Or.inl hs) ?_
    rw [DkgParticipant.saw_of_submitted c hs]
    exact reactRound2_reaction ctx c
  have hs' : ctx.participant.submittedR1 = false := by simpa using hs
  by_cases hr : ctx.participant.identifier ∈ c.round1
  · simp only [hs, hr, if_true]
    have hsaw : ctx.modify ({ · with submittedR1 := true }) = ctx.modify (·.saw c) := by
      simp only [modify, DkgParticipant.saw, hr, decide_true, Bool.or_true]
    rw [hsaw]
    exact .later (Or.inr hr) (reactRound2_reaction (ctx.modify (·.saw c)) c)
  simp only [hs, hr, if_false]
  cases hp : C.part1 ctx.participant.identifier c.params.total c.params.threshold ctx.rng with
  | mk r rng =>
    cases r with
    | error e => exact .part1Failed hs' hr (by rw [hp])
    | ok result => exact .round1 hs' hr (by rw [hp])

/-- Nothing is asked of a participant once there is a group, before there is a
ceremony, or in one it has no part in. -/
theorem react_idle {ctx : DkgCtx D} {s : State C}
    (h : ∀ c, s.group = none → s.ceremony = some c → ctx.participant.identifier ∉ c.validators) :
    ctx.react s = (.ok [], ctx) := by
  unfold react
  cases hg : s.group with
  | some g => simp
  | none =>
    cases hc : s.ceremony with
    | none => simp
    | some c => simp [h c hg hc]

theorem react_reaction (ctx : DkgCtx D) {s : State C} {c : DkgCeremony C} (hg : s.group = none)
    (hc : s.ceremony = some c) (hv : ctx.participant.identifier ∈ c.validators) :
    DkgReaction c ctx.participant ctx.rng (ctx.react s).1 (ctx.react s).2.participant := by
  have heq : ctx.react s = ctx.reactRound1 c := by
    unfold react
    simp [hg, hc, hv]
  rw [heq]
  exact reactRound1_reaction ctx c

/-- A reaction does nothing, or has an outcome in the ceremony of a state without a group. -/
theorem react_cases (ctx : DkgCtx D) (s : State C) :
    ctx.react s = (.ok [], ctx) ∨ ∃ c, s.group = none ∧ s.ceremony = some c ∧
      ctx.participant.identifier ∈ c.validators ∧
      DkgReaction c ctx.participant ctx.rng (ctx.react s).1 (ctx.react s).2.participant := by
  by_cases h : ∃ c, s.group = none ∧ s.ceremony = some c ∧ ctx.participant.identifier ∈ c.validators
  · obtain ⟨c, hg, hc, hv⟩ := h
    exact Or.inr ⟨c, hg, hc, hv, react_reaction ctx hg hc hv⟩
  · left
    apply react_idle
    intro c hg hc hv
    exact h ⟨c, hg, hc, hv⟩

end DkgCtx

def DkgParticipant.react (participant : DkgParticipant D) (s : State C) (rng : C.Rng) :
    DkgParticipant D × List (Tx C) :=
  let result := DkgCtx.react { participant, rng } s
  (result.2.participant, returned result.1)

theorem DkgParticipant.react_invariant {P : DkgParticipant D → List (Tx C) → Prop} {participant : DkgParticipant D}
    {s : State C} {rng : C.Rng} (h : P participant [])
    (hs : ∀ c r p', s.group = none → s.ceremony = some c → participant.identifier ∈ c.validators →
      DkgReaction c participant rng r p' → P p' (returned r)) :
    P (participant.react s rng).1 (participant.react s rng).2 := by
  rcases DkgCtx.react_cases { participant, rng } s with heq | ⟨c, hg, hc, hv, hreact⟩
  · unfold DkgParticipant.react
    rw [heq]; exact h
  · exact hs c _ _ hg hc hv hreact

end Sapphire
