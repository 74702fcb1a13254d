import Sapphire.DkgLive

/-!
# A key generation in three rounds

What a round of the ceremony adds is on the chain once everyone has reacted to
the one before and a block was committed. So three such rounds make the group,
whoever else reacts and whatever else is committed in between.
-/

namespace Sapphire

open BTreeMap Replay

variable {C : Ciphersuite} {D : DkgWire C}

/-- The first `k` rounds of the participant are on their way. -/
def DkgParticipant.Past (p : DkgParticipant D) : Nat → Prop
  | 0 => True
  | 1 => p.submittedR1 = true
  | 2 => p.submittedR2 = true
  | _ => p.submittedFinalize = true

/-- The first `k` rounds are on the chain, the last of which makes the group. -/
def State.Past (members : Finset C.Identifier) (s : State C) : Nat → Prop
  | 0 => s.Taken .bootstrap
  | 1 => ∀ i ∈ members, s.Taken (.r1 i)
  | 2 => ∀ i ∈ members, ∀ j ∈ members, i ≠ j → s.Taken (.r2 i j)
  | _ => ∃ g, s.group = some g

/-! ## What has been sent stays sent -/

section
variable {c : DkgCeremony C} {p p' : DkgParticipant D} {rng : C.Rng} {r : Except DkgFault (List (Tx C))} {k : Nat}

theorem FinalizeReaction.past (hr : FinalizeReaction c p r p') (h : p.Past k) : p'.Past k := by
  rcases k with _ | _ | _ | k
  · trivial
  · cases hr <;> exact h
  · cases hr <;> exact h
  · cases hr <;> first | exact h | rfl

theorem Round2Reaction.past (hr : Round2Reaction c p rng r p') (h : p.Past k) : p'.Past k := by
  cases hr with
  | later _ _ hfin => exact hfin.past h
  | round2 _ hs _ _ _ =>
    rcases k with _ | _ | _ | k
    · trivial
    · exact h
    · rfl
    · exact h
  | _ => rcases k with _ | _ | _ | k <;> exact h

theorem DkgParticipant.Past.saw (h : p.Past k) (c : DkgCeremony C) : (p.saw c).Past k := by
  rcases k with _ | _ | _ | k
  · trivial
  · change p.submittedR1 = true at h
    simp [Past, DkgParticipant.saw, h]
  · exact h
  · exact h

theorem DkgReaction.past (hr : DkgReaction c p rng r p') (h : p.Past k) : p'.Past k := by
  cases hr with
  | part1Failed _ _ _ => exact h
  | round1 hs _ _ =>
    rcases k with _ | _ | _ | k
    · trivial
    · rfl
    · exact h
    · exact h
  | later _ hr => exact hr.past (h.saw c)

/-! ## What a reaction sends -/

variable {out : List (Tx C)}

theorem FinalizeReaction.sends (hr : FinalizeReaction c p (.ok out) p') (h2 : c.r2Complete = .ok true) : p'.Past 3 := by
  cases hr with
  | wait hn => rw [h2] at hn; cases hn
  | done _ hs => exact hs
  | saw _ _ _ => rfl
  | finalize _ _ _ _ => rfl

theorem Round2Reaction.sends (hr : Round2Reaction c p rng (.ok out) p') (h1 : c.r1Complete = true) : p'.Past 2 := by
  cases hr with
  | wait hn => rw [h1] at hn; cases hn
  | round2 _ _ _ _ _ => rfl
  | later _ hs hr => exact hr.past (k := 2) hs

theorem Round2Reaction.reaches (hr : Round2Reaction c p rng (.ok out) p') (h1 : c.r1Complete = true)
    (hs : p.submittedR2 = true) : FinalizeReaction c p (.ok out) p' := by
  cases hr with
  | wait hn => rw [h1] at hn; cases hn
  | round2 _ hn _ _ _ => rw [hs] at hn; cases hn
  | later _ _ hr => exact hr

theorem DkgReaction.reaches (hr : DkgReaction c p rng (.ok out) p') (hmem : p.identifier ∈ c.round1) :
    Round2Reaction c (p.saw c) rng (.ok out) p' := by
  cases hr with
  | round1 _ hnot _ => exact absurd hmem hnot
  | later _ hr => exact hr

end

/-! ## One round -/

section
variable {T : Transcript C} {params : MpcParams} {validators : BTreeMap C.Identifier EncPublicKey} {sim : DkgSim D}

theorem DkgParticipant.Ready.past {i : C.Identifier} {p : DkgParticipant D} (h : p.Ready T i)
    (hfin : p.submittedFinalize = true) (k : Nat) : p.Past k := by
  rcases k with _ | _ | _ | k
  · trivial
  · exact h.round1 (h.round2 hfin)
  · exact h.round2 hfin
  · exact hfin

theorem State.Past.replay {s : State C} (hs : s.Valid) {k : Nat} (h : s.Past T.members k) (txs : List (Tx C)) :
    (replay applyTx s txs).Past T.members k := by
  rcases k with _ | _ | _ | k
  · have hbegun : s.Taken .bootstrap := h
    exact State.Taken.replay hs hbegun txs
  · exact fun i hi => State.Taken.replay hs (h i hi) txs
  · exact fun i hi j hj hne => State.Taken.replay hs (h i hi j hj hne) txs
  · obtain ⟨g, hg⟩ := h
    refine ⟨g, ?_⟩
    exact replay_invariant (P := fun s : State C => s.Valid ∧ s.group = some g)
      (fun _ _ _ hs ha => ⟨applyTx_valid hs.1 ha, (hs.1.advances ha).group g hs.2⟩) ⟨hs, hg⟩ txs |>.2

theorem State.Past.begun {s : State C} {members : Finset C.Identifier} {k : Nat} (hk : k < 3) (htwo : 2 ≤ members.card)
    (h : s.Past members k) : s.Taken .bootstrap := by
  have hhas : ∀ {P : DkgCeremony C → Prop}, s.Has P → s.Has fun _ => True := by
    intro P hP
    exact hP.imp_right fun ⟨c, hc, _⟩ => ⟨c, hc, trivial⟩
  obtain ⟨i, hi, j, hj, hne⟩ := Finset.one_lt_card.mp htwo
  rcases k with _ | _ | _ | k
  · exact h
  · exact hhas (h i hi)
  · exact hhas (h i hi j hj hne)
  · omega

namespace DkgSim

theorem exec_past {i : C.Identifier} {k : Nat} (h : (sim.participant i).Past k) (e : DkgEvent C) :
    ((sim.exec e).participant i).Past k := by
  cases e with
  | commit =>
    unfold exec
    cases sim.chain.commitBlock with
    | error msg => exact h
    | ok result => exact h
  | react j rng =>
    by_cases hj : i = j
    · subst hj
      simp only [exec, Function.update_self]
      rcases DkgCtx.react_cases { participant := sim.participant i, rng } sim.chain.state with hidle | hreact
      · rw [show sim.reaction i rng = (.ok [], { participant := sim.participant i, rng }) from hidle]
        exact h
      · obtain ⟨_, _, _, _, hreact⟩ := hreact
        exact hreact.past h
    · simp only [exec, Function.update_of_ne hj]; exact h

theorem exec_statePast (hvalid : sim.chain.state.Valid) {k : Nat} (h : sim.chain.state.Past T.members k)
    (e : DkgEvent C) : (sim.exec e).chain.state.Past T.members k := by
  cases e with
  | react j rng => simpa only [exec, ChainSim.submitAll_state] using h
  | commit =>
    unfold exec
    cases hc : sim.chain.commitBlock with
    | error msg => exact h
    | ok result =>
      obtain ⟨results, chain⟩ := result
      change chain.state.Past T.members k
      rw [(ChainSim.commitBlock_state hc).1]
      exact h.replay hvalid _

end DkgSim

namespace DkgSim.Live

variable (h : sim.Live T params validators)
include h

theorem submitted {g : GroupConfig C} (hg : sim.chain.state.group = some g) :
    ∀ i ∈ T.members, (sim.participant i).submittedFinalize = true := by
  have hvalid := h.faithful.valid
  obtain ⟨t, hrun, hahead⟩ := h.ahead
  cases hahead with
  | promoted _ hall => exact hall
  | pending hc _ =>
    have ht : replay applyTx sim.chain.state sim.chain.mempool = t := replay_of_run hrun
    have hgroup : sim.chain.state.Past T.members 3 := ⟨g, hg⟩
    obtain ⟨g', hg'⟩ := hgroup.replay hvalid sim.chain.mempool
    have htvalid : t.Valid := ht ▸ replay_invariant (fun _ _ _ hs ha => applyTx_valid hs ha) hvalid _
    rw [ht] at hg'
    rw [htvalid.exclusive hc] at hg'; cases hg'

/-- With the first `k` rounds on the chain, a reaction sends the next one. -/
theorem react_past (hfrost : HonestDkg C) (hwire : WireLaws D) (hdrawn : T.Drawn params)
    (hdom : dom validators = T.members) {k : Nat} (hk : k < 3) (hstate : sim.chain.state.Past T.members k)
    {i : C.Identifier} (hi : i ∈ T.members) (hready : (sim.participant i).Past k) (rng : C.Rng) :
    ((sim.exec (.react i rng)).participant i).Past (k + 1) := by
  cases hg : sim.chain.state.group with
  | some g => exact exec_past ((h.ready i hi).past (h.submitted hg i hi) (k + 1)) _
  | none =>
    have hvalid := h.faithful.valid
    rcases hstate.begun hk hdrawn.two_le_card with ⟨g, hg'⟩ | ⟨c, hc, _⟩
    · rw [hg] at hg'; cases hg'
    obtain ⟨_, _, hfaithful⟩ := h.faithful.ceremony hdom hc
    have hid := (h.faithful.consistent i).identifier
    have hv : i ∈ c.validators := hfaithful.mem_validators.mpr hi
    have hreact := DkgCtx.react_reaction { participant := sim.participant i, rng } hg hc (hid.symm ▸ hv)
    obtain ⟨_, _, out, hout, _⟩ := h.proceeds hfrost hwire hdrawn hdom hi rng
    simp only [DkgSim.exec, Function.update_self]
    change DkgReaction c (sim.participant i) rng (sim.reaction i rng).1 (sim.reaction i rng).2.participant at hreact
    rw [hout] at hreact
    have hvalid := h.faithful.valid
    have hcv := hvalid.ceremony hc
    have hhas : ∀ {P : DkgCeremony C → Prop}, sim.chain.state.Has P → P c := (State.Has.of_ceremony hvalid hc).mp
    rcases k with _ | _ | _ | k
    · rcases hreact.submittedR1 with hs | ⟨_, e, he⟩
      · exact hs
      · cases he
    · have hall : ∀ v ∈ c.validators, v ∈ c.round1 := fun v hv => hhas (hstate v (hfaithful.mem_validators.mp hv))
      have h1 := hcv.r1Complete_iff_all.mpr hall
      exact (hreact.reaches (hid.symm ▸ hall i hv)).sends h1
    · have hall : ∀ v ∈ c.validators, ∀ w ∈ c.validators, v ≠ w → toLex (v, w) ∈ c.round2 := fun v hv w hw hne =>
        hhas (hstate v (hfaithful.mem_validators.mp hv) w (hfaithful.mem_validators.mp hw) hne)
      have h2 := (hcv.r2Complete_iff_all (hcv.total_pos hv)).mpr hall
      -- somebody's envelope is there, so everyone's first package is
      obtain ⟨j, hj, hne⟩ := Finset.exists_mem_ne (Finset.one_lt_card.mpr (Finset.one_lt_card.mp hdrawn.two_le_card)) i
      have hsize : c.round2.size ≠ 0 := by
        have hmem := mem_dom.mpr (hall i hv j (hfaithful.mem_validators.mpr hj) hne.symm)
        rw [← card_dom]
        exact (Finset.card_pos.mpr ⟨_, hmem⟩).ne'
      have h1 : c.r1Complete = true := DkgCeremony.r1Complete_iff.mpr (hcv.round2_after hsize)
      have hmem : (sim.participant i).identifier ∈ c.round1 := by
        rw [hid]
        exact hcv.r1Complete_iff_all.mp h1 i hv
      exact ((hreact.reaches hmem).reaches h1 hready).sends h2
    · omega

theorem commit_mempool : (sim.exec .commit).chain.mempool = [] := by
  obtain ⟨t, hrun, _⟩ := h.ahead
  simp only [DkgSim.exec, ChainSim.commitBlock_all hrun]

/-- A block puts on the chain what everyone has sent. -/
theorem commit_past (hdrawn : T.Drawn params) (hdom : dom validators = T.members) (hempty : sim.chain.mempool = [])
    {k : Nat} (hall : ∀ i ∈ T.members, (sim.participant i).Past k) : sim.chain.state.Past T.members k := by
  obtain ⟨t, hrun, hahead⟩ := h.ahead
  rw [hempty, run_nil] at hrun
  cases hrun
  cases hahead with
  | promoted hg _ =>
    rcases k with _ | _ | _ | k
    · exact Or.inl ⟨_, hg⟩
    · exact fun _ _ => Or.inl ⟨_, hg⟩
    · exact fun _ _ _ _ _ => Or.inl ⟨_, hg⟩
    · exact ⟨_, hg⟩
  | @pending c hc hsynced =>
    rcases k with _ | _ | _ | k
    · exact Or.inr ⟨c, hc, trivial⟩
    · exact fun i hi => Or.inr ⟨c, hc, (hsynced i hi).round1.mp (hall i hi)⟩
    · exact fun i hi j hj hne => Or.inr ⟨c, hc, ((hsynced i hi).round2 j).mpr ⟨hall i hi, hj, hne.symm⟩⟩
    · -- with the last finalize the ceremony would be over
      exfalso
      obtain ⟨_, _, hfaithful⟩ := h.faithful.ceremony hdom hc
      have hcv := hfaithful.valid
      have htotal : c.total ≠ 0 := by
        have htwo := hdrawn.two_le_card
        rw [← hfaithful.members, hcv.card_validators] at htwo
        omega
      have hfull : c.finalize.size = c.total := by
        rw [← hcv.card_validators, size_eq_card_iff hcv.finalize_sub, hfaithful.members]
        exact fun i hi => (hsynced i hi).finalize.mp (hall i hi)
      exact absurd hfull (hcv.pending htotal).ne

end DkgSim.Live

/-! ## Rounds of a run -/

theorem DkgSim.part1Calls_split (sim : DkgSim D) (events more : List (DkgEvent C)) :
    sim.part1Calls (events ++ more) = sim.part1Calls events ++ (sim.execAll events).part1Calls more := by
  induction events generalizing sim with
  | nil => rfl
  | cons e events ih =>
    rw [List.cons_append, DkgSim.part1Calls, DkgSim.part1Calls, ih, List.append_assoc]
    rfl

/-- The chain and everyone are past the first `k` rounds. -/
structure DkgSim.InRound (T : Transcript C) (params : MpcParams) (validators : BTreeMap C.Identifier EncPublicKey)
    (k : Nat) (sim : DkgSim D) : Prop where
  live : sim.Live T params validators
  state : sim.chain.state.Past T.members k
  sent : ∀ i ∈ T.members, (sim.participant i).Past k

namespace DkgSim.InRound

variable {k : Nat} (hfrost : HonestDkg C) (hwire : WireLaws D) (hdrawn : T.Drawn params)
  (hdom : dom validators = T.members) (hsize : validators.size = params.total.toNat)
include hfrost hwire hdrawn hdom hsize

theorem exec (h : sim.InRound T params validators k) {e : DkgEvent C}
    (hcall : ∀ call, sim.part1Call e = some call → call.2 = .ok (T.round1 call.1)) :
    (sim.exec e).InRound T params validators k where
  live := h.live.exec hfrost hwire hdrawn hdom hsize hcall
  state := exec_statePast h.live.faithful.valid h.state e
  sent := fun i hi => exec_past (h.sent i hi) e

/-- Who reacts in a run has sent the next round by its end. -/
theorem execAll (hk : k < 3) (h : sim.InRound T params validators k) {events : List (DkgEvent C)}
    (hcalls : ∀ call ∈ sim.part1Calls events, call.2 = .ok (T.round1 call.1)) :
    (sim.execAll events).InRound T params validators k ∧
      ∀ i ∈ T.members, (sim.participant i).Past (k + 1) ∨ (∃ rng, .react i rng ∈ events) →
        ((sim.execAll events).participant i).Past (k + 1) := by
  induction events generalizing sim with
  | nil =>
    refine ⟨h, fun i _ hsent => ?_⟩
    rcases hsent with hsent | ⟨rng, hmem⟩
    · exact hsent
    · cases hmem
  | cons e events ih =>
    have hstep : (sim.exec e).InRound T params validators k :=
      h.exec hfrost hwire hdrawn hdom hsize fun call hc => hcalls call (List.mem_append_left _ (by simp [hc]))
    obtain ⟨hround, hsent⟩ := ih hstep fun call hc => hcalls call (List.mem_append_right _ hc)
    refine ⟨hround, fun i hi hnext => hsent i hi ?_⟩
    rcases hnext with hnext | ⟨rng, hmem⟩
    · exact Or.inl (exec_past hnext e)
    · rcases List.mem_cons.mp hmem with heq | hmem
      · left
        rw [← heq]
        exact h.live.react_past hfrost hwire hdrawn hdom hk h.state hi (h.sent i hi) rng
      · exact Or.inr ⟨rng, hmem⟩

/-- **Round.** Once everyone has reacted and a block is committed, everyone is one round further. -/
theorem next (hk : k < 3) (h : sim.InRound T params validators k) {events : List (DkgEvent C)}
    (hreacts : ∀ i ∈ T.members, ∃ rng, .react i rng ∈ events)
    (hcalls : ∀ call ∈ sim.part1Calls (events ++ [.commit]), call.2 = .ok (T.round1 call.1)) :
    (sim.execAll (events ++ [.commit])).InRound T params validators (k + 1) := by
  rw [part1Calls_append] at hcalls
  obtain ⟨hround, hsent⟩ := h.execAll hfrost hwire hdrawn hdom hsize hk fun call hc =>
    hcalls call (List.mem_append_left _ hc)
  have hcommit : sim.execAll (events ++ [.commit]) = (sim.execAll events).exec .commit := List.foldl_append
  have hall : ∀ i ∈ T.members, (((sim.execAll events).exec .commit).participant i).Past (k + 1) := fun i hi =>
    exec_past (hsent i hi (Or.inr (hreacts i hi))) _
  have hlive : ((sim.execAll events).exec .commit).Live T params validators :=
    hround.live.exec hfrost hwire hdrawn hdom hsize fun call hc => by cases hc
  rw [hcommit]
  exact ⟨hlive, hlive.commit_past hdrawn hdom hround.live.commit_mempool hall, hall⟩

theorem rounds {rounds : List (List (DkgEvent C))} (hk : k + rounds.length ≤ 3)
    (h : sim.InRound T params validators k) (hreacts : ∀ round ∈ rounds, ∀ i ∈ T.members, ∃ rng, .react i rng ∈ round)
    (hcalls : ∀ call ∈ sim.part1Calls (rounds.flatMap (· ++ [.commit])), call.2 = .ok (T.round1 call.1)) :
    (sim.execAll (rounds.flatMap (· ++ [.commit]))).InRound T params validators (k + rounds.length) := by
  induction rounds generalizing sim k with
  | nil => exact h
  | cons round rounds ih =>
    rw [List.length_cons] at hk
    rw [List.flatMap_cons, part1Calls_split] at hcalls
    have hnext := h.next hfrost hwire hdrawn hdom hsize (by omega) (hreacts round List.mem_cons_self) fun call hc =>
      hcalls call (List.mem_append_left _ hc)
    have hrest := ih (k := k + 1) (by omega) hnext (fun r hr => hreacts r (List.mem_cons_of_mem _ hr)) fun call hc =>
      hcalls call (List.mem_append_right _ hc)
    rw [List.flatMap_cons, List.length_cons, show k + (rounds.length + 1) = k + 1 + rounds.length by omega,
      show sim.execAll _ = (sim.execAll (round ++ [.commit])).execAll (rounds.flatMap (· ++ [.commit])) from
        List.foldl_append]
    exact hrest

/-- The first block begins the ceremony. -/
theorem begun {events : List (DkgEvent C)} (h : sim.Live T params validators) (hbegin : .commit ∈ events)
    (hcalls : ∀ call ∈ sim.part1Calls events, call.2 = .ok (T.round1 call.1)) :
    (sim.execAll events).InRound T params validators 0 := by
  obtain ⟨pre, post, rfl⟩ := List.append_of_mem hbegin
  rw [part1Calls_split] at hcalls
  have hpre : (sim.execAll pre).Live T params validators :=
    dkgRun_live hfrost hwire hdrawn hdom hsize h fun call hc => hcalls call (List.mem_append_left _ hc)
  have hlive : ((sim.execAll pre).exec .commit).Live T params validators :=
    hpre.exec hfrost hwire hdrawn hdom hsize fun call hc => by cases hc
  have hround : ((sim.execAll pre).exec .commit).InRound T params validators 0 :=
    ⟨hlive, hlive.commit_past hdrawn hdom hpre.commit_mempool fun _ _ => trivial, fun _ _ => trivial⟩
  have hpost := (hround.execAll hfrost hwire hdrawn hdom hsize (by omega) fun call hc =>
    hcalls call (List.mem_append_right _ (List.mem_append_right _ hc))).1
  rw [show sim.execAll (pre ++ .commit :: post) = ((sim.execAll pre).exec .commit).execAll post from List.foldl_append]
  exact hpost

end DkgSim.InRound

end

/-- There is a group, and each of `ids` has its keys. -/
def DkgSim.Promoted (ids : List C.Identifier) (sim : DkgSim D) : Prop :=
  ∃ g, sim.chain.state.group = some g ∧
    ∀ i ∈ ids, (sim.participant i).isComplete = true ∧ (sim.participant i).publicKeyPackage = some g.pkp

theorem DkgSim.InRound.promoted (hfrost : HonestDkg C) {T : Transcript C} {params : MpcParams} (hdrawn : T.Drawn params)
    {validators : BTreeMap C.Identifier EncPublicKey} (hdom : dom validators = T.members) {sim : DkgSim D}
    (h : sim.InRound T params validators 3) {ids : List C.Identifier} (hids : ∀ i ∈ ids, i ∈ T.members) :
    sim.Promoted ids := by
  obtain ⟨g, hg⟩ := h.state
  refine ⟨g, hg, fun i hi => ?_⟩
  have hi' : i ∈ T.members := hids i hi
  obtain ⟨keyPkg, pkp, hderives, hkey, hpkp⟩ := (h.live.ready i hi').derived (h.sent i hi')
  obtain ⟨v, hv, _, hderives', _⟩ := (h.live.faithful.promoted hg).package
  have hv' : v ∈ T.members := by rw [← hdom]; exact mem_dom.mpr hv
  rw [← hfrost.derives_same hdrawn hi' hderives hv' hderives']
  refine ⟨?_, hpkp⟩
  unfold DkgParticipant.isComplete
  rw [hkey, hpkp]
  rfl

/-- **Three rounds.** With the ceremony begun, three rounds in which everyone reacts
and that end with a block make the group, and everyone has its keys, whatever
else is done in between. -/
theorem promoted_after_three_rounds (hfrost : HonestDkg C) (hwire : WireLaws D) {params : MpcParams}
    (ht : 2 ≤ params.threshold.toNat) (hle : params.threshold ≤ params.total) {ids : List C.Identifier} (hd : ids.Nodup)
    (hlen : ids.length = params.total.toNat) (seed : C.Identifier → C.Rng) {before : List (DkgEvent C)}
    (hbegin : .commit ∈ before) {rounds : List (List (DkgEvent C))} (hthree : rounds.length = 3)
    (hreacts : ∀ round ∈ rounds, ∀ i ∈ ids, ∃ rng, .react i rng ∈ round) :
    (dkgRun D seed params ids (before ++ rounds.flatMap (· ++ [.commit]))).Promoted ids := by
  obtain ⟨T, hmembers, hdrawn, hcalls⟩ := exists_transcript hfrost hwire ht hle hd hlen seed
    (before ++ rounds.flatMap (· ++ [.commit]))
  have hdom : dom (advertise D seed ids) = T.members := (dom_advertise hd).trans hmembers.symm
  have hsize : (advertise D seed ids).size = params.total.toNat := (size_advertise hd).trans hlen
  have hmem : ∀ i, i ∈ T.members ↔ i ∈ ids := fun i => by simp [hmembers]
  rw [DkgSim.part1Calls_split] at hcalls
  have hstart : (dkgRun D seed params ids before).InRound T params (advertise D seed ids) 0 :=
    .begun hfrost hwire hdrawn hdom hsize (dkgStart_live hd hlen) hbegin fun call hc =>
      (hcalls call (List.mem_append_left _ hc)).1
  have hall : ∀ round ∈ rounds, ∀ i ∈ T.members, ∃ rng, .react i rng ∈ round := fun round hround i hi =>
    hreacts round hround i ((hmem i).mp hi)
  have hend := hstart.rounds hfrost hwire hdrawn hdom hsize (by omega) hall fun call hc =>
    (hcalls call (List.mem_append_right _ hc)).1
  rw [Nat.zero_add, hthree] at hend
  rw [dkgRun, DkgSim.execAll, List.foldl_append]
  exact hend.promoted hfrost hdrawn hdom fun i hi => (hmem i).mpr hi

namespace Ideal

def firstRound : List (DkgEvent suite) :=
  [.react (1 : Nat) (9 : Nat), .react (2 : Nat) (8 : Nat), .react (1 : Nat) (7 : Nat)]

/-- With a block in between. -/
def secondRound : List (DkgEvent suite) := [.react (2 : Nat) (6 : Nat), .commit, .react (1 : Nat) (5 : Nat)]

def thirdRound : List (DkgEvent suite) := [.react (2 : Nat) (4 : Nat), .react (1 : Nat) (3 : Nat)]

end Ideal

theorem promoted_after_three_rounds_pair :
    (dkgRun Ideal.box id Ideal.pair ([1, 2] : List Nat) ([.commit] ++
      [Ideal.firstRound, Ideal.secondRound, Ideal.thirdRound].flatMap (· ++ [.commit]))).Promoted ([1, 2] : List Nat) := by
  have hreacts : ∀ round ∈ [Ideal.firstRound, Ideal.secondRound, Ideal.thirdRound], ∀ i ∈ ([1, 2] : List Nat),
      ∃ rng : Nat, .react (C := Ideal.suite) i rng ∈ round := by
    intro round hround i hi
    simp only [List.mem_cons, List.not_mem_nil, or_false] at hround hi
    rcases hround with rfl | rfl | rfl <;> rcases hi with rfl | rfl <;>
      simp [Ideal.firstRound, Ideal.secondRound, Ideal.thirdRound]
  exact promoted_after_three_rounds Ideal.honestDkg Ideal.boxLaws (by decide) (by decide) (by decide) rfl id
    List.mem_cons_self rfl hreacts

end Sapphire
