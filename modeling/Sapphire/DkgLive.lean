import Sapphire.DkgSim

/-!
# An honest key generation does not stall

Where parts 1 to 3 succeed, whatever is in the mempool will be accepted in
order, and the flags of each participant say exactly what of its own is on
the chain or on its way there. Then nothing fails, nothing is rejected, and
where nothing more is to come the group is there.
-/

namespace Sapphire

open BTreeMap Replay

variable {C : Ciphersuite} {D : DkgWire C}

/-! ## Honest parts -/

/-- The outputs of part 1 at as many members as the parameters ask for. -/
structure Transcript.Drawn (T : Transcript C) (params : MpcParams) : Prop where
  threshold : 2 ≤ params.threshold.toNat
  le : params.threshold ≤ params.total
  card : T.members.card = params.total.toNat
  round1 : ∀ i ∈ T.members, ∃ rng, (C.part1 i params.total params.threshold rng).1 = .ok (T.round1 i)

/-- The parts of the key generation succeed on each other's outputs: part 2
addresses exactly the other members, and part 3 gives all of them one package. -/
structure HonestDkg (C : Ciphersuite) : Prop where
  part1 : ∀ (i : C.Identifier) (total threshold : UInt16) rng, 2 ≤ threshold.toNat → threshold ≤ total →
    ∃ out, (C.part1 i total threshold rng).1 = .ok out
  part2 : ∀ (T : Transcript C) params, T.Drawn params → ∀ i ∈ T.members,
    ∃ secretR2 sent, T.Sends i secretR2 sent ∧ dom sent = T.members.erase i
  part3 : ∀ (T : Transcript C) params, T.Drawn params → ∃ pkp, ∀ i ∈ T.members, ∀ secretR2 sent received,
    T.Sends i secretR2 sent → T.Receives i received →
    ∃ keyPkg, C.part3 secretR2 (T.others i) received = .ok (keyPkg, pkp)

theorem HonestDkg.derives_same (hfrost : HonestDkg C) {T : Transcript C} {params : MpcParams} (hdrawn : T.Drawn params)
    {i j : C.Identifier} {k k' : C.KeyPackage} {p p' : C.PublicKeyPackage} (hi : i ∈ T.members) (h : T.Derives i k p)
    (hj : j ∈ T.members) (h' : T.Derives j k' p') : p = p' := by
  obtain ⟨pkp, hpart3⟩ := hfrost.part3 T params hdrawn
  obtain ⟨s, sent, received, hs, hr, hp⟩ := h
  obtain ⟨s', sent', received', hs', hr', hp'⟩ := h'
  obtain ⟨_, hok⟩ := hpart3 i hi s sent received hs hr
  obtain ⟨_, hok'⟩ := hpart3 j hj s' sent' received' hs' hr'
  rw [hp] at hok; cases hok
  rw [hp'] at hok'; cases hok'
  rfl

def DkgParticipant.isComplete (p : DkgParticipant D) : Bool := p.keyPackage.isSome && p.publicKeyPackage.isSome

/-! ## Participants in step with the chain -/

/-- The flags of a participant say what of its own the ceremony has. -/
structure DkgParticipant.Synced (T : Transcript C) (c : DkgCeremony C) (i : C.Identifier) (p : DkgParticipant D) :
    Prop where
  round1 : p.submittedR1 = true ↔ i ∈ c.round1
  round2 : ∀ j, toLex (i, j) ∈ c.round2 ↔ p.submittedR2 = true ∧ j ∈ T.members ∧ j ≠ i
  finalize : p.submittedFinalize = true ↔ i ∈ c.finalize

/-- What the next round needs is there, until it is run. -/
structure DkgParticipant.Ready (T : Transcript C) (i : C.Identifier) (p : DkgParticipant D) : Prop where
  secretR1 : p.submittedR1 = true → p.submittedR2 = false → ∃ secret, p.secretR1 = some secret
  round1 : p.submittedR2 = true → p.submittedR1 = true
  secretR2 : p.submittedR2 = true → p.submittedFinalize = false → ∃ secret, p.secretR2 = some secret
  round2 : p.submittedFinalize = true → p.submittedR2 = true
  derived : p.submittedFinalize = true → ∃ keyPkg pkp, T.Derives i keyPkg pkp ∧ p.keyPackage = some keyPkg ∧
    p.publicKeyPackage = some pkp

/-- What the participants know of the state with all that is pending applied. -/
inductive Ahead (T : Transcript C) (participant : C.Identifier → DkgParticipant D) (t : State C) : Prop
  | pending {c} : t.ceremony = some c → (∀ i ∈ T.members, (participant i).Synced T c i) → Ahead T participant t
  | promoted {g} : t.group = some g → (∀ i ∈ T.members, (participant i).submittedFinalize = true) →
      Ahead T participant t

structure DkgSim.Live (T : Transcript C) (params : MpcParams) (validators : BTreeMap C.Identifier EncPublicKey)
    (sim : DkgSim D) : Prop where
  faithful : sim.Faithful T params validators
  ready : ∀ i ∈ T.members, (sim.participant i).Ready T i
  ahead : ∃ t, run applyTx sim.chain.state sim.chain.mempool = .ok t ∧ Ahead T sim.participant t

/-! ## What is accepted ahead -/

theorem run_round2 {t : State C} {c₀ : DkgCeremony C} {i : C.Identifier} :
    ∀ {entries : List (C.Identifier × C.Round2Package)} {txs : List (Tx C)} {c : DkgCeremony C},
      t.ceremony = some c → c.r1Complete = true → i ∈ c.validators →
      List.Forall₂ (SealedTo D i c₀) entries txs → (entries.map Prod.fst).Nodup →
      (∀ entry ∈ entries, entry.1 ∈ c.validators ∧ i ≠ entry.1 ∧ toLex (i, entry.1) ∉ c.round2) →
      ∃ m, run applyTx t txs = .ok { t with ceremony := some { c with round2 := m } } ∧
        ∀ k, k ∈ m ↔ k ∈ c.round2 ∨ k ∈ entries.map fun entry => toLex (i, entry.1) := by
  intro entries
  induction entries generalizing t with
  | nil =>
    intro txs c hc _ _ hsealed _ _
    cases hsealed
    refine ⟨c.round2, ?_, by simp⟩
    rw [run_nil, ← hc]
  | cons entry entries ih =>
    intro txs c hc h1 hi hsealed hd hfree
    cases hsealed with
    | @cons _ _ tx txs hhead hsealed =>
    rw [List.map_cons, List.nodup_cons] at hd
    obtain ⟨hnew, hd⟩ := hd
    obtain ⟨pk, plaintext, rng, _, _, rfl⟩ := hhead
    obtain ⟨hv, hne, habsent⟩ := hfree entry (by simp)
    let boxed := (D.sealEnvelope rng pk plaintext).1
    let c₁ : DkgCeremony C := { c with round2 := c.round2.insert (toLex (i, entry.1)) boxed }
    have hstep : applyTx t (.dkgRound2 i entry.1 boxed) = .ok { t with ceremony := some c₁ } :=
      applyDkgRound2_ok.mpr ⟨c, hc, h1, hne, hi, hv, habsent, rfl⟩
    have hfree' : ∀ e ∈ entries, e.1 ∈ c₁.validators ∧ i ≠ e.1 ∧ toLex (i, e.1) ∉ c₁.round2 := by
      intro e he
      obtain ⟨hv', hne', habsent'⟩ := hfree e (List.mem_cons_of_mem _ he)
      refine ⟨hv', hne', fun hmem => ?_⟩
      rcases mem_insert'.mp hmem with heq | hmem
      · have hsame : entry.1 = e.1 := congrArg (fun k => (ofLex k).2) heq
        exact hnew (hsame ▸ List.mem_map.mpr ⟨e, he, rfl⟩)
      · exact habsent' hmem
    obtain ⟨m, hrun, hm⟩ := ih (t := { t with ceremony := some c₁ }) rfl h1 hi hsealed hd hfree'
    refine ⟨m, run_cons.mpr ⟨_, hstep, hrun⟩, fun k => ?_⟩
    rw [hm, mem_insert', List.map_cons, List.mem_cons]
    constructor
    · rintro ((heq | hk) | hk)
      · exact Or.inr (Or.inl heq.symm)
      · exact Or.inl hk
      · exact Or.inr (Or.inr hk)
    · rintro (hk | heq | hk)
      · exact Or.inl (Or.inr hk)
      · exact Or.inl (Or.inl heq.symm)
      · exact Or.inr hk

/-! ## Reactions -/

/-- A reaction succeeds, and what it returns is accepted after all that is pending. -/
def Proceeds (T : Transcript C) (participant : C.Identifier → DkgParticipant D) (i : C.Identifier) (t : State C)
    (r : Except DkgFault (List (Tx C))) (p' : DkgParticipant D) : Prop :=
  ∃ out, r = .ok out ∧ p'.Ready T i ∧
    ∃ t', run applyTx t out = .ok t' ∧ Ahead T (Function.update participant i p') t'

/-- A committed ceremony `c` and where it stands with all that is pending applied. -/
structure AheadOf (T : Transcript C) (participant : C.Identifier → DkgParticipant D) (c : DkgCeremony C) (t : State C)
    (c' : DkgCeremony C) : Prop where
  committed : c.Faithful T participant
  valid : t.Valid
  now : t.ceremony = some c'
  faithful : c'.Faithful T participant
  validators : c'.validators = c.validators
  round1 : ∀ v ∈ c.round1, v ∈ c'.round1
  round2 : ∀ v w, toLex (v, w) ∈ c.round2 → toLex (v, w) ∈ c'.round2
  finalize : ∀ v ∈ c.finalize, v ∈ c'.finalize
  synced : ∀ i ∈ T.members, (participant i).Synced T c' i

section
variable {T : Transcript C} {participant : C.Identifier → DkgParticipant D} {c c' : DkgCeremony C} {t : State C}
  {i : C.Identifier} {r : Except DkgFault (List (Tx C))} {p' : DkgParticipant D}

theorem Proceeds.idle (hready : (participant i).Ready T i) (h : Ahead T participant t) :
    Proceeds T participant i t (.ok []) (participant i) :=
  ⟨[], rfl, hready, t, run_nil t, by rwa [Function.update_eq_self]⟩

theorem synced_update (hother : ∀ j ∈ T.members, j ≠ i → (participant j).Synced T c j) (hself : p'.Synced T c i) :
    ∀ j ∈ T.members, (Function.update participant i p' j).Synced T c j := by
  intro j hj
  by_cases hji : j = i
  · subst hji
    rw [Function.update_self]; exact hself
  · rw [Function.update_of_ne hji]; exact hother j hj hji

namespace AheadOf

variable (h : AheadOf T participant c t c')
include h

theorem r1Complete (h1 : c.r1Complete = true) : c'.r1Complete = true := by
  rw [h.faithful.valid.r1Complete_iff_all]
  intro v hv
  rw [h.validators] at hv
  exact h.round1 v (h.committed.valid.r1Complete_iff_all.mp h1 v hv)

theorem r2Complete (hi : i ∈ T.members) (h2 : c.r2Complete = .ok true) : c'.r2Complete = .ok true := by
  have hpos := h.faithful.valid.total_pos (h.faithful.mem_validators.mpr hi)
  have hpos' := h.committed.valid.total_pos (h.committed.mem_validators.mpr hi)
  rw [h.faithful.valid.r2Complete_iff_all hpos]
  intro v hv w hw hne
  rw [h.validators] at hv hw
  exact h.round2 v w ((h.committed.valid.r2Complete_iff_all hpos').mp h2 v hv w hw hne)

theorem ahead : Ahead T participant t := .pending h.now h.synced

theorem proceeds_round1 (hi : i ∈ T.members) (hready : (participant i).Ready T i)
    (hs : (participant i).submittedR1 = false) (secret : C.Round1Secret) (package : C.Round1Package) :
    Proceeds T participant i t (.ok [.dkgRound1 i package])
      { participant i with secretR1 := some secret, submittedR1 := true } := by
  have hsync := h.synced i hi
  have hno2 : (participant i).submittedR2 = false := by
    by_contra h2
    rw [hready.round1 (by simpa using h2)] at hs; cases hs
  have hno3 : (participant i).submittedFinalize = false := by
    by_contra h3
    rw [hready.round2 (by simpa using h3)] at hno2; cases hno2
  have habsent : i ∉ c'.round1 := by
    intro hmem
    rw [hsync.round1.mpr hmem] at hs; cases hs
  refine ⟨_, rfl, ⟨fun _ _ => ⟨secret, rfl⟩, fun _ => rfl, hready.secretR2, hready.round2, hready.derived⟩, _,
    run_cons.mpr ⟨_, applyDkgRound1_ok.mpr ⟨c', h.now, h.faithful.mem_validators.mpr hi, habsent, rfl⟩, run_nil _⟩, ?_⟩
  refine .pending rfl (synced_update (fun j hj hji => ?_) ?_)
  · have hother := h.synced j hj
    refine ⟨?_, hother.round2, hother.finalize⟩
    rw [hother.round1, mem_insert']
    simp [Ne.symm hji]
  · exact ⟨by simp, hsync.round2, hsync.finalize⟩

theorem proceeds_round2 (hi : i ∈ T.members) (hready : (participant i).Ready T i)
    (h1 : (participant i).submittedR1 = true) (hs : (participant i).submittedR2 = false)
    (hcomplete : c.r1Complete = true) {secretR2 : C.Round2Secret} {sent : BTreeMap C.Identifier C.Round2Package}
    (hdom : dom sent = T.members.erase i) {out : List (Tx C)}
    (hsealed : List.Forall₂ (SealedTo D i c) sent.toList out) :
    Proceeds T participant i t (.ok out)
      { participant i with secretR1 := none, secretR2 := some secretR2, submittedR2 := true } := by
  have hsync := h.synced i hi
  have hno3 : (participant i).submittedFinalize = false := by
    by_contra h3
    rw [hready.round2 (by simpa using h3)] at hs; cases hs
  have hfree : ∀ entry ∈ sent.toList, entry.1 ∈ c'.validators ∧ i ≠ entry.1 ∧ toLex (i, entry.1) ∉ c'.round2 := by
    intro entry he
    have hmem : entry.1 ∈ T.members.erase i := by
      rw [← hdom, mem_dom]
      exact mem_of_getElem? (Std.ExtTreeMap.mem_toList_iff_getElem?_eq_some.mp he)
    obtain ⟨hne, hmem⟩ := Finset.mem_erase.mp hmem
    refine ⟨h.faithful.mem_validators.mpr hmem, hne.symm, fun hin => ?_⟩
    rw [((hsync.round2 entry.1).mp hin).1] at hs; cases hs
  obtain ⟨m, hrun, hm⟩ := run_round2 h.now (h.r1Complete hcomplete) (h.faithful.mem_validators.mpr hi) hsealed
    sent.nodup_toList_keys hfree
  refine ⟨out, rfl, ⟨fun _ h2 => (by cases h2), fun _ => h1, fun _ _ => ⟨secretR2, rfl⟩, fun _ => rfl, ?_⟩, _, hrun, ?_⟩
  · intro h3
    rw [hno3] at h3; cases h3
  have hkeys : ∀ a b, toLex (a, b) ∈ sent.toList.map (fun entry => toLex (i, entry.1)) ↔
      a = i ∧ b ∈ T.members ∧ b ≠ i := by
    intro a b
    have hb : b ∈ sent ↔ b ≠ i ∧ b ∈ T.members := by
      rw [← mem_dom, hdom, Finset.mem_erase]
    rw [and_comm (a := b ∈ T.members), ← hb, List.mem_map]
    constructor
    · rintro ⟨entry, he, heq⟩
      obtain ⟨rfl, rfl⟩ := Prod.mk.inj (toLex.injective heq)
      exact ⟨rfl, mem_of_getElem? (Std.ExtTreeMap.mem_toList_iff_getElem?_eq_some.mp he)⟩
    · rintro ⟨rfl, hmem⟩
      obtain ⟨pkg, hpkg⟩ := mem_iff.mp hmem
      exact ⟨(b, pkg), Std.ExtTreeMap.mem_toList_iff_getElem?_eq_some.mpr hpkg, rfl⟩
  refine .pending rfl (synced_update (fun j hj hji => ?_) ?_)
  · have hother := h.synced j hj
    refine ⟨hother.round1, fun k => ?_, hother.finalize⟩
    rw [← hother.round2, hm, hkeys]
    simp [hji]
  · refine ⟨hsync.round1, fun k => ?_, hsync.finalize⟩
    rw [hm, hkeys, hsync.round2]
    simp [hs]

theorem mismatch (hfrost : HonestDkg C) {params : MpcParams} (hdrawn : T.Drawn params) {keyPkg : C.KeyPackage}
    {pkp : C.PublicKeyPackage} (hi : i ∈ T.members) (hderives : T.Derives i keyPkg pkp) : c'.mismatch pkp = false := by
  rw [h.faithful.valid.mismatch_iff]
  intro v p hp
  obtain ⟨keyPkg', hderives', _⟩ := h.faithful.stored.finalize v p hp
  have hv : v ∈ c'.validators := mem_dom.mp (h.faithful.valid.finalize_sub (mem_dom.mpr (mem_of_getElem? hp)))
  rw [hfrost.derives_same hdrawn (h.faithful.mem_validators.mp hv) hderives' hi hderives]
  exact .refl _

theorem proceeds_finalize (hfrost : HonestDkg C) {params : MpcParams} (hdrawn : T.Drawn params) (hi : i ∈ T.members)
    (hready : (participant i).Ready T i) (h2 : (participant i).submittedR2 = true)
    (hs : (participant i).submittedFinalize = false) (hcomplete : c.r2Complete = .ok true) {keyPkg : C.KeyPackage}
    {pkp : C.PublicKeyPackage} (hderives : T.Derives i keyPkg pkp) :
    Proceeds T participant i t (.ok [.dkgFinalize i pkp])
      { participant i with secretR2 := none, keyPackage := some keyPkg, publicKeyPackage := some pkp,
                           submittedFinalize := true } := by
  have hsync := h.synced i hi
  have hv := h.faithful.mem_validators.mpr hi
  have habsent : i ∉ c'.finalize := by
    intro hmem
    rw [hsync.finalize.mpr hmem] at hs; cases hs
  have hmatch := h.mismatch hfrost hdrawn hi hderives
  have hready' : ({ participant i with secretR2 := none, keyPackage := some keyPkg, publicKeyPackage := some pkp,
                                       submittedFinalize := true } : DkgParticipant D).Ready T i :=
    ⟨hready.secretR1, hready.round1, fun _ h3 => (by cases h3), fun _ => h2, fun _ => ⟨keyPkg, pkp, hderives, rfl, rfl⟩⟩
  let c₁ : DkgCeremony C := { c' with finalize := c'.finalize.insert i pkp }
  have hstep : ∀ {t'}, Finalized t c₁ t' → applyTx t (.dkgFinalize i pkp) = .ok t' := fun hfin =>
    applyDkgFinalize_ok.mpr ⟨c', h.now, h.r2Complete hi hcomplete, hv, habsent, hmatch, hfin⟩
  by_cases hsize : c₁.finalize.size = c₁.total
  · obtain ⟨k, p, hp⟩ := first?_some_of_mem (m := c'.finalize.insert i pkp) (k := i) (by simp)
    refine ⟨_, rfl, hready', _, run_cons.mpr ⟨_, hstep (.promoted hsize hp), run_nil _⟩, .promoted rfl fun j hj => ?_⟩
    by_cases hji : j = i
    · rw [hji, Function.update_self]
    · -- everyone else is in the finalize map already
      have hmem : j ∈ c'.finalize.insert i pkp := by
        rw [← mem_dom, h.faithful.valid.dom_finalize hv hsize, h.faithful.members]; exact hj
      rw [Function.update_of_ne hji, (h.synced j hj).finalize]
      exact (mem_insert'.mp hmem).resolve_left (Ne.symm hji)
  · refine ⟨_, rfl, hready', _, run_cons.mpr ⟨_, hstep (.extended hsize), run_nil _⟩,
      .pending rfl (synced_update (fun j hj hji => ?_) ?_)⟩
    · have hother := h.synced j hj
      refine ⟨hother.round1, hother.round2, ?_⟩
      rw [hother.finalize, mem_insert']
      simp [Ne.symm hji]
    · refine ⟨hsync.round1, hsync.round2, ?_⟩
      simp [c₁]

end AheadOf

theorem FinalizeReaction.proceeds (hfrost : HonestDkg C) {params : MpcParams} (hdrawn : T.Drawn params)
    (h : AheadOf T participant c t c') (hi : i ∈ T.members) (hcons : (participant i).Consistent T i)
    (hready : (participant i).Ready T i) (h1 : c.r1Complete = true) (h2 : (participant i).submittedR2 = true)
    (hr : FinalizeReaction c (participant i) r p') : Proceeds T participant i t r p' := by
  have hid := hcons.identifier
  have hv := h.committed.mem_validators.mpr hi
  cases hr with
  | panic hp =>
    rw [DkgCeremony.r2Complete_pos (h.committed.valid.total_pos hv)] at hp
    cases hp
  | wait _ => exact .idle hready h.ahead
  | done _ _ => exact .idle hready h.ahead
  | saw _ hs hmem =>
    rw [hid] at hmem
    rw [(h.synced i hi).finalize.mpr (h.finalize i hmem)] at hs
    cases hs
  | openFailed hdue ho =>
    have hopens : ∀ j boxed, (toLex (j, (participant i).identifier), boxed) ∈ c.round2.toList →
        ∃ pkg, OpensTo (participant i) boxed pkg := by
      intro j boxed hmem
      rw [hid] at hmem
      obtain ⟨_, _, _, _, pkg, _, _, hopen⟩ :=
        h.committed.opens (Std.ExtTreeMap.mem_toList_iff_getElem?_eq_some.mp hmem)
      exact ⟨pkg, hopen⟩
    obtain ⟨m, hm⟩ := DkgCtx.openAll_total ∅ hopens
    rw [hm] at ho; cases ho
  | noSecret hdue _ hk =>
    obtain ⟨secret, hsecret⟩ := hready.secretR2 h2 hdue.unsubmitted
    rw [hsecret] at hk; cases hk
  | @part3Failed received secret e hdue ho hk hp =>
    obtain ⟨sent, hs⟩ := hcons.secretR2 secret hk
    have hreceives := h.committed.receives hdue.r2 hv hid rfl ho
    obtain ⟨pkp, hpart3⟩ := hfrost.part3 T params hdrawn
    obtain ⟨keyPkg, hok⟩ := hpart3 i hi secret sent received hs hreceives
    rw [h.committed.othersR1 h1 hid, hok] at hp
    cases hp
  | @finalize received secret keyPkg pkp hdue ho hk hp =>
    obtain ⟨sent, hs⟩ := hcons.secretR2 secret hk
    have hreceives := h.committed.receives hdue.r2 hv hid rfl ho
    rw [h.committed.othersR1 h1 hid] at hp
    have htx : Tx.dkgFinalize (participant i).identifier pkp = .dkgFinalize i pkp := by rw [hid]
    rw [htx]
    exact h.proceeds_finalize hfrost hdrawn hi hready h2 hdue.unsubmitted hdue.r2 ⟨secret, sent, received, hs, hreceives, hp⟩

theorem Round2Reaction.proceeds (hfrost : HonestDkg C) (hwire : WireLaws D) {params : MpcParams}
    (hdrawn : T.Drawn params) (h : AheadOf T participant c t c') (hi : i ∈ T.members)
    (hcons : (participant i).Consistent T i) (hready : (participant i).Ready T i)
    (h1 : (participant i).submittedR1 = true) {rng : C.Rng} (hr : Round2Reaction c (participant i) rng r p') :
    Proceeds T participant i t r p' := by
  have hid := hcons.identifier
  -- part 2 runs on the transcript, and everybody it addresses has advertised a key
  have hpart2 : c.r1Complete = true → ∀ secret, (participant i).secretR1 = some secret →
      ∃ secretR2 sent, C.part2 secret ((participant i).othersR1 c) = .ok (secretR2, sent) ∧
        dom sent = T.members.erase i := by
    intro hcomplete secret hsecret
    obtain ⟨secretR2, sent, hs, hdom⟩ := hfrost.part2 T params hdrawn i hi
    refine ⟨secretR2, sent, ?_, hdom⟩
    rw [hcons.secretR1 secret hsecret, h.committed.othersR1 hcomplete hid]
    exact hs
  cases hr with
  | wait _ => exact .idle hready h.ahead
  | noSecret _ hs hk =>
    obtain ⟨secret, hsecret⟩ := hready.secretR1 h1 hs
    rw [hsecret] at hk; cases hk
  | part2Failed hcomplete _ hk hp =>
    obtain ⟨_, _, hok, _⟩ := hpart2 hcomplete _ hk
    rw [hok] at hp; cases hp
  | @sealFailed secret secretR2 sent f hcomplete _ hk hp hsealed =>
    obtain ⟨_, _, hok, hdom⟩ := hpart2 hcomplete _ hk
    rw [hok] at hp; cases hp
    have haddressed : ∀ entry ∈ sent.toList, entry.1 ∈ c.validators := by
      intro entry he
      have hmem : entry.1 ∈ dom sent :=
        mem_dom.mpr (mem_of_getElem? (Std.ExtTreeMap.mem_toList_iff_getElem?_eq_some.mp he))
      rw [hdom] at hmem
      exact h.committed.mem_validators.mpr (Finset.mem_of_mem_erase hmem)
    obtain ⟨txs, htxs⟩ := DkgCtx.sealAll_total hwire (participant i).identifier rng [] haddressed
    rw [htxs] at hsealed; cases hsealed
  | @round2 secret secretR2 sent out hcomplete hs hk hp hsealed =>
    obtain ⟨_, _, hok, hdom⟩ := hpart2 hcomplete _ hk
    rw [hok] at hp; cases hp
    rw [hid] at hsealed
    obtain ⟨more, rfl, hmore⟩ := DkgCtx.sealAll_sealed hsealed
    exact h.proceeds_round2 hi hready h1 hs hcomplete hdom hmore
  | later hcomplete h2 hfin => exact hfin.proceeds hfrost hdrawn h hi hcons hready hcomplete h2

theorem DkgReaction.proceeds (hfrost : HonestDkg C) (hwire : WireLaws D) {params : MpcParams}
    (hdrawn : T.Drawn params) (hparams : c.params = params) (h : AheadOf T participant c t c') (hi : i ∈ T.members)
    (hcons : (participant i).Consistent T i) (hready : (participant i).Ready T i) {rng : C.Rng}
    (hr : DkgReaction c (participant i) rng r p') : Proceeds T participant i t r p' := by
  have hid := hcons.identifier
  cases hr with
  | part1Failed _ _ hp =>
    obtain ⟨out, hout⟩ := hfrost.part1 (participant i).identifier c.params.total c.params.threshold rng
      (by rw [hparams]; exact hdrawn.threshold) (by rw [hparams]; exact hdrawn.le)
    rw [hout] at hp; cases hp
  | @round1 secret package hs _ _ =>
    have htx : Tx.dkgRound1 (participant i).identifier package = .dkgRound1 i package := by rw [hid]
    rw [htx]
    exact h.proceeds_round1 hi hready hs secret package
  | later hs hreact =>
    have h1 : (participant i).submittedR1 = true := by
      rcases hs with hs | hmem
      · exact hs
      · rw [hid] at hmem
        exact (h.synced i hi).round1.mpr (h.round1 i hmem)
    rw [DkgParticipant.saw_of_submitted c h1] at hreact
    exact hreact.proceeds hfrost hwire hdrawn h hi hcons hready h1

theorem DkgReaction.finished {p : DkgParticipant D} {rng : C.Rng} (hready : p.Ready T i) (hpos : 0 < c.total)
    (hfin : p.submittedFinalize = true) (hr : DkgReaction c p rng r p') : r = .ok [] ∧ p' = p := by
  have h2 := hready.round2 hfin
  have h1 := hready.round1 h2
  cases hr with
  | part1Failed hs _ _ => rw [h1] at hs; cases hs
  | round1 hs _ _ => rw [h1] at hs; cases hs
  | later _ hreact =>
    rw [DkgParticipant.saw_of_submitted c h1] at hreact
    cases hreact with
    | wait _ => exact ⟨rfl, rfl⟩
    | noSecret _ hs _ => rw [h2] at hs; cases hs
    | part2Failed _ hs _ _ => rw [h2] at hs; cases hs
    | sealFailed _ hs _ _ _ => rw [h2] at hs; cases hs
    | round2 _ hs _ _ _ => rw [h2] at hs; cases hs
    | later _ _ hreact =>
      cases hreact with
      | panic hp => rw [DkgCeremony.r2Complete_pos hpos] at hp; cases hp
      | wait _ => exact ⟨rfl, rfl⟩
      | done _ _ => exact ⟨rfl, rfl⟩
      | saw _ hs _ => rw [hfin] at hs; cases hs
      | openFailed hdue _ => exact absurd hdue.unsubmitted (by simp [hfin])
      | noSecret hdue _ _ => exact absurd hdue.unsubmitted (by simp [hfin])
      | part3Failed hdue _ _ _ => exact absurd hdue.unsubmitted (by simp [hfin])
      | finalize hdue _ _ _ => exact absurd hdue.unsubmitted (by simp [hfin])

end

/-! ## Silent reactions -/

theorem Transcript.Drawn.two_le_card {T : Transcript C} {params : MpcParams} (h : T.Drawn params) :
    2 ≤ T.members.card := by
  have hle := UInt16.le_iff_toNat_le.mp h.le
  have hthreshold := h.threshold
  rw [h.card]
  omega

section
variable {T : Transcript C} {c : DkgCeremony C} {i : C.Identifier} {p p' : DkgParticipant D} {rng : C.Rng}

theorem DkgReaction.silent (hr : DkgReaction c p rng (.ok []) p') (hid : p.identifier = i) (hsynced : p.Synced T c i) :
    p.submittedR1 = true ∧ Round2Reaction c p rng (.ok []) p' := by
  cases hr with
  | later hs hr =>
    have hr1 : p.submittedR1 = true := by
      rcases hs with hs | hs
      · exact hs
      · rw [hid] at hs
        exact hsynced.round1.mpr hs
    rw [DkgParticipant.saw_of_submitted c hr1] at hr
    exact ⟨hr1, hr⟩

theorem Round2Reaction.silent (hfrost : HonestDkg C) {params : MpcParams} (hdrawn : T.Drawn params)
    {participant : C.Identifier → DkgParticipant D} (hfaithful : c.Faithful T participant) (hi : i ∈ T.members)
    (hcons : p.Consistent T i) (h1 : c.r1Complete = true) (hr : Round2Reaction c p rng (.ok []) p') :
    p.submittedR2 = true ∧ FinalizeReaction c p (.ok []) p' := by
  cases hr with
  | wait hn => rw [h1] at hn; cases hn
  | round2 _ _ hk hp hsealed =>
    -- it would have addressed the others, and there are some
    exfalso
    obtain ⟨_, _, hs, hdom⟩ := hfrost.part2 T params hdrawn i hi
    obtain ⟨_, rfl⟩ := (hfaithful.sends h1 hcons hk hp).unique hs
    obtain ⟨more, hmore, hall⟩ := DkgCtx.sealAll_sealed hsealed
    rw [List.nil_append] at hmore
    subst hmore
    have hnil := List.forall₂_nil_right_iff.mp hall
    have hcard : (T.members.erase i).card = 0 := by
      rw [← hdom, ← toList_keys, hnil]; rfl
    have htwo := hdrawn.two_le_card
    rw [Finset.card_erase_of_mem hi] at hcard
    omega
  | later _ hs hr => exact ⟨hs, hr⟩

theorem FinalizeReaction.silent (hr : FinalizeReaction c p (.ok []) p') (hid : p.identifier = i)
    (hsynced : p.Synced T c i)
    (h2 : c.r2Complete = .ok true) : i ∈ c.finalize := by
  cases hr with
  | wait hn => rw [h2] at hn; cases hn
  | done _ hs => exact hsynced.finalize.mp hs
  | saw _ _ hmem =>
    rw [hid] at hmem
    exact hmem

end

/-! ## Runs -/

namespace DkgSim.Live

variable {T : Transcript C} {params : MpcParams} {validators : BTreeMap C.Identifier EncPublicKey} {sim : DkgSim D}
  (h : sim.Live T params validators)
include h

/-- Every reaction succeeds, and what it returns is accepted after all that is pending. -/
theorem proceeds (hfrost : HonestDkg C) (hwire : WireLaws D) (hdrawn : T.Drawn params)
    (hdom : dom validators = T.members) {i : C.Identifier} (hi : i ∈ T.members) (rng : C.Rng) :
    ∃ t, run applyTx sim.chain.state sim.chain.mempool = .ok t ∧
      Proceeds T sim.participant i t (sim.reaction i rng).1 (sim.reaction i rng).2.participant := by
  obtain ⟨t, hrun, hahead⟩ := h.ahead
  refine ⟨t, hrun, ?_⟩
  have hcons := h.faithful.consistent i
  have hready := h.ready i hi
  rcases DkgCtx.react_cases { participant := sim.participant i, rng } sim.chain.state with hidle | hreact
  · rw [show sim.reaction i rng = (.ok [], { participant := sim.participant i, rng }) from hidle]
    exact .idle hready hahead
  obtain ⟨c, hg, hc, hv, hreact⟩ := hreact
  obtain ⟨hparams, hvalidators, hfaithful⟩ := h.faithful.ceremony hdom hc
  have hvalid := h.faithful.valid
  have ht : replay applyTx sim.chain.state sim.chain.mempool = t := replay_of_run hrun
  have htvalid : t.Valid := ht ▸ replay_invariant (fun _ _ _ hs ha => applyTx_valid hs ha) hvalid _
  cases hahead with
  | promoted hg' hall =>
    have hpos := (hvalid.ceremony hc).total_pos hv
    obtain ⟨hr, hp'⟩ := hreact.finished hready hpos (hall i hi)
    change (sim.reaction i rng).1 = _ at hr
    change (sim.reaction i rng).2.participant = _ at hp'
    rw [hr, hp']
    exact .idle hready (.promoted hg' hall)
  | @pending c' hc' hsynced =>
    obtain ⟨hbegun, hmem⟩ := h.faithful.begun hc
    have hbegun' : t.Begun (Genuine T sim.participant) params validators := ht ▸ hbegun.replay hvalid hmem
    obtain ⟨_, hvalidators', hstored⟩ := hbegun'.ceremony htvalid hc'
    have hkept : ∀ {P : DkgCeremony C → Prop} (σ : Slot C), (∀ s : State C, s.Taken σ ↔ s.Has P) → P c → P c' := by
      intro P σ htaken hp
      have htaken' : t.Taken σ :=
        ht ▸ State.Taken.replay hvalid ((htaken _).mpr ((State.Has.of_ceremony hvalid hc).mpr hp)) _
      exact (State.Has.of_ceremony htvalid hc').mp ((htaken _).mp htaken')
    have hahead : AheadOf T sim.participant c t c' := {
      committed := hfaithful
      valid := htvalid
      now := hc'
      faithful := ⟨htvalid.ceremony hc', hvalidators' ▸ hdom, hvalidators' ▸ h.faithful.boxKey, hstored⟩
      validators := hvalidators'.trans hvalidators.symm
      round1 := fun v hv => hkept (P := fun c => v ∈ c.round1) (.r1 v) (fun _ => Iff.rfl) hv
      round2 := fun v w hv => hkept (P := fun c => toLex (v, w) ∈ c.round2) (.r2 v w) (fun _ => Iff.rfl) hv
      finalize := fun v hv => hkept (P := fun c => v ∈ c.finalize) (.fin v) (fun _ => Iff.rfl) hv
      synced := hsynced }
    exact hreact.proceeds hfrost hwire hdrawn hparams hahead hi hcons hready

theorem exec (hfrost : HonestDkg C) (hwire : WireLaws D) (hdrawn : T.Drawn params) (hdom : dom validators = T.members)
    (hsize : validators.size = params.total.toNat) {e : DkgEvent C}
    (hcall : ∀ call, sim.part1Call e = some call → call.2 = .ok (T.round1 call.1)) :
    (sim.exec e).Live T params validators := by
  cases e with
  | commit =>
    obtain ⟨t, hrun, hahead⟩ := h.ahead
    have hcommit := ChainSim.commitBlock_all hrun
    refine ⟨h.faithful.commit hsize, ?_, t, ?_, ?_⟩
    · simp only [DkgSim.exec, hcommit]; exact h.ready
    · simp only [DkgSim.exec, hcommit]; exact run_nil t
    · simp only [DkgSim.exec, hcommit]; exact hahead
  | react i rng =>
    have hfaithful := h.faithful.react hwire hdom hcall
    by_cases hi : i ∈ T.members
    · obtain ⟨t, hrun, out, hout, hready, t', hrun', hahead⟩ := h.proceeds hfrost hwire hdrawn hdom hi rng
      refine ⟨hfaithful, fun j hj => ?_, t', ?_, hahead⟩
      · by_cases hji : j = i
        · subst hji
          simp only [DkgSim.exec, Function.update_self]; exact hready
        · simp only [DkgSim.exec, Function.update_of_ne hji]; exact h.ready j hj
      · simp only [DkgSim.exec, ChainSim.submitAll_state, ChainSim.submitAll_mempool, hout, returned]
        exact run_append.mpr ⟨t, hrun, hrun'⟩
    · -- not a member: nothing happens
      have hidle : sim.reaction i rng = (.ok [], { participant := sim.participant i, rng }) := by
        apply DkgCtx.react_idle
        intro c _ hc hv
        obtain ⟨_, _, hc'⟩ := h.faithful.ceremony hdom hc
        rw [(h.faithful.consistent i).identifier] at hv
        exact hi (hc'.mem_validators.mp hv)
      have hsame : sim.exec (.react i rng) = sim := by
        simp only [DkgSim.exec, hidle, returned, Function.update_eq_self]
        simp [ChainSim.submitAll]
      rw [hsame]; exact h

theorem quiet (hfrost : HonestDkg C) (hdrawn : T.Drawn params) (hdom : dom validators = T.members)
    (hempty : sim.chain.mempool = [])
    (hquiet : ∀ i ∈ T.members, ∃ rng, (sim.reaction i rng).1 = .ok []) :
    ∃ g, sim.chain.state.group = some g ∧ ∀ i ∈ T.members, (sim.participant i).submittedFinalize = true := by
  obtain ⟨t, hrun, hahead⟩ := h.ahead
  rw [hempty, run_nil] at hrun
  cases hrun
  cases hahead with
  | promoted hg hall => exact ⟨_, hg, hall⟩
  | @pending c hc hsynced =>
    exfalso
    obtain ⟨_, _, hfaithful⟩ := h.faithful.ceremony hdom hc
    have hcv := hfaithful.valid
    have hcons := h.faithful.consistent
    have hround1 : ∀ i ∈ T.members, (sim.participant i).submittedR1 = true ∧
        ∃ rng p', Round2Reaction c (sim.participant i) rng (.ok []) p' := by
      intro i hi
      obtain ⟨rng, hr⟩ := hquiet i hi
      have hv : (sim.participant i).identifier ∈ c.validators := by
        rw [(hcons i).identifier]
        exact hfaithful.mem_validators.mpr hi
      have hreact := DkgCtx.react_reaction { participant := sim.participant i, rng } (h.faithful.valid.exclusive hc) hc hv
      change DkgReaction c (sim.participant i) rng (sim.reaction i rng).1 _ at hreact
      rw [hr] at hreact
      obtain ⟨hr1, hlater⟩ := hreact.silent (hcons i).identifier (hsynced i hi)
      exact ⟨hr1, rng, _, hlater⟩
    have h1 : c.r1Complete = true := hcv.r1Complete_iff_all.mpr fun v hv =>
      have hmem := hfaithful.mem_validators.mp hv
      (hsynced v hmem).round1.mp (hround1 v hmem).1
    have hround2 : ∀ i ∈ T.members, (sim.participant i).submittedR2 = true ∧
        ∃ p', FinalizeReaction c (sim.participant i) (.ok []) p' := by
      intro i hi
      obtain ⟨_, rng, p', hr⟩ := hround1 i hi
      obtain ⟨hr2, hlater⟩ := hr.silent hfrost hdrawn hfaithful hi (hcons i) h1
      exact ⟨hr2, p', hlater⟩
    have hpos : c.total ≠ 0 := by
      have htwo := hdrawn.two_le_card
      rw [← hfaithful.members, hcv.card_validators] at htwo
      omega
    have h2 : c.r2Complete = .ok true := by
      rw [hcv.r2Complete_iff_all (Nat.pos_of_ne_zero hpos)]
      intro v hv w hw hne
      have hv' := hfaithful.mem_validators.mp hv
      exact ((hsynced v hv').round2 w).mpr ⟨(hround2 v hv').1, hfaithful.mem_validators.mp hw, hne.symm⟩
    have hfin : ∀ i ∈ T.members, i ∈ c.finalize := by
      intro i hi
      obtain ⟨_, p', hr⟩ := hround2 i hi
      exact hr.silent (hcons i).identifier (hsynced i hi) h2
    have hfull : c.finalize.size = c.total := by
      rw [← hcv.card_validators, size_eq_card_iff hcv.finalize_sub, hfaithful.members]
      exact hfin
    exact absurd hfull (hcv.pending hpos).ne

end DkgSim.Live

theorem dkgStart_live {T : Transcript C} {seed : C.Identifier → C.Rng} {params : MpcParams} {ids : List C.Identifier}
    (hd : ids.Nodup) (hlen : ids.length = params.total.toNat) :
    (dkgStart D seed params ids).Live T params (advertise D seed ids) := by
  refine ⟨dkgStart_faithful hd, fun i _ => ?_, ?_⟩
  · exact ⟨fun h => (by cases h), fun h => (by cases h), fun h => (by cases h), fun h => (by cases h),
      fun h => (by cases h)⟩
  · refine ⟨_, run_cons.mpr ⟨_, applyDkgBegin_ok.mpr ⟨rfl, rfl, (size_advertise hd).trans hlen, rfl⟩, run_nil _⟩,
      .pending rfl fun i _ => ?_⟩
    exact ⟨by simp [dkgStart, freshParticipant, DkgParticipant.new],
      by simp [dkgStart, freshParticipant, DkgParticipant.new],
      by simp [dkgStart, freshParticipant, DkgParticipant.new]⟩

theorem dkgRun_live (hfrost : HonestDkg C) (hwire : WireLaws D) {T : Transcript C} {params : MpcParams}
    {validators : BTreeMap C.Identifier EncPublicKey} (hdrawn : T.Drawn params) (hdom : dom validators = T.members)
    (hsize : validators.size = params.total.toNat) {sim : DkgSim D} (h : sim.Live T params validators)
    {events : List (DkgEvent C)} (hcalls : ∀ call ∈ sim.part1Calls events, call.2 = .ok (T.round1 call.1)) :
    (sim.execAll events).Live T params validators := by
  induction events generalizing sim with
  | nil => exact h
  | cons e events ih =>
    refine ih (h.exec hfrost hwire hdrawn hdom hsize fun call hc => ?_) fun call hc => ?_
    · exact hcalls call (List.mem_append_left _ (by simp [hc]))
    · exact hcalls call (List.mem_append_right _ hc)

/-! ## The transcript of a run -/

namespace DkgSim

theorem part1Calls_append (sim : DkgSim D) (events : List (DkgEvent C)) (e : DkgEvent C) :
    sim.part1Calls (events ++ [e]) = sim.part1Calls events ++ ((sim.execAll events).part1Call e).toList := by
  induction events generalizing sim with
  | nil => simp [part1Calls, execAll]
  | cons e' events ih =>
    rw [List.cons_append, part1Calls, part1Calls, ih, List.append_assoc]
    rfl

theorem part1Call_some {sim : DkgSim D} {e : DkgEvent C} {call : Part1Call C} (h : sim.part1Call e = some call) :
    ∃ i rng c, e = .react i rng ∧ sim.chain.state.group = none ∧ sim.chain.state.ceremony = some c ∧
      i ∈ c.validators ∧ (sim.participant i).submittedR1 = false ∧ i ∉ c.round1 ∧
      call = (i, (C.part1 i c.params.total c.params.threshold rng).1) := by
  cases e with
  | commit => cases h
  | react i rng =>
    cases hg : sim.chain.state.group with
    | some g => simp [part1Call, hg] at h
    | none =>
      cases hc : sim.chain.state.ceremony with
      | none => simp [part1Call, hg, hc] at h
      | some c =>
        simp only [part1Call, hg, hc] at h
        split at h
        · rename_i hguard
          cases h
          exact ⟨i, rng, c, rfl, rfl, rfl, hguard.1, hguard.2.1, hguard.2.2, rfl⟩
        · cases h

end DkgSim

theorem FinalizeReaction.submittedR1 {c : DkgCeremony C} {q p' : DkgParticipant D}
    {r : Except DkgFault (List (Tx C))} (hr : FinalizeReaction c q r p') : p'.submittedR1 = q.submittedR1 := by
  cases hr <;> rfl

theorem Round2Reaction.submittedR1 {c : DkgCeremony C} {q p' : DkgParticipant D} {rng : C.Rng}
    {r : Except DkgFault (List (Tx C))} (hr : Round2Reaction c q rng r p') : p'.submittedR1 = q.submittedR1 := by
  cases hr with
  | later _ _ hfin => exact hfin.submittedR1
  | _ => rfl

theorem DkgReaction.submittedR1 {c : DkgCeremony C} {p p' : DkgParticipant D} {rng : C.Rng}
    {r : Except DkgFault (List (Tx C))} (hr : DkgReaction c p rng r p') :
    p'.submittedR1 = true ∨ p'.submittedR1 = p.submittedR1 ∧ ∃ e, r = .error e := by
  cases hr with
  | part1Failed _ _ _ => exact Or.inr ⟨rfl, _, rfl⟩
  | round1 _ _ _ => exact Or.inl rfl
  | later hs hr =>
    left
    rw [hr.submittedR1]
    rcases hs with hs | hs <;> simp [DkgParticipant.saw, hs]

theorem DkgSim.exec_submittedR1 {sim : DkgSim D} {i : C.Identifier} (h : (sim.participant i).submittedR1 = true)
    (e : DkgEvent C) : ((sim.exec e).participant i).submittedR1 = true := by
  cases e with
  | commit =>
    unfold exec
    cases sim.chain.commitBlock with
    | error msg => exact h
    | ok result => exact h
  | react j rng =>
    by_cases hj : i = j
    · subst hj
      simp only [exec, Function.update_self]
      rcases DkgCtx.react_cases { participant := sim.participant i, rng } sim.chain.state with hidle | hreact
      · rw [show sim.reaction i rng = (.ok [], { participant := sim.participant i, rng }) from hidle]
        exact h
      · obtain ⟨_, _, _, _, hreact⟩ := hreact
        rcases hreact.submittedR1 with hs | ⟨hs, _⟩
        · exact hs
        · exact hs.trans h
    · simp only [exec, Function.update_of_ne hj]; exact h

theorem DkgSim.exec_part1 {sim : DkgSim D} {i : C.Identifier} (hid : (sim.participant i).identifier = i)
    {c : DkgCeremony C} (hg : sim.chain.state.group = none) (hc : sim.chain.state.ceremony = some c)
    (hv : i ∈ c.validators) {rng : C.Rng} {out : C.Round1Secret × C.Round1Package}
    (hout : (C.part1 i c.params.total c.params.threshold rng).1 = .ok out) :
    ((sim.exec (.react i rng)).participant i).submittedR1 = true := by
  have hreact := DkgCtx.react_reaction { participant := sim.participant i, rng } hg hc (hid.symm ▸ hv)
  simp only [exec, Function.update_self]
  change DkgReaction c (sim.participant i) rng (sim.reaction i rng).1 (sim.reaction i rng).2.participant at hreact
  revert hreact
  generalize (sim.reaction i rng).1 = r
  generalize (sim.reaction i rng).2.participant = p'
  intro hreact
  cases hreact with
  | part1Failed _ _ hp =>
    rw [hid, hout] at hp; cases hp
  | round1 _ _ _ => rfl
  | later hs hr =>
    rw [hr.submittedR1]
    rcases hs with hs | hs <;> simp [DkgParticipant.saw, hs]

/-- What the calls of part 1 return in a run, completed by what they would return to who has not called. -/
theorem exists_transcript (hfrost : HonestDkg C) (hwire : WireLaws D) {params : MpcParams}
    (ht : 2 ≤ params.threshold.toNat) (hle : params.threshold ≤ params.total) {ids : List C.Identifier} (hd : ids.Nodup)
    (hlen : ids.length = params.total.toNat) (seed : C.Identifier → C.Rng) (events : List (DkgEvent C)) :
    ∃ T : Transcript C, T.members = ids.toFinset ∧ T.Drawn params ∧
      ∀ call ∈ (dkgStart D seed params ids).part1Calls events, call.2 = .ok (T.round1 call.1) ∧
        ((dkgRun D seed params ids events).participant call.1).submittedR1 = true := by
  induction events using List.reverseRecOn with
  | nil =>
    choose round1 hround1 using fun i => hfrost.part1 i params.total params.threshold (seed i) ht hle
    refine ⟨{ members := ids.toFinset, round1 }, rfl, ⟨ht, hle, ?_, fun i _ => ⟨seed i, hround1 i⟩⟩, ?_⟩
    · rw [List.toFinset_card_of_nodup hd, hlen]
    · intro call hc
      cases hc
  | append_singleton events e ih =>
    obtain ⟨T, hmembers, hdrawn, hcalls⟩ := ih
    have hlive : (dkgRun D seed params ids events).Live T params (advertise D seed ids) :=
      dkgRun_live hfrost hwire hdrawn ((dom_advertise hd).trans hmembers.symm) ((size_advertise hd).trans hlen)
        (dkgStart_live hd hlen) fun call hc => (hcalls call hc).1
    have hrun : dkgRun D seed params ids (events ++ [e]) = (dkgRun D seed params ids events).exec e := by
      simp [dkgRun, DkgSim.execAll]
    rw [DkgSim.part1Calls_append, hrun]
    change ∃ T : Transcript C, _ ∧ _ ∧ ∀ call ∈ _ ++ ((dkgRun D seed params ids events).part1Call e).toList, _
    cases hcall : (dkgRun D seed params ids events).part1Call e with
    | none =>
      refine ⟨T, hmembers, hdrawn, fun call hc => ?_⟩
      obtain ⟨heq, hs⟩ := hcalls call (by simpa using hc)
      exact ⟨heq, DkgSim.exec_submittedR1 hs e⟩
    | some call₀ =>
      obtain ⟨i, rng, c, rfl, hg, hc, hv, hfresh, habsent, rfl⟩ := DkgSim.part1Call_some hcall
      obtain ⟨hparams, _, _⟩ := hlive.faithful.ceremony ((dom_advertise hd).trans hmembers.symm) hc
      obtain ⟨out, hout⟩ := hfrost.part1 i params.total params.threshold rng ht hle
      rw [hparams] at hcall ⊢
      refine ⟨{ T with round1 := Function.update T.round1 i out }, hmembers, ⟨ht, hle, hdrawn.card, fun j hj => ?_⟩, ?_⟩
      · by_cases hji : j = i
        · subst hji
          exact ⟨rng, by simp [hout]⟩
        · simpa [Function.update_of_ne hji] using hdrawn.round1 j hj
      intro call hmem
      rcases List.mem_append.mp hmem with hmem | hmem
      · obtain ⟨heq, hs⟩ := hcalls call hmem
        -- who has called does not call again
        have hne : call.1 ≠ i := by
          rintro rfl
          rw [hs] at hfresh; cases hfresh
        exact ⟨by simp [heq, Function.update_of_ne hne], DkgSim.exec_submittedR1 hs _⟩
      · have hsame : call = (i, (C.part1 i params.total params.threshold rng).1) := by simpa using hmem
        subst hsame
        refine ⟨by simp [hout], ?_⟩
        exact DkgSim.exec_part1 (hlive.faithful.consistent i).identifier hg hc hv (by rw [hparams]; exact hout)

/-! ## Never stalling -/

structure DkgSim.NeverStalls (ids : List C.Identifier) (sim : DkgSim D) : Prop where
  reacts : ∀ i ∈ ids, ∀ rng, ∃ out, (sim.reaction i rng).1 = .ok out
  accepts : ∃ results chain, sim.chain.commitBlock = .ok (results, chain) ∧ ∀ result ∈ results, result.2 = .ok ()
  quiet : sim.chain.mempool = [] → (∀ i ∈ ids, ∃ rng, (sim.reaction i rng).1 = .ok []) →
    ∃ g, sim.chain.state.group = some g ∧
      ∀ i ∈ ids, (sim.participant i).isComplete = true ∧ (sim.participant i).publicKeyPackage = some g.pkp

theorem DkgSim.Live.neverStalls (hfrost : HonestDkg C) (hwire : WireLaws D) {T : Transcript C} {params : MpcParams}
    (hdrawn : T.Drawn params) {validators : BTreeMap C.Identifier EncPublicKey} (hdom : dom validators = T.members)
    {ids : List C.Identifier} (hmembers : T.members = ids.toFinset) {sim : DkgSim D}
    (h : sim.Live T params validators) : sim.NeverStalls ids := by
  have hmem : ∀ i ∈ ids, i ∈ T.members := by simp [hmembers]
  refine ⟨fun i hi rng => ?_, ?_, fun hempty hquiet => ?_⟩
  · obtain ⟨_, _, out, hout, _⟩ := h.proceeds hfrost hwire hdrawn hdom (hmem i hi) rng
    exact ⟨out, hout⟩
  · obtain ⟨t, hrun, _⟩ := h.ahead
    exact ⟨_, _, ChainSim.commitBlock_all hrun, by simp⟩
  obtain ⟨g, hg, hfin⟩ := h.quiet hfrost hdrawn hdom hempty fun i hi => hquiet i (by simpa [hmembers] using hi)
  refine ⟨g, hg, fun i hi => ?_⟩
  obtain ⟨keyPkg, pkp, hderives, hkey, hpkp⟩ := (h.ready i (hmem i hi)).derived (hfin i (hmem i hi))
  have hprom := h.faithful.promoted hg
  obtain ⟨v, hv, _, hderives', _⟩ := hprom.package
  have hv' : v ∈ T.members := by rw [← hdom]; exact mem_dom.mpr hv
  have hsame := hfrost.derives_same hdrawn (hmem i hi) hderives hv' hderives'
  rw [← hsame]
  exact ⟨by simp [DkgParticipant.isComplete, hkey, hpkp], hpkp⟩

/-- **An honest key generation over the chain never stalls**, in whatever order its
participants react and blocks are committed. -/
theorem honest_dkg_never_stalls (hfrost : HonestDkg C) (hwire : WireLaws D) {params : MpcParams}
    (ht : 2 ≤ params.threshold.toNat) (hle : params.threshold ≤ params.total) {ids : List C.Identifier} (hd : ids.Nodup)
    (hlen : ids.length = params.total.toNat) (seed : C.Identifier → C.Rng) (events : List (DkgEvent C)) :
    (dkgRun D seed params ids events).NeverStalls ids := by
  obtain ⟨T, hmembers, hdrawn, hcalls⟩ := exists_transcript hfrost hwire ht hle hd hlen seed events
  have hdom : dom (advertise D seed ids) = T.members := (dom_advertise hd).trans hmembers.symm
  have hlive := dkgRun_live hfrost hwire hdrawn hdom ((size_advertise hd).trans hlen) (dkgStart_live hd hlen)
    fun call hc => (hcalls call hc).1
  exact hlive.neverStalls hfrost hwire hdrawn hdom hmembers

namespace Ideal

theorem drawn_round1 {T : Transcript suite} {params : MpcParams} (hdrawn : T.Drawn params) {i : Nat}
    (hi : i ∈ T.members) :
    T.round1 i = ({ identifier := i, total := params.total.toNat, minSigners := params.threshold.toNat,
                    coefficient := (T.round1 i).2 }, (T.round1 i).2) := by
  obtain ⟨rng, hrng⟩ := hdrawn.round1 i hi
  change (part1 i params.total params.threshold rng).1 = .ok (T.round1 i) at hrng
  unfold part1 at hrng
  split at hrng
  · cases hrng
  · rw [← Except.ok.inj hrng]

theorem drawn_sends {T : Transcript suite} {params : MpcParams} (hdrawn : T.Drawn params) {i : Nat}
    (hi : i ∈ T.members) :
    T.Sends i (T.round1 i).1 ((T.others i).map fun j _ => ((T.round1 i).2, j)) := by
  have hsize : (T.others i).size + 1 = params.total.toNat := by
    have htwo := hdrawn.two_le_card
    rw [← card_dom, Transcript.others, dom_tabulate, Finset.card_erase_of_mem hi, ← hdrawn.card]
    omega
  change part2 (T.round1 i).1 (T.others i) = _
  rw [drawn_round1 hdrawn hi]
  simp [part2, hsize]

def common (T : Transcript suite) (params : MpcParams) : PublicKeyPackage :=
  let all : BTreeMap Nat Int := tabulate T.members fun i => (T.round1 i).2
  { key := (all.toList.map Prod.snd).sum, shares := all, minSigners := params.threshold.toNat }

theorem honestDkg : HonestDkg suite where
  part1 i total threshold rng ht hle := by
    have hvalid : ¬(threshold < 2 ∨ total < threshold) := by
      rw [UInt16.le_iff_toNat_le] at hle
      rw [UInt16.lt_iff_toNat_lt, UInt16.lt_iff_toNat_lt]
      simp only [UInt16.reduceToNat]
      omega
    exact ⟨_, by rw [show suite.part1 = Ideal.part1 from rfl, Ideal.part1, if_neg hvalid]⟩
  part2 T params hdrawn i hi := by
    refine ⟨_, _, drawn_sends hdrawn hi, ?_⟩
    ext j
    rw [mem_dom, Std.ExtTreeMap.mem_map, ← mem_dom, Transcript.others, dom_tabulate]
  part3 T params hdrawn := by
    refine ⟨common T params, fun i hi secretR2 sent received hs hr => ?_⟩
    obtain ⟨rfl, rfl⟩ := hs.unique (drawn_sends hdrawn hi)
    have hreceived : received = (T.others i).map fun _ a => (a, i) := by
      refine eq_of_getElem?_iff fun j pkg => ?_
      rw [hr j pkg, Std.ExtTreeMap.getElem?_map, Option.map_eq_some_iff]
      constructor
      · rintro ⟨hj, hne, secretR2, sent, hs, hpkg⟩
        obtain ⟨_, rfl⟩ := hs.unique (drawn_sends hdrawn hj)
        rw [Std.ExtTreeMap.getElem?_map, Option.map_eq_some_iff] at hpkg
        obtain ⟨_, _, rfl⟩ := hpkg
        exact ⟨_, Transcript.getElem?_others.mpr ⟨hj, hne, rfl⟩, rfl⟩
      · rintro ⟨a, ha, rfl⟩
        obtain ⟨hj, hne, rfl⟩ := Transcript.getElem?_others.mp ha
        refine ⟨hj, hne, _, _, drawn_sends hdrawn hj, ?_⟩
        have hi' : (T.others j)[i]? = some (T.round1 i).2 := Transcript.getElem?_others.mpr ⟨hi, hne.symm, rfl⟩
        rw [Std.ExtTreeMap.getElem?_map, hi']
        rfl
    have hall : (T.others i).insert i (T.round1 i).2 = tabulate T.members fun j => (T.round1 j).2 := by
      refine eq_of_getElem?_iff fun j pkg => ?_
      rw [getElem?_insert', getElem?_tabulate]
      by_cases hij : i = j
      · subst hij
        simp [hi]
      · rw [if_neg hij, Transcript.getElem?_others]
        simp [Ne.symm hij]
    refine ⟨{ identifier := i, groupKey := (common T params).key, minSigners := params.threshold.toNat }, ?_⟩
    change Ideal.part3 (T.round1 i).1 (T.others i) received = _
    rw [drawn_round1 hdrawn hi]
    unfold Ideal.part3
    rw [if_neg (not_not.mpr hreceived), hall]
    rfl

/-- Two participants, whose part 1 draws what `generate_with_dkg` draws from 10. -/
def dkgEvents : List (DkgEvent suite) :=
  [.commit, .react (1 : Nat) (10 : Nat), .react (2 : Nat) (11 : Nat), .commit, .react (1 : Nat) (30 : Nat),
    .react (2 : Nat) (40 : Nat), .commit, .react (1 : Nat) (50 : Nat), .react (2 : Nat) (60 : Nat), .commit]

def dkgIds : List Nat := [1, 2]

theorem dkgEvents_quiet : ∀ i ∈ dkgIds, ∃ rng, ((dkgRun box id pair dkgIds dkgEvents).reaction i rng).1 = .ok [] := by
  intro i hi
  rcases List.mem_pair.mp hi with rfl | rfl
  · exact ⟨(70 : Nat), rfl⟩
  · exact ⟨(80 : Nat), rfl⟩

end Ideal

/-- To the end of the run, where nothing is left to do. -/
theorem honest_dkg_never_stalls_pair :
    (dkgRun Ideal.box id Ideal.pair Ideal.dkgIds Ideal.dkgEvents).NeverStalls Ideal.dkgIds ∧
      ∃ g, (dkgRun Ideal.box id Ideal.pair Ideal.dkgIds Ideal.dkgEvents).chain.state.group = some g ∧
        ∀ i ∈ Ideal.dkgIds,
          ((dkgRun Ideal.box id Ideal.pair Ideal.dkgIds Ideal.dkgEvents).participant i).isComplete = true ∧
            ((dkgRun Ideal.box id Ideal.pair Ideal.dkgIds Ideal.dkgEvents).participant i).publicKeyPackage =
              some g.pkp := by
  have hstalls : (dkgRun Ideal.box id Ideal.pair Ideal.dkgIds Ideal.dkgEvents).NeverStalls Ideal.dkgIds :=
    honest_dkg_never_stalls Ideal.honestDkg Ideal.boxLaws (by decide) (by decide) (by decide) rfl id Ideal.dkgEvents
  exact ⟨hstalls, hstalls.quiet rfl Ideal.dkgEvents_quiet⟩

end Sapphire
