import Sapphire.Ceremony
import Sapphire.Sim
import Sapphire.Transcript

/-!
# A key generation over the in-process chain

Participants react to the committed state and their transactions are
submitted; at any time a block is committed. Whatever parts 2 and 3 do, what
is in flight or stored is what the transcript says.
-/

namespace Sapphire

open BTreeMap Replay

variable {C : Ciphersuite} {D : DkgWire C}

structure DkgSim (D : DkgWire C) where
  chain : ChainSim C
  participant : C.Identifier → DkgParticipant D

inductive DkgEvent (C : Ciphersuite) where
  | react (i : C.Identifier) (rng : C.Rng)
  | commit

abbrev Part1Call (C : Ciphersuite) := C.Identifier × Except C.Error (C.Round1Secret × C.Round1Package)

namespace DkgSim

def reaction (sim : DkgSim D) (i : C.Identifier) (rng : C.Rng) : Except DkgFault (List (Tx C)) × DkgCtx D :=
  DkgCtx.react { participant := sim.participant i, rng } sim.chain.state

def exec (sim : DkgSim D) : DkgEvent C → DkgSim D
  | .react i rng =>
    let result := sim.reaction i rng
    { chain := sim.chain.submitAll (returned result.1)
      participant := Function.update sim.participant i result.2.participant }
  | .commit =>
    match sim.chain.commitBlock with
    | .ok (_, chain) => { sim with chain }
    | .error _ => sim

def execAll (sim : DkgSim D) (events : List (DkgEvent C)) : DkgSim D := events.foldl exec sim

/-- The call of `part1` that an event makes. -/
def part1Call (sim : DkgSim D) : DkgEvent C → Option (Part1Call C)
  | .commit => none
  | .react i rng =>
    match sim.chain.state.group, sim.chain.state.ceremony with
    | none, some c =>
      if i ∈ c.validators ∧ (sim.participant i).submittedR1 = false ∧ i ∉ c.round1 then
        some (i, (C.part1 i c.params.total c.params.threshold rng).1)
      else none
    | _, _ => none

def part1Calls (sim : DkgSim D) : List (DkgEvent C) → List (Part1Call C)
  | [] => []
  | e :: events => (sim.part1Call e).toList ++ part1Calls (sim.exec e) events

end DkgSim

def freshParticipant (D : DkgWire C) (seed : C.Identifier → C.Rng) (i : C.Identifier) : DkgParticipant D :=
  (DkgParticipant.new i (seed i)).1

/-- Everyone with the key of its own participant. -/
def advertise (D : DkgWire C) (seed : C.Identifier → C.Rng) (ids : List C.Identifier) :
    BTreeMap C.Identifier EncPublicKey :=
  Std.ExtTreeMap.ofList (ids.map fun i => (i, (freshParticipant D seed i).encPublic))

def dkgStart (D : DkgWire C) (seed : C.Identifier → C.Rng) (params : MpcParams) (ids : List C.Identifier) : DkgSim D :=
  { chain := ChainSim.new.submit (.dkgBegin params (advertise D seed ids)), participant := freshParticipant D seed }

def dkgRun (D : DkgWire C) (seed : C.Identifier → C.Rng) (params : MpcParams) (ids : List C.Identifier)
    (events : List (DkgEvent C)) : DkgSim D :=
  (dkgStart D seed params ids).execAll events

theorem getElem?_advertise {seed : C.Identifier → C.Rng} {ids : List C.Identifier} (hd : ids.Nodup) {i : C.Identifier}
    {pk : EncPublicKey} :
    (advertise D seed ids)[i]? = some pk ↔ i ∈ ids ∧ (freshParticipant D seed i).encPublic = pk := by
  have hkeys : ((ids.map fun i => (i, (freshParticipant D seed i).encPublic)).map Prod.fst).Nodup := by
    simpa [Function.comp_def] using hd
  unfold advertise
  rw [getElem?_ofList hkeys]
  simp only [List.mem_map, Prod.mk.injEq]
  constructor
  · rintro ⟨a, ha, rfl, rfl⟩; exact ⟨ha, rfl⟩
  · rintro ⟨ha, rfl⟩; exact ⟨i, ha, rfl, rfl⟩

theorem dom_advertise {seed : C.Identifier → C.Rng} {ids : List C.Identifier} (hd : ids.Nodup) :
    dom (advertise D seed ids) = ids.toFinset := by
  ext i
  rw [mem_dom, mem_iff]
  simp [getElem?_advertise hd]

theorem size_advertise {seed : C.Identifier → C.Rng} {ids : List C.Identifier} (hd : ids.Nodup) :
    (advertise D seed ids).size = ids.length := by
  rw [← card_dom, dom_advertise hd, List.toFinset_card_of_nodup hd]

/-! ## Genuine transactions -/

/-- What its sender is to send by the transcript; a finalize carries the package the sender holds. -/
def Genuine (T : Transcript C) (participant : C.Identifier → DkgParticipant D) : Tx C → Prop
  | .dkgRound1 i pkg => (T.round1 i).2 = pkg
  | .dkgRound2 i j boxed => ∃ secretR2 sent pkg, T.Sends i secretR2 sent ∧ sent[j]? = some pkg ∧
      OpensTo (participant j) boxed pkg
  | .dkgFinalize i pkp => ∃ keyPkg, T.Derives i keyPkg pkp ∧ (participant i).keyPackage = some keyPkg ∧
      (participant i).publicKeyPackage = some pkp
  | _ => False

structure DkgParticipant.Consistent (T : Transcript C) (i : C.Identifier) (p : DkgParticipant D) : Prop where
  identifier : p.identifier = i
  secretR1 : ∀ secret, p.secretR1 = some secret → secret = (T.round1 i).1
  secretR2 : ∀ secret, p.secretR2 = some secret → ∃ sent, T.Sends i secret sent

theorem DkgParticipant.Consistent.withRound2 {T : Transcript C} {i : C.Identifier} {q : DkgParticipant D}
    (h : q.Consistent T i) {secretR2 : C.Round2Secret} {sent : BTreeMap C.Identifier C.Round2Package}
    (hs : T.Sends i secretR2 sent) (submitted : Bool) :
    ({ q with secretR1 := none, secretR2 := some secretR2, submittedR2 := submitted } : DkgParticipant D).Consistent T i
    where
  identifier := h.identifier
  secretR1 := fun _ hs' => by cases hs'
  secretR2 := fun _ hs' => by
    cases hs'
    exact ⟨sent, hs⟩

/-- What a reaction leaves of a participant: its name, its box key, and the packages it has derived. -/
structure DkgParticipant.Continues (T : Transcript C) (i : C.Identifier) (p p' : DkgParticipant D) : Prop where
  encSecret : p'.encSecret = p.encSecret
  derived : ∀ keyPkg pkp, T.Derives i keyPkg pkp → p.keyPackage = some keyPkg → p.publicKeyPackage = some pkp →
    p'.keyPackage = some keyPkg ∧ p'.publicKeyPackage = some pkp

theorem OpensTo.of_encSecret {p p' : DkgParticipant D} (h : p'.encSecret = p.encSecret) {boxed : Sealed}
    {pkg : C.Round2Package} (ho : OpensTo p boxed pkg) : OpensTo p' boxed pkg := by
  unfold OpensTo
  rw [h]; exact ho

theorem Genuine.update {T : Transcript C} {participant : C.Identifier → DkgParticipant D} {i : C.Identifier}
    {p' : DkgParticipant D} (hcont : (participant i).Continues T i p') {tx : Tx C} (h : Genuine T participant tx) :
    Genuine T (Function.update participant i p') tx := by
  cases tx with
  | dkgRound1 v pkg => exact h
  | dkgRound2 v w boxed =>
    obtain ⟨secretR2, sent, pkg, hs, hpkg, ho⟩ := h
    refine ⟨secretR2, sent, pkg, hs, hpkg, ?_⟩
    by_cases hw : w = i
    · subst hw
      rw [Function.update_self]
      exact ho.of_encSecret hcont.encSecret
    · rw [Function.update_of_ne hw]; exact ho
  | dkgFinalize v pkp =>
    obtain ⟨keyPkg, hd, hk, hp⟩ := h
    refine ⟨keyPkg, hd, ?_⟩
    by_cases hv : v = i
    · subst hv
      rw [Function.update_self]
      exact hcont.derived keyPkg pkp hd hk hp
    · rw [Function.update_of_ne hv]; exact ⟨hk, hp⟩
  | _ => exact h.elim

/-! ## A ceremony by the transcript -/

structure DkgCeremony.Faithful (T : Transcript C) (participant : C.Identifier → DkgParticipant D)
    (c : DkgCeremony C) : Prop where
  valid : c.Valid
  members : dom c.validators = T.members
  boxKey : ∀ i pk, c.validators[i]? = some pk → D.publicKey (participant i).encSecret = pk
  stored : c.Stored (Genuine T participant)

namespace DkgCeremony.Faithful

variable {T : Transcript C} {participant : C.Identifier → DkgParticipant D} {c : DkgCeremony C}
  (h : c.Faithful T participant)
include h

theorem mem_validators {i : C.Identifier} : i ∈ c.validators ↔ i ∈ T.members := by
  rw [← mem_dom, h.members]

theorem othersR1 (h1 : c.r1Complete = true) {q : DkgParticipant D} {i : C.Identifier} (hq : q.identifier = i) :
    q.othersR1 c = T.others i := by
  subst hq
  refine eq_of_getElem?_iff fun j pkg => ?_
  rw [DkgParticipant.getElem?_othersR1, Transcript.getElem?_others]
  constructor
  · rintro ⟨hj, hne⟩
    have hmem : j ∈ c.validators := mem_dom.mp (h.valid.round1_sub (mem_dom.mpr (mem_of_getElem? hj)))
    exact ⟨h.mem_validators.mp hmem, hne, h.stored.round1 j pkg hj⟩
  · rintro ⟨hj, hne, hpkg⟩
    obtain ⟨pkg', hpkg'⟩ := mem_iff.mp (h.valid.r1Complete_iff_all.mp h1 j (h.mem_validators.mpr hj))
    have hsame : (T.round1 j).2 = pkg' := h.stored.round1 j pkg' hpkg'
    rw [hpkg] at hsame
    exact ⟨hsame ▸ hpkg', hne⟩

theorem opens {i j : C.Identifier} {boxed : Sealed} (hb : c.round2[toLex (j, i)]? = some boxed) :
    j ∈ T.members ∧ j ≠ i ∧ ∃ secretR2 sent pkg, T.Sends j secretR2 sent ∧ sent[i]? = some pkg ∧
      OpensTo (participant i) boxed pkg := by
  obtain ⟨hj, _, hne⟩ := DkgCeremony.mem_pairs.mp (h.valid.round2_sub (mem_dom.mpr (mem_of_getElem? hb)))
  exact ⟨h.mem_validators.mp hj, hne, h.stored.round2 j i boxed hb⟩

theorem receives (h2 : c.r2Complete = .ok true) {q : DkgParticipant D} {i : C.Identifier} (hi : i ∈ c.validators)
    (hq : q.identifier = i) (hsecret : q.encSecret = (participant i).encSecret)
    {received : BTreeMap C.Identifier C.Round2Package}
    (ho : DkgCtx.openAll q ∅ c.round2.toList = .ok received) : T.Receives i received := by
  subst hq
  intro j pkg
  rw [DkgCtx.openAll_round2 ho]
  constructor
  · rintro ⟨boxed, hb, hopen⟩
    obtain ⟨hj, hne, secretR2, sent, pkg', hs, hpkg', hopen'⟩ := h.opens hb
    rw [hopen.unique (hopen'.of_encSecret hsecret)]
    exact ⟨hj, hne, secretR2, sent, hs, hpkg'⟩
  · rintro ⟨hj, hne, secretR2, sent, hs, hpkg⟩
    have hall := (h.valid.r2Complete_iff_all (h.valid.total_pos hi)).mp h2
    obtain ⟨boxed, hb⟩ := mem_iff.mp (hall j (h.mem_validators.mpr hj) q.identifier hi hne)
    obtain ⟨_, _, secretR2', sent', pkg', hs', hpkg', hopen⟩ := h.opens hb
    obtain ⟨_, rfl⟩ := hs.unique hs'
    rw [hpkg] at hpkg'; cases hpkg'
    exact ⟨boxed, hb, hopen.of_encSecret hsecret⟩

theorem sends (h1 : c.r1Complete = true) {q : DkgParticipant D} {i : C.Identifier} (hq : q.Consistent T i)
    {secret : C.Round1Secret} (hsecret : q.secretR1 = some secret) {secretR2 : C.Round2Secret}
    {sent : BTreeMap C.Identifier C.Round2Package} (hp : C.part2 secret (q.othersR1 c) = .ok (secretR2, sent)) :
    T.Sends i secretR2 sent := by
  unfold Transcript.Sends
  rw [← hq.secretR1 secret hsecret, ← h.othersR1 h1 hq.identifier]
  exact hp

theorem genuine_sealed (hwire : WireLaws D) {i : C.Identifier} {secretR2 : C.Round2Secret}
    {sent : BTreeMap C.Identifier C.Round2Package} (hs : T.Sends i secretR2 sent) {txs : List (Tx C)}
    (hsealed : List.Forall₂ (SealedTo D i c) sent.toList txs) : ∀ tx ∈ txs, Genuine T participant tx := by
  intro tx htx
  obtain ⟨k, hk, rfl⟩ := List.getElem_of_mem htx
  obtain ⟨hlen, hall⟩ := List.forall₂_iff_get.mp hsealed
  obtain ⟨pk, plaintext, rng, hpk, hv, heq⟩ := hall k (hlen ▸ hk) hk
  simp only [List.get_eq_getElem] at hpk hv heq
  rw [heq]
  have hmem : sent.toList[k] ∈ sent.toList := List.getElem_mem _
  obtain ⟨plaintext', hv', hf⟩ := hwire.decoded sent.toList[k].2
  have hsame : plaintext = plaintext' := Except.ok.inj (hv.symm.trans hv')
  refine ⟨secretR2, sent, _, hs, Std.ExtTreeMap.mem_toList_iff_getElem?_eq_some.mp hmem, plaintext, ?_, hsame ▸ hf⟩
  rw [← h.boxKey _ pk hpk]
  exact hwire.opened _ _ _

end DkgCeremony.Faithful

/-! ## Reactions -/

/-- What the reaction of `i` leaves and returns is by the transcript. -/
structure ReactsBy (T : Transcript C) (participant : C.Identifier → DkgParticipant D) (i : C.Identifier)
    (r : Except DkgFault (List (Tx C))) (p' : DkgParticipant D) : Prop where
  consistent : p'.Consistent T i
  continues : (participant i).Continues T i p'
  genuine : ∀ tx ∈ returned r, Genuine T (Function.update participant i p') tx

section
variable {T : Transcript C} {participant : C.Identifier → DkgParticipant D} {c : DkgCeremony C} {i : C.Identifier}
  {r : Except DkgFault (List (Tx C))} {p' : DkgParticipant D}

theorem ReactsBy.silent {q : DkgParticipant D} (hq : q.Consistent T i)
    (hcont : (participant i).Continues T i q) (hr : returned r = []) : ReactsBy T participant i r q :=
  ⟨hq, hcont, by simp [hr]⟩

theorem FinalizeReaction.reactsBy (h : c.Faithful T participant) {q : DkgParticipant D} (hi : i ∈ c.validators)
    (h1 : c.r1Complete = true) (hq : q.Consistent T i) (hcont : (participant i).Continues T i q)
    (hr : FinalizeReaction c q r p') : ReactsBy T participant i r p' := by
  cases hr with
  | saw _ _ _ => exact .silent ⟨hq.identifier, hq.secretR1, hq.secretR2⟩ ⟨hcont.encSecret, hcont.derived⟩ rfl
  | part3Failed _ _ _ _ =>
    exact .silent ⟨hq.identifier, hq.secretR1, fun _ hs => by cases hs⟩ ⟨hcont.encSecret, hcont.derived⟩ rfl
  | @finalize received secret keyPkg pkp hdue ho hsecret hp =>
    obtain ⟨sent, hs⟩ := hq.secretR2 secret hsecret
    have hreceives := h.receives hdue.r2 hi hq.identifier hcont.encSecret ho
    rw [h.othersR1 h1 hq.identifier] at hp
    have hderives : T.Derives i keyPkg pkp := ⟨secret, sent, received, hs, hreceives, hp⟩
    refine ⟨⟨hq.identifier, hq.secretR1, fun _ hs => by cases hs⟩, ⟨hcont.encSecret, ?_⟩, fun tx htx => ?_⟩
    · intro keyPkg' pkp' hd _ _
      obtain ⟨rfl, rfl⟩ := hderives.unique hd
      exact ⟨rfl, rfl⟩
    · rw [List.mem_singleton.mp htx, hq.identifier]
      exact ⟨keyPkg, hderives, by simp, by simp⟩
  | _ => exact .silent hq hcont rfl

theorem Round2Reaction.reactsBy (hwire : WireLaws D) (h : c.Faithful T participant) {q : DkgParticipant D}
    {rng : C.Rng} (hi : i ∈ c.validators) (hq : q.Consistent T i) (hcont : (participant i).Continues T i q)
    (hr : Round2Reaction c q rng r p') : ReactsBy T participant i r p' := by
  cases hr with
  | part2Failed _ _ _ _ =>
    refine .silent ⟨hq.identifier, ?_, hq.secretR2⟩ ⟨hcont.encSecret, hcont.derived⟩ rfl
    intro _ hs
    cases hs
  | @sealFailed secret secretR2 sent f h1 _ hsecret hp _ =>
    exact .silent (hq.withRound2 (h.sends h1 hq hsecret hp) q.submittedR2) ⟨hcont.encSecret, hcont.derived⟩ rfl
  | @round2 secret secretR2 sent out h1 _ hsecret hp hsealed =>
    have hs := h.sends h1 hq hsecret hp
    rw [hq.identifier] at hsealed
    obtain ⟨more, rfl, hmore⟩ := DkgCtx.sealAll_sealed hsealed
    have hcont' : (participant i).Continues T i
        { q with secretR1 := none, secretR2 := some secretR2, submittedR2 := true } :=
      ⟨hcont.encSecret, hcont.derived⟩
    refine ⟨hq.withRound2 hs true, hcont', ?_⟩
    intro tx htx
    exact (h.genuine_sealed hwire hs hmore tx (by simpa [returned] using htx)).update hcont'
  | later h1 _ hfin => exact hfin.reactsBy h hi h1 hq hcont
  | _ => exact .silent hq hcont rfl

theorem DkgReaction.reactsBy (hwire : WireLaws D) (h : c.Faithful T participant) {rng : C.Rng}
    (hi : i ∈ c.validators) (hp : (participant i).Consistent T i)
    (hpart1 : ∀ out, (participant i).submittedR1 = false → i ∉ c.round1 →
      (C.part1 i c.params.total c.params.threshold rng).1 = .ok out → out = T.round1 i)
    (hr : DkgReaction c (participant i) rng r p') : ReactsBy T participant i r p' := by
  have hsame : (participant i).Continues T i (participant i) := ⟨rfl, fun _ _ _ hk hp => ⟨hk, hp⟩⟩
  cases hr with
  | part1Failed _ _ _ => exact .silent hp hsame rfl
  | @round1 secret package hs hv hout =>
    rw [hp.identifier] at hv hout
    have heq := hpart1 _ hs hv hout
    refine ⟨⟨hp.identifier, fun _ hs => ?_, hp.secretR2⟩, ⟨rfl, hsame.derived⟩, fun tx htx => ?_⟩
    · cases hs
      rw [← heq]
    · rw [List.mem_singleton.mp htx, hp.identifier]
      show (T.round1 i).2 = package
      rw [← heq]
  | later _ hreact =>
    have hsaw : ((participant i).saw c).Consistent T i := ⟨hp.identifier, hp.secretR1, hp.secretR2⟩
    exact hreact.reactsBy hwire h hi hsaw ⟨rfl, hsame.derived⟩

end

/-! ## Runs by the transcript -/

structure DkgSim.Faithful (T : Transcript C) (params : MpcParams) (validators : BTreeMap C.Identifier EncPublicKey)
    (sim : DkgSim D) : Prop where
  consistent : ∀ i, (sim.participant i).Consistent T i
  boxKey : ∀ i pk, validators[i]? = some pk → D.publicKey (sim.participant i).encSecret = pk
  valid : sim.chain.state.Valid
  progress : sim.chain.state = State.default ∧ sim.chain.mempool = [.dkgBegin params validators] ∨
    sim.chain.state.Begun (Genuine T sim.participant) params validators ∧
      ∀ tx ∈ sim.chain.mempool, Genuine T sim.participant tx

namespace DkgSim.Faithful

variable {T : Transcript C} {params : MpcParams} {validators : BTreeMap C.Identifier EncPublicKey} {sim : DkgSim D}
  (h : sim.Faithful T params validators)
include h

theorem begun {c : DkgCeremony C} (hc : sim.chain.state.ceremony = some c) :
    sim.chain.state.Begun (Genuine T sim.participant) params validators ∧
      ∀ tx ∈ sim.chain.mempool, Genuine T sim.participant tx := by
  rcases h.progress with ⟨hs, _⟩ | hb
  · rw [hs] at hc; cases hc
  · exact hb

theorem promoted {g : GroupConfig C} (hg : sim.chain.state.group = some g) :
    g.PromotedBy (Genuine T sim.participant) params validators := by
  rcases h.progress with ⟨hs, _⟩ | ⟨hb, _⟩
  · rw [hs] at hg; cases hg
  · exact hb.group h.valid hg

theorem ceremony (hdom : dom validators = T.members) {c : DkgCeremony C} (hc : sim.chain.state.ceremony = some c) :
    c.params = params ∧ c.validators = validators ∧ c.Faithful T sim.participant := by
  obtain ⟨hparams, hvalidators, hstored⟩ := (h.begun hc).1.ceremony h.valid hc
  refine ⟨hparams, hvalidators, h.valid.ceremony hc, ?_, ?_, hstored⟩
  · rw [hvalidators]; exact hdom
  · rw [hvalidators]; exact h.boxKey

theorem react (hwire : WireLaws D) (hdom : dom validators = T.members) {i : C.Identifier} {rng : C.Rng}
    (hcall : ∀ call, sim.part1Call (.react i rng) = some call → call.2 = .ok (T.round1 call.1)) :
    (sim.exec (.react i rng)).Faithful T params validators := by
  rcases DkgCtx.react_cases { participant := sim.participant i, rng } sim.chain.state with hidle | hreact
  · have hsame : sim.exec (.react i rng) = sim := by
      have hr : sim.reaction i rng = (.ok [], { participant := sim.participant i, rng }) := hidle
      simp only [exec, hr, returned, Function.update_eq_self]
      simp [ChainSim.submitAll]
    rw [hsame]; exact h
  obtain ⟨c, hg, hc, hv, hreact⟩ := hreact
  have hid := (h.consistent i).identifier
  dsimp only at hv hreact
  rw [hid] at hv
  obtain ⟨hparams, hvalidators, hfaithful⟩ := h.ceremony hdom hc
  have hpart1 : ∀ out, (sim.participant i).submittedR1 = false → i ∉ c.round1 →
      (C.part1 i c.params.total c.params.threshold rng).1 = .ok out → out = T.round1 i := by
    intro out hs hr hout
    have hthis : sim.part1Call (.react i rng) = some (i, (C.part1 i c.params.total c.params.threshold rng).1) := by
      simp [part1Call, hg, hc, hv, hs, hr]
    have := hcall _ hthis
    rw [hout] at this
    exact Except.ok.inj this
  obtain ⟨hcons, hcont, hgen⟩ := hreact.reactsBy hwire hfaithful hv (h.consistent i) hpart1
  obtain ⟨hbegun, hmem⟩ := h.begun hc
  refine ⟨fun j => ?_, fun j pk hpk => ?_, h.valid, Or.inr ⟨?_, fun tx htx => ?_⟩⟩
  · by_cases hj : j = i
    · subst hj
      simp only [exec, Function.update_self]; exact hcons
    · simp only [exec, Function.update_of_ne hj]; exact h.consistent j
  · by_cases hj : j = i
    · subst hj
      simp only [exec, Function.update_self]
      have hkey := h.boxKey j pk hpk
      rwa [← hcont.encSecret] at hkey
    · simp only [exec, Function.update_of_ne hj]; exact h.boxKey j pk hpk
  · exact hbegun.mono fun tx htx => htx.update hcont
  · rcases List.mem_append.mp htx with htx | htx
    · exact (hmem tx htx).update hcont
    · exact hgen tx htx

theorem commit (hsize : validators.size = params.total.toNat) : (sim.exec .commit).Faithful T params validators := by
  unfold exec
  cases hb : sim.chain.commitBlock with
  | error msg => exact h
  | ok result =>
    obtain ⟨results, chain⟩ := result
    obtain ⟨hstate, hmempool⟩ := ChainSim.commitBlock_state hb
    refine ⟨h.consistent, h.boxKey, ?_, Or.inr ⟨?_, ?_⟩⟩
    · show chain.state.Valid
      rw [hstate]
      exact replay_invariant (fun _ _ _ hs ha => applyTx_valid hs ha) h.valid _
    · show chain.state.Begun _ params validators
      rw [hstate]
      rcases h.progress with ⟨hs, hm⟩ | ⟨hbegun, hm⟩
      · have hbegin : applyTx (State.default : State C) (.dkgBegin params validators) =
            .ok { (State.default : State C) with
              ceremony := some { params, validators, round1 := ∅, round2 := ∅, finalize := ∅ } } :=
          applyDkgBegin_ok.mpr ⟨rfl, rfl, hsize, rfl⟩
        rw [hs, hm, replay_cons, replay_nil, feed_ok hbegin]
        exact .of_begin hbegin
      · exact hbegun.replay h.valid hm
    · show ∀ tx ∈ chain.mempool, _
      rw [hmempool]
      simp

end DkgSim.Faithful

theorem dkgStart_faithful {T : Transcript C} {seed : C.Identifier → C.Rng} {params : MpcParams}
    {ids : List C.Identifier} (hd : ids.Nodup) :
    (dkgStart D seed params ids).Faithful T params (advertise D seed ids) where
  consistent := fun i => ⟨rfl, fun _ hs => (by cases hs), fun _ hs => (by cases hs)⟩
  boxKey := fun i pk hpk => ((getElem?_advertise hd).mp hpk).2
  valid := .default
  progress := Or.inl ⟨rfl, rfl⟩

/-- **Run.** A run whose calls of `part1` returned the transcript's outputs is by the transcript. -/
theorem dkgRun_faithful (hwire : WireLaws D) {T : Transcript C} {params : MpcParams}
    {validators : BTreeMap C.Identifier EncPublicKey} (hdom : dom validators = T.members)
    (hsize : validators.size = params.total.toNat) {sim : DkgSim D} (h : sim.Faithful T params validators)
    {events : List (DkgEvent C)} (hcalls : ∀ call ∈ sim.part1Calls events, call.2 = .ok (T.round1 call.1)) :
    (sim.execAll events).Faithful T params validators := by
  induction events generalizing sim with
  | nil => exact h
  | cons e events ih =>
    refine ih ?_ fun call hc => hcalls call (List.mem_append_right _ hc)
    cases e with
    | react i rng => exact h.react hwire hdom fun call hc => hcalls call (List.mem_append_left _ (by simp [hc]))
    | commit => exact h.commit hsize

namespace Ideal

def encode (pkg : Int × Nat) : Bytes :=
  (if pkg.1 < 0 then 1 else 0) :: (List.replicate pkg.1.natAbs 1 ++ 0 :: List.replicate pkg.2 1)

def decode : Bytes → Except String (Int × Nat)
  | [] => .error "EOF while parsing a value"
  | sign :: rest =>
    let n := (rest.takeWhile (· == 1)).length
    .ok (if sign = 1 then -(n : Int) else n, (rest.drop (n + 1)).length)

/-- Boxes that name the key they are sealed to. -/
@[reducible] def box : DkgWire suite where
  EncSecretKey := UInt8
  generate rng := (UInt8.ofNat rng, rng + 1)
  publicKey key := ⟨Vector.replicate 32 key⟩
  sealEnvelope rng key plaintext := (⟨key.bytes.toList.take 1 ++ plaintext⟩, rng + 1)
  openEnvelope key boxed :=
    match boxed.bytes with
    | [] => .error .tooShort
    | k :: plaintext => if k = key then .ok plaintext else .error .decrypt
  toVec pkg := .ok (encode pkg)
  fromSlice := decode

theorem decode_encode (pkg : Int × Nat) : decode (encode pkg) = .ok pkg := by
  obtain ⟨a, i⟩ := pkg
  have htake : (List.replicate a.natAbs (1 : UInt8) ++ 0 :: List.replicate i 1).takeWhile (· == 1) =
      List.replicate a.natAbs 1 := by
    rw [List.takeWhile_append_of_pos (by simp)]
    simp
  have hdrop : (List.replicate a.natAbs (1 : UInt8) ++ 0 :: List.replicate i 1).drop (a.natAbs + 1) =
      List.replicate i 1 := by
    rw [List.drop_append]
    simp
  simp only [decode, encode, htake, hdrop, List.length_replicate]
  by_cases ha : a < 0
  · simp [ha, abs_of_neg ha]
  · simp [ha, abs_of_nonneg (not_lt.mp ha)]

theorem boxLaws : WireLaws box where
  opened secret rng plaintext := by simp
  decoded pkg := ⟨encode pkg, rfl, decode_encode pkg⟩

end Ideal

end Sapphire
