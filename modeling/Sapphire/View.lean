import Sapphire.CeremonyOrder

/-!
# The state as a view of the accepted transactions

What a replica holds is read off the set of transactions it has accepted: the
order they came in, and whatever was rejected between them, leave no trace.
`State.View` is that reading, stated over a set, and every step keeps it.
-/

namespace Sapphire

open BTreeMap Replay

variable {C : Ciphersuite}

/-! ## Reading a ledger -/

abbrev Ledger (C : Ciphersuite) := Set (Tx C)

/-- The ceremony that the ledger's `DkgBegin` opened, with the rounds the ledger has for it. -/
structure DkgCeremony.Recorded (L : Ledger C) (c : DkgCeremony C) : Prop where
  begun : Tx.dkgBegin c.params c.validators ∈ L
  round1 : Tables c.round1 fun v package => Tx.dkgRound1 v package ∈ L
  round2 : Tables c.round2 fun vw sealed => Tx.dkgRound2 (ofLex vw).1 (ofLex vw).2 sealed ∈ L
  finalize : Tables c.finalize fun v pkp => Tx.dkgFinalize v pkp ∈ L

/-- The package of a full set of finalizes, of the smallest identifier. -/
def DkgCeremony.agreed (c : DkgCeremony C) : Option C.PublicKeyPackage :=
  if c.finalizeComplete then (first? c.finalize).map Prod.snd else none

/-- Where a request stands with these commitments and these shares. -/
def GroupConfig.lifecycle (g : GroupConfig C) (message : Bytes) (randomizer : C.Randomizer)
    (commitments : BTreeMap C.Identifier C.SigningCommitments) (shares : BTreeMap C.Identifier C.SignatureShare) :
    RequestStatus C :=
  if shares.size ≠ 0 then
    aggregateIfComplete g.pkp randomizer (C.signingPackage (cut g.params.threshold.toNat commitments) message)
      (dom (cut g.params.threshold.toNat commitments)) shares
  else if commitments.size ≠ 0 then thresholdCut g.params message commitments
  else .awaitingCommitments ∅

def GroupConfig.entry (g : GroupConfig C) (requestId : Uuid) (message : Bytes) (randomizer : C.Randomizer)
    (commitments : BTreeMap C.Identifier C.SigningCommitments) (shares : BTreeMap C.Identifier C.SignatureShare) :
    RequestEntry C :=
  { requestId, message, randomizer, status := g.lifecycle message randomizer commitments shares }

structure RequestEntry.Recorded (L : Ledger C) (g : GroupConfig C) (id : Uuid) (e : RequestEntry C) : Prop where
  requestId : e.requestId = id
  submitted : Tx.submitRequest id e.message e.randomizer ∈ L
  status : ∃ commitments shares, Tables commitments (fun v com => Tx.submitCommitment id v com ∈ L) ∧
    Tables shares (fun v share => Tx.submitShare id v share ∈ L) ∧
    e.status = g.lifecycle e.message e.randomizer commitments shares

/-- Either way to a group: handed in whole, or promoted from a full ceremony. -/
inductive GroupConfig.Recorded (L : Ledger C) : GroupConfig C → Prop
  | init {params pkp validators} : Tx.initGroup params pkp validators ∈ L →
      Recorded L { params, pkp, validators := validators.toFinset }
  | promoted {c : DkgCeremony C} {pkp} : c.Recorded L → c.agreed = some pkp → Recorded L (c.toGroup pkp)

/-- Each part of the state holds what the ledger records for it and nothing else. -/
structure State.View (L : Ledger C) (s : State C) : Prop where
  ceremony : ∀ c, s.ceremony = some c ↔ c.Recorded L ∧ c.agreed = none
  group : ∀ g, s.group = some g ↔ g.Recorded L
  requests : ∀ (id : Uuid) e, s.requests[id]? = some e ↔ ∃ g, s.group = some g ∧ e.Recorded L g id

/-- A ledger has one view. -/
theorem State.View.unique {L : Ledger C} {s s' : State C} (h : s.View L) (h' : s'.View L) : s = s' := by
  have hc : s.ceremony = s'.ceremony := by
    ext c
    exact (h.ceremony c).trans (h'.ceremony c).symm
  have hg : s.group = s'.group := by
    ext g
    exact (h.group g).trans (h'.group g).symm
  have hr : s.requests = s'.requests := by
    apply eq_of_getElem?_iff
    intro id e
    rw [h.requests id e, h'.requests id e, hg]
  cases s; cases s'
  cases hc; cases hg; cases hr
  rfl

/-! ## Ceremonies -/

theorem DkgCeremony.agreed_none {c : DkgCeremony C} (h : c.finalize.size ≠ c.total) : c.agreed = none := by
  unfold agreed
  rw [if_neg (mt finalizeComplete_iff.mp h)]

theorem DkgCeremony.agreed_of_empty {c : DkgCeremony C} (h : c.finalize = ∅) : c.agreed = none := by
  unfold agreed
  rw [first?_none.mpr h]
  simp

theorem DkgCeremony.agreed_some {c : DkgCeremony C} (h : c.finalize.size = c.total) {k : C.Identifier}
    {pkp : C.PublicKeyPackage} (hf : first? c.finalize = some (k, pkp)) : c.agreed = some pkp := by
  unfold agreed
  rw [if_pos (finalizeComplete_iff.mpr h), hf]
  rfl

theorem DkgCeremony.agreed_congr {c c' : DkgCeremony C} (hp : c'.params = c.params) (hf : c'.finalize = c.finalize) :
    c'.agreed = c.agreed := by
  unfold agreed finalizeComplete total
  rw [hp, hf]

/-- Of what one `DkgBegin` opened there is one reading. -/
theorem DkgCeremony.Recorded.unique {L : Ledger C} {c c' : DkgCeremony C} (h : c.Recorded L) (h' : c'.Recorded L)
    (hp : c.params = c'.params) (hv : c.validators = c'.validators) : c = c' := by
  have h1 := h.round1.unique h'.round1
  have h2 := h.round2.unique h'.round2
  have h3 := h.finalize.unique h'.finalize
  cases c; cases c'
  cases hp; cases hv; cases h1; cases h2; cases h3
  rfl

/-! ## What the ledger of a state has -/

/-- The view, and that the ledger records nothing outside of it. -/
structure State.Exact (L : Ledger C) (s : State C) : Prop where
  view : s.View L
  begun : ∀ params validators, Tx.dkgBegin params validators ∈ L →
    ∃ c : DkgCeremony C, c.Recorded L ∧ c.params = params ∧ c.validators = validators
  rounds : ∀ tx ∈ L, 0 < tx.rank → ∃ c : DkgCeremony C, c.Recorded L
  asked : ∀ tx ∈ L, ∀ id : Uuid, tx.requestId? = some id → id ∈ s.requests

namespace State.Exact

variable {L : Ledger C} {s : State C}

theorem default : (State.default : State C).Exact ∅ where
  view := {
    ceremony := fun c => by
      constructor
      · intro h; cases h
      · rintro ⟨h, _⟩; exact h.begun.elim
    group := fun g => by
      constructor
      · intro h; cases h
      · rintro (h | ⟨h, _⟩)
        · exact h.elim
        · exact h.begun.elim
    requests := fun id e => by
      constructor
      · intro h; simp [State.default] at h
      · rintro ⟨_, h, _⟩; cases h }
  begun := fun _ _ h => h.elim
  rounds := fun _ h => h.elim
  asked := fun _ h => h.elim

variable (h : s.Exact L)
include h

theorem has_ceremony {c : DkgCeremony C} (hc : c.Recorded L) : s.ceremony = some c ∨ ∃ g, s.group = some g := by
  cases ha : c.agreed with
  | none => exact Or.inl ((h.view.ceremony c).mpr ⟨hc, ha⟩)
  | some pkp => exact Or.inr ⟨_, (h.view.group _).mpr (.promoted hc ha)⟩

/-- With neither a ceremony nor a group, no `DkgBegin` and no round has been accepted. -/
theorem fresh (hg : s.group = none) (hc : s.ceremony = none) (c : DkgCeremony C) : ¬ c.Recorded L := by
  intro hrec
  rcases h.has_ceremony hrec with hc' | ⟨g, hg'⟩
  · rw [hc] at hc'; cases hc'
  · rw [hg] at hg'; cases hg'

theorem no_init (hg : s.group = none) {params : MpcParams} {pkp : C.PublicKeyPackage} {validators : List C.Identifier} :
    Tx.initGroup params pkp validators ∉ L := by
  intro hi
  have := (h.view.group _).mpr (.init hi)
  rw [hg] at this; cases this

theorem no_request {id : Uuid} (hid : id ∉ s.requests) {tx : Tx C} (ht : tx.requestId? = some id) : tx ∉ L :=
  fun hm => hid (h.asked tx hm id ht)

/-- The open ceremony is the only one the ledger has. -/
theorem only {c d : DkgCeremony C} (hval : s.Valid) (hc : s.ceremony = some c)
    (hd : Tx.dkgBegin d.params d.validators ∈ L) : d.params = c.params ∧ d.validators = c.validators := by
  obtain ⟨e, he, hp, hv⟩ := h.begun _ _ hd
  rcases h.has_ceremony he with hc' | ⟨g, hg⟩
  · rw [hc] at hc'; cases hc'
    exact ⟨hp.symm, hv.symm⟩
  · rw [hval.exclusive hc] at hg; cases hg

end State.Exact

/-! ## Frames -/

theorem DkgCeremony.Recorded.congr {L L' : Ledger C} {c : DkgCeremony C} (h : c.Recorded L)
    (hL : ∀ tx : Tx C, tx.IsDkg → (tx ∈ L' ↔ tx ∈ L)) : c.Recorded L' where
  begun := (hL _ (Or.inl rfl)).mpr h.begun
  round1 := h.round1.congr fun _ _ => hL _ (Or.inr Nat.zero_lt_one)
  round2 := h.round2.congr fun _ _ => hL _ (Or.inr Nat.zero_lt_two)
  finalize := h.finalize.congr fun _ _ => hL _ (Or.inr (Nat.succ_pos 2))

theorem RequestEntry.Recorded.congr {L L' : Ledger C} {g : GroupConfig C} {id : Uuid} {e : RequestEntry C}
    (h : e.Recorded L g id) (hL : ∀ tx : Tx C, tx.requestId? = some id → (tx ∈ L' ↔ tx ∈ L)) : e.Recorded L' g id where
  requestId := h.requestId
  submitted := (hL _ rfl).mpr h.submitted
  status := by
    obtain ⟨coms, shares, hc, hs, he⟩ := h.status
    exact ⟨coms, shares, hc.congr fun _ _ => hL _ rfl, hs.congr fun _ _ => hL _ rfl, he⟩

theorem mem_insert_of_requestId {L : Ledger C} {tx tx' : Tx C} {id : Uuid} (h : tx.requestId? ≠ some id)
    (h' : tx'.requestId? = some id) : tx' ∈ insert tx L ↔ tx' ∈ L := by
  rw [Set.mem_insert_iff, or_iff_right]
  rintro rfl
  exact h h'

theorem mem_insert_of_isDkg {L : Ledger C} {tx tx' : Tx C} (h : ¬ tx.IsDkg) (h' : tx'.IsDkg) :
    tx' ∈ insert tx L ↔ tx' ∈ L := by
  rw [Set.mem_insert_iff, or_iff_right]
  rintro rfl
  exact h h'

theorem Tx.not_isDkg_of_request {tx : Tx C} {id : Uuid} (h : tx.requestId? = some id) : ¬ tx.IsDkg := by
  cases tx <;> simp_all [Tx.IsDkg, Tx.isDkgBegin, Tx.rank, Tx.requestId?]

/-! ## Steps -/

namespace State.Exact

variable {L : Ledger C} {s : State C} (h : s.Exact L)
include h

/-- Requests come after the group, so until then the ledger has none. -/
theorem no_entries (hval : s.Valid) (hg : s.group = none) {tx : Tx C} (ht : tx.requestId? = none) {g : GroupConfig C}
    {id : Uuid} {e : RequestEntry C} : ¬ e.Recorded (insert tx L) g id := by
  intro he
  have hm : Tx.submitRequest id e.message e.randomizer ∈ L := by
    have hne : tx.requestId? ≠ some id := by simp [ht]
    exact (mem_insert_of_requestId hne rfl).mp he.submitted
  obtain ⟨o, ho⟩ := mem_iff.mp (h.asked _ hm id rfl)
  exact hval.no_request hg ho

theorem asked_insert {tx : Tx C} (ht : tx.requestId? = none) {s' : State C} (hs : s'.requests = s.requests) :
    ∀ tx' ∈ insert tx L, ∀ id : Uuid, tx'.requestId? = some id → id ∈ s'.requests := by
  intro tx' hm id hid
  rw [hs]
  refine h.asked tx' ((mem_insert_of_requestId ?_ hid).mp hm) id hid
  simp [ht]

theorem initGroup (hval : s.Valid) (hg : s.group = none) (hc : s.ceremony = none) (params : MpcParams)
    (pkp : C.PublicKeyPackage) (validators : List C.Identifier) :
    ({ s with group := some { params, pkp, validators := validators.toFinset } } : State C).Exact
      (insert (Tx.initGroup params pkp validators) L) := by
  have hno : ∀ c : DkgCeremony C, ¬ c.Recorded (insert (Tx.initGroup params pkp validators) L) := by
    intro c hrec
    refine h.fresh hg hc c (hrec.congr fun tx ht => (mem_insert_of_isDkg ?_ ht).symm)
    simp [Tx.IsDkg, Tx.isDkgBegin, Tx.rank]
  refine ⟨⟨?_, ?_, ?_⟩, ?_, ?_, h.asked_insert rfl rfl⟩
  · intro c
    constructor
    · intro hc'
      rw [show s.ceremony = some c from hc'] at hc; cases hc
    · rintro ⟨hrec, _⟩
      exact absurd hrec (hno c)
  · intro g
    constructor
    · intro hg'; cases hg'
      exact .init (Set.mem_insert _ _)
    · rintro (hm | ⟨hrec, _⟩)
      · rcases hm with heq | hm
        · cases heq; rfl
        · exact absurd hm (h.no_init hg)
      · exact absurd hrec (hno _)
  · intro id e
    constructor
    · intro he
      exact absurd he (hval.no_request hg)
    · rintro ⟨g, _, he⟩
      exact absurd he (h.no_entries hval hg rfl)
  · intro p vs hm
    rcases hm with heq | hm
    · cases heq
    · obtain ⟨c, hrec, _⟩ := h.begun p vs hm
      exact absurd hrec (h.fresh hg hc c)
  · intro tx hm hr
    rcases hm with heq | hm
    · cases heq; cases hr
    · obtain ⟨c, hrec⟩ := h.rounds tx hm hr
      exact absurd hrec (h.fresh hg hc c)

theorem dkgBegin (hval : s.Valid) (hg : s.group = none) (hc : s.ceremony = none) (params : MpcParams)
    (validators : BTreeMap C.Identifier EncPublicKey) :
    ({ s with ceremony := some { params, validators, round1 := ∅, round2 := ∅, finalize := ∅ } } : State C).Exact
      (insert (Tx.dkgBegin params validators) L) := by
  have hround : ∀ tx : Tx C, 0 < tx.rank → tx ∉ insert (Tx.dkgBegin params validators) L := by
    rintro tx hr (heq | hm)
    · cases heq; cases hr
    · obtain ⟨c, hrec⟩ := h.rounds tx hm hr
      exact h.fresh hg hc c hrec
  let c₀ : DkgCeremony C := { params, validators, round1 := ∅, round2 := ∅, finalize := ∅ }
  have hc₀ : c₀.Recorded (insert (Tx.dkgBegin params validators) L) :=
    { begun := Set.mem_insert _ _
      round1 := .empty fun _ _ => hround _ Nat.zero_lt_one
      round2 := .empty fun _ _ => hround _ Nat.zero_lt_two
      finalize := .empty fun _ _ => hround _ (Nat.succ_pos 2) }
  have hbegin : ∀ p vs, Tx.dkgBegin p vs ∈ insert (Tx.dkgBegin params validators) L → p = params ∧ vs = validators := by
    rintro p vs (heq | hm)
    · cases heq; exact ⟨rfl, rfl⟩
    · obtain ⟨c, hrec, _⟩ := h.begun p vs hm
      exact absurd hrec (h.fresh hg hc c)
  have honly : ∀ c : DkgCeremony C, c.Recorded (insert (Tx.dkgBegin params validators) L) → c = c₀ := by
    intro c hrec
    obtain ⟨hp, hv⟩ := hbegin _ _ hrec.begun
    exact hrec.unique hc₀ hp hv
  refine ⟨⟨?_, ?_, ?_⟩, ?_, ?_, h.asked_insert rfl rfl⟩
  · intro c
    constructor
    · intro hc'; cases hc'
      exact ⟨hc₀, DkgCeremony.agreed_of_empty rfl⟩
    · rintro ⟨hrec, _⟩
      rw [honly c hrec]
  · intro g
    constructor
    · intro hg'
      rw [show s.group = some g from hg'] at hg; cases hg
    · rintro (hm | ⟨hrec, ha⟩)
      · rcases hm with heq | hm
        · cases heq
        · exact absurd hm (h.no_init hg)
      · rw [honly _ hrec, DkgCeremony.agreed_of_empty rfl] at ha
        cases ha
  · intro id e
    constructor
    · intro he
      exact absurd he (hval.no_request hg)
    · rintro ⟨g, _, he⟩
      exact absurd he (h.no_entries hval hg rfl)
  · intro p vs hm
    obtain ⟨rfl, rfl⟩ := hbegin p vs hm
    exact ⟨c₀, hc₀, rfl, rfl⟩
  · intro tx hm hr
    exact absurd hm (hround tx hr)

/-- A round transaction turns the open ceremony into `c'`, which stays open or is promoted. -/
theorem round (hval : s.Valid) {tx : Tx C} (hr : 0 < tx.rank) {c : DkgCeremony C} (hc : s.ceremony = some c)
    (c' : DkgCeremony C) (hp : c'.params = c.params) (hv : c'.validators = c.validators)
    (hrec : c'.Recorded (insert tx L)) {s' : State C} (hs : s'.requests = s.requests)
    (hopen : ∀ d, s'.ceremony = some d ↔ d = c' ∧ c'.agreed = none)
    (hgroup : ∀ g, s'.group = some g ↔ ∃ pkp, c'.agreed = some pkp ∧ g = c'.toGroup pkp) :
    s'.Exact (insert tx L) := by
  have hg := hval.exclusive hc
  have hreq : tx.requestId? = none := by
    cases tx <;> first | rfl | cases hr
  have hbegin : ∀ p vs, Tx.dkgBegin p vs ∈ insert tx L → Tx.dkgBegin p vs ∈ L := by
    rintro p vs (rfl | hm)
    · cases hr
    · exact hm
  have honly : ∀ d : DkgCeremony C, d.Recorded (insert tx L) → d = c' := by
    intro d hd
    obtain ⟨hp', hv'⟩ := h.only hval hc (hbegin _ _ hd.begun)
    exact hd.unique hrec (hp'.trans hp.symm) (hv'.trans hv.symm)
  refine ⟨⟨?_, ?_, ?_⟩, ?_, fun _ _ _ => ⟨c', hrec⟩, h.asked_insert hreq hs⟩
  · intro d
    rw [hopen]
    constructor
    · rintro ⟨rfl, ha⟩
      exact ⟨hrec, ha⟩
    · rintro ⟨hd, ha⟩
      obtain rfl := honly d hd
      exact ⟨rfl, ha⟩
  · intro g
    rw [hgroup]
    constructor
    · rintro ⟨pkp, ha, rfl⟩
      exact .promoted hrec ha
    · rintro (hm | ⟨hd, ha⟩)
      · rcases hm with rfl | hm
        · cases hr
        · exact absurd hm (h.no_init hg)
      · obtain rfl := honly _ hd
        exact ⟨_, ha, rfl⟩
  · intro id e
    rw [hs]
    constructor
    · intro he
      exact absurd he (hval.no_request hg)
    · rintro ⟨g, _, he⟩
      exact absurd he (h.no_entries hval hg hreq)
  · intro p vs hm
    obtain ⟨hp', hv'⟩ := h.only (d := { c with params := p, validators := vs }) hval hc (hbegin p vs hm)
    exact ⟨c', hrec, hp.trans hp'.symm, hv.trans hv'.symm⟩

/-- The stored packages change only by the round's own record, so nothing is promoted. -/
theorem round_open (hval : s.Valid) {tx : Tx C} (hr : 0 < tx.rank) {c c' : DkgCeremony C} (hc : s.ceremony = some c)
    (hp : c'.params = c.params) (hv : c'.validators = c.validators) (hrec : c'.Recorded (insert tx L))
    (ha : c'.agreed = none) : ({ s with ceremony := some c' } : State C).Exact (insert tx L) := by
  refine h.round hval hr hc c' hp hv hrec rfl (fun d => ?_) fun g => ?_
  · simp [ha, eq_comm]
  · simp [ha, hval.exclusive hc]

theorem open_agreed {c : DkgCeremony C} (hc : s.ceremony = some c) : c.Recorded L ∧ c.agreed = none :=
  (h.view.ceremony c).mp hc

theorem dkgRound1 (hval : s.Valid) {c : DkgCeremony C} (hc : s.ceremony = some c) {v : C.Identifier}
    (package : C.Round1Package) (hv : v ∉ c.round1) :
    ({ s with ceremony := some { c with round1 := c.round1.insert v package } } : State C).Exact
      (insert (Tx.dkgRound1 v package) L) := by
  obtain ⟨hrec, ha⟩ := h.open_agreed hc
  have hr : 0 < (Tx.dkgRound1 v package).rank := Nat.zero_lt_one
  refine h.round_open hval hr hc rfl rfl ?_ ((DkgCeremony.agreed_congr rfl rfl).trans ha)
  exact {
    begun := Or.inr hrec.begun
    round1 := hrec.round1.insert package hv (by simp)
    round2 := hrec.round2.congr (by simp)
    finalize := hrec.finalize.congr (by simp) }

theorem dkgRound2 (hval : s.Valid) {c : DkgCeremony C} (hc : s.ceremony = some c) {v w : C.Identifier}
    (sealed : Sealed) (hv : toLex (v, w) ∉ c.round2) :
    ({ s with ceremony := some { c with round2 := c.round2.insert (toLex (v, w)) sealed } } : State C).Exact
      (insert (Tx.dkgRound2 v w sealed) L) := by
  obtain ⟨hrec, ha⟩ := h.open_agreed hc
  have hr : 0 < (Tx.dkgRound2 v w sealed).rank := Nat.zero_lt_two
  refine h.round_open hval hr hc rfl rfl ?_ ((DkgCeremony.agreed_congr rfl rfl).trans ha)
  refine {
    begun := Or.inr hrec.begun
    round1 := hrec.round1.congr (by simp)
    round2 := hrec.round2.insert sealed hv fun vw sealed' => ?_
    finalize := hrec.finalize.congr (by simp) }
  have hpair : vw = toLex (v, w) ↔ (ofLex vw).1 = v ∧ (ofLex vw).2 = w := by
    rw [← ofLex_inj, ofLex_toLex, Prod.ext_iff]
  simp [hpair, and_assoc]

theorem dkgFinalize (hval : s.Valid) {c : DkgCeremony C} (hc : s.ceremony = some c) {v : C.Identifier}
    (pkp : C.PublicKeyPackage) (hv : v ∉ c.finalize) {s' : State C}
    (hfin : Finalized s { c with finalize := c.finalize.insert v pkp } s') :
    s'.Exact (insert (Tx.dkgFinalize v pkp) L) := by
  obtain ⟨hrec, ha⟩ := h.open_agreed hc
  have hr : 0 < (Tx.dkgFinalize v pkp).rank := Nat.succ_pos 2
  have hrec' : ({ c with finalize := c.finalize.insert v pkp } : DkgCeremony C).Recorded
      (insert (Tx.dkgFinalize v pkp) L) :=
    { begun := Or.inr hrec.begun
      round1 := hrec.round1.congr (by simp)
      round2 := hrec.round2.congr (by simp)
      finalize := hrec.finalize.insert pkp hv (by simp) }
  cases hfin with
  | extended hd => exact h.round_open hval hr hc rfl rfl hrec' (DkgCeremony.agreed_none hd)
  | promoted hd hf =>
    have ha' := DkgCeremony.agreed_some hd hf
    refine h.round hval hr hc { c with finalize := c.finalize.insert v pkp } rfl rfl hrec' rfl (fun d => ?_) fun g => ?_
    · simp [ha']
    · simp [ha', eq_comm]

end State.Exact

/-! ## Request steps -/

/-- What the ledger says of a request, once its contents and the tables under its id are known. -/
theorem RequestEntry.recorded_iff {L : Ledger C} {g : GroupConfig C} {id : Uuid} {message : Bytes}
    {randomizer : C.Randomizer} {coms : BTreeMap C.Identifier C.SigningCommitments}
    {shares : BTreeMap C.Identifier C.SignatureShare}
    (hsub : ∀ m r, Tx.submitRequest id m r ∈ L ↔ m = message ∧ r = randomizer)
    (hcoms : Tables coms fun v com => Tx.submitCommitment id v com ∈ L)
    (hshares : Tables shares fun v share => Tx.submitShare id v share ∈ L) {e : RequestEntry C} :
    e.Recorded L g id ↔ e = g.entry id message randomizer coms shares := by
  constructor
  · rintro ⟨rfl, hm, coms', shares', hc, hs, hst⟩
    obtain rfl := hc.unique hcoms
    obtain rfl := hs.unique hshares
    obtain ⟨rfl, rfl⟩ := (hsub _ _).mp hm
    unfold GroupConfig.entry
    rw [← hst]
  · rintro rfl
    exact ⟨rfl, (hsub _ _).mpr ⟨rfl, rfl⟩, coms, shares, hcoms, hshares, rfl⟩

theorem GroupConfig.lifecycle_awaiting {g : GroupConfig C} {message : Bytes} {randomizer : C.Randomizer}
    {coms m : BTreeMap C.Identifier C.SigningCommitments} {shares : BTreeMap C.Identifier C.SignatureShare}
    (h : g.lifecycle message randomizer coms shares = .awaitingCommitments m) : shares = ∅ ∧ coms = m := by
  unfold lifecycle at h
  split at h
  · unfold aggregateIfComplete at h
    split at h
    · split at h <;> cases h
    · cases h
  · rename_i hs
    refine ⟨Std.ExtTreeMap.eq_empty_iff_size_eq_zero.mpr (not_not.mp hs), ?_⟩
    split at h
    · unfold thresholdCut at h
      split at h
      · cases h
      · cases h; rfl
    · rename_i hc
      cases h
      exact Std.ExtTreeMap.eq_empty_iff_size_eq_zero.mpr (not_not.mp hc)

theorem GroupConfig.lifecycle_signing {g : GroupConfig C} {message : Bytes} {randomizer : C.Randomizer}
    {coms : BTreeMap C.Identifier C.SigningCommitments} {shares sh : BTreeMap C.Identifier C.SignatureShare}
    {pkg : C.SigningPackage} {parts : Finset C.Identifier}
    (h : g.lifecycle message randomizer coms shares = .signing pkg parts sh) :
    shares = sh ∧ pkg = C.signingPackage (cut g.params.threshold.toNat coms) message ∧
      parts = dom (cut g.params.threshold.toNat coms) := by
  unfold lifecycle at h
  split at h
  · unfold aggregateIfComplete at h
    split at h
    · split at h <;> cases h
    · cases h; exact ⟨rfl, rfl, rfl⟩
  · rename_i hs
    split at h
    · unfold thresholdCut at h
      split at h
      · cases h
        exact ⟨Std.ExtTreeMap.eq_empty_iff_size_eq_zero.mpr (not_not.mp hs), rfl, rfl⟩
      · cases h
    · cases h

theorem GroupConfig.lifecycle_commitments (g : GroupConfig C) (message : Bytes) (randomizer : C.Randomizer)
    (m : BTreeMap C.Identifier C.SigningCommitments) (v : C.Identifier) (com : C.SigningCommitments) :
    g.lifecycle message randomizer (m.insert v com) ∅ = thresholdCut g.params message (m.insert v com) := by
  have hpos := size_pos_of_mem (m := m.insert v com) (k := v) (by simp)
  unfold lifecycle
  rw [if_neg (by simp), if_pos (by omega)]

theorem GroupConfig.lifecycle_shares (g : GroupConfig C) (message : Bytes) (randomizer : C.Randomizer)
    (coms : BTreeMap C.Identifier C.SigningCommitments) (sh : BTreeMap C.Identifier C.SignatureShare)
    (v : C.Identifier) (share : C.SignatureShare) :
    g.lifecycle message randomizer coms (sh.insert v share) =
      aggregateIfComplete g.pkp randomizer (C.signingPackage (cut g.params.threshold.toNat coms) message)
        (dom (cut g.params.threshold.toNat coms)) (sh.insert v share) := by
  have hpos := size_pos_of_mem (m := sh.insert v share) (k := v) (by simp)
  unfold lifecycle
  rw [if_pos (by omega)]

namespace State.Exact

variable {L : Ledger C} {s : State C} (h : s.Exact L)
include h

/-- A request transaction leaves every other request, the group and the ceremony as the ledger had them. -/
theorem request {tx : Tx C} {id : Uuid} (hid : tx.requestId? = some id) {g : GroupConfig C} (hg : s.group = some g)
    {e : RequestEntry C} (he : ∀ e', e'.Recorded (insert tx L) g id ↔ e' = e) :
    (s.withRequest id e).Exact (insert tx L) := by
  have hdkg : ∀ tx' : Tx C, tx'.IsDkg → (tx' ∈ insert tx L ↔ tx' ∈ L) :=
    fun tx' ht => mem_insert_of_isDkg (Tx.not_isDkg_of_request hid) ht
  have hinit : ∀ p pkp vs, Tx.initGroup p pkp vs ∈ insert tx L ↔ Tx.initGroup p pkp vs ∈ L := by
    intro p pkp vs
    rw [Set.mem_insert_iff, or_iff_right]
    rintro rfl
    cases hid
  refine ⟨⟨?_, ?_, ?_⟩, ?_, ?_, ?_⟩
  · intro c
    rw [State.withRequest_ceremony, h.view.ceremony c]
    refine and_congr_left fun _ => ⟨fun hc => hc.congr hdkg, fun hc => hc.congr fun tx' ht => (hdkg tx' ht).symm⟩
  · intro g'
    rw [State.withRequest_group, h.view.group g']
    constructor
    · rintro (hm | ⟨hc, ha⟩)
      · exact .init ((hinit _ _ _).mpr hm)
      · exact .promoted (hc.congr hdkg) ha
    · rintro (hm | ⟨hc, ha⟩)
      · exact .init ((hinit _ _ _).mp hm)
      · exact .promoted (hc.congr fun tx' ht => (hdkg tx' ht).symm) ha
  · intro id' e'
    rw [State.withRequest_group, hg]
    by_cases hne : id = id'
    · subst hne
      rw [State.withRequest_self]
      simp [he, eq_comm]
    · rw [State.withRequest_of_ne _ _ hne, h.view.requests id' e', hg]
      have hmem : ∀ tx' : Tx C, tx'.requestId? = some id' → (tx' ∈ insert tx L ↔ tx' ∈ L) :=
        fun tx' ht => mem_insert_of_requestId (by simp [hid, hne]) ht
      refine exists_congr fun g' => and_congr_right fun _ => ?_
      exact ⟨fun hr => hr.congr hmem, fun hr => hr.congr fun tx' ht => (hmem tx' ht).symm⟩
  · intro p vs hm
    obtain ⟨c, hc, hpv⟩ := h.begun p vs ((hdkg _ (Or.inl rfl)).mp hm)
    exact ⟨c, hc.congr hdkg, hpv⟩
  · intro tx' hm hr
    obtain ⟨c, hc⟩ := h.rounds tx' ((hdkg _ (Or.inr hr)).mp hm) hr
    exact ⟨c, hc.congr hdkg⟩
  · intro tx' hm id' hid'
    by_cases hne : id = id'
    · subst hne
      exact mem_of_getElem? (s.withRequest_self id e)
    · have hold := h.asked tx' ((mem_insert_of_requestId (by simp [hid, hne]) hid').mp hm) id' hid'
      obtain ⟨o, ho⟩ := mem_iff.mp hold
      exact mem_of_getElem? ((s.withRequest_of_ne e hne).trans ho)

/-- The stored entry tells what the ledger has under its id. -/
theorem entry {g : GroupConfig C} (hg : s.group = some g) {id : Uuid} {o : RequestEntry C}
    (ho : s.requests[id]? = some o) :
    ∃ coms shares, (∀ m r, Tx.submitRequest id m r ∈ L ↔ m = o.message ∧ r = o.randomizer) ∧
      Tables coms (fun v com => Tx.submitCommitment id v com ∈ L) ∧
      Tables shares (fun v share => Tx.submitShare id v share ∈ L) ∧
      o = g.entry id o.message o.randomizer coms shares := by
  obtain ⟨g', hg', hrec⟩ := (h.view.requests id o).mp ho
  rw [hg] at hg'; cases hg'
  obtain ⟨coms, shares, hc, hs, hst⟩ := hrec.status
  refine ⟨coms, shares, fun m r => ⟨fun hm => ?_, ?_⟩, hc, hs, ?_⟩
  · -- a second submission would be a second entry under this id
    have he : s.requests[id]? = some (g.entry id m r coms shares) :=
      (h.view.requests id _).mpr ⟨g, hg, rfl, hm, coms, shares, hc, hs, rfl⟩
    rw [ho] at he; cases he
    exact ⟨rfl, rfl⟩
  · rintro ⟨rfl, rfl⟩
    exact hrec.submitted
  · unfold GroupConfig.entry
    rw [← hst, ← hrec.requestId]

theorem submitRequest {g : GroupConfig C} (hg : s.group = some g) {id : Uuid} (hid : s.requests[id]? = none)
    (message : Bytes) (randomizer : C.Randomizer) :
    (s.withRequest id { requestId := id, message, randomizer, status := .awaitingCommitments ∅ }).Exact
      (insert (Tx.submitRequest id message randomizer) L) := by
  have hno : ∀ tx : Tx C, tx.requestId? = some id → tx ∉ L := fun tx ht => h.no_request (not_mem_of_getElem? hid) ht
  have hsub : ∀ m r, Tx.submitRequest id m r ∈ insert (Tx.submitRequest id message randomizer) L ↔
      m = message ∧ r = randomizer := by
    intro m r
    simp [hno (.submitRequest id m r) rfl]
  refine h.request rfl hg fun e => RequestEntry.recorded_iff hsub (.empty ?_) (.empty ?_)
  · intro v com
    simp [hno (.submitCommitment id v com) rfl]
  · intro v share
    simp [hno (.submitShare id v share) rfl]

theorem submitCommitment {g : GroupConfig C} (hg : s.group = some g) {id : Uuid} {o : RequestEntry C}
    (ho : s.requests[id]? = some o) {m : BTreeMap C.Identifier C.SigningCommitments}
    (hst : o.status = .awaitingCommitments m) {v : C.Identifier} (hv : v ∉ m) (com : C.SigningCommitments) :
    (s.withRequest id { o with status := thresholdCut g.params o.message (m.insert v com) }).Exact
      (insert (Tx.submitCommitment id v com) L) := by
  obtain ⟨coms, shares, hsub, hc, hs, heq⟩ := h.entry hg ho
  have hlife : g.lifecycle o.message o.randomizer coms shares = .awaitingCommitments m := by
    rw [← hst]
    exact (congrArg RequestEntry.status heq).symm
  obtain ⟨rfl, rfl⟩ := GroupConfig.lifecycle_awaiting hlife
  refine h.request rfl hg fun e => ?_
  have hid : o.requestId = id := congrArg RequestEntry.requestId heq
  rw [RequestEntry.recorded_iff (by simpa using hsub) (hc.insert com hv (by simp)) (hs.congr (by simp)),
    GroupConfig.entry, GroupConfig.lifecycle_commitments, ← hid]

theorem submitShare {g : GroupConfig C} (hg : s.group = some g) {id : Uuid} {o : RequestEntry C}
    (ho : s.requests[id]? = some o) {pkg : C.SigningPackage} {parts : Finset C.Identifier}
    {sh : BTreeMap C.Identifier C.SignatureShare} (hst : o.status = .signing pkg parts sh) {v : C.Identifier}
    (hv : v ∉ sh) (share : C.SignatureShare) :
    (s.withRequest id { o with status := aggregateIfComplete g.pkp o.randomizer pkg parts (sh.insert v share) }).Exact
      (insert (Tx.submitShare id v share) L) := by
  obtain ⟨coms, shares, hsub, hc, hs, heq⟩ := h.entry hg ho
  have hlife : g.lifecycle o.message o.randomizer coms shares = .signing pkg parts sh := by
    rw [← hst]
    exact (congrArg RequestEntry.status heq).symm
  obtain ⟨rfl, rfl, rfl⟩ := GroupConfig.lifecycle_signing hlife
  refine h.request rfl hg fun e => ?_
  have hid : o.requestId = id := congrArg RequestEntry.requestId heq
  rw [RequestEntry.recorded_iff (by simpa using hsub) (hc.congr (by simp)) (hs.insert share hv (by simp)),
    GroupConfig.entry, GroupConfig.lifecycle_shares, ← hid]

end State.Exact

/-! ## Runs -/

/-- **Step.** What a valid state accepts is added to its ledger, and to nothing else. -/
theorem applyTx_exact {L : Ledger C} {s s' : State C} {tx : Tx C} (hval : s.Valid) (h : s.Exact L)
    (ha : applyTx s tx = .ok s') : s'.Exact (insert tx L) := by
  cases tx with
  | initGroup params pkp validators =>
    obtain ⟨hg, hc, _, rfl⟩ := applyInitGroup_ok.mp ha
    exact h.initGroup hval hg hc params pkp validators
  | dkgBegin params validators =>
    obtain ⟨hg, hc, _, rfl⟩ := applyDkgBegin_ok.mp ha
    exact h.dkgBegin hval hg hc params validators
  | dkgRound1 v package =>
    obtain ⟨c, hc, _, hr, rfl⟩ := applyDkgRound1_ok.mp ha
    exact h.dkgRound1 hval hc package hr
  | dkgRound2 v w sealed =>
    obtain ⟨c, hc, _, _, _, _, hr, rfl⟩ := applyDkgRound2_ok.mp ha
    exact h.dkgRound2 hval hc sealed hr
  | dkgFinalize v pkp =>
    obtain ⟨c, hc, _, _, hf, _, hfin⟩ := applyDkgFinalize_ok.mp ha
    exact h.dkgFinalize hval hc pkp hf hfin
  | submitRequest id msg r =>
    obtain ⟨g, e, hg, hstep, rfl⟩ := (applyTx_request_ok rfl).mp ha
    obtain ⟨hnone, rfl⟩ := entryStep_submitRequest.mp hstep
    exact h.submitRequest hg hnone msg r
  | submitCommitment id v com =>
    obtain ⟨g, e, hg, hstep, rfl⟩ := (applyTx_request_ok rfl).mp ha
    obtain ⟨_, o, m, ho, hst, hm, rfl⟩ := entryStep_submitCommitment.mp hstep
    exact h.submitCommitment hg ho hst hm com
  | submitShare id v share =>
    obtain ⟨g, e, hg, hstep, rfl⟩ := (applyTx_request_ok rfl).mp ha
    obtain ⟨_, o, pkg, parts, shares, ho, hst, _, hm, rfl⟩ := entryStep_submitShare.mp hstep
    exact h.submitShare hg ho hst hm share

/-- What a replica has accepted of the transactions it was fed. -/
def acceptedSet (txs : List (Tx C)) : Ledger C := {tx | tx ∈ accepted applyTx State.default txs}

theorem reached_exact (txs : List (Tx C)) : (reached txs).Exact (acceptedSet txs) := by
  have hstep : ∀ (l : List (Tx C)) s tx s', s.Valid ∧ s.Exact {tx | tx ∈ l} → applyTx s tx = .ok s' →
      s'.Valid ∧ s'.Exact {a | a ∈ l ++ [tx]} := by
    rintro l s tx s' ⟨hval, h⟩ ha
    refine ⟨applyTx_valid hval ha, ?_⟩
    have hset : {a | a ∈ l ++ [tx]} = insert tx {a | a ∈ l} := by
      ext a
      simp [or_comm]
    rw [hset]
    exact applyTx_exact hval h ha
  have h0 : (State.default : State C).Valid ∧ (State.default : State C).Exact {tx | tx ∈ ([] : List (Tx C))} := by
    simpa using ⟨State.Valid.default, State.Exact.default⟩
  exact (accepted_invariant hstep h0 txs).2

/-- **Refinement.** The fold over a log computes the view of the set it accepted. -/
theorem reached_view (txs : List (Tx C)) : (reached txs).View (acceptedSet txs) := (reached_exact txs).view

/-- **Convergence.** Replicas that accepted the same transactions are in one state. -/
theorem replicas_converge {txs txs' : List (Tx C)} (h : acceptedSet txs = acceptedSet txs') :
    reached txs = reached txs' := by
  have hview : (reached txs').View (acceptedSet txs) := by
    rw [h]
    exact (reached_exact txs').view
  exact (reached_exact txs).view.unique hview

/-- In another order, and with a repeat that is dropped. -/
theorem replicas_converge_duo :
    reached Ideal.duoRun = reached (Ideal.duoSwapped ++ [Ideal.duoRound1 1]) := by
  have hset : acceptedSet Ideal.duoRun = acceptedSet (Ideal.duoSwapped ++ [Ideal.duoRound1 1]) := by
    ext tx
    change tx ∈ Ideal.duoRun ↔ tx ∈ Ideal.duoSwapped
    exact Ideal.redelivery_swapped.perm.mem_iff
  exact replicas_converge hset

end Sapphire
