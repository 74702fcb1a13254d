import Sapphire.Chain

/-!
# What an accepted transaction does

One lemma per arm: the guards it passed and the state it leaves. Every later
result about `applyTx` goes through these and never unfolds an arm.
-/

namespace Sapphire

open BTreeMap

variable {C : Ciphersuite}

@[simp] theorem reject_ne_ok {α : Type} {e : ApplyError} {a : α} : (reject e : Outcome α) = .ok a ↔ False := by
  simp [reject]

/-! ## Ceremony tests -/

theorem DkgCeremony.total_lt (c : DkgCeremony C) : c.total < 65536 := c.params.total.toNat_lt

theorem DkgCeremony.r1Complete_iff {c : DkgCeremony C} : c.r1Complete = true ↔ c.round1.size = c.total := by
  simp [r1Complete]

theorem DkgCeremony.r2Complete_zero {c : DkgCeremony C} (h : c.total = 0) :
    c.r2Complete = .error (.panic "attempt to subtract with overflow") := by
  simp [r2Complete, usizeSub, h]; rfl

theorem DkgCeremony.r2Complete_pos {c : DkgCeremony C} (h : 0 < c.total) :
    c.r2Complete = .ok (c.round2.size == c.total * (c.total - 1)) := by
  have hlt := c.total_lt
  have hm : c.total * (c.total - 1) < 2 ^ 64 :=
    lt_of_le_of_lt (Nat.mul_le_mul hlt.le (by omega : c.total - 1 ≤ 65536)) (by norm_num)
  have h1 : usizeSub c.total 1 = .ok (c.total - 1) := by simp [usizeSub, Nat.one_le_iff_ne_zero.mpr h.ne']
  have h2 : usizeMul c.total (c.total - 1) = .ok (c.total * (c.total - 1)) := if_pos hm
  unfold r2Complete
  rw [h1]
  show (usizeMul c.total (c.total - 1) >>= _) = _
  rw [h2]; rfl

theorem DkgCeremony.r2Complete_iff {c : DkgCeremony C} :
    c.r2Complete = .ok true ↔ 0 < c.total ∧ c.round2.size = c.total * (c.total - 1) := by
  rcases Nat.eq_zero_or_pos c.total with h | h
  · simp [r2Complete_zero h, h]
  · simp [r2Complete_pos h, h]

theorem DkgCeremony.finalizeComplete_iff {c : DkgCeremony C} :
    c.finalizeComplete = true ↔ c.finalize.size = c.total := by
  simp [finalizeComplete]

theorem DkgCeremony.mismatch_iff {c : DkgCeremony C} {pkp : C.PublicKeyPackage} :
    c.mismatch pkp = false ↔ ∀ k p, first? c.finalize = some (k, p) → C.Agree p pkp := by
  unfold mismatch
  cases h : first? c.finalize with
  | none => simp
  | some q =>
    obtain ⟨k, p⟩ := q
    simp [Ciphersuite.Agree]

/-! ## Bootstrap -/

theorem applyInitGroup_ok {s s' : State C} {params : MpcParams} {pkp : C.PublicKeyPackage}
    {validators : List C.Identifier} :
    applyInitGroup s params pkp validators = .ok s' ↔
      s.group = none ∧ s.ceremony = none ∧ dom (C.verifyingShares pkp) = validators.toFinset ∧
        s' = { s with group := some { params, pkp, validators := validators.toFinset } } := by
  unfold applyInitGroup
  cases hg : s.group with
  | some g => simp
  | none =>
    cases hc : s.ceremony with
    | some c => simp
    | none =>
      by_cases hd : dom (C.verifyingShares pkp) = validators.toFinset
      · simp [hd, eq_comm]
      · simp [hd]

theorem applyDkgBegin_ok {s s' : State C} {params : MpcParams} {validators : BTreeMap C.Identifier EncPublicKey} :
    applyDkgBegin s params validators = .ok s' ↔
      s.group = none ∧ s.ceremony = none ∧ validators.size = params.total.toNat ∧
        s' = { s with ceremony := some { params, validators, round1 := ∅, round2 := ∅, finalize := ∅ } } := by
  unfold applyDkgBegin
  cases hg : s.group with
  | some g => simp
  | none =>
    cases hc : s.ceremony with
    | some c => simp
    | none =>
      by_cases hd : validators.size = params.total.toNat
      · simp [hd, eq_comm]
      · simp [hd]

/-! ## Ceremony rounds -/

theorem applyDkgRound1_ok {s s' : State C} {v : C.Identifier} {package : C.Round1Package} :
    applyDkgRound1 s v package = .ok s' ↔
      ∃ c, s.ceremony = some c ∧ v ∈ c.validators ∧ v ∉ c.round1 ∧
        s' = { s with ceremony := some { c with round1 := c.round1.insert v package } } := by
  unfold applyDkgRound1
  cases hc : s.ceremony with
  | none => simp
  | some c =>
    by_cases hv : v ∈ c.validators
    · by_cases hr : v ∈ c.round1
      · simp [hv, hr]
      · simp [hv, hr, eq_comm]
    · simp [hv]

theorem applyDkgRound2_ok {s s' : State C} {v w : C.Identifier} {sealed : Sealed} :
    applyDkgRound2 s v w sealed = .ok s' ↔
      ∃ c, s.ceremony = some c ∧ c.r1Complete = true ∧ v ≠ w ∧ v ∈ c.validators ∧ w ∈ c.validators ∧
        toLex (v, w) ∉ c.round2 ∧
        s' = { s with ceremony := some { c with round2 := c.round2.insert (toLex (v, w)) sealed } } := by
  unfold applyDkgRound2
  cases hc : s.ceremony with
  | none => simp
  | some c =>
    by_cases h1 : c.r1Complete = true
    · by_cases hvw : v = w
      · simp [h1, hvw]
      · by_cases hv : v ∈ c.validators
        · by_cases hw : w ∈ c.validators
          · by_cases hr : toLex (v, w) ∈ c.round2
            · simp [h1, hvw, hv, hw, hr]
            · simp only [h1, hvw, hv, hw, hr, Bool.true_eq_false, not_true, not_false_eq_true, if_false,
                Option.some.injEq, exists_eq_left', true_and, ne_eq, Except.ok.injEq]
              exact eq_comm
          · simp [h1, hvw, hv, hw]
        · simp [h1, hvw, hv]
    · simp [h1]

def DkgCeremony.toGroup (c : DkgCeremony C) (pkp : C.PublicKeyPackage) : GroupConfig C :=
  { params := c.params, pkp, validators := dom c.validators }

inductive Finalized (s : State C) (c : DkgCeremony C) : State C → Prop
  | extended : c.finalize.size ≠ c.total → Finalized s c { s with ceremony := some c }
  | promoted {k p} : c.finalize.size = c.total → first? c.finalize = some (k, p) →
      Finalized s c { s with ceremony := none, group := some (c.toGroup p) }

theorem applyDkgFinalize_ok {s s' : State C} {v : C.Identifier} {pkp : C.PublicKeyPackage} :
    applyDkgFinalize s v pkp = .ok s' ↔
      ∃ c, s.ceremony = some c ∧ c.r2Complete = .ok true ∧ v ∈ c.validators ∧ v ∉ c.finalize ∧
        c.mismatch pkp = false ∧ Finalized s { c with finalize := c.finalize.insert v pkp } s' := by
  unfold applyDkgFinalize
  cases hc : s.ceremony with
  | none => simp
  | some c =>
    cases h2 : c.r2Complete with
    | error f => simp [h2]
    | ok b =>
      cases b with
      | false => simp [h2]
      | true =>
        by_cases hv : v ∈ c.validators
        · by_cases hf : v ∈ c.finalize
          · simp [h2, hv, hf]
          · cases hm : c.mismatch pkp with
            | true => simp [h2, hv, hf, hm]
            | false =>
              simp only [hv, hf, hm, not_true, not_false_eq_true, if_false, Bool.false_eq_true,
                Option.some.injEq, exists_eq_left', h2, true_and]
              by_cases hd : (c.finalize.insert v pkp).size = c.total
              · obtain ⟨k, p, hp⟩ := first?_some_of_mem (m := c.finalize.insert v pkp) (k := v) (by simp)
                have hcomp : ({ c with finalize := c.finalize.insert v pkp } : DkgCeremony C).finalizeComplete = true :=
                  DkgCeremony.finalizeComplete_iff.mpr hd
                simp only [hcomp, if_true, State.promote, hp]
                constructor
                · intro h; cases h; exact .promoted hd hp
                · intro h
                  cases h with
                  | extended hne => exact absurd hd hne
                  | promoted _ hp' => simp only at hp'; rw [hp] at hp'; cases hp'; rfl
              · have hcomp : ¬ ({ c with finalize := c.finalize.insert v pkp } : DkgCeremony C).finalizeComplete = true :=
                  fun h => hd (DkgCeremony.finalizeComplete_iff.mp h)
                simp only [hcomp]
                constructor
                · intro h; cases h; exact .extended hd
                · intro h
                  cases h with
                  | extended _ => rfl
                  | promoted hd' _ => exact absurd hd' hd
        · simp [h2, hv]

/-! ## Requests -/

def State.withRequest (s : State C) (id : Uuid) (e : RequestEntry C) : State C :=
  { s with requests := s.requests.insert id e }

@[simp] theorem State.withRequest_group (s : State C) (id : Uuid) (e : RequestEntry C) :
    (s.withRequest id e).group = s.group := rfl

@[simp] theorem State.withRequest_ceremony (s : State C) (id : Uuid) (e : RequestEntry C) :
    (s.withRequest id e).ceremony = s.ceremony := rfl

@[simp] theorem State.withRequest_get (s : State C) (id id' : Uuid) (e : RequestEntry C) :
    (s.withRequest id e).requests[id']? = if id = id' then some e else s.requests[id']? :=
  getElem?_insert' _ _ _ _

theorem State.withRequest_self (s : State C) (id : Uuid) (e : RequestEntry C) :
    (s.withRequest id e).requests[id]? = some e := by simp

theorem State.withRequest_of_ne (s : State C) {id id' : Uuid} (e : RequestEntry C) (h : id ≠ id') :
    (s.withRequest id e).requests[id']? = s.requests[id']? := by simp [h]

theorem State.withRequest_comm (s : State C) {id id' : Uuid} (e e' : RequestEntry C) (h : id ≠ id') :
    (s.withRequest id e).withRequest id' e' = (s.withRequest id' e').withRequest id e := by
  unfold withRequest; rw [BTreeMap.insert_comm _ _ _ h]

theorem State.withRequest_twice (s : State C) (id : Uuid) (e e' : RequestEntry C) :
    (s.withRequest id e).withRequest id e' = s.withRequest id e' := by
  unfold withRequest; rw [BTreeMap.insert_insert]

theorem RequestEntry.addCommitment_ok {e e' : RequestEntry C} {params : MpcParams} {v : C.Identifier}
    {com : C.SigningCommitments} :
    e.addCommitment params v com = .ok e' ↔
      ∃ m, e.status = .awaitingCommitments m ∧ v ∉ m ∧
        e' = { e with status := thresholdCut params e.message (m.insert v com) } := by
  unfold addCommitment
  cases hs : e.status with
  | awaitingCommitments m =>
    by_cases hv : v ∈ m
    · simp [hv]
    · simp [hv, eq_comm]
  | signing => simp
  | completed => simp
  | failed => simp

theorem RequestEntry.addShare_ok {e e' : RequestEntry C} {pkp : C.PublicKeyPackage} {v : C.Identifier}
    {share : C.SignatureShare} :
    e.addShare pkp v share = .ok e' ↔
      ∃ pkg parts shares, e.status = .signing pkg parts shares ∧ v ∈ parts ∧ v ∉ shares ∧
        e' = { e with status := aggregateIfComplete pkp e.randomizer pkg parts (shares.insert v share) } := by
  unfold addShare
  cases hs : e.status with
  | signing pkg parts shares =>
    by_cases hv : v ∈ parts
    · by_cases hm : v ∈ shares
      · simp only [hv, hm, not_true, if_false, if_true, reject_ne_ok, false_iff]
        rintro ⟨_, _, _, h, _, hn, _⟩
        cases h; exact hn hm
      · simp only [hv, hm, not_true, if_false, Except.ok.injEq]
        constructor
        · intro h; exact ⟨pkg, parts, shares, rfl, hv, hm, h.symm⟩
        · rintro ⟨_, _, _, h, _, _, he⟩; cases h; exact he.symm
    · simp only [hv, not_false_eq_true, if_true, reject_ne_ok, false_iff]
      rintro ⟨_, _, _, h, hp, _⟩
      cases h; exact hv hp
  | awaitingCommitments => simp
  | completed => simp
  | failed => simp

/-- What a request transaction makes of the entry under its id. -/
def entryStep (g : GroupConfig C) (old : Option (RequestEntry C)) : Tx C → Option (RequestEntry C)
  | .submitRequest requestId message randomizer =>
    match old with
    | none => some { requestId, message, randomizer, status := .awaitingCommitments ∅ }
    | some _ => none
  | .submitCommitment _ v com =>
    if v ∈ g.validators then old.bind fun e => (e.addCommitment g.params v com).toOption else none
  | .submitShare _ v share =>
    if v ∈ g.validators then old.bind fun e => (e.addShare g.pkp v share).toOption else none
  | _ => none

theorem toOption_ok {α : Type} {x : Outcome α} {a : α} : x.toOption = some a ↔ x = .ok a := by
  cases x <;> simp [Except.toOption]

theorem entryStep_submitRequest {g : GroupConfig C} {old : Option (RequestEntry C)} {id : Uuid} {msg : Bytes}
    {r : C.Randomizer} {e : RequestEntry C} :
    entryStep g old (.submitRequest id msg r) = some e ↔
      old = none ∧ e = { requestId := id, message := msg, randomizer := r, status := .awaitingCommitments ∅ } := by
  cases old <;> simp [entryStep, eq_comm]

theorem entryStep_submitCommitment {g : GroupConfig C} {old : Option (RequestEntry C)} {id : Uuid}
    {v : C.Identifier} {com : C.SigningCommitments} {e : RequestEntry C} :
    entryStep g old (.submitCommitment id v com) = some e ↔
      v ∈ g.validators ∧ ∃ o m, old = some o ∧ o.status = .awaitingCommitments m ∧ v ∉ m ∧
        e = { o with status := thresholdCut g.params o.message (m.insert v com) } := by
  by_cases hv : v ∈ g.validators
  · simp [entryStep, hv, Option.bind_eq_some_iff, toOption_ok, RequestEntry.addCommitment_ok]
  · simp [entryStep, hv]

theorem entryStep_submitShare {g : GroupConfig C} {old : Option (RequestEntry C)} {id : Uuid}
    {v : C.Identifier} {share : C.SignatureShare} {e : RequestEntry C} :
    entryStep g old (.submitShare id v share) = some e ↔
      v ∈ g.validators ∧ ∃ o pkg parts shares, old = some o ∧ o.status = .signing pkg parts shares ∧
        v ∈ parts ∧ v ∉ shares ∧
        e = { o with status := aggregateIfComplete g.pkp o.randomizer pkg parts (shares.insert v share) } := by
  by_cases hv : v ∈ g.validators
  · simp [entryStep, hv, Option.bind_eq_some_iff, toOption_ok, RequestEntry.addShare_ok]
  · simp [entryStep, hv]

def Tx.requestId? : Tx C → Option Uuid
  | .submitRequest id _ _ => some id
  | .submitCommitment id _ _ => some id
  | .submitShare id _ _ => some id
  | _ => none

/-- A request transaction reads the group and one entry, and writes that entry. -/
theorem applyTx_request_ok {s s' : State C} {tx : Tx C} {id : Uuid} (h : tx.requestId? = some id) :
    applyTx s tx = .ok s' ↔
      ∃ g e, s.group = some g ∧ entryStep g s.requests[id]? tx = some e ∧ s' = s.withRequest id e := by
  cases hg : s.group with
  | none =>
    cases tx <;> simp [Tx.requestId?] at h <;>
      simp [applyTx, applySubmitRequest, applySubmitCommitment, applySubmitShare, requireGroup, hg, reject, bind,
        Except.bind]
  | some g =>
    cases tx with
    | submitRequest id' msg r =>
      simp only [Tx.requestId?, Option.some.injEq] at h; subst h
      cases he : s.requests[id']? with
      | none =>
        have hm := not_mem_of_getElem? he
        simp [applyTx, applySubmitRequest, requireGroup, hg, hm, entryStep, State.withRequest, bind, Except.bind,
          pure, Except.pure, eq_comm]
      | some e =>
        have hm := mem_of_getElem? he
        simp [applyTx, applySubmitRequest, requireGroup, hg, hm, entryStep, bind, Except.bind]
    | submitCommitment id' v com =>
      simp only [Tx.requestId?, Option.some.injEq] at h; subst h
      by_cases hv : v ∈ g.validators
      · cases he : s.requests[id']? with
        | none => simp [applyTx, applySubmitCommitment, requireGroup, hg, hv, he, entryStep, bind, Except.bind]
        | some e =>
          cases ha : e.addCommitment g.params v com with
          | error f =>
            simp [applyTx, applySubmitCommitment, requireGroup, hg, hv, he, ha, entryStep, bind, Except.bind,
              Except.toOption]
          | ok e' =>
            simp [applyTx, applySubmitCommitment, requireGroup, hg, hv, he, ha, entryStep, bind, Except.bind,
              Except.toOption, State.withRequest, pure, Except.pure, eq_comm]
      · simp [applyTx, applySubmitCommitment, requireGroup, hg, hv, entryStep, bind, Except.bind]
    | submitShare id' v share =>
      simp only [Tx.requestId?, Option.some.injEq] at h; subst h
      by_cases hv : v ∈ g.validators
      · cases he : s.requests[id']? with
        | none => simp [applyTx, applySubmitShare, requireGroup, hg, hv, he, entryStep, bind, Except.bind]
        | some e =>
          cases ha : e.addShare g.pkp v share with
          | error f =>
            simp [applyTx, applySubmitShare, requireGroup, hg, hv, he, ha, entryStep, bind, Except.bind,
              Except.toOption]
          | ok e' =>
            simp [applyTx, applySubmitShare, requireGroup, hg, hv, he, ha, entryStep, bind, Except.bind,
              Except.toOption, State.withRequest, pure, Except.pure, eq_comm]
      · simp [applyTx, applySubmitShare, requireGroup, hg, hv, entryStep, bind, Except.bind]
    | _ => simp [Tx.requestId?] at h

/-! ## Frames -/

theorem applyTx_requests_eq {s s' : State C} {tx : Tx C} (h : tx.requestId? = none) (ha : applyTx s tx = .ok s') :
    s'.requests = s.requests := by
  cases tx with
  | initGroup params pkp validators => obtain ⟨_, _, _, rfl⟩ := applyInitGroup_ok.mp ha; rfl
  | dkgBegin params validators => obtain ⟨_, _, _, rfl⟩ := applyDkgBegin_ok.mp ha; rfl
  | dkgRound1 v package => obtain ⟨_, _, _, _, rfl⟩ := applyDkgRound1_ok.mp ha; rfl
  | dkgRound2 v w sealed => obtain ⟨_, _, _, _, _, _, _, rfl⟩ := applyDkgRound2_ok.mp ha; rfl
  | dkgFinalize v pkp =>
    obtain ⟨_, _, _, _, _, _, hfin⟩ := applyDkgFinalize_ok.mp ha
    cases hfin <;> rfl
  | _ => simp [Tx.requestId?] at h

/-- The entry under an id is left as it is, or the transaction is for this id and writes it. -/
theorem applyTx_entry {s s' : State C} {tx : Tx C} (ha : applyTx s tx = .ok s') (id : Uuid) :
    s'.requests[id]? = s.requests[id]? ∨
      ∃ g e, tx.requestId? = some id ∧ s.group = some g ∧ entryStep g s.requests[id]? tx = some e ∧
        s' = s.withRequest id e := by
  cases hid : tx.requestId? with
  | none => left; rw [applyTx_requests_eq hid ha]
  | some id' =>
    obtain ⟨g, e, hg, hstep, rfl⟩ := (applyTx_request_ok hid).mp ha
    by_cases heq : id' = id
    · subst heq
      exact Or.inr ⟨g, e, rfl, hg, hstep, rfl⟩
    · exact Or.inl (s.withRequest_of_ne e heq)

theorem entryStep_content {g : GroupConfig C} {old : Option (RequestEntry C)} {tx : Tx C} {e : RequestEntry C}
    {id : Uuid} (hid : tx.requestId? = some id) (h : entryStep g old tx = some e) :
    (∃ o, old = some o ∧ o.message = e.message ∧ o.randomizer = e.randomizer) ∨
      old = none ∧ tx = .submitRequest id e.message e.randomizer := by
  cases tx with
  | submitRequest id' msg r =>
    simp only [Tx.requestId?, Option.some.injEq] at hid; subst hid
    obtain ⟨rfl, rfl⟩ := entryStep_submitRequest.mp h
    exact Or.inr ⟨rfl, rfl⟩
  | submitCommitment id' v com =>
    obtain ⟨_, o, m, ho, _, _, rfl⟩ := entryStep_submitCommitment.mp h
    exact Or.inl ⟨o, ho, rfl, rfl⟩
  | submitShare id' v share =>
    obtain ⟨_, o, pkg, parts, shares, ho, _, _, _, rfl⟩ := entryStep_submitShare.mp h
    exact Or.inl ⟨o, ho, rfl, rfl⟩
  | _ => simp [Tx.requestId?] at hid

theorem applyTx_keeps {s s' : State C} {tx : Tx C} (ha : applyTx s tx = .ok s') {id : Uuid} {o : RequestEntry C}
    (ho : s.requests[id]? = some o) :
    ∃ e, s'.requests[id]? = some e ∧ e.message = o.message ∧ e.randomizer = o.randomizer := by
  rcases applyTx_entry ha id with heq | ⟨g, e, hid, _, hstep, rfl⟩
  · exact ⟨o, heq.trans ho, rfl, rfl⟩
  · rcases entryStep_content hid hstep with ⟨o', ho', hm, hr⟩ | ⟨hn, _⟩
    · rw [ho] at ho'; cases ho'
      exact ⟨e, s.withRequest_self id e, hm.symm, hr.symm⟩
    · rw [ho] at hn; cases hn

/-! ## Faults -/

theorem DkgCeremony.r2Complete_error {c : DkgCeremony C} {f : Fault} (h : c.r2Complete = .error f) :
    f = .panic "attempt to subtract with overflow" := by
  rcases Nat.eq_zero_or_pos c.total with h0 | h0
  · rw [DkgCeremony.r2Complete_zero h0] at h; cases h; rfl
  · rw [DkgCeremony.r2Complete_pos h0] at h; cases h

theorem RequestEntry.addCommitment_error {e : RequestEntry C} {params : MpcParams} {v : C.Identifier}
    {com : C.SigningCommitments} {f : Fault} (h : e.addCommitment params v com = .error f) :
    f = .err .duplicateCommitment ∨ f = .err .notAwaitingCommitments := by
  unfold addCommitment reject at h
  cases hs : e.status with
  | awaitingCommitments m =>
    by_cases hv : v ∈ m <;> simp_all
  | _ => simp_all

theorem RequestEntry.addShare_error {e : RequestEntry C} {pkp : C.PublicKeyPackage} {v : C.Identifier}
    {share : C.SignatureShare} {f : Fault} (h : e.addShare pkp v share = .error f) :
    f = .err .notSelectedParticipant ∨ f = .err .duplicateShare ∨ f = .err .notSigning := by
  unfold addShare reject at h
  cases hs : e.status with
  | signing pkg parts shares =>
    simp only [hs] at h
    split_ifs at h <;> simp_all
  | _ => simp_all

/-- How a transaction of a validator on a request fails: at one of the shared guards, or in its own step. -/
theorem withEntry_error {s : State C} {id : Uuid} {v : C.Identifier} {f : Fault}
    {step : GroupConfig C → RequestEntry C → Outcome (RequestEntry C)}
    (h : (do
      let group ← requireGroup s
      if v ∉ group.validators then reject (.unknownValidator (C.identifierDebug v))
      else match s.requests[id]? with
        | none => reject (.unknownRequest id)
        | some entry =>
          let entry' ← step group entry
          return { s with requests := s.requests.insert id entry' }) = .error f) :
    f = .err .notInitialized ∨ f = .err (.unknownValidator (C.identifierDebug v)) ∨ f = .err (.unknownRequest id) ∨
      ∃ g e, step g e = .error f := by
  cases hg : s.group with
  | none => simp_all [requireGroup, reject, bind, Except.bind]
  | some g =>
    by_cases hv : v ∈ g.validators
    · cases he : s.requests[id]? with
      | none => simp_all [requireGroup, reject, bind, Except.bind]
      | some e =>
        cases ha : step g e with
        | error f' =>
          have hf : f' = f := by simpa [requireGroup, hg, hv, he, ha, bind, Except.bind] using h
          exact Or.inr (Or.inr (Or.inr ⟨g, e, hf ▸ ha⟩))
        | ok e' => simp [requireGroup, hg, hv, he, ha, bind, Except.bind, pure, Except.pure] at h
    · simp_all [requireGroup, reject, bind, Except.bind]

/-- A mismatch, or a panic: what only a finalize can end in. -/
def Fault.OfFinalize : Fault → Prop
  | .err (.pkpMismatch _) => True
  | .panic _ => True
  | _ => False

theorem applyTx_finalize_fault {s : State C} {tx : Tx C} {f : Fault} (hf : f.OfFinalize)
    (h : applyTx s tx = .error f) : ∃ v pkp, tx = .dkgFinalize v pkp := by
  cases tx with
  | dkgFinalize v pkp => exact ⟨v, pkp, rfl⟩
  | initGroup params pkp validators =>
    simp only [applyTx, applyInitGroup, reject] at h
    split_ifs at h <;> cases h <;> exact hf.elim
  | dkgBegin params validators =>
    simp only [applyTx, applyDkgBegin, reject] at h
    split_ifs at h <;> cases h <;> exact hf.elim
  | dkgRound1 v package =>
    simp only [applyTx, applyDkgRound1, reject] at h
    split at h
    · cases h; exact hf.elim
    · split_ifs at h <;> cases h <;> exact hf.elim
  | dkgRound2 v w sealed =>
    simp only [applyTx, applyDkgRound2, reject] at h
    split at h
    · cases h; exact hf.elim
    · split_ifs at h <;> cases h <;> exact hf.elim
  | submitRequest id msg r =>
    simp only [applyTx, applySubmitRequest, requireGroup, reject] at h
    cases hg : s.group with
    | none => rw [hg] at h; cases h; exact hf.elim
    | some g =>
      rw [hg] at h
      change (if id ∈ s.requests then _ else _) = _ at h
      split_ifs at h <;> cases h
      exact hf.elim
  | submitCommitment id v com =>
    rcases withEntry_error h with rfl | rfl | rfl | ⟨g, e, he⟩
    · exact hf.elim
    · exact hf.elim
    · exact hf.elim
    · rcases RequestEntry.addCommitment_error he with rfl | rfl <;> exact hf.elim
  | submitShare id v share =>
    rcases withEntry_error h with rfl | rfl | rfl | ⟨g, e, he⟩
    · exact hf.elim
    · exact hf.elim
    · exact hf.elim
    · rcases RequestEntry.addShare_error he with rfl | rfl | rfl <;> exact hf.elim

/-- The subtraction in `r2_complete` is what panics: in a ceremony of none. -/
theorem applyTx_panic {s : State C} {tx : Tx C} {msg : String} (h : applyTx s tx = .error (.panic msg)) :
    ∃ v pkp c, tx = .dkgFinalize v pkp ∧ s.ceremony = some c ∧ c.total = 0 := by
  obtain ⟨v, pkp, rfl⟩ := applyTx_finalize_fault (f := .panic msg) trivial h
  change applyDkgFinalize s v pkp = _ at h
  unfold applyDkgFinalize at h
  cases hc : s.ceremony with
  | none => simp [hc, reject] at h
  | some c =>
    refine ⟨v, pkp, c, rfl, rfl, ?_⟩
    by_contra h0
    simp only [hc, DkgCeremony.r2Complete_pos (Nat.pos_of_ne_zero h0), reject] at h
    cases hb : c.round2.size == c.total * (c.total - 1) with
    | false => simp [hb] at h
    | true =>
      -- promotion of a non-empty map does not fail
      obtain ⟨k, p, hp⟩ := first?_some_of_mem (m := c.finalize.insert v pkp) (k := v) (by simp)
      simp only [hb, State.promote, hp] at h
      split_ifs at h <;> cases h

end Sapphire
