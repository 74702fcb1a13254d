import Sapphire.Keygen
import Sapphire.Diamond

/-!
# What a participant does once

A participant may be shown any states in any order: stale ones, ones from a
fork, ones nobody ever committed. Its secrets are taken before they are used,
so what it sends and what it hands to `part2` and `part3` is bounded however
a reaction ends.
-/

namespace Sapphire

variable {C : Ciphersuite} {D : DkgWire C}

inductive DkgCall (C : Ciphersuite) where
  | part1 (identifier : C.Identifier) (total threshold : UInt16)
  | part2 (secret : C.Round1Secret) (others : BTreeMap C.Identifier C.Round1Package)
  | part3 (secret : C.Round2Secret) (others : BTreeMap C.Identifier C.Round1Package)
      (received : BTreeMap C.Identifier C.Round2Package)

def DkgCall.isPart2 : DkgCall C → Bool
  | .part2 _ _ => true
  | _ => false

def DkgCall.isPart3 : DkgCall C → Bool
  | .part3 _ _ _ => true
  | _ => false

namespace DkgParticipant

def finalizeCall? (self : DkgParticipant D) (ceremony : DkgCeremony C) : Option (DkgCall C) :=
  match ceremony.r2Complete with
  | .error _ => none
  | .ok false => none
  | .ok true =>
    if self.submittedFinalize ∨ self.identifier ∈ ceremony.finalize then none
    else
      match DkgCtx.openAll self ∅ ceremony.round2.toList with
      | .error _ => none
      | .ok receivedR2 => self.secretR2.map (.part3 · (self.othersR1 ceremony) receivedR2)

def round2Call? (self : DkgParticipant D) (ceremony : DkgCeremony C) : Option (DkgCall C) :=
  if ceremony.r1Complete = false then none
  else if self.submittedR2 then self.finalizeCall? ceremony
  else self.secretR1.map (.part2 · (self.othersR1 ceremony))

def round1Call? (self : DkgParticipant D) (ceremony : DkgCeremony C) : Option (DkgCall C) :=
  if self.submittedR1 = false ∧ self.identifier ∉ ceremony.round1 then
    some (.part1 self.identifier ceremony.params.total ceremony.params.threshold)
  else (self.saw ceremony).round2Call? ceremony

/-- The call into frost that a reaction to the state makes, whatever becomes of
it: no reaction makes two. -/
def call? (self : DkgParticipant D) (s : State C) : Option (DkgCall C) :=
  match s.group, s.ceremony with
  | none, some ceremony => if self.identifier ∈ ceremony.validators then self.round1Call? ceremony else none
  | _, _ => none

end DkgParticipant

/-! ## The effect of one reaction -/

structure Envelopes (sender : C.Identifier) (out : List (Tx C)) : Prop where
  others : ∀ tx ∈ out, ∃ recipient ≠ sender, tx.slot = .r2 sender recipient
  nodup : (out.map Tx.slot).Nodup

inductive Effect (p : DkgParticipant D) : DkgParticipant D → List (Tx C) → Option (DkgCall C) → Prop
  | idle : Effect p p [] none
  | wait {finalized} : (p.submittedFinalize = true → finalized = true) →
      Effect p { p with submittedR1 := true, submittedFinalize := finalized } [] none
  | part1Failed {total threshold} : Effect p p [] (some (.part1 p.identifier total threshold))
  | round1 {total threshold secret package} : p.submittedR1 = false →
      Effect p { p with secretR1 := some secret, submittedR1 := true } [.dkgRound1 p.identifier package]
        (some (.part1 p.identifier total threshold))
  | part2Failed {secret others} : p.secretR1 = some secret →
      Effect p { p with submittedR1 := true, secretR1 := none } [] (some (.part2 secret others))
  | sealFailed {secret others secretR2} : p.secretR1 = some secret →
      Effect p { p with submittedR1 := true, secretR1 := none, secretR2 := some secretR2 } []
        (some (.part2 secret others))
  | round2 {secret others secretR2 out} : p.submittedR2 = false → p.secretR1 = some secret →
      Envelopes p.identifier out →
      Effect p { p with submittedR1 := true, secretR1 := none, secretR2 := some secretR2, submittedR2 := true } out
        (some (.part2 secret others))
  | part3Failed {secret others received} : p.secretR2 = some secret →
      Effect p { p with submittedR1 := true, secretR2 := none } [] (some (.part3 secret others received))
  | finalize {secret others received keyPkg pkp} : p.secretR2 = some secret →
      Effect p { p with submittedR1 := true, secretR2 := none, keyPackage := some keyPkg, publicKeyPackage := some pkp,
                        submittedFinalize := true }
        [.dkgFinalize p.identifier pkp] (some (.part3 secret others received))

/-- `part2` answers with packages for keys of the map it is given. -/
def Part2Addresses (C : Ciphersuite) : Prop :=
  ∀ (secret : C.Round1Secret) (others : BTreeMap C.Identifier C.Round1Package) secretR2 sent,
    C.part2 secret others = .ok (secretR2, sent) → ∀ i ∈ sent, i ∈ others

theorem DkgParticipant.ne_of_mem_othersR1 {participant : DkgParticipant D} {c : DkgCeremony C} {i : C.Identifier}
    (h : i ∈ participant.othersR1 c) : i ≠ participant.identifier := by
  obtain ⟨pkg, hpkg⟩ := BTreeMap.mem_iff.mp h
  exact (getElem?_othersR1.mp hpkg).2

theorem Envelopes.of_sealed {sender : C.Identifier} {c : DkgCeremony C}
    {pkgs : List (C.Identifier × C.Round2Package)} {out : List (Tx C)}
    (h : List.Forall₂ (SealedTo D sender c) pkgs out) (hnodup : (pkgs.map Prod.fst).Nodup)
    (hne : ∀ entry ∈ pkgs, entry.1 ≠ sender) : Envelopes sender out := by
  have hslots : out.map Tx.slot = pkgs.map (fun entry => .r2 sender entry.1) := by
    induction h with
    | nil => rfl
    | cons hsealed _ ih =>
      obtain ⟨_, _, _, _, _, rfl⟩ := hsealed
      rw [List.map_cons, List.map_cons]
      rw [ih (List.nodup_cons.mp hnodup).2 fun entry he => hne entry (List.mem_cons_of_mem _ he)]
      rfl
  constructor
  · intro tx htx
    have hmem := List.mem_map_of_mem (f := Tx.slot) htx
    rw [hslots] at hmem
    obtain ⟨entry, he, heq⟩ := List.mem_map.mp hmem
    exact ⟨entry.1, hne entry he, heq.symm⟩
  · rw [hslots]
    have := hnodup.map (f := fun i => Slot.r2 (C := C) sender i) fun i j hij => by cases hij; rfl
    rwa [List.map_map] at this

namespace FinalizeDue

variable {c : DkgCeremony C} {q : DkgParticipant D}

theorem not_yet (h : FinalizeDue c q) : ¬ (q.submittedFinalize = true ∨ q.identifier ∈ c.finalize) := by
  intro hsent
  rcases hsent with hs | hf
  · rw [h.unsubmitted] at hs; cases hs
  · exact h.absent hf

theorem finalizeCall?_error (h : FinalizeDue c q) {f : DkgFault}
    (ho : DkgCtx.openAll q ∅ c.round2.toList = .error f) : q.finalizeCall? c = none := by
  rw [DkgParticipant.finalizeCall?, h.r2]
  simp only [if_neg h.not_yet, ho]

theorem finalizeCall?_ok (h : FinalizeDue c q) {received : BTreeMap C.Identifier C.Round2Package}
    (ho : DkgCtx.openAll q ∅ c.round2.toList = .ok received) :
    q.finalizeCall? c = q.secretR2.map (.part3 · (q.othersR1 c) received) := by
  rw [DkgParticipant.finalizeCall?, h.r2]
  simp only [if_neg h.not_yet, ho]

end FinalizeDue

theorem FinalizeReaction.effect {c : DkgCeremony C} {p q : DkgParticipant D} {r : Except DkgFault (List (Tx C))}
    (hr : FinalizeReaction c { p with submittedR1 := true } r q) :
    Effect p q (returned r) (DkgParticipant.finalizeCall? { p with submittedR1 := true } c) := by
  cases hr with
  | panic h2 => rw [DkgParticipant.finalizeCall?, h2]; exact .wait id
  | wait h2 => rw [DkgParticipant.finalizeCall?, h2]; exact .wait id
  | done h2 hs =>
    rw [DkgParticipant.finalizeCall?, h2]
    simp only [if_pos (Or.inl hs)]
    exact .wait id
  | saw h2 _ hf =>
    rw [DkgParticipant.finalizeCall?, h2]
    simp only [if_pos (Or.inr hf)]
    exact .wait fun _ => rfl
  | openFailed hdue ho =>
    rw [hdue.finalizeCall?_error ho]
    exact .wait id
  | noSecret hdue ho hk =>
    rw [hdue.finalizeCall?_ok ho, Option.map_eq_none_iff.mpr hk]
    exact .wait id
  | part3Failed hdue ho hk _ =>
    rw [hdue.finalizeCall?_ok ho, hk]
    exact Effect.part3Failed (p := p) hk
  | finalize hdue ho hk _ =>
    rw [hdue.finalizeCall?_ok ho, hk]
    exact Effect.finalize (p := p) hk

theorem DkgParticipant.round2Call?_open {c : DkgCeremony C} {q : DkgParticipant D} (h1 : c.r1Complete = true)
    (hs : q.submittedR2 = false) : q.round2Call? c = q.secretR1.map (.part2 · (q.othersR1 c)) := by
  unfold round2Call?
  rw [if_neg (by simp [h1]), if_neg (by simp [hs])]

theorem Round2Reaction.effect (hpart2 : Part2Addresses C) {c : DkgCeremony C} {p q : DkgParticipant D} {rng : C.Rng}
    {r : Except DkgFault (List (Tx C))} (hr : Round2Reaction c { p with submittedR1 := true } rng r q) :
    Effect p q (returned r) (DkgParticipant.round2Call? { p with submittedR1 := true } c) := by
  cases hr with
  | wait h1 => rw [DkgParticipant.round2Call?, if_pos h1]; exact .wait id
  | noSecret h1 hs hk =>
    rw [DkgParticipant.round2Call?_open h1 hs, Option.map_eq_none_iff.mpr hk]
    exact .wait id
  | part2Failed h1 hs hk _ =>
    rw [DkgParticipant.round2Call?_open h1 hs, hk]
    exact Effect.part2Failed (p := p) hk
  | sealFailed h1 hs hk _ _ =>
    rw [DkgParticipant.round2Call?_open h1 hs, hk]
    exact Effect.sealFailed (p := p) hk
  | round2 h1 hs hk hp hsealed =>
    rw [DkgParticipant.round2Call?_open h1 hs, hk]
    obtain ⟨more, rfl, hmore⟩ := DkgCtx.sealAll_sealed hsealed
    apply Effect.round2 (p := p) hs hk
    apply Envelopes.of_sealed hmore (BTreeMap.nodup_toList_keys _)
    intro entry he
    have hsent := BTreeMap.mem_of_getElem? (Std.ExtTreeMap.mem_toList_iff_getElem?_eq_some.mp he)
    exact DkgParticipant.ne_of_mem_othersR1 (hpart2 _ _ _ _ hp _ hsent)
  | later h1 hs hfin =>
    have heq : DkgParticipant.round2Call? { p with submittedR1 := true } c =
        DkgParticipant.finalizeCall? { p with submittedR1 := true } c := by
      rw [DkgParticipant.round2Call?, if_neg (by simp [h1]), if_pos hs]
    rw [heq]
    exact hfin.effect

theorem DkgReaction.effect (hpart2 : Part2Addresses C) {c : DkgCeremony C} {p q : DkgParticipant D} {rng : C.Rng}
    {r : Except DkgFault (List (Tx C))} (hr : DkgReaction c p rng r q) :
    Effect p q (returned r) (p.round1Call? c) := by
  unfold DkgParticipant.round1Call?
  cases hr with
  | part1Failed hs hnot _ => rw [if_pos ⟨hs, hnot⟩]; exact .part1Failed
  | round1 hs hnot _ => rw [if_pos ⟨hs, hnot⟩]; exact .round1 hs
  | later hsent hreact =>
    have hsaw : p.saw c = { p with submittedR1 := true } := by
      unfold DkgParticipant.saw
      rcases hsent with hs | hmem
      · rw [hs]; rfl
      · rw [decide_eq_true hmem, Bool.or_true]
    have hnot : ¬ (p.submittedR1 = false ∧ p.identifier ∉ c.round1) := by
      intro hsend
      obtain ⟨hs, hmem⟩ := hsend
      rcases hsent with hs' | hmem'
      · rw [hs] at hs'; cases hs'
      · exact hmem hmem'
    rw [if_neg hnot, hsaw]
    rw [hsaw] at hreact
    exact hreact.effect hpart2

theorem DkgParticipant.react_effect (hpart2 : Part2Addresses C) (p : DkgParticipant D) (s : State C) (rng : C.Rng) :
    Effect p (p.react s rng).1 (p.react s rng).2 (p.call? s) := by
  unfold react call?
  cases hg : s.group with
  | some g =>
    rw [DkgCtx.react_idle]
    · exact .idle
    · intro c hnone
      rw [hg] at hnone; cases hnone
  | none =>
    cases hc : s.ceremony with
    | none =>
      rw [DkgCtx.react_idle]
      · exact .idle
      · intro c _ hsome
        rw [hc] at hsome; cases hsome
    | some c =>
      by_cases hv : p.identifier ∈ c.validators
      · simp only [hv, if_true]
        exact (DkgCtx.react_reaction { participant := p, rng } hg hc hv).effect hpart2
      · rw [DkgCtx.react_idle]
        · simp only [hv, if_false]; exact .idle
        · intro c' _ hsome
          rw [hc] at hsome; cases hsome
          exact hv

/-! ## Secrets are taken by the calls -/

namespace Effect

variable {p q : DkgParticipant D} {out : List (Tx C)} {call : Option (DkgCall C)}

theorem part2_takes (he : Effect p q out call) {secret : C.Round1Secret} :
    (∃ others, call = some (.part2 secret others)) ↔ p.secretR1 = some secret ∧ q.secretR1 = none := by
  constructor
  · intro hcalls
    obtain ⟨others, hcall⟩ := hcalls
    cases he with
    | part2Failed hk | sealFailed hk | round2 _ hk _ => cases hcall; exact ⟨hk, rfl⟩
    | _ => cases hcall
  · intro htaken
    obtain ⟨hk, hnone⟩ := htaken
    cases he with
    | part2Failed hk' | sealFailed hk' | round2 _ hk' _ =>
      cases Option.some.inj (hk.symm.trans hk')
      exact ⟨_, rfl⟩
    | round1 _ => cases hnone
    | _ => cases hk.symm.trans hnone

theorem part3_takes (he : Effect p q out call) {secret : C.Round2Secret} :
    (∃ others received, call = some (.part3 secret others received)) ↔
      p.secretR2 = some secret ∧ q.secretR2 = none := by
  constructor
  · intro hcalls
    obtain ⟨others, received, hcall⟩ := hcalls
    cases he with
    | part3Failed hk | finalize hk => cases hcall; exact ⟨hk, rfl⟩
    | _ => cases hcall
  · intro htaken
    obtain ⟨hk, hnone⟩ := htaken
    cases he with
    | part3Failed hk' | finalize hk' =>
      cases Option.some.inj (hk.symm.trans hk')
      exact ⟨_, _, rfl⟩
    | sealFailed _ | round2 _ _ _ => cases hnone
    | _ => cases hk.symm.trans hnone

end Effect

/-- A reaction hands a secret to `part2` or `part3` exactly when it takes it. -/
theorem DkgParticipant.call_takes (hpart2 : Part2Addresses C) (p : DkgParticipant D) (s : State C) (rng : C.Rng) :
    (∀ secret, (∃ others, p.call? s = some (.part2 secret others)) ↔
      p.secretR1 = some secret ∧ (p.react s rng).1.secretR1 = none) ∧
    (∀ secret, (∃ others received, p.call? s = some (.part3 secret others received)) ↔
      p.secretR2 = some secret ∧ (p.react s rng).1.secretR2 = none) :=
  ⟨fun _ => (p.react_effect hpart2 s rng).part2_takes, fun _ => (p.react_effect hpart2 s rng).part3_takes⟩

/-! ## A whole history -/

structure DkgHistory (D : DkgWire C) where
  participant : DkgParticipant D
  out : List (Tx C)
  calls : List (DkgCall C)

namespace DkgHistory

def new (D : DkgWire C) (identifier : C.Identifier) (seed : C.Rng) : DkgHistory D :=
  { participant := (DkgParticipant.new identifier seed).1, out := [], calls := [] }

def react (history : DkgHistory D) (s : State C) (rng : C.Rng) : DkgHistory D :=
  let result := history.participant.react s rng
  { participant := result.1, out := history.out ++ result.2,
    calls := history.calls ++ (history.participant.call? s).toList }

def reacts (history : DkgHistory D) (shown : List (State C × C.Rng)) : DkgHistory D :=
  shown.foldl (fun history entry => history.react entry.1 entry.2) history

end DkgHistory

def Slot.DkgOf (identifier : C.Identifier) (slot : Slot C) : Prop :=
  slot = .r1 identifier ∨ (∃ recipient ≠ identifier, slot = .r2 identifier recipient) ∨ slot = .fin identifier

structure AtMostOnce (identifier : C.Identifier) (history : DkgHistory D) : Prop where
  own : ∀ slot ∈ history.out.map Tx.slot, slot.DkgOf identifier
  slots : (history.out.map Tx.slot).Nodup
  part2 : history.calls.countP DkgCall.isPart2 ≤ 1
  part3 : history.calls.countP DkgCall.isPart3 ≤ 1
  keys : history.participant.keyPackage.isSome = history.participant.publicKeyPackage.isSome

/-- Each call of `part3` is covered by one of `part2`, and that by round 1. -/
structure Taken (p : DkgParticipant D) (calls : List (DkgCall C)) : Prop where
  part2 : calls.countP DkgCall.isPart2 + p.secretR1.isSome.toNat ≤ p.submittedR1.toNat
  part3 : calls.countP DkgCall.isPart3 + p.secretR2.isSome.toNat ≤ calls.countP DkgCall.isPart2
  keys : p.keyPackage.isSome = p.publicKeyPackage.isSome
  derived : p.keyPackage.isSome.toNat ≤ calls.countP DkgCall.isPart3

structure Sent (identifier : C.Identifier) (p : DkgParticipant D) (calls : List (DkgCall C)) (slots : List (Slot C)) :
    Prop where
  own : p.identifier = identifier ∧ ∀ slot ∈ slots, slot.DkgOf identifier
  nodup : slots.Nodup
  r1 : .r1 identifier ∈ slots → p.submittedR1 = true
  r2 : ∀ recipient, .r2 identifier recipient ∈ slots → p.submittedR2 = true
  fin : .fin identifier ∈ slots → 0 < calls.countP DkgCall.isPart3

theorem countP_call (P : DkgCall C → Bool) (calls : List (DkgCall C)) (call : DkgCall C) :
    (calls ++ (some call).toList).countP P = calls.countP P + (P call).toNat := by
  rw [Option.toList_some, List.countP_append, List.countP_singleton]
  cases P call <;> rfl

theorem Taken.effect {p q : DkgParticipant D} {calls : List (DkgCall C)} {out : List (Tx C)}
    {call : Option (DkgCall C)} (h : Taken p calls) (he : Effect p q out call) : Taken q (calls ++ call.toList) := by
  obtain ⟨h2, h3, hkeys, hderived⟩ := h
  have hr1 : p.submittedR1.toNat ≤ 1 := Bool.toNat_le _
  have taken {α : Type} {o : Option α} {a : α} (hk : o = some a) : o.isSome.toNat = 1 := by rw [hk]; rfl
  cases he with
  | idle => rw [Option.toList_none, List.append_nil]; exact ⟨h2, h3, hkeys, hderived⟩
  | wait _ =>
    rw [Option.toList_none, List.append_nil]
    exact ⟨le_trans h2 hr1, h3, hkeys, hderived⟩
  | part1Failed =>
    refine ⟨?_, ?_, hkeys, ?_⟩ <;> simpa [DkgCall.isPart2, DkgCall.isPart3]
  | round1 hs =>
    -- nothing was handed over before round 1
    rw [hs, Bool.toNat_false] at h2
    refine ⟨?_, ?_, hkeys, ?_⟩ <;> simp only [countP_call] <;> dsimp [DkgCall.isPart2, DkgCall.isPart3] <;> omega
  | part2Failed hk =>
    have := taken hk
    refine ⟨?_, ?_, hkeys, ?_⟩ <;> simp only [countP_call] <;> dsimp [DkgCall.isPart2, DkgCall.isPart3] <;> omega
  | sealFailed hk =>
    have := taken hk
    refine ⟨?_, ?_, hkeys, ?_⟩ <;> simp only [countP_call] <;> dsimp [DkgCall.isPart2, DkgCall.isPart3] <;> omega
  | round2 _ hk _ =>
    have := taken hk
    refine ⟨?_, ?_, hkeys, ?_⟩ <;> simp only [countP_call] <;> dsimp [DkgCall.isPart2, DkgCall.isPart3] <;> omega
  | part3Failed hk =>
    have := taken hk
    refine ⟨?_, ?_, hkeys, ?_⟩ <;> simp only [countP_call] <;> dsimp [DkgCall.isPart2, DkgCall.isPart3] <;> omega
  | finalize hk =>
    have := taken hk
    refine ⟨?_, ?_, rfl, ?_⟩ <;> simp only [countP_call] <;> dsimp [DkgCall.isPart2, DkgCall.isPart3] <;> omega

/-- A reaction that sends nothing, or only what the participant has not sent before. -/
theorem Sent.extend {identifier : C.Identifier} {p q : DkgParticipant D} {calls more : List (DkgCall C)}
    {slots new : List (Slot C)} (h : Sent identifier p calls slots) (hid : q.identifier = p.identifier)
    (hr1 : p.submittedR1 = true → q.submittedR1 = true) (hr2 : p.submittedR2 = true → q.submittedR2 = true)
    (hown : ∀ slot ∈ new, slot.DkgOf identifier) (hnodup : new.Nodup) (hfresh : ∀ slot ∈ new, slot ∉ slots)
    (hnew1 : .r1 identifier ∈ new → q.submittedR1 = true)
    (hnew2 : ∀ recipient, .r2 identifier recipient ∈ new → q.submittedR2 = true)
    (hnew3 : .fin identifier ∈ new → 0 < more.countP DkgCall.isPart3) :
    Sent identifier q (calls ++ more) (slots ++ new) where
  own := by
    refine ⟨hid.trans h.own.1, fun slot hs => ?_⟩
    rcases List.mem_append.mp hs with hs | hs
    · exact h.own.2 slot hs
    · exact hown slot hs
  nodup := by
    apply List.nodup_append.mpr
    refine ⟨h.nodup, hnodup, fun a ha b hb hab => ?_⟩
    rw [hab] at ha
    exact hfresh b hb ha
  r1 := by
    intro hs
    rcases List.mem_append.mp hs with hs | hs
    · exact hr1 (h.r1 hs)
    · exact hnew1 hs
  r2 := by
    intro recipient hs
    rcases List.mem_append.mp hs with hs | hs
    · exact hr2 (h.r2 recipient hs)
    · exact hnew2 recipient hs
  fin := by
    intro hs
    rw [List.countP_append]
    rcases List.mem_append.mp hs with hs | hs
    · have := h.fin hs
      omega
    · have := hnew3 hs
      omega

theorem Sent.silent {identifier : C.Identifier} {p q : DkgParticipant D} {calls : List (DkgCall C)}
    {slots : List (Slot C)} (h : Sent identifier p calls slots) (more : List (DkgCall C))
    (hid : q.identifier = p.identifier) (hr1 : p.submittedR1 = true → q.submittedR1 = true)
    (hr2 : q.submittedR2 = p.submittedR2) : Sent identifier q (calls ++ more) (slots ++ []) := by
  apply h.extend hid hr1 fun hs => hr2.trans hs
  all_goals simp

theorem Sent.effect {identifier : C.Identifier} {p q : DkgParticipant D} {calls : List (DkgCall C)}
    {slots : List (Slot C)} {out : List (Tx C)} {call : Option (DkgCall C)} (h : Sent identifier p calls slots)
    (htaken : Taken p calls) (he : Effect p q out call) :
    Sent identifier q (calls ++ call.toList) (slots ++ out.map Tx.slot) := by
  cases he with
  | idle => exact h.silent _ rfl id rfl
  | wait _ => exact h.silent _ rfl (fun _ => rfl) rfl
  | part1Failed => exact h.silent _ rfl id rfl
  | part2Failed _ => exact h.silent _ rfl (fun _ => rfl) rfl
  | sealFailed _ => exact h.silent _ rfl (fun _ => rfl) rfl
  | part3Failed _ => exact h.silent _ rfl (fun _ => rfl) rfl
  | round1 hs =>
    have hid := h.own.1
    have hfresh : Slot.r1 identifier ∉ slots := fun hmem => by
      rw [h.r1 hmem] at hs; cases hs
    refine h.extend rfl (fun _ => rfl) id ?_ ?_ ?_ ?_ ?_ ?_
    all_goals simp [Tx.slot, Slot.DkgOf, hid, hfresh]
  | round2 hs _ henvelopes =>
    have hid := h.own.1
    rw [hid] at henvelopes
    have hslot : ∀ slot ∈ out.map Tx.slot, ∃ recipient ≠ identifier, slot = .r2 identifier recipient := by
      intro slot hmem
      obtain ⟨tx, htx, rfl⟩ := List.mem_map.mp hmem
      exact henvelopes.others tx htx
    refine h.extend rfl (fun _ => rfl) (fun _ => rfl) ?_ ?_ ?_ ?_ ?_ ?_
    · intro slot hmem
      exact Or.inr (Or.inl (hslot slot hmem))
    · exact henvelopes.nodup
    · intro slot hmem hsent
      obtain ⟨recipient, _, rfl⟩ := hslot slot hmem
      rw [h.r2 recipient hsent] at hs; cases hs
    · intro _; rfl
    · intro _ _; rfl
    · intro hmem
      obtain ⟨_, _, heq⟩ := hslot _ hmem
      cases heq
  | finalize hk =>
    have hid := h.own.1
    have hfresh : Slot.fin identifier ∉ slots := by
      -- the secret it takes now would have been taken then
      intro hmem
      have hcalled := h.fin hmem
      have h2 := htaken.part2
      have h3 := htaken.part3
      have := Bool.toNat_le p.submittedR1
      rw [hk, Option.isSome_some, Bool.toNat_true] at h3
      omega
    refine h.extend rfl (fun _ => rfl) id ?_ ?_ ?_ ?_ ?_ ?_
    all_goals simp [Tx.slot, Slot.DkgOf, DkgCall.isPart3, hid, hfresh]

structure DkgParticipant.KeepsKeys (p q : DkgParticipant D) : Prop where
  keyPackage : ∀ k, p.keyPackage = some k → q.keyPackage = some k
  publicKeyPackage : ∀ k, p.publicKeyPackage = some k → q.publicKeyPackage = some k

theorem Effect.keepsKeys {p q : DkgParticipant D} {calls : List (DkgCall C)} {out : List (Tx C)}
    {call : Option (DkgCall C)} (h : Taken p calls) (he : Effect p q out call) : p.KeepsKeys q := by
  cases he with
  | finalize hk =>
    -- a secret that is still there has not been derived from
    have hnone : p.keyPackage.isSome = false := by
      have h2 := h.part2
      have h3 := h.part3
      have hderived := h.derived
      have := Bool.toNat_le p.submittedR1
      rw [hk, Option.isSome_some, Bool.toNat_true] at h3
      apply Bool.toNat_eq_zero.mp
      omega
    have hnone' := h.keys.symm.trans hnone
    constructor
    · intro k hset
      rw [hset] at hnone; cases hnone
    · intro k hset
      rw [hset] at hnone'; cases hnone'
  | _ => exact ⟨fun _ h => h, fun _ h => h⟩

namespace DkgHistory

variable {identifier : C.Identifier} {seed : C.Rng}

structure Once (identifier : C.Identifier) (history : DkgHistory D) : Prop where
  taken : Taken history.participant history.calls
  sent : Sent identifier history.participant history.calls (history.out.map Tx.slot)

theorem once_new : Once identifier (DkgHistory.new D identifier seed) where
  taken := ⟨le_refl 0, le_refl 0, rfl, le_refl 0⟩
  sent := by
    refine ⟨⟨rfl, ?_⟩, List.nodup_nil, ?_, ?_, ?_⟩
    all_goals simp [DkgHistory.new]

theorem Once.react (hpart2 : Part2Addresses C) {history : DkgHistory D} (h : history.Once identifier) (s : State C)
    (rng : C.Rng) : (history.react s rng).Once identifier where
  taken := h.taken.effect (history.participant.react_effect hpart2 s rng)
  sent := by
    have hsent := h.sent.effect h.taken (history.participant.react_effect hpart2 s rng)
    rw [← List.map_append] at hsent
    exact hsent

theorem Once.reacts (hpart2 : Part2Addresses C) {history : DkgHistory D} (h : history.Once identifier)
    (shown : List (State C × C.Rng)) :
    (history.reacts shown).Once identifier ∧ history.participant.KeepsKeys (history.reacts shown).participant := by
  induction shown generalizing history with
  | nil => exact ⟨h, fun _ hk => hk, fun _ hk => hk⟩
  | cons entry shown ih =>
    have hkeeps := Effect.keepsKeys h.taken (history.participant.react_effect hpart2 entry.1 entry.2)
    obtain ⟨honce, hrest⟩ := ih (h.react hpart2 entry.1 entry.2)
    refine ⟨honce, fun k hk => ?_, fun k hk => ?_⟩
    · exact hrest.keyPackage k (hkeeps.keyPackage k hk)
    · exact hrest.publicKeyPackage k (hkeeps.publicKeyPackage k hk)

theorem reacts_append (history : DkgHistory D) (pre post : List (State C × C.Rng)) :
    history.reacts (pre ++ post) = (history.reacts pre).reacts post := List.foldl_append

theorem Once.atMostOnce {history : DkgHistory D} (h : history.Once identifier) : AtMostOnce identifier history := by
  have h2 := h.taken.part2
  have h3 := h.taken.part3
  have hr1 := Bool.toNat_le history.participant.submittedR1
  constructor
  · exact h.sent.own.2
  · exact h.sent.nodup
  · omega
  · omega
  · exact h.taken.keys

end DkgHistory

/-- However many states it is shown, and in whatever order, a participant sends
at most one package of each kind to anybody, uses each secret at most once and
keeps the keys it has derived. -/
theorem participant_at_most_once (hpart2 : Part2Addresses C) (D : DkgWire C) (identifier : C.Identifier) (seed : C.Rng)
    (shown : List (State C × C.Rng)) :
    AtMostOnce identifier ((DkgHistory.new D identifier seed).reacts shown) ∧
    ∀ pre post, shown = pre ++ post → ((DkgHistory.new D identifier seed).reacts pre).participant.KeepsKeys
      ((DkgHistory.new D identifier seed).reacts shown).participant := by
  obtain ⟨honce, _⟩ := DkgHistory.once_new.reacts hpart2 shown
  refine ⟨honce.atMostOnce, ?_⟩
  rintro pre post rfl
  obtain ⟨hpre, _⟩ := DkgHistory.once_new.reacts hpart2 pre
  rw [DkgHistory.reacts_append]
  exact (hpre.reacts hpart2 post).2

/-- A stale state between the rounds, and the last state shown again. -/
def Ideal.shownStates : List (State Ideal.suite × Nat) :=
  [1, 4, 1, 4, 7, 7].map fun n => ((dkgRun box id pair dkgIds (dkgEvents.take n)).chain.state, (10 : Nat))

theorem participant_at_most_once_stale :
    AtMostOnce (C := Ideal.suite) (1 : Nat) ((DkgHistory.new Ideal.box (1 : Nat) (1 : Nat)).reacts Ideal.shownStates) ∧
    ((DkgHistory.new Ideal.box (1 : Nat) (1 : Nat)).reacts Ideal.shownStates).out.map Tx.slot =
      [.r1 (1 : Nat), .r2 (1 : Nat) (2 : Nat), .fin (1 : Nat)] := by
  have hpart2 : Part2Addresses Ideal.suite := fun secret others secretR2 sent h i hi => by
    have hdom := Ideal.part2_dom secret others secretR2 sent h
    exact BTreeMap.mem_dom.mp (hdom ▸ BTreeMap.mem_dom.mpr hi)
  exact ⟨(participant_at_most_once hpart2 Ideal.box _ _ Ideal.shownStates).1, rfl⟩

end Sapphire
