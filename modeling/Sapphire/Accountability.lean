import Sapphire.CeremonyOrder
import Sapphire.DkgSteps
import Sapphire.Parties

/-!
# Who a mismatch is reported against

A finalize is compared with the first one stored, not with the transcript. As
long as the first one is right, a mismatch falls on who deviates; after a
wrong one it falls on everybody else.
-/

namespace Sapphire

open BTreeMap Replay Parties

variable {C : Ciphersuite} {D : DkgWire C}

/-! ## The stream of a participant -/

def OwnStream (v : C.Identifier) (result : Except DkgFault (List (Tx C)) × DkgCtx D) : Prop :=
  result.2.participant.identifier = v ∧ ∀ tx ∈ returned result.1, tx.sender? = some v

theorem OwnStream.nothing {v : C.Identifier} {ctx : DkgCtx D} (h : ctx.participant.identifier = v) :
    OwnStream v (.ok [], ctx) := ⟨h, by simp [returned]⟩

namespace DkgCtx

theorem sealAll_stream (v : C.Identifier) (ceremony : DkgCeremony C) :
    ∀ (pkgs : List (C.Identifier × C.Round2Package)) (rng : C.Rng) (out : List (Tx C)),
      (∀ tx ∈ out, tx.sender? = some v) → ∀ tx ∈ returned (sealAll D v ceremony rng out pkgs).1, tx.sender? = some v
  | [], _, _, h => h
  | (recipient, pkg) :: pkgs, rng, out, h => by
    unfold sealAll
    cases ceremony.validators[recipient]? with
    | none => simp [returned]
    | some recipientPk =>
      cases D.toVec pkg with
      | error e => simp [returned]
      | ok plaintext =>
        refine sealAll_stream v ceremony pkgs _ _ fun tx htx => ?_
        rcases List.mem_append.mp htx with htx | htx
        · exact h tx htx
        · rw [List.mem_singleton.mp htx]; rfl

end DkgCtx

theorem FinalizeReaction.stream {c : DkgCeremony C} {q q' : DkgParticipant D} {r : Except DkgFault (List (Tx C))}
    (h : FinalizeReaction c q r q') :
    q'.identifier = q.identifier ∧ ∀ tx ∈ returned r, tx.sender? = some q.identifier := by
  cases h with
  | finalize _ _ _ _ => simp [returned, Tx.sender?]
  | _ => simp [returned]

theorem Round2Reaction.stream {c : DkgCeremony C} {q q' : DkgParticipant D} {rng : C.Rng}
    {r : Except DkgFault (List (Tx C))} (h : Round2Reaction c q rng r q') :
    q'.identifier = q.identifier ∧ ∀ tx ∈ returned r, tx.sender? = some q.identifier := by
  cases h with
  | @round2 secret secretR2 sent out _ _ _ _ hsealed =>
    have hstream := DkgCtx.sealAll_stream (D := D) q.identifier c sent.toList rng [] (by simp)
    rw [hsealed] at hstream
    exact ⟨rfl, hstream⟩
  | later _ _ hfin => exact hfin.stream
  | _ => simp [returned]

theorem DkgReaction.stream {c : DkgCeremony C} {p p' : DkgParticipant D} {rng : C.Rng}
    {r : Except DkgFault (List (Tx C))} (h : DkgReaction c p rng r p') :
    p'.identifier = p.identifier ∧ ∀ tx ∈ returned r, tx.sender? = some p.identifier := by
  cases h with
  | part1Failed _ _ _ => simp [returned]
  | round1 _ _ _ => simp [returned, Tx.sender?]
  | later _ hreact => exact hreact.stream

theorem DkgCtx.react_stream (ctx : DkgCtx D) (s : State C) : OwnStream ctx.participant.identifier (ctx.react s) := by
  rcases react_cases ctx s with heq | ⟨c, _, _, _, hreact⟩
  · rw [heq]; exact .nothing rfl
  · exact hreact.stream

/-! ## Honest participants among others -/

/-- Participants react; what carries an honest identifier is submitted by its participant only. -/
def ceremonyParties (D : DkgWire C) (honest : C.Identifier → Bool) :
    System (State C) (Tx C) Fault C.Identifier (DkgParticipant D) C.Rng where
  init := State.default
  step := applyTx
  act := fun _ participant s rng => participant.react s rng
  free := fun tx =>
    match tx.sender? with
    | some v => !honest v
    | none => true

def ceremonyStart (D : DkgWire C) (seed : C.Identifier → C.Rng) : World (Tx C) C.Identifier (DkgParticipant D) where
  log := []
  mem := fun v => (DkgParticipant.new v (seed v)).1
  sent := fun _ => []

def ceremonyRun (D : DkgWire C) (honest : C.Identifier → Bool) (seed : C.Identifier → C.Rng)
    (events : List (Event (Tx C) C.Identifier C.Rng)) : World (Tx C) C.Identifier (DkgParticipant D) :=
  (ceremonyParties D honest).execAll (ceremonyStart D seed) events

section
variable {honest : C.Identifier → Bool} {seed : C.Identifier → C.Rng}
  {events : List (Event (Tx C) C.Identifier C.Rng)}

theorem ceremonyRun_stream (v : C.Identifier) :
    ((ceremonyRun D honest seed events).mem v).identifier = v ∧
      ∀ tx ∈ (ceremonyRun D honest seed events).sent v, tx.sender? = some v := by
  have hinv : System.PartyInvariant (ceremonyParties D honest)
      (fun _ v (participant : DkgParticipant D) out =>
        participant.identifier = v ∧ ∀ tx ∈ out, tx.sender? = some v) := by
    constructor
    · intro _ _ _ _ h _
      exact h
    · rintro log v participant out ⟨hid, hout⟩ k rng
      obtain ⟨hkeep, hown⟩ := DkgCtx.react_stream { participant, rng } (reached (log.take k))
      dsimp only at hkeep hown
      rw [hid] at hkeep hown
      refine ⟨hkeep, fun tx htx => ?_⟩
      rcases List.mem_append.mp htx with htx | htx
      · exact hout tx htx
      · exact hown tx htx
  exact hinv.execAll (fun _ => ⟨rfl, by simp [ceremonyStart]⟩) events v

theorem honest_in_log {tx : Tx C} {v : C.Identifier} (hmem : tx ∈ (ceremonyRun D honest seed events).log)
    (hv : tx.sender? = some v) (hh : honest v = true) : tx ∈ (ceremonyRun D honest seed events).sent v := by
  have hstart : System.Justified (ceremonyParties D honest) [] (ceremonyStart D seed) := ⟨[], rfl, by simp⟩
  obtain ⟨log, hlog, hall⟩ := hstart.execAll events
  change (ceremonyRun D honest seed events).log = _ at hlog
  rw [hlog, List.nil_append] at hmem
  rcases hall tx hmem with hfree | ⟨q, hq⟩
  · have hnot : (!honest v) = true := by
      simpa only [ceremonyParties, hv] using hfree
    rw [hh] at hnot; cases hnot
  · have hown := (ceremonyRun_stream q).2 tx hq
    rw [hv] at hown; cases hown
    exact hq

end

/-! ## Mismatches -/

theorem applyDkgFinalize_mismatch {s : State C} {v : C.Identifier} {pkp : C.PublicKeyPackage} {d : String}
    (h : applyDkgFinalize s v pkp = .error (.err (.pkpMismatch d))) :
    d = C.identifierDebug v ∧ ∃ c, s.ceremony = some c ∧ c.mismatch pkp = true := by
  unfold applyDkgFinalize at h
  cases hc : s.ceremony with
  | none => simp [hc, reject] at h
  | some c =>
    cases h2 : c.r2Complete with
    | error f =>
      have hf := c.r2Complete_error h2
      simp [hc, h2, hf] at h
    | ok b =>
      cases b with
      | false => simp [hc, h2, reject] at h
      | true =>
        simp only [hc, h2] at h
        by_cases hv : v ∈ c.validators
        · by_cases hf : v ∈ c.finalize
          · simp [hv, hf, reject] at h
          · by_cases hm : c.mismatch pkp = true
            · simp only [hv, hf, hm, reject, not_true, if_false, if_true, Except.error.injEq, Fault.err.injEq,
                ApplyError.pkpMismatch.injEq] at h
              exact ⟨h.symm, c, rfl, hm⟩
            · -- promotion of a non-empty map does not fail
              obtain ⟨k, p, hp⟩ := first?_some_of_mem (m := c.finalize.insert v pkp) (k := v) (by simp)
              simp only [hv, hf, hm, State.promote, hp, not_true, if_false, Bool.false_eq_true] at h
              split at h <;> cases h
        · simp [hv, reject] at h

theorem applyTx_mismatch {s : State C} {tx : Tx C} {d : String}
    (h : applyTx s tx = .error (.err (.pkpMismatch d))) :
    ∃ v pkp c, tx = .dkgFinalize v pkp ∧ d = C.identifierDebug v ∧ s.ceremony = some c ∧ c.mismatch pkp = true := by
  obtain ⟨v, pkp, rfl⟩ := applyTx_finalize_fault (f := .err (.pkpMismatch d)) trivial h
  obtain ⟨hd, c, hc, hm⟩ := applyDkgFinalize_mismatch h
  exact ⟨v, pkp, c, rfl, hd, hc, hm⟩

/-! ## Accountability -/

/-- What opens the finalize map carries the package the transcript determines. -/
def FirstFinalizeAgrees (ref : C.PublicKeyPackage) (s : State C) : Tx C → Prop
  | .dkgFinalize _ pkp => ∀ c, s.ceremony = some c → c.finalize.size = 0 → C.Agree pkp ref
  | _ => True

/-- Every mismatch reported along a log names a participant that is not honest and whose package differs. -/
def Accountable (honest : C.Identifier → Bool) (ref : C.PublicKeyPackage) (log : List (Tx C)) : Prop :=
  ∀ pre tx post d, log = pre ++ tx :: post → applyTx (reached pre) tx = .error (.err (.pkpMismatch d)) →
    ∃ v pkp, tx = .dkgFinalize v pkp ∧ d = C.identifierDebug v ∧ honest v = false ∧ ¬ C.Agree pkp ref

def State.FinalizesAgree (ref : C.PublicKeyPackage) (s : State C) : Prop :=
  ∀ c, s.ceremony = some c → ∀ (v : C.Identifier) p, c.finalize[v]? = some p → C.Agree p ref

theorem applyTx_finalizesAgree {ref : C.PublicKeyPackage} {s s' : State C} {tx : Tx C}
    (hagree : s.FinalizesAgree ref) (hfirst : FirstFinalizeAgrees ref s tx) (ha : applyTx s tx = .ok s') :
    s'.FinalizesAgree ref := by
  cases tx with
  | initGroup params pkp validators =>
    obtain ⟨_, hc, _, rfl⟩ := applyInitGroup_ok.mp ha
    exact fun c hc' => hagree c hc'
  | dkgBegin params validators =>
    obtain ⟨_, _, _, rfl⟩ := applyDkgBegin_ok.mp ha
    intro c hc' v p hp
    cases hc'; simp at hp
  | dkgRound1 v package =>
    obtain ⟨c, hc, _, _, rfl⟩ := applyDkgRound1_ok.mp ha
    intro c' hc'
    cases hc'
    exact hagree c hc
  | dkgRound2 v w sealed =>
    obtain ⟨c, hc, _, _, _, _, _, rfl⟩ := applyDkgRound2_ok.mp ha
    intro c' hc'
    cases hc'
    exact hagree c hc
  | dkgFinalize v pkp =>
    obtain ⟨c, hc, _, _, _, hm, hfin⟩ := applyDkgFinalize_ok.mp ha
    have hpkp : C.Agree pkp ref := by
      cases hp : first? c.finalize with
      | none => exact hfirst c hc (by rw [first?_none.mp hp]; exact Std.ExtTreeMap.size_empty)
      | some q => exact (DkgCeremony.mismatch_iff.mp hm q.1 q.2 hp).symm.trans (hagree c hc q.1 q.2 (first?_mem hp))
    cases hfin with
    | promoted _ _ => exact fun c' hc' => by cases hc'
    | extended _ =>
      intro c' hc' w p hp
      cases hc'
      change (c.finalize.insert v pkp)[w]? = some p at hp
      rw [getElem?_insert'] at hp
      split at hp
      · cases hp; exact hpkp
      · exact hagree c hc w p hp
  | _ =>
    obtain ⟨g, e, _, _, rfl⟩ := (applyTx_request_ok rfl).mp ha
    exact fun c hc => hagree c hc

/-- **Accountability.** Where the first finalize of a ceremony carries the package its transcript
determines, no honest participant is ever reported. -/
theorem honest_never_blamed (D : DkgWire C) (honest : C.Identifier → Bool) (seed : C.Identifier → C.Rng)
    (events : List (Event (Tx C) C.Identifier C.Rng)) (ref : C.PublicKeyPackage)
    (hpart3 : ∀ v, honest v = true → ∀ pkp,
      .dkgFinalize v pkp ∈ (ceremonyRun D honest seed events).sent v → C.Agree pkp ref)
    (hfirst : EachStep applyTx (FirstFinalizeAgrees ref) State.default (ceremonyRun D honest seed events).log) :
    Accountable honest ref (ceremonyRun D honest seed events).log := by
  intro pre tx post d hlog hrej
  rw [hlog] at hfirst
  have hinv : (reached pre).Valid ∧ (reached pre).FinalizesAgree ref :=
    hfirst.invariant (P := fun s => s.Valid ∧ s.FinalizesAgree ref)
      (fun _ _ _ hs hf ha => ⟨applyTx_valid hs.1 ha, applyTx_finalizesAgree hs.2 hf ha⟩)
      ⟨.default, fun _ hc => by cases hc⟩
  obtain ⟨v, pkp, c, rfl, hd, hc, hm⟩ := applyTx_mismatch hrej
  -- a stored package agrees with the transcript, so one that differs from it does not
  have hne : ¬ C.Agree pkp ref := by
    intro hagree
    have hok : c.mismatch pkp = false := (hinv.1.ceremony hc).mismatch_iff.mpr fun w p hp =>
      (hinv.2 c hc w p hp).trans hagree.symm
    rw [hok] at hm; cases hm
  refine ⟨v, pkp, rfl, hd, ?_, hne⟩
  by_contra hh
  have hhonest : honest v = true := by simpa using hh
  have hmem : Tx.dkgFinalize v pkp ∈ (ceremonyRun D honest seed events).log := by rw [hlog]; simp
  exact hne (hpart3 v hhonest pkp (honest_in_log hmem rfl hhonest))

namespace Ideal

/-- Boxes that name the key they are sealed to. -/
@[reducible] def wire : DkgWire suite where
  EncSecretKey := UInt8
  generate rng := (UInt8.ofNat rng, rng + 1)
  publicKey := encKey
  sealEnvelope rng key plaintext := (⟨key.bytes.toList.take 1 ++ plaintext⟩, rng + 1)
  openEnvelope key boxed :=
    match boxed.bytes with
    | [] => .error .tooShort
    | k :: plaintext => if k = key then .ok plaintext else .error .decrypt
  toVec pkg := .ok [UInt8.ofNat pkg.1.toNat, UInt8.ofNat pkg.2]
  fromSlice
    | [a, i] => .ok ((a.toNat : Int), i.toNat)
    | _ => .error "invalid length"

def onlyOne (v : Nat) : Bool := v == 1

def transcriptKeys : PublicKeyPackage :=
  { key := 30, shares := Std.ExtTreeMap.ofList [(2, (20 : Int)), (1, 10)], minSigners := 2 }

def duoRounds : List (Event (Tx suite) Nat Nat) :=
  [.submit duoBegin, .react 1 1 10, .deliver 1 0, .submit (.dkgRound1 (2 : Nat) (20 : Int)), .react 1 3 12, .deliver 1 1,
    .submit (.dkgRound2 (2 : Nat) (1 : Nat) ⟨[1, 20, 1]⟩), .react 1 5 13]

def honestFirst : List (Event (Tx suite) Nat Nat) := duoRounds ++ [.deliver 1 2, .submit (duoFinalize 2)]

def faultyFirst : List (Event (Tx suite) Nat Nat) := duoRounds ++ [.submit (duoFinalize 2), .deliver 1 2]

def oneSent : List (Tx suite) :=
  [.dkgRound1 (1 : Nat) (10 : Int), .dkgRound2 (1 : Nat) (2 : Nat) ⟨[2, 10, 2]⟩, .dkgFinalize (1 : Nat) transcriptKeys]

theorem oneSent_agrees {events : List (Event (Tx suite) Nat Nat)}
    (h : (ceremonyRun wire onlyOne id events).sent 1 = oneSent) (v : Nat) (hv : onlyOne v = true)
    (pkp : PublicKeyPackage)
    (hmem : (.dkgFinalize v pkp : Tx suite) ∈ (ceremonyRun wire onlyOne id events).sent v) :
    suite.Agree pkp transcriptKeys := by
  have hv1 : v = 1 := by simpa [onlyOne] using hv
  subst hv1
  rw [h] at hmem
  have hpkp : pkp = transcriptKeys := by simpa [oneSent] using hmem
  rw [hpkp]; exact .refl _

end Ideal

open Sapphire.Ideal in
theorem honest_never_blamed_duo :
    Accountable onlyOne transcriptKeys (ceremonyRun wire onlyOne id honestFirst).log := by
  refine honest_never_blamed wire onlyOne id honestFirst transcriptKeys (oneSent_agrees rfl) ?_
  have hlog : (ceremonyRun wire onlyOne id honestFirst).log =
      [duoBegin, .dkgRound1 (1 : Nat) (10 : Int), .dkgRound1 (2 : Nat) (20 : Int),
        .dkgRound2 (1 : Nat) (2 : Nat) ⟨[2, 10, 2]⟩, .dkgRound2 (2 : Nat) (1 : Nat) ⟨[1, 20, 1]⟩,
        .dkgFinalize (1 : Nat) transcriptKeys, duoFinalize 2] := rfl
  rw [hlog]
  refine ⟨?_, ?_, ?_, ?_, ?_, ?_, ?_, trivial⟩
  · exact fun _ _ => trivial
  · exact fun _ _ => trivial
  · exact fun _ _ => trivial
  · exact fun _ _ => trivial
  · exact fun _ _ => trivial
  · exact fun _ _ _ _ _ => .refl _
  · -- the wrong package is rejected
    intro s' h
    cases h

open Sapphire.Ideal in
/-- After a wrong first finalize, the honest one is reported. -/
theorem honest_blamed :
    ¬ ∀ (events : List (Event (Tx suite) Nat Nat)) (ref : PublicKeyPackage),
      (∀ v, onlyOne v = true → ∀ pkp, (.dkgFinalize v pkp : Tx suite) ∈ (ceremonyRun wire onlyOne id events).sent v →
        suite.Agree pkp ref) →
      Accountable onlyOne ref (ceremonyRun wire onlyOne id events).log := by
  intro h
  have hacc := h faultyFirst transcriptKeys (oneSent_agrees rfl)
  obtain ⟨v, pkp, htx, _, hh, _⟩ := hacc
    [duoBegin, .dkgRound1 (1 : Nat) (10 : Int), .dkgRound1 (2 : Nat) (20 : Int),
      .dkgRound2 (1 : Nat) (2 : Nat) ⟨[2, 10, 2]⟩, .dkgRound2 (2 : Nat) (1 : Nat) ⟨[1, 20, 1]⟩, duoFinalize 2]
    (.dkgFinalize (1 : Nat) transcriptKeys) [] "Identifier(1)" rfl rfl
  cases htx
  exact absurd hh (by decide)

end Sapphire
