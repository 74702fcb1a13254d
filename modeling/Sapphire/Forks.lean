import Sapphire.EscrowGate
import Sapphire.Network
import Sapphire.Unanimity

/-!
# Replicas that disagree

Nothing orders the transactions of the mesh, so replicas may take them in
different orders, drop different ones and come to different states. What a party
has finalized with and what it has signed is its own all the same: groups that
share an honest participant have one key, and no replica completes a release that
the gates of the others have not let through.
-/

namespace Sapphire

open BTreeMap Replay Parties

variable {C : Ciphersuite} {D : DkgWire C} {R : Type} [DecidableEq R]

/-! ## One key -/

/-- The replicas of a ceremony, which begin empty. -/
def ceremonyNetwork (D : DkgWire C) (seed : C.Identifier → C.Rng) :
    Network R (Tx C) C.Identifier (DkgParticipant D) where
  log := fun _ => []
  mem := fun v => (DkgParticipant.new v (seed v)).1
  sent := fun _ => []

/-- Anything may be submitted to any replica but a finalize that carries an honest identifier. -/
def forkedRun (D : DkgWire C) (honest : C.Identifier → Bool) (seed : C.Identifier → C.Rng) (home : C.Identifier → R)
    (events : List (NetworkEvent R (Tx C) C.Identifier C.Rng)) : Network R (Tx C) C.Identifier (DkgParticipant D) :=
  (ceremonyNetwork D seed).execAll (finalizeParties D honest) home events

/-- The log begins a ceremony of the validators, and promotes it to the group. -/
def PromotedOn (log : List (Tx C)) (validators : BTreeMap C.Identifier EncPublicKey) (g : GroupConfig C) : Prop :=
  ∃ pre params post s', log = pre ++ .dkgBegin params validators :: post ∧
    applyTx (reached pre) (.dkgBegin params validators) = .ok s' ∧ (reached log).group = some g

/-- Each of the validators has finalized, with a package that agrees with the group's. -/
theorem PromotedOn.finalized {log : List (Tx C)} {validators : BTreeMap C.Identifier EncPublicKey} {g : GroupConfig C}
    (h : PromotedOn log validators g) {v : C.Identifier} (hv : v ∈ validators) :
    ∃ pkp, .dkgFinalize v pkp ∈ log ∧ C.Agree pkp g.pkp := by
  obtain ⟨pre, params, post, s', rfl, hbegin, hg⟩ := h
  have hprom := (begun_accepted hbegin post).group (reached_valid _) hg
  obtain ⟨pkp, hmem, hagree⟩ := hprom.finalized v hv
  exact ⟨pkp, (accepted_sublist _ _ _).subset hmem, hagree⟩

section
variable {honest : C.Identifier → Bool} {seed : C.Identifier → C.Rng} {home : C.Identifier → R}
  {events : List (NetworkEvent R (Tx C) C.Identifier C.Rng)}

theorem forkedRun_own (v : C.Identifier) :
    OwnFinalize v ((forkedRun D honest seed home events).mem v) ((forkedRun D honest seed home events).sent v) := by
  have hinv : System.PartyInvariant (finalizeParties D honest)
      (fun _ v (participant : DkgParticipant D) out => OwnFinalize v participant out) := by
    constructor
    · intro _ _ _ _ h _
      exact h
    · intro log v participant out h k rng
      apply DkgParticipant.react_invariant (P := fun p' more => OwnFinalize v p' (out ++ more))
      · simpa using h
      · intro c r p' _ _ _ hreact
        exact hreact.ownFinalize h
  exact Network.partyInvariant_execAll hinv (fun _ => ⟨rfl, by simp [ceremonyNetwork]⟩) events v

/-- A finalize in an honest name, on whatever replica, carries the package its participant holds. -/
theorem finalize_of_honest {v : C.Identifier} (hh : honest v = true) {r : R} {pkp : C.PublicKeyPackage}
    (hmem : .dkgFinalize v pkp ∈ (forkedRun D honest seed home events).log r) :
    ((forkedRun D honest seed home events).mem v).publicKeyPackage = some pkp := by
  have hstart : (ceremonyNetwork (R := R) D seed).Justified (finalizeParties D honest) [] := fun _ _ ha => by cases ha
  have hrun : (forkedRun D honest seed home events).Justified (finalizeParties D honest) [] := hstart.execAll events
  rcases hrun r _ hmem with hboot | hfree | ⟨q, hq⟩
  · cases hboot
  · have hnot : (!honest v) = true := hfree
    rw [hh] at hnot; cases hnot
  · obtain ⟨rfl, hpkp, _⟩ := (forkedRun_own q).finalize v pkp hq
    exact hpkp

end

/-- **One key.** Wherever two replicas have promoted ceremonies that an honest
participant has a part in, the packages of their groups agree, whatever each of
them was sent, dropped or ordered. -/
theorem promoted_groups_agree (D : DkgWire C) (honest : C.Identifier → Bool) (seed : C.Identifier → C.Rng)
    (home : C.Identifier → R) (events : List (NetworkEvent R (Tx C) C.Identifier C.Rng)) {r r' : R}
    {validators validators' : BTreeMap C.Identifier EncPublicKey} {g g' : GroupConfig C}
    (hg : PromotedOn ((forkedRun D honest seed home events).log r) validators g)
    (hg' : PromotedOn ((forkedRun D honest seed home events).log r') validators' g') {v : C.Identifier}
    (hv : v ∈ validators) (hv' : v ∈ validators') (hh : honest v = true) : C.Agree g.pkp g'.pkp := by
  obtain ⟨pkp, hmem, hagree⟩ := hg.finalized hv
  obtain ⟨pkp', hmem', hagree'⟩ := hg'.finalized hv'
  have hown := finalize_of_honest hh hmem
  rw [finalize_of_honest hh hmem'] at hown
  cases hown
  exact hagree.symm.trans hagree'

/-! ## One gate -/

section
variable {P : Type} [DecidableEq P] {W : Type}

def signersNetwork (node : P → Node C) : Network R (Tx C) P (Signer C) where
  log := fun _ => []
  mem := fun p => { node := node p, calls := [] }
  sent := fun _ => []

/-- Nodes behind gates of their own, each at its replica; anything may be submitted to any replica. -/
def gatedNetwork (hex : Hex) (fromSlice : Bytes → Except String (ReleaseProposal W)) (policy : P → EscrowPolicy W)
    (bundle : P → KeyShareBundle C) (home : P → R) (events : List (NetworkEvent R (Tx C) P C.Rng)) :
    Network R (Tx C) P (Signer C) :=
  (signersNetwork fun p => (Node.new (bundle p)).withPolicy ((policy p).approve hex fromSlice)).execAll
    (signers fun _ => true) home events

variable {hex : Hex} {fromSlice : Bytes → Except String (ReleaseProposal W)} {policy : P → EscrowPolicy W}
  {bundle : P → KeyShareBundle C} {home : P → R} {events : List (NetworkEvent R (Tx C) P C.Rng)}

theorem gatedNetwork_gated (hp : PackageLaws C) (p : P) :
    Gated ((Node.new (bundle p)).withPolicy ((policy p).approve hex fromSlice))
      ((gatedNetwork hex fromSlice policy bundle home events).log (home p))
      ((gatedNetwork hex fromSlice policy bundle home events).mem p)
      ((gatedNetwork hex fromSlice policy bundle home events).sent p) := by
  have hinv : System.PartyInvariant (signers fun _ => true)
      (fun log p (σ : Signer C) out =>
        Gated ((Node.new (bundle p)).withPolicy ((policy p).approve hex fromSlice)) log σ out) := by
    constructor
    · intro log p σ out h a
      exact h.grow [a]
    · intro log p σ out h k rng
      exact h.react hp k rng
  exact Network.partyInvariant_execAll hinv (fun p => Gated.start [] (bundle p) ((policy p).approve hex fromSlice)) events p

/-- What completes at some replica with a gated node among its participants, the gate of that node let through. -/
theorem completed_authorized (hp : PackageLaws C) {r : R} {p : P}
    (hgen : GenuineShares ((gatedNetwork hex fromSlice policy bundle home events).log r) (Node.new (bundle p))
      ((gatedNetwork hex fromSlice policy bundle home events).mem p).calls) {id : Uuid} {e : RequestEntry C}
    {parts : Finset C.Identifier} {sig : C.Signature}
    (he : (reached ((gatedNetwork hex fromSlice policy bundle home events).log r)).requests[id]? = some e)
    (hs : e.status = .completed parts sig) (hmem : C.identifier (bundle p).keyPackage ∈ parts) :
    Authorized fromSlice (policy p) e.message := by
  obtain ⟨pkg, shares, hagg, hdom, hpkg⟩ := completed_aggregated hp he hs
  obtain ⟨share, hshare⟩ := mem_iff.mp (mem_dom.mp (hdom ▸ hmem))
  obtain ⟨id', nonces, x, hcall, _⟩ := hgen pkg shares share hagg hshare
  -- the call was made at the node's own replica, on a package over the same message
  obtain ⟨e', _, happ, hpkg'⟩ := (gatedNetwork_gated hp p).signed id' nonces pkg x hcall
  rw [hpkg] at hpkg'
  rw [hpkg']
  exact approve_ok.mp happ

/-- **One gate.** While fewer validators than the threshold are without a gate, every
request that completes at whatever replica releases what one of the gates stands
for, whoever ordered, dropped or forged whatever transactions. -/
theorem gates_hold_across_replicas (hp : PackageLaws C) (hex : Hex)
    (fromSlice : Bytes → Except String (ReleaseProposal W))
    (policy : P → EscrowPolicy W) (bundle : P → KeyShareBundle C) (home : P → R)
    (events : List (NetworkEvent R (Tx C) P C.Rng)) (r : R)
    (hgen : ∀ p, GenuineShares ((gatedNetwork hex fromSlice policy bundle home events).log r) (Node.new (bundle p))
      ((gatedNetwork hex fromSlice policy bundle home events).mem p).calls)
    {g : GroupConfig C} (hg : (reached ((gatedNetwork hex fromSlice policy bundle home events).log r)).group = some g)
    {others : Finset C.Identifier} (hothers : others.card < g.params.threshold.toNat)
    (hgates : ∀ v ∈ g.validators, v ∉ others → ∃ p, C.identifier (bundle p).keyPackage = v) {id : Uuid}
    {e : RequestEntry C} {parts : Finset C.Identifier} {sig : C.Signature}
    (he : (reached ((gatedNetwork hex fromSlice policy bundle home events).log r)).requests[id]? = some e)
    (hs : e.status = .completed parts sig) :
    ∃ p, C.identifier (bundle p).keyPackage ∈ parts ∧ Authorized fromSlice (policy p) e.message := by
  have hval := ((reached_valid _).request_valid hg he).status
  rw [hs] at hval
  obtain ⟨_, _, hcut, _⟩ := hval
  -- more participants than there are without a gate
  obtain ⟨v, hv, hnot⟩ := Finset.exists_mem_notMem_of_card_lt_card (hcut.card ▸ hothers)
  obtain ⟨p, rfl⟩ := hgates v (hcut.sub hv) hnot
  exact ⟨p, hv, completed_authorized hp (hgen p) he hs hv⟩

end

namespace Ideal

/-- The second participant is not honest, and the second replica gets everything in another order. -/
def forkedEvents : List (NetworkEvent Bool (Tx suite) Nat Nat) :=
  [.submit false duoBegin, .react 1 1 10, .deliver false 1 0, .submit false (.dkgRound1 (2 : Nat) (20 : Int)),
    .react 1 3 12, .deliver false 1 1, .submit false (.dkgRound2 (2 : Nat) (1 : Nat) ⟨[1, 20, 1]⟩), .react 1 5 13,
    .deliver false 1 2, .submit false (.dkgFinalize (2 : Nat) transcriptKeys),
    .submit true duoBegin, .submit true (.dkgRound1 (2 : Nat) (20 : Int)), .deliver true 1 0,
    .submit true (.dkgRound2 (2 : Nat) (1 : Nat) ⟨[1, 20, 1]⟩), .deliver true 1 1,
    .submit true (.dkgFinalize (2 : Nat) transcriptKeys), .deliver true 1 2]

def forked : Network Bool (Tx suite) Nat (DkgParticipant wire) := forkedRun wire onlyOne id (fun _ => false) forkedEvents

def forkedGroup : GroupConfig suite := { params := pair, pkp := transcriptKeys, validators := dom duoMembers }

theorem forked_promoted (r : Bool) : PromotedOn (forked.log r) duoMembers forkedGroup := by
  cases r with
  | false => exact ⟨[], pair, (forked.log false).tail, _, rfl, rfl, rfl⟩
  | true => exact ⟨[], pair, (forked.log true).tail, _, rfl, rfl, rfl⟩

end Ideal

theorem promoted_groups_agree_duo :
    Ideal.forked.log false ≠ Ideal.forked.log true ∧
      PromotedOn (Ideal.forked.log false) Ideal.duoMembers Ideal.forkedGroup ∧
      PromotedOn (Ideal.forked.log true) Ideal.duoMembers Ideal.forkedGroup ∧
      Ideal.suite.Agree Ideal.forkedGroup.pkp Ideal.forkedGroup.pkp := by
  refine ⟨fun h => ?_, Ideal.forked_promoted false, Ideal.forked_promoted true, ?_⟩
  · have hsecond : (Ideal.forked.log false)[1]? = (Ideal.forked.log true)[1]? := by rw [h]
    cases hsecond
  · exact promoted_groups_agree Ideal.wire Ideal.onlyOne id (fun _ => false) Ideal.forkedEvents
      (Ideal.forked_promoted false) (Ideal.forked_promoted true) (v := (1 : Nat)) (by decide) (by decide) rfl

namespace Ideal

/-- The node is at the first replica, and the second one gets what it returned there. -/
def gatedEvents : List (NetworkEvent Bool (Tx suite) Unit Nat) :=
  [.submit false (.initGroup pair pairKeys [1, 2]), .submit false (.submitRequest id0 parcelMessage (5 : Int)),
    .react () 2 10, .deliver false () 0, .submit false (.submitCommitment id0 (2 : Nat) (20 : Nat)), .react () 4 11,
    .submit true (.initGroup pair pairKeys [1, 2]), .submit true (.submitRequest id0 parcelMessage (5 : Int)),
    .submit true (.submitCommitment id0 (2 : Nat) (20 : Nat)), .deliver true () 0,
    .submit true (.submitShare id0 (2 : Nat) (share 2 20 parcelMessage 5)), .deliver true () 1]

def gated : Network Bool (Tx suite) Unit (Signer suite) :=
  gatedNetwork hex parcelFromSlice (fun _ => parcelPolicy) (fun _ => pairBundle 1) (fun _ => false) gatedEvents

def gatedLog : List (Tx suite) :=
  [.initGroup pair pairKeys [1, 2], .submitRequest id0 parcelMessage (5 : Int),
    .submitCommitment id0 (2 : Nat) (20 : Nat), .submitCommitment id0 (1 : Nat) (10 : Nat),
    .submitShare id0 (2 : Nat) (share 2 20 parcelMessage 5), .submitShare id0 (1 : Nat) (share 1 10 parcelMessage 5)]

def gatedGroup : GroupConfig suite := { params := pair, pkp := pairKeys, validators := {1, 2} }

def gatedPackage : SigningPackage := ⟨cut 2 (((∅ : BTreeMap Nat Nat).insert 2 20).insert 1 10), parcelMessage⟩

def gatedEntry (status : RequestStatus suite) : RequestEntry suite :=
  { requestId := id0, message := parcelMessage, randomizer := (5 : Int), status }

set_option maxRecDepth 8000 in
theorem gated_outcome : gated.log true = gatedLog ∧
    (gated.mem ()).calls = [.commit id0 (10 : Nat), .sign id0 (10 : Nat) gatedPackage (5 : Int)] := ⟨rfl, rfl⟩

set_option maxRecDepth 8000 in
theorem gated_completed : (reached gatedLog).group = some gatedGroup ∧ (reached gatedLog).requests[id0]? =
    some (gatedEntry (.completed ({1, 2} : Finset Nat) { key := 12, message := parcelMessage })) := ⟨rfl, rfl⟩

set_option maxRecDepth 8000 in
theorem gated_signing :
    (reached (gatedLog.take 4)).requests[id0]? =
      some (gatedEntry (.signing gatedPackage (dom gatedPackage.commitments) ∅)) ∧
    (reached (gatedLog.take 5)).requests[id0]? =
      some (gatedEntry (.signing gatedPackage (dom gatedPackage.commitments)
        ((∅ : BTreeMap Nat SignatureShare).insert 2 (share 2 20 parcelMessage 5)))) := ⟨rfl, rfl⟩

set_option maxRecDepth 8000 in
theorem gated_sign :
    suite.sign gatedPackage (10 : Nat) (pairBundle 1).keyPackage (5 : Int) = .ok (share 1 10 parcelMessage 5) := rfl

/-- The share that was aggregated with is the one the node made. -/
theorem gated_genuine : GenuineShares gatedLog (Node.new (pairBundle 1)) (gated.mem ()).calls := by
  intro pkg shares made hagg hmade
  obtain ⟨pre, post, id, v, s, g, e, parts, others, sig, hlog, _, he, hst, _, rfl, _⟩ := hagg
  have hpre : gatedLog.take pre.length = pre := by rw [hlog, List.take_left]
  have hnth : gatedLog[pre.length]? = some (.submitShare id v s) := by rw [hlog]; simp
  rw [← hpre] at he
  generalize pre.length = k at he hnth
  rcases k with _ | _ | _ | _ | _ | _ | k
  · cases hnth
  · cases hnth
  · cases hnth
  · cases hnth
  · -- the other one's share comes first, and the node's is not there
    have hsame : gatedLog[4]? = some (.submitShare id0 (2 : Nat) (share 2 20 parcelMessage 5)) := rfl
    rw [hsame] at hnth
    obtain ⟨rfl, rfl, rfl⟩ := Tx.submitShare.inj (Option.some.inj hnth)
    rw [gated_signing.1] at he
    cases Option.some.inj he
    obtain ⟨_, _, rfl⟩ := RequestStatus.signing.inj hst
    cases hmade
  · have hsame : gatedLog[5]? = some (.submitShare id0 (1 : Nat) (share 1 10 parcelMessage 5)) := rfl
    rw [hsame] at hnth
    obtain ⟨rfl, rfl, rfl⟩ := Tx.submitShare.inj (Option.some.inj hnth)
    rw [gated_signing.2] at he
    cases Option.some.inj he
    obtain ⟨rfl, _, rfl⟩ := RequestStatus.signing.inj hst
    cases hmade
    exact ⟨id0, (10 : Nat), (5 : Int), by simp [gated_outcome.2], gated_sign⟩
  · cases hnth

end Ideal

set_option maxRecDepth 8000 in
open Sapphire.Ideal in
theorem gates_hold_across_replicas_parcel :
    ∃ _ : Unit, suite.identifier (pairBundle 1).keyPackage ∈ ({1, 2} : Finset Nat) ∧
      Authorized parcelFromSlice parcelPolicy parcelMessage := by
  have hgen : GenuineShares (gated.log true) (Node.new (pairBundle 1)) (gated.mem ()).calls := by
    rw [gated_outcome.1]
    exact gated_genuine
  have hend := gated_completed
  rw [← gated_outcome.1] at hend
  have hothers : ({2} : Finset Nat).card < gatedGroup.params.threshold.toNat := by decide
  have hgates : ∀ v ∈ gatedGroup.validators, v ∉ ({2} : Finset Nat) →
      ∃ _ : Unit, suite.identifier (pairBundle 1).keyPackage = v := by decide
  exact gates_hold_across_replicas packageLaws hex parcelFromSlice (fun _ => parcelPolicy) (fun _ => pairBundle 1)
    (fun _ => false) gatedEvents true (fun _ => hgen) hend.1 hothers hgates hend.2 rfl

end Sapphire
