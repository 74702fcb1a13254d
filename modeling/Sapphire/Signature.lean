import Sapphire.ChainInv
import Sapphire.Ideal

/-!
# A completed request carries a signature over its own message

The completed entry stores only the signature. That it is over the entry's
message and under the group's rerandomized key comes from the invariant: the
signing package was cut over the message, and neither entry nor group change.
-/

namespace Sapphire

open BTreeMap Replay

variable {C : Ciphersuite}

theorem request_created (txs : List (Tx C)) {id : Uuid} {e : RequestEntry C}
    (he : (reached txs).requests[id]? = some e) :
    ∃ pre post s', txs = pre ++ .submitRequest id e.message e.randomizer :: post ∧
      applyTx (reached pre) (.submitRequest id e.message e.randomizer) = .ok s' := by
  obtain ⟨pre, tx, post, g, o, htxs, hid, _, hstep, ha, ⟨hm, hr⟩, hnew⟩ :=
    exists_entry_gain (Q := fun o => o.message = e.message ∧ o.randomizer = e.randomizer) he ⟨rfl, rfl⟩
  rcases entryStep_content hid hstep with ⟨o', ho', hm', hr'⟩ | ⟨_, rfl⟩
  · exact absurd ⟨hm'.trans hm, hr'.trans hr⟩ (hnew o' ho')
  · rw [hm, hr] at htxs ha
    exact ⟨pre, post, _, htxs, ha⟩

theorem completed_aggregate (txs : List (Tx C)) {id : Uuid} {e : RequestEntry C} {parts : Finset C.Identifier}
    {sig : C.Signature} (he : (reached txs).requests[id]? = some e) (hs : e.status = .completed parts sig) :
    ∃ g chosen shares, (reached txs).group = some g ∧ dom chosen = parts ∧ dom shares = parts ∧
      C.aggregate (C.signingPackage chosen e.message) shares g.pkp
        (C.fromRandomizer (C.verifyingKey g.pkp) e.randomizer) = .ok sig := by
  obtain ⟨g, hg, hv⟩ := (reached_valid txs).request he
  have hst := hv.status
  rw [hs] at hst
  obtain ⟨pkg, shares, hcut, _, hshares, hagg⟩ := hst
  obtain ⟨chosen, hchosen, rfl⟩ := hcut.package
  exact ⟨g, chosen, shares, hg, hchosen, hshares, hagg⟩

/-- **Signatures.** In every run, the signature of a completed request
verifies over the message, and under the group key rerandomized by the
randomizer, that an accepted `SubmitRequest` created the request with. -/
theorem completed_signature_verifies (hp : PackageLaws C) (ha : AggregateSound C) (txs : List (Tx C)) {id : Uuid}
    {e : RequestEntry C} {parts : Finset C.Identifier} {sig : C.Signature}
    (he : (reached txs).requests[id]? = some e) (hs : e.status = .completed parts sig) :
    ∃ g, (reached txs).group = some g ∧
      C.verify (C.verifyingKey g.pkp + e.randomizer • C.generator) e.message sig = true ∧
      ∃ pre post s', txs = pre ++ .submitRequest id e.message e.randomizer :: post ∧
        applyTx (reached pre) (.submitRequest id e.message e.randomizer) = .ok s' := by
  obtain ⟨g, chosen, shares, hg, _, _, hagg⟩ := completed_aggregate txs he hs
  refine ⟨g, hg, ?_, request_created txs he⟩
  have hver := ha.verified _ _ _ _ _ hagg
  rwa [hp.message, ha.randomized] at hver

namespace Ideal

def pair : MpcParams := { threshold := 2, total := 2 }

def pairKeys : PublicKeyPackage :=
  { key := 7, shares := Std.ExtTreeMap.ofList [(1, (3 : Int)), (2, 4)], minSigners := 2 }

def share (signer nonces : Nat) (message : Bytes) (r : Int) : SignatureShare :=
  { signer, nonces, signed := { key := 7 + r, message } }

def pairRun : List (Tx suite) :=
  [.initGroup pair pairKeys [1, 2], .submitRequest id0 [42] (5 : Int),
    .submitCommitment id0 (2 : Nat) (20 : Nat), .submitCommitment id0 (1 : Nat) (10 : Nat),
    .submitShare id0 (1 : Nat) (share 1 10 [42] 5), .submitShare id0 (2 : Nat) (share 2 20 [42] 5)]

def pairEntry : RequestEntry suite :=
  { requestId := id0, message := [42], randomizer := (5 : Int),
    status := .completed ({1, 2} : Finset Nat) { key := 12, message := [42] } }

end Ideal

theorem completed_signature_verifies_pair :
    ∃ g, (reached Ideal.pairRun).group = some g ∧
      Ideal.suite.verify (Ideal.suite.verifyingKey g.pkp + (5 : Int) • (1 : Int)) [42]
        { key := 12, message := [42] } = true ∧
      ∃ pre post s', Ideal.pairRun = pre ++ .submitRequest Ideal.id0 [42] (5 : Int) :: post ∧
        applyTx (reached pre) (.submitRequest Ideal.id0 [42] (5 : Int)) = .ok s' :=
  completed_signature_verifies Ideal.packageLaws Ideal.aggregateSound Ideal.pairRun
    (show (reached Ideal.pairRun).requests[Ideal.id0]? = some Ideal.pairEntry from rfl) rfl

end Sapphire
