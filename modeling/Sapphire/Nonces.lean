import Sapphire.NodeSteps
import Sapphire.Ideal

/-!
# Nonces are used once

A draw goes to the cache or is dropped, signing takes from the cache, and
nothing else touches it. So in the log, uses are matched by draws for the same
request, whatever states a node is shown. What it returns is bounded by its
two sets of request ids in the same way.
-/

namespace Sapphire

open BTreeMap

variable {C : Ciphersuite}

def FrostCall.drawn? : FrostCall C → Option (Uuid × C.SigningNonces)
  | .commit id nonces => some (id, nonces)
  | .sign _ _ _ _ => none

def FrostCall.used? : FrostCall C → Option (Uuid × C.SigningNonces)
  | .commit _ _ => none
  | .sign id nonces _ _ => some (id, nonces)

def drawn (calls : List (FrostCall C)) : Multiset (Uuid × C.SigningNonces) := calls.filterMap FrostCall.drawn?

/-- The nonces passed to `sign` in a log, with the request, whether or not it returned a share. -/
def used (calls : List (FrostCall C)) : Multiset (Uuid × C.SigningNonces) := calls.filterMap FrostCall.used?

section
variable (calls : List (FrostCall C)) (id : Uuid) (nonces : C.SigningNonces) (pkg : C.SigningPackage) (r : C.Randomizer)

@[simp] theorem drawn_commit : drawn (calls ++ [.commit id nonces]) = drawn calls + {(id, nonces)} := by
  simp [drawn, FrostCall.drawn?, List.filterMap_append, ← Multiset.coe_add]

@[simp] theorem used_commit : used (calls ++ [.commit id nonces]) = used calls := by
  unfold used
  rw [List.filterMap_append]
  exact congrArg _ (List.append_nil _)

@[simp] theorem drawn_sign : drawn (calls ++ [.sign id nonces pkg r]) = drawn calls := by
  unfold drawn
  rw [List.filterMap_append]
  exact congrArg _ (List.append_nil _)

@[simp] theorem used_sign : used (calls ++ [.sign id nonces pkg r]) = used calls + {(id, nonces)} := by
  simp [used, FrostCall.used?, List.filterMap_append, ← Multiset.coe_add]

end

/-! ## The balance of draws and uses -/

/-- Uses and cached nonces together are covered by draws, at every point of the log. -/
structure Balanced (σ : Signer C) : Prop where
  now : used σ.calls + entries σ.node.pending ≤ drawn σ.calls
  before : ∀ pre, pre <+: σ.calls → used pre ≤ drawn pre

namespace Balanced

variable {σ : Signer C}

theorem extend (h : Balanced σ) {node : Node C} {call : FrostCall C}
    (hnow : used (σ.calls ++ [call]) + entries node.pending ≤ drawn (σ.calls ++ [call])) :
    Balanced { node, calls := σ.calls ++ [call] } where
  now := hnow
  before := fun pre hpre => by
    rcases List.prefix_concat_iff.mp hpre with rfl | hpre
    · exact le_trans (Multiset.le_add_right _ _) hnow
    · exact h.before pre hpre

theorem mark (h : Balanced σ) {node : Node C} (hp : node.pending = σ.node.pending) :
    Balanced { σ with node } where
  now := by rw [hp]; exact h.now
  before := h.before

theorem draw (h : Balanced σ) (id : Uuid) (nonces : C.SigningNonces) : Balanced (σ.log (.commit id nonces)) := by
  refine h.extend ?_
  rw [used_commit, drawn_commit]
  exact le_trans h.now (Multiset.le_add_right _ _)

theorem cache (h : Balanced σ) {id : Uuid} (nonces : C.SigningNonces) (hid : id ∉ σ.node.pending) :
    Balanced ((σ.log (.commit id nonces)).modify (·.insertPending id nonces)) := by
  refine h.extend ?_
  show used (σ.calls ++ [.commit id nonces]) + entries (σ.node.pending.insert id nonces) ≤ _
  rw [used_commit, drawn_commit, entries_insert nonces hid, ← Multiset.singleton_add, add_left_comm, add_comm]
  exact add_le_add_left h.now _

theorem use (h : Balanced σ) {id : Uuid} {nonces : C.SigningNonces} (hid : σ.node.pending[id]? = some nonces)
    (pkg : C.SigningPackage) (r : C.Randomizer) :
    Balanced ((σ.modify (·.removePending id)).log (.sign id nonces pkg r)) := by
  refine h.extend ?_
  show used (σ.calls ++ [.sign id nonces pkg r]) + entries (σ.node.pending.erase id) ≤ _
  have hnow := h.now
  rwa [used_sign, drawn_sign, add_assoc, Multiset.singleton_add, ← entries_erase hid]

theorem reaction (h : Balanced σ) {id : Uuid} {entry : RequestEntry C} {r : Except Error (Option (Tx C))}
    {σ' : Signer C} (hr : Reaction σ id entry r σ') : Balanced σ' := by
  cases hr with
  | idle => exact h
  | sawCommitment => exact h.mark rfl
  | sawShare => exact h.mark rfl
  | inUse nonces _ => exact h.draw id nonces
  | committed nonces commitments _ _ hid => exact (h.cache nonces hid).mark rfl
  | signFailed nonces e _ hid => exact h.use hid _ _
  | signed nonces share _ _ hid _ => exact (h.use hid _ _).mark rfl

theorem react (h : Balanced σ) (s : State C) (rng : C.Rng) : Balanced (σ.react s rng).1 :=
  Signer.react_invariant (P := fun _ σ => Balanced σ) (fun _ _ _ h => h)
    (fun _ _ _ _ _ _ _ h hr => h.reaction hr) (T := []) h

theorem commit (h : Balanced σ) (id : Uuid) (rng : C.Rng) : Balanced (σ.commit id rng) := by
  unfold Signer.commit
  by_cases hid : id ∈ σ.node.pending
  · obtain ⟨nonces, rng', heq⟩ := Ctx.commit_inUse { toSigner := σ, rng } hid
    rw [heq]
    exact h.draw id nonces
  · obtain ⟨nonces, commitments, rng', heq⟩ := Ctx.commit_ok { toSigner := σ, rng } hid
    rw [heq]
    exact h.cache nonces hid

end Balanced

/-! ## What is returned -/

def Tx.isCommitmentFor (id : Uuid) : Tx C → Bool
  | .submitCommitment id' _ _ => id = id'
  | _ => false

def Tx.isShareFor (id : Uuid) : Tx C → Bool
  | .submitShare id' _ _ => id = id'
  | _ => false

/-- A request has a returned commitment, or share, at most once, and only when it is marked. -/
structure Once (txs : List (Tx C)) (σ : Signer C) : Prop where
  commitment : ∀ id, txs.countP (·.isCommitmentFor id) ≤ if id ∈ σ.node.committedRequests then 1 else 0
  share : ∀ id, txs.countP (·.isShareFor id) ≤ if id ∈ σ.node.sharedRequests then 1 else 0

namespace Once

variable {txs : List (Tx C)} {σ : Signer C}

theorem drop {out : List (Tx C)} (h : Once (txs ++ out) σ) : Once txs σ where
  commitment := fun id => by
    have hid := h.commitment id
    rw [List.countP_append] at hid
    omega
  share := fun id => by
    have hid := h.share id
    rw [List.countP_append] at hid
    omega

theorem mark (h : Once txs σ) {σ' : Signer C} (hc : σ.node.committedRequests ⊆ σ'.node.committedRequests)
    (hs : σ.node.sharedRequests ⊆ σ'.node.sharedRequests) : Once txs σ' where
  commitment := fun id => by
    refine (h.commitment id).trans ?_
    by_cases hid : id ∈ σ.node.committedRequests
    · rw [if_pos hid, if_pos (hc hid)]
    · rw [if_neg hid]; exact Nat.zero_le _
  share := fun id => by
    refine (h.share id).trans ?_
    by_cases hid : id ∈ σ.node.sharedRequests
    · rw [if_pos hid, if_pos (hs hid)]
    · rw [if_neg hid]; exact Nat.zero_le _

theorem addCommitment (h : Once txs σ) {id : Uuid} (hid : id ∉ σ.node.committedRequests) (v : C.Identifier)
    (com : C.SigningCommitments) {σ' : Signer C}
    (hc : σ'.node.committedRequests = insert id σ.node.committedRequests)
    (hs : σ'.node.sharedRequests = σ.node.sharedRequests) : Once (txs ++ [.submitCommitment id v com]) σ' where
  commitment := fun id' => by
    have hid' := h.commitment id'
    rw [List.countP_append, hc]
    by_cases heq : id' = id
    · subst heq
      have hone : [Tx.submitCommitment id' v com].countP (·.isCommitmentFor id') = 1 := by simp [Tx.isCommitmentFor]
      rw [if_neg hid] at hid'
      rw [hone, if_pos (Finset.mem_insert_self ..)]
      omega
    · simpa [Tx.isCommitmentFor, heq] using hid'
  share := fun id' => by
    have hid' := h.share id'
    rw [List.countP_append, hs]
    simpa [Tx.isShareFor] using hid'

theorem addShare (h : Once txs σ) {id : Uuid} (hid : id ∉ σ.node.sharedRequests) (v : C.Identifier)
    (share : C.SignatureShare) {σ' : Signer C}
    (hc : σ'.node.committedRequests = σ.node.committedRequests)
    (hs : σ'.node.sharedRequests = insert id σ.node.sharedRequests) : Once (txs ++ [.submitShare id v share]) σ' where
  commitment := fun id' => by
    have hid' := h.commitment id'
    rw [List.countP_append, hc]
    simpa [Tx.isCommitmentFor] using hid'
  share := fun id' => by
    have hid' := h.share id'
    rw [List.countP_append, hs]
    by_cases heq : id' = id
    · subst heq
      have hone : [Tx.submitShare id' v share].countP (·.isShareFor id') = 1 := by simp [Tx.isShareFor]
      rw [if_neg hid] at hid'
      rw [hone, if_pos (Finset.mem_insert_self ..)]
      omega
    · simpa [Tx.isShareFor, heq] using hid'

theorem reaction (h : Once txs σ) {id : Uuid} {entry : RequestEntry C} {r : Except Error (Option (Tx C))}
    {σ' : Signer C} (hr : Reaction σ id entry r σ') : Once (txs ++ emitted r) σ' := by
  have hkeep : Once (txs ++ []) σ := by rwa [List.append_nil]
  cases hr with
  | idle => exact hkeep
  | sawCommitment => exact hkeep.mark (Finset.subset_insert _ _) subset_rfl
  | sawShare => exact hkeep.mark subset_rfl (Finset.subset_insert _ _)
  | inUse nonces _ => exact hkeep.mark subset_rfl subset_rfl
  | committed nonces commitments hid _ _ => exact h.addCommitment hid _ _ rfl rfl
  | signFailed nonces e _ _ => exact hkeep.mark subset_rfl subset_rfl
  | signed nonces share _ hid _ _ => exact h.addShare hid _ _ rfl rfl

theorem react (h : Once txs σ) (s : State C) (rng : C.Rng) : Once (txs ++ (σ.react s rng).2) (σ.react s rng).1 :=
  Signer.react_invariant (fun _ _ _ h => h.drop) (fun _ _ _ _ _ _ _ h hr => h.reaction hr) h

theorem commit (h : Once txs σ) (id : Uuid) (rng : C.Rng) : Once txs (σ.commit id rng) := by
  unfold Signer.commit
  by_cases hid : id ∈ σ.node.pending
  · obtain ⟨nonces, rng', heq⟩ := Ctx.commit_inUse { toSigner := σ, rng } hid
    rw [heq]
    exact h.mark subset_rfl subset_rfl
  · obtain ⟨nonces, commitments, rng', heq⟩ := Ctx.commit_ok { toSigner := σ, rng } hid
    rw [heq]
    exact h.mark subset_rfl subset_rfl

end Once

/-! ## Any sequence of calls -/

/-- A call of the node's public interface: `react` on any state at all, or a direct `commit`. -/
inductive NodeCall (C : Ciphersuite) where
  | react (s : State C) (rng : C.Rng)
  | commit (id : Uuid) (rng : C.Rng)

structure Session (C : Ciphersuite) where
  signer : Signer C
  txs : List (Tx C)

def Session.start (node : Node C) : Session C := { signer := { node, calls := [] }, txs := [] }

def Session.call (session : Session C) : NodeCall C → Session C
  | .react s rng =>
    let (signer, out) := session.signer.react s rng
    { signer, txs := session.txs ++ out }
  | .commit id rng => { session with signer := session.signer.commit id rng }

def Session.calls (session : Session C) (calls : List (NodeCall C)) : Session C := calls.foldl Session.call session

theorem Session.call_invariant {session : Session C} (h : Balanced session.signer ∧ Once session.txs session.signer)
    (c : NodeCall C) : Balanced (session.call c).signer ∧ Once (session.call c).txs (session.call c).signer := by
  obtain ⟨hb, ho⟩ := h
  cases c with
  | react s rng => exact ⟨hb.react s rng, ho.react s rng⟩
  | commit id rng => exact ⟨hb.commit id rng, ho.commit id rng⟩

theorem Session.calls_invariant {session : Session C} (h : Balanced session.signer ∧ Once session.txs session.signer)
    (cs : List (NodeCall C)) :
    Balanced (session.calls cs).signer ∧ Once (session.calls cs).txs (session.calls cs).signer := by
  induction cs generalizing session with
  | nil => exact h
  | cons c cs ih => exact ih (Session.call_invariant h c)

theorem Session.start_invariant (bundle : KeyShareBundle C) (policy : SignPolicy) :
    Balanced (Session.start ((Node.new bundle).withPolicy policy)).signer ∧
      Once (Session.start ((Node.new bundle).withPolicy policy)).txs
        (Session.start ((Node.new bundle).withPolicy policy)).signer := by
  refine ⟨⟨?_, ?_⟩, ⟨?_, ?_⟩⟩
  · exact le_of_eq (by simp [Session.start, used, drawn, entries, Node.new, Node.withPolicy])
  · intro pre hpre
    rw [List.prefix_nil.mp hpre]
    exact le_refl _
  · intro id
    exact Nat.zero_le _
  · intro id
    exact Nat.zero_le _

/-- **Nonce safety.** Over any calls of a node, on any states: at every point
of the log the uses of nonces are matched one to one with draws for the same
request, so distinct draws are used once each; and a request gets at most one
commitment and one share. -/
theorem nonces_used_once (bundle : KeyShareBundle C) (policy : SignPolicy) (cs : List (NodeCall C)) :
    let session := (Session.start ((Node.new bundle).withPolicy policy)).calls cs
    (∀ pre, pre <+: session.signer.calls → used pre ≤ drawn pre) ∧
      (((drawn session.signer.calls).map Prod.snd).Nodup → ((used session.signer.calls).map Prod.snd).Nodup) ∧
      ∀ id, session.txs.countP (·.isCommitmentFor id) ≤ 1 ∧ session.txs.countP (·.isShareFor id) ≤ 1 := by
  intro session
  obtain ⟨hb, ho⟩ := Session.calls_invariant (Session.start_invariant bundle policy) cs
  refine ⟨hb.before, ?_, ?_⟩
  · intro hnodup
    have hle := hb.before session.signer.calls (List.prefix_refl _)
    exact Multiset.nodup_of_le (Multiset.map_le_map hle) hnodup
  · intro id
    refine ⟨(ho.commitment id).trans ?_, (ho.share id).trans ?_⟩
    · split <;> omega
    · split <;> omega

end Sapphire
