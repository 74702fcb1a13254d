import Sapphire.Node

/-!
# What a reaction does

The outcomes of one pass of the loop body, each with the guards it passed, and
the rule by which an invariant of one pass is an invariant of the call.
-/

namespace Sapphire

variable {C : Ciphersuite}

/-- One request under the loop body: what it returns and the signer it leaves. -/
inductive Reaction (σ : Signer C) (id : Uuid) (entry : RequestEntry C) :
    Except Error (Option (Tx C)) → Signer C → Prop
  | idle : Reaction σ id entry (.ok none) σ
  | sawCommitment : Reaction σ id entry (.ok none) (σ.modify (·.insertCommitted id))
  | sawShare : Reaction σ id entry (.ok none) (σ.modify (·.insertShared id))
  | inUse (nonces : C.SigningNonces) : id ∈ σ.node.pending →
      Reaction σ id entry (.error .sessionInUse) (σ.log (.commit id nonces))
  | committed (nonces : C.SigningNonces) (commitments : C.SigningCommitments) :
      id ∉ σ.node.committedRequests → σ.node.policy entry.message = .ok () → id ∉ σ.node.pending →
      Reaction σ id entry (.ok (some (.submitCommitment id σ.node.identifier commitments)))
        (((σ.log (.commit id nonces)).modify (·.insertPending id nonces)).modify (·.insertCommitted id))
  | signFailed {pkg parts shares} (nonces : C.SigningNonces) (e : C.Error) :
      entry.status = .signing pkg parts shares → σ.node.pending[id]? = some nonces →
      Reaction σ id entry (.error (.frost (C.errorToString e)))
        ((σ.modify (·.removePending id)).log (.sign id nonces pkg entry.randomizer))
  | signed {pkg parts shares} (nonces : C.SigningNonces) (share : C.SignatureShare) :
      entry.status = .signing pkg parts shares → id ∉ σ.node.sharedRequests →
      σ.node.pending[id]? = some nonces →
      C.sign pkg nonces σ.node.bundle.keyPackage entry.randomizer = .ok share →
      Reaction σ id entry (.ok (some (.submitShare id σ.node.identifier share)))
        (((σ.modify (·.removePending id)).log (.sign id nonces pkg entry.randomizer)).modify (·.insertShared id))

namespace Ctx

variable {ctx : Ctx C} {id : Uuid}

theorem commit_inUse (ctx : Ctx C) (h : id ∈ ctx.node.pending) :
    ∃ nonces rng, ctx.commit id = (.error .sessionInUse, { toSigner := ctx.log (.commit id nonces), rng }) :=
  ⟨_, _, if_pos h⟩

theorem commit_ok (ctx : Ctx C) (h : id ∉ ctx.node.pending) :
    ∃ nonces commitments rng, ctx.commit id = (.ok commitments,
      { toSigner := (ctx.log (.commit id nonces)).modify (·.insertPending id nonces), rng }) :=
  ⟨_, _, _, if_neg h⟩

theorem sign_none {pkg : C.SigningPackage} {r : C.Randomizer} (h : ctx.node.pending[id]? = none) :
    ctx.signShareRerandomized id pkg r = (.error .sessionNotFound, ctx) := by
  unfold signShareRerandomized; rw [h]

theorem sign_some {pkg : C.SigningPackage} {r : C.Randomizer} {nonces : C.SigningNonces}
    (h : ctx.node.pending[id]? = some nonces) :
    ctx.signShareRerandomized id pkg r =
      ((C.sign pkg nonces ctx.node.bundle.keyPackage r).mapError (fun e => .frost (C.errorToString e)),
        { toSigner := (ctx.toSigner.modify (·.removePending id)).log (.sign id nonces pkg r), rng := ctx.rng }) := by
  unfold signShareRerandomized
  cases hs : C.sign pkg nonces ctx.node.bundle.keyPackage r <;>
    simp only [h, hs, modify, Signer.modify, Signer.log, Node.removePending] <;> rfl

end Ctx

theorem reactEntry_reaction (ctx : Ctx C) (id : Uuid) (entry : RequestEntry C) :
    Reaction ctx.toSigner id entry (ctx.reactEntry id entry).1 (ctx.reactEntry id entry).2.toSigner := by
  unfold Ctx.reactEntry
  cases hs : entry.status with
  | awaitingCommitments m =>
    by_cases hm : ctx.node.identifier ∈ m
    · simp only [hm, if_true]; exact .sawCommitment
    by_cases hc : id ∈ ctx.node.committedRequests
    · simp only [hm, hc, if_true, if_false]; exact .idle
    cases hp : ctx.node.policy entry.message with
    | error reason => simp only [hm, hc, if_false, hp]; exact .idle
    | ok _ =>
      simp only [hm, hc, if_false, hp]
      by_cases hpend : id ∈ ctx.node.pending
      · obtain ⟨nonces, rng, heq⟩ := Ctx.commit_inUse ctx hpend
        rw [heq]; exact .inUse nonces hpend
      · obtain ⟨nonces, commitments, rng, heq⟩ := Ctx.commit_ok ctx hpend
        rw [heq]; exact .committed nonces commitments hc hp hpend
  | signing pkg parts shares =>
    by_cases hp : ctx.node.identifier ∈ parts
    · by_cases hsh : ctx.node.identifier ∈ shares
      · simp only [hp, hsh, not_true, if_true, if_false]; exact .sawShare
      by_cases hr : id ∈ ctx.node.sharedRequests
      · simp only [hp, hsh, hr, not_true, if_true, if_false]; exact .idle
      simp only [hp, hsh, hr, not_true, if_false]
      cases hpend : ctx.node.pending[id]? with
      | none => rw [Ctx.sign_none hpend]; exact .idle
      | some nonces =>
        rw [Ctx.sign_some hpend]
        cases hsign : C.sign pkg nonces ctx.node.bundle.keyPackage entry.randomizer with
        | ok share => exact .signed nonces share hs hr hpend hsign
        | error e => exact .signFailed nonces e hs hpend
    · simp only [hp, not_false_eq_true, if_true]; exact .idle
  | completed parts sig => exact .idle
  | failed reason => exact .idle

/-! ## The call -/

def emitted : Except Error (Option (Tx C)) → List (Tx C)
  | .ok (some tx) => [tx]
  | _ => []

section
variable {P : List (Tx C) → Signer C → Prop} (hdrop : ∀ T out σ, P (T ++ out) σ → P T σ)
include hdrop

/-- An invariant over the transactions returned so far and the signer, kept by
every pass and not lost when transactions are dropped, is kept by the loop. -/
theorem reactEntries_invariant {T : List (Tx C)} : ∀ (l : List (Uuid × RequestEntry C)) (out : List (Tx C)) (ctx : Ctx C),
    (∀ id e, (id, e) ∈ l → ∀ T σ r σ', P T σ → Reaction σ id e r σ' → P (T ++ emitted r) σ') →
    P (T ++ out) ctx.toSigner →
    P (T ++ returned (ctx.reactEntries out l).1) (ctx.reactEntries out l).2.toSigner
  | [], out, ctx, _, h => h
  | (id, e) :: l, out, ctx, hs, h => by
    have hpass := hs id e (by simp) _ _ _ _ h (reactEntry_reaction ctx id e)
    have hrest := fun id' e' (hm : (id', e') ∈ l) => hs id' e' (List.mem_cons_of_mem _ hm)
    unfold Ctx.reactEntries
    cases hr : ctx.reactEntry id e with
    | mk r ctx' =>
      rw [hr] at hpass
      cases r with
      | error err =>
        have hkept : P (T ++ out) ctx'.toSigner := by simpa [emitted] using hpass
        show P (T ++ []) ctx'.toSigner
        rw [List.append_nil]
        exact hdrop T out _ hkept
      | ok o =>
        cases o with
        | none =>
          refine reactEntries_invariant l out ctx' hrest ?_
          simpa [emitted] using hpass
        | some tx =>
          refine reactEntries_invariant l (out ++ [tx]) ctx' hrest ?_
          simpa [emitted, List.append_assoc] using hpass

theorem react_invariant {T : List (Tx C)} {ctx : Ctx C} {s : State C}
    (hs : ∀ (id : Uuid) e, s.requests[id]? = some e → ∀ T σ r σ', P T σ → Reaction σ id e r σ' →
      P (T ++ emitted r) σ')
    (h : P T ctx.toSigner) : P (T ++ returned (ctx.react s).1) (ctx.react s).2.toSigner := by
  have hnil : P (T ++ []) ctx.toSigner := by rwa [List.append_nil]
  unfold Ctx.react
  cases s.group with
  | none => exact hnil
  | some g =>
    by_cases hid : ctx.node.identifier ∈ g.validators
    · simp only [hid, not_true, if_false]
      refine reactEntries_invariant hdrop _ [] ctx (fun id e hm => hs id e ?_) hnil
      exact Std.ExtTreeMap.mem_toList_iff_getElem?_eq_some.mp hm
    · simp only [hid, not_false_eq_true, if_true]
      exact hnil

end

def Signer.react (σ : Signer C) (s : State C) (rng : C.Rng) : Signer C × List (Tx C) :=
  let result := Ctx.react { toSigner := σ, rng } s
  (result.2.toSigner, returned result.1)

theorem Signer.react_invariant {P : List (Tx C) → Signer C → Prop} (hdrop : ∀ T out σ, P (T ++ out) σ → P T σ)
    {s : State C} {rng : C.Rng}
    (hs : ∀ (id : Uuid) e, s.requests[id]? = some e → ∀ T σ r σ', P T σ → Reaction σ id e r σ' →
      P (T ++ emitted r) σ')
    {T : List (Tx C)} {σ : Signer C} (h : P T σ) : P (T ++ (σ.react s rng).2) (σ.react s rng).1 := by
  let ctx : Ctx C := { toSigner := σ, rng }
  exact Sapphire.react_invariant hdrop hs (show P T ctx.toSigner from h)

def Signer.commit (σ : Signer C) (id : Uuid) (rng : C.Rng) : Signer C :=
  (Ctx.commit { toSigner := σ, rng } id).2.toSigner

end Sapphire
