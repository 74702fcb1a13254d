import Sapphire.NodeSteps
import Sapphire.Sim

/-!
# One signing session

`drive_signing_session` submits a request and lets the validators react and
blocks be committed until the request is settled. A round in which everyone
returns without an error submits what they return, in their order.
-/

namespace Sapphire

open BTreeMap Replay

variable {C : Ciphersuite}

/-- `Uuid::new`, over the generator's `fill_bytes`. -/
def Uuid.new (fillBytes : C.Rng → Vector UInt8 16 × C.Rng) (rng : C.Rng) : Uuid × C.Rng :=
  let drawn := fillBytes rng
  (⟨drawn.1⟩, drawn.2)

inductive SignError where
  /-- The code keeps the text of the error. -/
  | submitRequestRejected (e : ApplyError)
  | validatorReact (e : Error)
  | aggregationFailed (reason : String)
  | stuckBeforeCompletion (status : String)
  | requestMissing
deriving DecidableEq, Repr

inductive SignFault where
  | err (e : SignError)
  | panic (msg : String)
deriving DecidableEq, Repr

/-- What a session reads and writes: the chain, the slice of nodes, the generator. -/
structure SigningSession (C : Ciphersuite) where
  chain : ChainSim C
  validators : List (Node C)
  rng : C.Rng

def firstRejection (results : List (TxResult C)) : Option ApplyError :=
  results.findSome? fun result =>
    match result.2 with
    | .ok _ => none
    | .error e => some e

namespace SigningSession

/-- The loop over the validators. Blocks are not committed in it, so all of them see one state. -/
def reactAll (chain : ChainSim C) (rng : C.Rng) (emittedAny : Bool) :
    List (Node C) → Except Error Bool × SigningSession C
  | [] => (.ok emittedAny, { chain, validators := [], rng })
  | v :: validators =>
    match Ctx.react { node := v, calls := [], rng } chain.state with
    | (.error e, ctx) => (.error e, { chain, validators := ctx.node :: validators, rng := ctx.rng })
    | (.ok txs, ctx) =>
      let rest := reactAll (chain.submitAll txs) ctx.rng (emittedAny || !txs.isEmpty) validators
      (rest.1, { rest.2 with validators := ctx.node :: rest.2.validators })

/-- The loop over the blocks, at most `bound` of them. -/
def iterate (requestId : Uuid) : Nat → SigningSession C → Except SignFault C.Signature × SigningSession C
  | 0, session => (.error (.err (.stuckBeforeCompletion "loop bound exhausted")), session)
  | bound + 1, session =>
    match reactAll session.chain session.rng false session.validators with
    | (.error e, session) => (.error (.err (.validatorReact e)), session)
    | (.ok emittedAny, session) =>
      match session.chain.commitBlock with
      | .error msg => (.error (.panic msg), session)
      | .ok (_, chain) =>
        let session := { session with chain }
        match chain.state.requests[requestId]? with
        | none => (.error (.err .requestMissing), session)
        | some entry =>
          match entry.status with
          | .completed _ signature => (.ok signature, session)
          | .failed reason => (.error (.err (.aggregationFailed reason)), session)
          | .awaitingCommitments _ =>
            if emittedAny then iterate requestId bound session
            else (.error (.err (.stuckBeforeCompletion "AwaitingCommitments")), session)
          | .signing _ _ _ =>
            if emittedAny then iterate requestId bound session
            else (.error (.err (.stuckBeforeCompletion "Signing")), session)

def driveWithin (bound : Nat) (fillBytes : C.Rng → Vector UInt8 16 × C.Rng) (sighash : Vector UInt8 32)
    (alpha : C.Randomizer) (session : SigningSession C) : Except SignFault C.Signature × SigningSession C :=
  let drawn := Uuid.new fillBytes session.rng
  let chain := session.chain.submit (.submitRequest drawn.1 sighash.toList alpha)
  match chain.commitBlock with
  | .error msg => (.error (.panic msg), { session with chain, rng := drawn.2 })
  | .ok (results, chain) =>
    let session := { session with chain, rng := drawn.2 }
    match firstRejection results with
    | some e => (.error (.err (.submitRequestRejected e)), session)
    | none => iterate drawn.1 bound session

/-- `drive_signing_session`. -/
def driveSigningSession (fillBytes : C.Rng → Vector UInt8 16 × C.Rng) (sighash : Vector UInt8 32)
    (alpha : C.Randomizer) (session : SigningSession C) : Except SignFault C.Signature × SigningSession C :=
  driveWithin 8 fillBytes sighash alpha session

/-! ## A round of reactions -/

theorem reactAll_each {s : State C} {node : C.Identifier → Node C} {R : C.Identifier → List (Tx C) → Node C → Prop} :
    ∀ {slice : List C.Identifier} {chain : ChainSim C} (rng : C.Rng) (emittedAny : Bool), slice.Nodup →
      chain.state = s →
      (∀ i ∈ slice, ∀ rng, ∃ txs ctx, Ctx.react { node := node i, calls := [], rng } s = (.ok txs, ctx) ∧
        R i txs ctx.node) →
      ∃ (out : C.Identifier → List (Tx C)) (node' : C.Identifier → Node C) (rng' : C.Rng),
        (∀ i ∈ slice, R i (out i) (node' i)) ∧
        reactAll chain rng emittedAny (slice.map node) = (.ok (emittedAny || !(slice.flatMap out).isEmpty),
          { chain := chain.submitAll (slice.flatMap out), validators := slice.map node', rng := rng' }) := by
  intro slice
  induction slice with
  | nil =>
    intro chain rng emittedAny _ _ _
    refine ⟨fun _ => [], node, rng, by simp, ?_⟩
    simp [reactAll, ChainSim.submitAll]
  | cons i slice ih =>
    intro chain rng emittedAny hd hs hreact
    obtain ⟨hnew, hd⟩ := List.nodup_cons.mp hd
    obtain ⟨txs, ctx, hrun, hR⟩ := hreact i (by simp) rng
    have hs' : (chain.submitAll txs).state = s := hs
    obtain ⟨out, node', rng', hall, hrest⟩ := ih ctx.rng (emittedAny || !txs.isEmpty) hd hs'
      fun j hj => hreact j (List.mem_cons_of_mem _ hj)
    have hne : ∀ j ∈ slice, j ≠ i := fun j hj heq => hnew (heq ▸ hj)
    have hout : slice.flatMap (Function.update out i txs) = slice.flatMap out := by
      rw [List.flatMap_def, List.flatMap_def]
      exact congrArg _ (List.map_congr_left fun j hj => Function.update_of_ne (hne j hj) ..)
    have hnode : slice.map (Function.update node' i ctx.node) = slice.map node' :=
      List.map_congr_left fun j hj => Function.update_of_ne (hne j hj) ..
    refine ⟨Function.update out i txs, Function.update node' i ctx.node, rng', fun j hj => ?_, ?_⟩
    · rcases List.mem_cons.mp hj with rfl | hj
      · rw [Function.update_self, Function.update_self]; exact hR
      · rw [Function.update_of_ne (hne j hj), Function.update_of_ne (hne j hj)]; exact hall j hj
    · rw [List.map_cons, reactAll, hs, hrun]
      simp only [hrest, List.flatMap_cons, List.map_cons, Function.update_self, hout, hnode]
      cases txs <;> simp [ChainSim.submitAll]

end SigningSession

/-! ## Nodes with one open request -/

def RequestEntry.Done (e : RequestEntry C) : Prop := ∃ parts sig, e.status = .completed parts sig

namespace Ctx

theorem reactEntry_done (ctx : Ctx C) (id : Uuid) {e : RequestEntry C} (h : e.Done) :
    ctx.reactEntry id e = (.ok none, ctx) := by
  obtain ⟨parts, sig, hs⟩ := h
  unfold reactEntry
  simp only [hs]

theorem reactEntries_done {ctx : Ctx C} {out : List (Tx C)} {l : List (Uuid × RequestEntry C)}
    (h : ∀ entry ∈ l, entry.2.Done) : ctx.reactEntries out l = (.ok out, ctx) := by
  induction l with
  | nil => rfl
  | cons entry l ih =>
    obtain ⟨id, e⟩ := entry
    rw [reactEntries, reactEntry_done ctx id (h (id, e) (by simp))]
    exact ih fun entry he => h entry (List.mem_cons_of_mem _ he)

theorem reactEntries_single {ctx ctx' : Ctx C} {id : Uuid} {e : RequestEntry C} {tx : Option (Tx C)}
    (hr : ctx.reactEntry id e = (.ok tx, ctx')) {out : List (Tx C)} {l : List (Uuid × RequestEntry C)}
    (hd : (l.map Prod.fst).Nodup) (hmem : (id, e) ∈ l) (hdone : ∀ entry ∈ l, entry.1 ≠ id → entry.2.Done) :
    ctx.reactEntries out l = (.ok (out ++ tx.toList), ctx') := by
  induction l with
  | nil => cases hmem
  | cons entry l ih =>
    obtain ⟨id', e'⟩ := entry
    obtain ⟨hnew, hd⟩ := List.nodup_cons.mp hd
    rcases List.mem_cons.mp hmem with heq | hmem
    · cases heq
      have hrest : ∀ entry ∈ l, entry.2.Done := by
        intro entry he
        refine hdone entry (List.mem_cons_of_mem _ he) ?_
        rintro rfl
        exact hnew (List.mem_map.mpr ⟨entry, he, rfl⟩)
      cases tx with
      | none => simp [reactEntries, hr, reactEntries_done hrest]
      | some tx => simp [reactEntries, hr, reactEntries_done hrest]
    · have hne : id' ≠ id := by
        rintro rfl
        exact hnew (List.mem_map.mpr ⟨_, hmem, rfl⟩)
      rw [reactEntries, reactEntry_done ctx id' (hdone (id', e') (by simp) hne)]
      exact ih hd hmem fun entry he => hdone entry (List.mem_cons_of_mem _ he)

/-- Where every other request is completed, a call is one pass. -/
theorem react_single {ctx ctx' : Ctx C} {s : State C} {g : GroupConfig C} {id : Uuid} {e : RequestEntry C}
    {tx : Option (Tx C)} (hg : s.group = some g) (hv : ctx.node.identifier ∈ g.validators)
    (he : s.requests[id]? = some e) (hdone : ∀ id' e', s.requests[id']? = some e' → id' ≠ id → e'.Done)
    (hr : ctx.reactEntry id e = (.ok tx, ctx')) : ctx.react s = (.ok tx.toList, ctx') := by
  have hsingle : ctx.reactEntries [] s.requests.toList = (.ok ([] ++ tx.toList), ctx') := reactEntries_single hr
    s.requests.nodup_toList_keys
    (Std.ExtTreeMap.mem_toList_iff_getElem?_eq_some.mpr he)
    fun entry hm => hdone entry.1 entry.2 (Std.ExtTreeMap.mem_toList_iff_getElem?_eq_some.mp hm)
  unfold react
  simp only [hg, hv, not_true, if_false]
  exact hsingle

end Ctx

/-! ## The loop -/

namespace SigningSession

variable {requestId : Uuid} {chain chain' : ChainSim C} {rng : C.Rng} {validators : List (Node C)}
  {session : SigningSession C} {results : List (TxResult C)} {entry : RequestEntry C}

theorem iterate_signing (hreact : reactAll chain rng false validators = (.ok true, session))
    (hcommit : session.chain.commitBlock = .ok (results, chain')) (he : chain'.state.requests[requestId]? = some entry)
    {pkg parts shares} (hs : entry.status = .signing pkg parts shares) (bound : Nat) :
    iterate requestId (bound + 1) { chain, validators, rng } = iterate requestId bound { session with chain := chain' } := by
  rw [iterate, hreact]
  simp only [hcommit, he, hs, if_true]

theorem iterate_completed {emittedAny : Bool}
    (hreact : reactAll chain rng false validators = (.ok emittedAny, session))
    (hcommit : session.chain.commitBlock = .ok (results, chain')) (he : chain'.state.requests[requestId]? = some entry)
    {parts signature} (hs : entry.status = .completed parts signature) (bound : Nat) :
    iterate requestId (bound + 1) { chain, validators, rng } = (.ok signature, { session with chain := chain' }) := by
  rw [iterate, hreact]
  simp only [hcommit, he, hs]

theorem driveWithin_submitted {fillBytes : C.Rng → Vector UInt8 16 × C.Rng} {sighash : Vector UInt8 32}
    {alpha : C.Randomizer} (hcommit : (session.chain.submit
      (.submitRequest (Uuid.new fillBytes session.rng).1 sighash.toList alpha)).commitBlock = .ok (results, chain))
    (haccepted : firstRejection results = none) (bound : Nat) :
    driveWithin bound fillBytes sighash alpha session = iterate (Uuid.new fillBytes session.rng).1 bound
      { chain, validators := session.validators, rng := (Uuid.new fillBytes session.rng).2 } := by
  unfold driveWithin
  simp only [hcommit, haccepted]

end SigningSession

/-- A session that ends within a bound ends the same within every larger one. -/
theorem SigningSession.iterate_more {requestId : Uuid} {sig : C.Signature} :
    ∀ {bound : Nat} {session session' : SigningSession C},
    iterate requestId bound session = (.ok sig, session') → ∀ more,
      iterate requestId (bound + more) session = (.ok sig, session') := by
  intro bound
  induction bound with
  | zero => intro session session' h; cases h
  | succ bound ih =>
    intro session session' h more
    rw [Nat.succ_add, iterate]
    rw [iterate] at h
    revert h
    rcases reactAll session.chain session.rng false session.validators with ⟨r, session₁⟩
    cases r with
    | error e => exact fun h => by cases h
    | ok emittedAny =>
      dsimp only
      cases session₁.chain.commitBlock with
      | error msg => exact fun h => by cases h
      | ok result =>
        dsimp only
        cases result.2.state.requests[requestId]? with
        | none => exact fun h => by cases h
        | some entry =>
          dsimp only
          cases entry.status with
          | completed parts signature => exact id
          | failed reason => exact fun h => by cases h
          | awaitingCommitments m =>
            dsimp only
            cases emittedAny with
            | true => exact fun h => ih h more
            | false => exact fun h => by cases h
          | signing pkg parts shares =>
            dsimp only
            cases emittedAny with
            | true => exact fun h => ih h more
            | false => exact fun h => by cases h

theorem SigningSession.driveWithin_more {bound : Nat} {fillBytes : C.Rng → Vector UInt8 16 × C.Rng}
    {sighash : Vector UInt8 32}
    {alpha : C.Randomizer} {session session' : SigningSession C} {sig : C.Signature}
    (h : driveWithin bound fillBytes sighash alpha session = (.ok sig, session')) (more : Nat) :
    driveWithin (bound + more) fillBytes sighash alpha session = (.ok sig, session') := by
  unfold driveWithin at h ⊢
  dsimp only at h ⊢
  revert h
  cases (session.chain.submit _).commitBlock with
  | error msg => exact fun h => by cases h
  | ok result =>
    dsimp only
    cases firstRejection result.1 with
    | some e => exact fun h => by cases h
    | none => exact fun h => iterate_more h more

end Sapphire
