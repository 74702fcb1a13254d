import Sapphire.Panics
import Sapphire.Sim

/-!
# Blocks

The loop of `commit_block` is a fold, so where the blocks are cut does not
matter. What the blocks accept is a log that a late validator can replay. All
of this holds of runs that return, and a run returns exactly when no finalize
comes to a ceremony of nobody.
-/

namespace Sapphire

open Replay

variable {C : Ciphersuite}

inductive SimCall (C : Ciphersuite) where
  | submit (tx : Tx C)
  | commitBlock

/-- What a `commit_block` returns, and the `last_block` it leaves. -/
structure Block (C : Ciphersuite) where
  results : List (TxResult C)
  lastBlock : List (Tx C)

def submitted : List (SimCall C) → List (Tx C)
  | [] => []
  | .submit tx :: calls => tx :: submitted calls
  | .commitBlock :: calls => submitted calls

namespace ChainSim

/-- A panic in a call ends the run. -/
def exec : ChainSim C → List (SimCall C) → Except String (List (Block C) × ChainSim C)
  | chain, [] => .ok ([], chain)
  | chain, .submit tx :: calls => exec (chain.submit tx) calls
  | chain, .commitBlock :: calls =>
    match chain.commitBlock with
    | .error msg => .error msg
    | .ok (results, chain) =>
      match exec chain calls with
      | .error msg => .error msg
      | .ok (blocks, last) => .ok ({ results, lastBlock := chain.lastBlock } :: blocks, last)

/-! ## The loop -/

theorem commitLoop_acc (s : State C) (acc : List (Tx C)) (res : List (TxResult C)) (txs : List (Tx C)) :
    commitLoop s acc res txs = (commitLoop s [] [] txs).map fun (s', acc', res') => (s', acc ++ acc', res ++ res') := by
  induction txs generalizing s acc res with
  | nil => simp [commitLoop, Except.map]
  | cons tx txs ih =>
    rw [commitLoop, commitLoop]
    cases ha : applyTx s tx with
    | ok next =>
      simp only
      rw [ih next (acc ++ [tx]) (res ++ _), ih next ([] ++ [tx]) ([] ++ _)]
      cases commitLoop next [] [] txs <;> simp [Except.map]
    | error fault =>
      cases fault with
      | err e =>
        simp only
        rw [ih s acc (res ++ _), ih s [] ([] ++ _)]
        cases commitLoop s [] [] txs <;> simp [Except.map]
      | panic msg => rfl

theorem commitLoop_append (s : State C) (acc : List (Tx C)) (res : List (TxResult C)) (txs more : List (Tx C)) :
    commitLoop s acc res (txs ++ more) =
      (commitLoop s acc res txs).bind fun (s', acc', res') => commitLoop s' acc' res' more := by
  induction txs generalizing s acc res with
  | nil => rfl
  | cons tx txs ih =>
    rw [List.cons_append, commitLoop, commitLoop]
    cases applyTx s tx with
    | ok next => exact ih next _ _
    | error fault =>
      cases fault with
      | err e => exact ih s _ _
      | panic msg => rfl

theorem commitLoop_cons {s s' : State C} {tx : Tx C} {txs accepted : List (Tx C)} {results : List (TxResult C)}
    (h : commitLoop s [] [] (tx :: txs) = .ok (s', accepted, results)) :
    (∃ next acc res, applyTx s tx = .ok next ∧ commitLoop next [] [] txs = .ok (s', acc, res) ∧
      accepted = tx :: acc ∧ results = (tx, .ok ()) :: res) ∨
    ∃ e res, applyTx s tx = .error (.err e) ∧ commitLoop s [] [] txs = .ok (s', accepted, res) ∧
      results = (tx, .error e) :: res := by
  rw [commitLoop] at h
  cases ha : applyTx s tx with
  | ok next =>
    simp only [ha] at h
    rw [commitLoop_acc] at h
    cases hl : commitLoop next [] [] txs with
    | error msg => rw [hl] at h; cases h
    | ok r =>
      rw [hl] at h
      cases h
      exact Or.inl ⟨next, _, _, rfl, hl, rfl, rfl⟩
  | error fault =>
    cases fault with
    | err e =>
      simp only [ha] at h
      rw [commitLoop_acc] at h
      cases hl : commitLoop s [] [] txs with
      | error msg => rw [hl] at h; cases h
      | ok r =>
        rw [hl] at h
        cases h
        exact Or.inr ⟨e, _, rfl, rfl, rfl⟩
    | panic msg => simp only [ha] at h; cases h

/-- One result for each transaction, in order; the accepted ones are a run. -/
theorem commitLoop_spec {s s' : State C} {txs accepted : List (Tx C)} {results : List (TxResult C)}
    (h : commitLoop s [] [] txs = .ok (s', accepted, results)) :
    results.map Prod.fst = txs ∧ (results.filter (·.2.isOk)).map Prod.fst = accepted ∧ run applyTx s accepted = .ok s' := by
  induction txs generalizing s accepted results with
  | nil =>
    cases h
    exact ⟨rfl, rfl, rfl⟩
  | cons tx txs ih =>
    rcases commitLoop_cons h with ⟨next, acc, res, ha, hl, rfl, rfl⟩ | ⟨e, res, _, hl, rfl⟩
    · obtain ⟨hall, hacc, hrun⟩ := ih hl
      refine ⟨by simp [hall], ?_, run_cons.mpr ⟨next, ha, hrun⟩⟩
      rw [List.filter_cons_of_pos rfl, List.map_cons, hacc]
    · obtain ⟨hall, hacc, hrun⟩ := ih hl
      refine ⟨by simp [hall], ?_, hrun⟩
      rw [List.filter_cons_of_neg (by simp [Except.isOk, Except.toBool]), hacc]

theorem commitBlock_eq (chain : ChainSim C) : chain.commitBlock = (commitLoop chain.state [] [] chain.mempool).map
    fun (state, accepted, results) =>
      (results, { state, mempool := [], blockHeight := chain.blockHeight + 1, lastBlock := accepted }) := by
  unfold commitBlock
  cases commitLoop chain.state [] [] chain.mempool <;> rfl

/-! ## Runs -/

/-- What is left of a run: the state, what the blocks accepted and all results. -/
def ledger (run : List (Block C) × ChainSim C) : State C × List (Tx C) × List (TxResult C) :=
  (run.2.state, run.1.flatMap Block.lastBlock, run.1.flatMap Block.results)

/-- **Run.** However the blocks are cut, the run is one loop over what was submitted. -/
theorem exec_ledger (chain : ChainSim C) (calls : List (SimCall C)) :
    (exec chain (calls ++ [.commitBlock])).map ledger =
      commitLoop chain.state [] [] (chain.mempool ++ submitted calls) := by
  induction calls generalizing chain with
  | nil =>
    rw [List.nil_append, exec, commitBlock_eq, submitted, List.append_nil]
    cases commitLoop chain.state [] [] chain.mempool <;> simp [Except.map, exec, ledger]
  | cons call calls ih =>
    cases call with
    | submit tx =>
      rw [List.cons_append, exec, ih]
      simp [submit, submitted]
    | commitBlock =>
      rw [List.cons_append, exec, commitBlock_eq, submitted, commitLoop_append]
      cases commitLoop chain.state [] [] chain.mempool with
      | error msg => rfl
      | ok r =>
        obtain ⟨state, accepted, results⟩ := r
        simp only [Except.map, Except.bind]
        rw [commitLoop_acc]
        have hrest := ih { state, mempool := [], blockHeight := chain.blockHeight + 1, lastBlock := accepted }
        rw [List.nil_append] at hrest
        rw [← hrest]
        cases exec _ (calls ++ [.commitBlock]) <;> simp [Except.map, ledger]

theorem submitted_submits (txs : List (Tx C)) : submitted (txs.map .submit) = txs := by
  induction txs with
  | nil => rfl
  | cons tx txs ih => rw [List.map_cons, submitted, ih]

theorem commitBlock_spec {chain chain' : ChainSim C} {results : List (TxResult C)}
    (h : chain.commitBlock = .ok (results, chain')) :
    results.map Prod.fst = chain.mempool ∧ (results.filter (·.2.isOk)).map Prod.fst = chain'.lastBlock ∧
      chain'.mempool = [] := by
  rw [commitBlock_eq] at h
  cases hl : commitLoop chain.state [] [] chain.mempool with
  | error msg => rw [hl] at h; cases h
  | ok r =>
    rw [hl] at h
    cases h
    obtain ⟨hall, hacc, _⟩ := commitLoop_spec hl
    exact ⟨hall, hacc, rfl⟩

/-! ## Runs that return -/

theorem exec_append (chain : ChainSim C) (calls more : List (SimCall C)) : exec chain (calls ++ more) =
    (exec chain calls).bind fun (blocks, chain') =>
      (exec chain' more).map fun (blocks', last) => (blocks ++ blocks', last) := by
  induction calls generalizing chain with
  | nil =>
    rw [List.nil_append, exec]
    simp only [Except.bind, List.nil_append]
    cases exec chain more <;> rfl
  | cons call calls ih =>
    cases call with
    | submit tx => exact ih (chain.submit tx)
    | commitBlock =>
      rw [List.cons_append, exec, exec]
      cases chain.commitBlock with
      | error msg => rfl
      | ok r =>
        obtain ⟨results, chain'⟩ := r
        simp only [ih chain']
        cases exec chain' calls with
        | error msg => rfl
        | ok r =>
          simp only [Except.bind]
          cases exec r.2 more <;> rfl

theorem exec_of_ledger (chain : ChainSim C) (calls : List (SimCall C)) {s : State C} {accepted : List (Tx C)}
    {results : List (TxResult C)}
    (h : commitLoop chain.state [] [] (chain.mempool ++ submitted calls) = .ok (s, accepted, results)) :
    ∃ blocks last, exec chain (calls ++ [.commitBlock]) = .ok (blocks, last) ∧ last.state = s ∧
      blocks.flatMap Block.lastBlock = accepted ∧ blocks.flatMap Block.results = results := by
  rw [← exec_ledger] at h
  cases hexec : exec chain (calls ++ [.commitBlock]) with
  | error msg => rw [hexec] at h; cases h
  | ok run =>
    rw [hexec] at h
    cases h
    exact ⟨run.1, run.2, rfl, rfl, rfl, rfl⟩

/-- No ceremony of nobody is open when a finalize comes. -/
def FinalizesPopulated (s : State C) (txs : List (Tx C)) : Prop :=
  ∀ pre v pkp post, txs = pre ++ .dkgFinalize v pkp :: post → (replay applyTx s pre).Populated

theorem FinalizesPopulated.tail {s : State C} {tx : Tx C} {txs : List (Tx C)} (h : FinalizesPopulated s (tx :: txs)) :
    FinalizesPopulated (feed applyTx s tx) txs := by
  intro pre v pkp post heq
  exact h (tx :: pre) v pkp post (by rw [heq]; rfl)

theorem FinalizesPopulated.cons {s : State C} {tx : Tx C} {txs : List (Tx C)}
    (hhead : ∀ v pkp, tx = .dkgFinalize v pkp → s.Populated) (htail : FinalizesPopulated (feed applyTx s tx) txs) :
    FinalizesPopulated s (tx :: txs) := by
  intro pre v pkp post heq
  cases pre with
  | nil => exact hhead v pkp (List.cons.inj heq).1
  | cons tx' pre =>
    obtain ⟨rfl, hrest⟩ := List.cons.inj heq
    exact htail pre v pkp post hrest

theorem commitLoop_returns_acc {s : State C} {accepted : List (Tx C)} {results : List (TxResult C)}
    {txs : List (Tx C)} :
    (∃ r, commitLoop s accepted results txs = .ok r) ↔ ∃ r, commitLoop s [] [] txs = .ok r := by
  rw [commitLoop_acc]
  cases commitLoop s [] [] txs <;> simp [Except.map]

/-- The loop returns exactly when no finalize finds a ceremony of nobody. -/
theorem commitLoop_returns_iff {s : State C} {txs : List (Tx C)} :
    (∃ r, commitLoop s [] [] txs = .ok r) ↔ FinalizesPopulated s txs := by
  induction txs generalizing s with
  | nil => exact iff_of_true ⟨_, rfl⟩ fun pre v pkp post h => by simp at h
  | cons tx txs ih =>
    rw [commitLoop]
    cases ha : applyTx s tx with
    | ok next =>
      have hnext : (∃ r, commitLoop next [tx] [(tx, .ok ())] txs = .ok r) ↔ FinalizesPopulated next txs :=
        commitLoop_returns_acc.trans ih
      rw [← feed_ok ha] at hnext ⊢
      refine hnext.trans ⟨fun h => h.cons fun v pkp htx => ?_, fun h => h.tail⟩
      subst htx
      obtain ⟨c, hc, h2, _⟩ := applyDkgFinalize_ok.mp ha
      intro d hd
      rw [hc] at hd
      cases hd
      exact (DkgCeremony.r2Complete_iff.mp h2).1.ne'
    | error fault =>
      cases fault with
      | err e =>
        have hnext : (∃ r, commitLoop s [] [(tx, .error e)] txs = .ok r) ↔ FinalizesPopulated s txs :=
          commitLoop_returns_acc.trans ih
        refine hnext.trans ⟨fun h => .cons (fun v pkp htx => ?_) ((feed_error ha).symm ▸ h), fun h => ?_⟩
        · subst htx
          intro c hc h0
          rw [panic_of_empty hc h0] at ha
          cases ha
        · have htail := h.tail
          rwa [feed_error ha] at htail
      | panic msg =>
        refine iff_of_false (fun h => by obtain ⟨r, hr⟩ := h; cases hr) fun h => ?_
        obtain ⟨v, pkp, c, rfl, hc, h0⟩ := applyTx_panic ha
        exact h [] v pkp txs rfl c hc h0

/-- The fold that drops what is rejected, as results. -/
theorem commitLoop_results {s s' : State C} {txs accepted : List (Tx C)} {results : List (TxResult C)}
    (h : commitLoop s [] [] txs = .ok (s', accepted, results)) {k : Nat} {tx : Tx C} {r : Except ApplyError Unit}
    (hk : results[k]? = some (tx, r)) :
    r = .ok () ↔ ∃ next, applyTx (replay applyTx s (txs.take k)) tx = .ok next := by
  induction txs generalizing s accepted results k with
  | nil => cases h; cases hk
  | cons tx' txs ih =>
    rcases commitLoop_cons h with ⟨next, acc, res, ha, hl, rfl, rfl⟩ | ⟨e, res, ha, hl, rfl⟩
    · cases k with
      | zero =>
        cases hk
        exact iff_of_true rfl ⟨next, ha⟩
      | succ k =>
        rw [List.take_succ_cons, replay_cons, feed_ok ha]
        exact ih hl hk
    · cases k with
      | zero =>
        cases hk
        refine iff_of_false (fun h => by cases h) fun h => ?_
        obtain ⟨next, hnext⟩ := h
        rw [List.take_zero, replay_nil, ha] at hnext
        cases hnext
      | succ k =>
        rw [List.take_succ_cons, replay_cons, feed_error ha]
        exact ih hl hk

/-- What is promised of a run of `submit` and `commit_block` calls with a block at its end. -/
structure RunsAsOne (calls : List (SimCall C)) : Prop where
  /-- It leaves the state, and gives each transaction the result, of the run with that one block: those of the fold. -/
  same : ∃ blocks chain whole last, exec new (calls ++ [.commitBlock]) = .ok (blocks, chain) ∧
    exec new ((submitted calls).map .submit ++ [.commitBlock]) = .ok ([whole], last) ∧
    chain.state = last.state ∧ chain.state = reached (submitted calls) ∧
    blocks.flatMap Block.results = whole.results ∧ whole.results.map Prod.fst = submitted calls ∧
    (∀ (k : Nat) tx r, whole.results[k]? = some (tx, r) →
      (r = .ok () ↔ ∃ next, applyTx (reached ((submitted calls).take k)) tx = .ok next)) ∧
    run applyTx State.default (blocks.flatMap Block.lastBlock) = .ok chain.state
  /-- Each block answers for what was pending, in order, and leaves nothing pending. -/
  blocks : ∀ pre post, calls ++ [.commitBlock] = pre ++ .commitBlock :: post → ∃ earlier chain results chain',
    exec new pre = .ok (earlier, chain) ∧ chain.commitBlock = .ok (results, chain') ∧
      results.map Prod.fst = chain.mempool ∧ (results.filter (·.2.isOk)).map Prod.fst = chain'.lastBlock ∧
      chain'.mempool = []

theorem submitted_append (calls more : List (SimCall C)) :
    submitted (calls ++ more) = submitted calls ++ submitted more := by
  induction calls with
  | nil => rfl
  | cons call calls ih =>
    cases call with
    | submit tx => rw [List.cons_append, submitted, submitted, ih, List.cons_append]
    | commitBlock => exact ih

theorem exec_submits (chain : ChainSim C) (txs : List (Tx C)) (more : List (SimCall C)) :
    exec chain (txs.map .submit ++ more) = exec (chain.submitAll txs) more := by
  induction txs generalizing chain with
  | nil => simp [submitAll]
  | cons tx txs ih =>
    rw [List.map_cons, List.cons_append, exec, ih]
    simp [submit, submitAll]

theorem exec_commitBlock {chain : ChainSim C} {run : List (Block C) × ChainSim C}
    (h : exec chain [.commitBlock] = .ok run) : ∃ results last, chain.commitBlock = .ok (results, last) ∧
      run = ([{ results, lastBlock := last.lastBlock }], last) := by
  rw [exec] at h
  cases hcommit : chain.commitBlock with
  | error msg => rw [hcommit] at h; cases h
  | ok r =>
    rw [hcommit] at h
    exact ⟨r.1, r.2, rfl, (Except.ok.inj h).symm⟩

/-- A run that comes to a block comes to it after the calls before. -/
theorem exec_before {pre : List (SimCall C)} {run : List (Block C) × ChainSim C}
    (h : exec new (pre ++ [.commitBlock]) = .ok run) : ∃ earlier chain results chain',
      exec new pre = .ok (earlier, chain) ∧ chain.commitBlock = .ok (results, chain') := by
  rw [exec_append] at h
  cases hpre : exec new pre with
  | error msg => rw [hpre] at h; cases h
  | ok before =>
    rw [hpre] at h
    simp only [Except.bind] at h
    cases hlast : exec before.2 [.commitBlock] with
    | error msg => rw [hlast] at h; cases h
    | ok last =>
      obtain ⟨results, chain', hcommit, _⟩ := exec_commitBlock hlast
      exact ⟨before.1, before.2, results, chain', rfl, hcommit⟩

theorem runsAsOne_of_populated {calls : List (SimCall C)} (h : FinalizesPopulated State.default (submitted calls)) :
    RunsAsOne calls where
  same := by
    obtain ⟨⟨s, accepted, results⟩, hloop⟩ := commitLoop_returns_iff.mpr h
    obtain ⟨hall, _, hrun⟩ := commitLoop_spec hloop
    obtain ⟨blocks, chain, hexec, hstate, haccepted, hresults⟩ := exec_of_ledger new calls hloop
    have hwhole : commitLoop (new : ChainSim C).state [] []
        ((new : ChainSim C).mempool ++ submitted ((submitted calls).map .submit)) = .ok (s, accepted, results) := by
      rw [submitted_submits]
      exact hloop
    obtain ⟨single, last, hone, hlast, _, hsingle⟩ := exec_of_ledger new _ hwhole
    have hblock := hone
    rw [exec_submits] at hblock
    obtain ⟨results', _, _, heq⟩ := exec_commitBlock hblock
    obtain ⟨rfl, rfl⟩ := Prod.mk.inj heq
    have hsame : results' = results := by simpa using hsingle
    subst hsame
    refine ⟨blocks, chain, _, last, hexec, hone, hstate.trans hlast.symm, hstate.trans (commitLoop_state hloop), hresults,
      hall, fun k tx r hk => commitLoop_results hloop hk, ?_⟩
    rw [haccepted, hstate]
    exact hrun
  blocks := by
    intro pre post heq
    have hsub : submitted calls = submitted pre ++ submitted post := by
      have hcut := congrArg submitted heq
      rw [submitted_append, submitted_append] at hcut
      simpa [submitted] using hcut
    have hpre : FinalizesPopulated State.default (submitted pre) := by
      intro before v pkp after hsplit
      apply h before v pkp (after ++ submitted post)
      rw [hsub, hsplit, List.append_assoc, List.cons_append]
    obtain ⟨r, hloop⟩ := commitLoop_returns_iff.mpr hpre
    obtain ⟨blocks, last, hexec, _⟩ := exec_of_ledger new pre hloop
    obtain ⟨earlier, chain, results, chain', hbefore, hcommit⟩ := exec_before hexec
    exact ⟨earlier, chain, results, chain', hbefore, hcommit, commitBlock_spec hcommit⟩

/-- **Run.** Block boundaries do not matter, and blocks replay, exactly when no finalize is
submitted after a `DkgBegin` for nobody that the fold accepts. -/
theorem block_boundaries_iff (calls : List (SimCall C)) : RunsAsOne calls ↔
    ∀ pre v pkp post, submitted calls = pre ++ .dkgFinalize v pkp :: post →
      EachStep applyTx BeginsPopulated State.default pre := by
  have hpopulated : FinalizesPopulated State.default (submitted calls) ↔ ∀ pre v pkp post,
      submitted calls = pre ++ .dkgFinalize v pkp :: post → EachStep applyTx BeginsPopulated State.default pre := by
    unfold FinalizesPopulated
    simp only [reached_populated_iff]
  rw [← hpopulated]
  refine ⟨fun h => ?_, runsAsOne_of_populated⟩
  obtain ⟨blocks, chain, _, _, hexec, _⟩ := h.same
  have hledger := exec_ledger new calls
  rw [hexec] at hledger
  exact commitLoop_returns_iff.mp ⟨_, hledger.symm⟩

/-- The second transaction panics in `commit_block`. -/
theorem block_of_nobody : ¬ ∀ calls : List (SimCall Ideal.suite), RunsAsOne calls := by
  intro h
  obtain ⟨blocks, chain, _, _, hexec, _⟩ :=
    (h [.submit (.dkgBegin { threshold := 0, total := 0 } ∅), .submit (.dkgFinalize (1 : Nat) Ideal.pairKeys)]).same
  cases hexec

end ChainSim

end Sapphire
