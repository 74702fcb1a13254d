import Sapphire.Replay
import Sapphire.Chain

/-!
# The in-process chain

`ChainSim` collects transactions and applies them in order, a block at a
time. Nothing reads the height, so it is a plain count.
-/

namespace Sapphire

open Replay

variable {C : Ciphersuite}

structure ChainSim (C : Ciphersuite) where
  state : State C
  mempool : List (Tx C)
  blockHeight : Nat
  lastBlock : List (Tx C)

abbrev TxResult (C : Ciphersuite) := Tx C × Except ApplyError Unit

namespace ChainSim

def new : ChainSim C := { state := State.default, mempool := [], blockHeight := 0, lastBlock := [] }

def submit (chain : ChainSim C) (tx : Tx C) : ChainSim C := { chain with mempool := chain.mempool ++ [tx] }

/-- The loop of `commit_block`. A panic in `apply_tx` ends the call. -/
def commitLoop (state : State C) (accepted : List (Tx C)) (results : List (TxResult C)) :
    List (Tx C) → Except String (State C × List (Tx C) × List (TxResult C))
  | [] => .ok (state, accepted, results)
  | tx :: mempool =>
    match applyTx state tx with
    | .ok next => commitLoop next (accepted ++ [tx]) (results ++ [(tx, .ok ())]) mempool
    | .error (.err e) => commitLoop state accepted (results ++ [(tx, .error e)]) mempool
    | .error (.panic msg) => .error msg

def commitBlock (chain : ChainSim C) : Except String (List (TxResult C) × ChainSim C) :=
  match commitLoop chain.state [] [] chain.mempool with
  | .error msg => .error msg
  | .ok (state, accepted, results) =>
    .ok (results, { state, mempool := [], blockHeight := chain.blockHeight + 1, lastBlock := accepted })

def submitAll (chain : ChainSim C) (txs : List (Tx C)) : ChainSim C := { chain with mempool := chain.mempool ++ txs }

@[simp] theorem submitAll_state (chain : ChainSim C) (txs : List (Tx C)) : (chain.submitAll txs).state = chain.state := rfl

@[simp] theorem submitAll_mempool (chain : ChainSim C) (txs : List (Tx C)) :
    (chain.submitAll txs).mempool = chain.mempool ++ txs := rfl

theorem submitAll_eq_foldl (chain : ChainSim C) (txs : List (Tx C)) : txs.foldl submit chain = chain.submitAll txs := by
  induction txs generalizing chain with
  | nil => simp [submitAll]
  | cons tx txs ih =>
    rw [List.foldl_cons, ih]
    simp [submit, submitAll]

theorem commitLoop_state {s s' : State C} {acc acc' : List (Tx C)} {res res' : List (TxResult C)} {txs : List (Tx C)}
    (h : commitLoop s acc res txs = .ok (s', acc', res')) : s' = replay applyTx s txs := by
  induction txs generalizing s acc res with
  | nil => cases h; rfl
  | cons tx txs ih =>
    rw [commitLoop] at h
    rw [replay_cons]
    cases ha : applyTx s tx with
    | ok m =>
      simp only [ha] at h
      rw [feed_ok ha]; exact ih h
    | error f =>
      rw [feed_error ha]
      cases f with
      | err e =>
        simp only [ha] at h
        exact ih h
      | panic msg =>
        simp only [ha] at h
        cases h

theorem commitLoop_run {s t : State C} {txs rest : List (Tx C)} (hr : run applyTx s txs = .ok t)
    (hrest : ∀ tx ∈ rest, ∃ e, applyTx t tx = .error (.err e)) (acc : List (Tx C)) (res : List (TxResult C)) :
    ∃ more, commitLoop s acc res (txs ++ rest) = .ok (t, acc ++ txs, res ++ txs.map (·, .ok ()) ++ more) ∧
      more.length = rest.length := by
  induction txs generalizing s acc res with
  | nil =>
    rw [run_nil] at hr; cases hr
    induction rest generalizing res with
    | nil => exact ⟨[], by simp [commitLoop], rfl⟩
    | cons tx rest ih =>
      obtain ⟨e, he⟩ := hrest tx (by simp)
      obtain ⟨more, hmore, hlen⟩ := ih (fun tx htx => hrest tx (List.mem_cons_of_mem _ htx)) (res ++ [(tx, .error e)])
      refine ⟨(tx, .error e) :: more, ?_, by simp [hlen]⟩
      rw [List.nil_append] at hmore ⊢
      rw [commitLoop]
      simp only [he]
      rw [hmore]
      simp
  | cons tx txs ih =>
    obtain ⟨m, hm, hr'⟩ := run_cons.mp hr
    obtain ⟨more, hmore, hlen⟩ := ih hr' (acc ++ [tx]) (res ++ [(tx, .ok ())])
    refine ⟨more, ?_, hlen⟩
    rw [List.cons_append, commitLoop]
    simp only [hm]
    rw [hmore]
    simp

theorem commitBlock_state {chain chain' : ChainSim C} {results : List (TxResult C)}
    (h : chain.commitBlock = .ok (results, chain')) :
    chain'.state = replay applyTx chain.state chain.mempool ∧ chain'.mempool = [] := by
  unfold commitBlock at h
  cases hl : commitLoop chain.state [] [] chain.mempool with
  | error msg => simp only [hl] at h; cases h
  | ok r =>
    simp only [hl] at h
    cases h
    exact ⟨commitLoop_state hl, rfl⟩

theorem commitBlock_run {chain : ChainSim C} {t : State C} {txs rest : List (Tx C)} (hmem : chain.mempool = txs ++ rest)
    (hr : run applyTx chain.state txs = .ok t) (hrest : ∀ tx ∈ rest, ∃ e, applyTx t tx = .error (.err e)) :
    ∃ more, chain.commitBlock = .ok (txs.map (·, .ok ()) ++ more,
      { state := t, mempool := [], blockHeight := chain.blockHeight + 1, lastBlock := txs }) ∧
      more.length = rest.length := by
  obtain ⟨more, hmore, hlen⟩ := commitLoop_run hr hrest [] []
  refine ⟨more, ?_, hlen⟩
  unfold commitBlock
  rw [hmem, hmore]
  simp

theorem commitBlock_all {chain : ChainSim C} {t : State C} (hr : run applyTx chain.state chain.mempool = .ok t) :
    chain.commitBlock = .ok (chain.mempool.map (·, .ok ()),
      { state := t, mempool := [], blockHeight := chain.blockHeight + 1, lastBlock := chain.mempool }) := by
  obtain ⟨more, hmore, hlen⟩ := commitBlock_run (List.append_nil _).symm hr (by simp)
  rw [List.length_eq_zero_iff.mp hlen] at hmore
  simpa using hmore

end ChainSim

end Sapphire
