import Sapphire.Blocks
import Sapphire.Signature
import Sapphire.Signing

/-!
# Whose rejection a session reports

`drive_signing_session` commits whatever waits in the mempool together with its
own request, and takes the first rejection of the block for its own. So it
reports other callers' rejections too.
-/

namespace Sapphire

open BTreeMap Replay

variable {C : Ciphersuite}

/-- One of the transactions panics in its turn. -/
def Panics (s : State C) (txs : List (Tx C)) : Prop :=
  ∃ pre tx post msg, txs = pre ++ tx :: post ∧ applyTx (replay applyTx s pre) tx = .error (.panic msg)

theorem panics_cons {s : State C} {tx : Tx C} {txs : List (Tx C)} :
    Panics s (tx :: txs) ↔ (∃ msg, applyTx s tx = .error (.panic msg)) ∨ Panics (feed applyTx s tx) txs := by
  constructor
  · intro hpanics
    obtain ⟨pre, tx', post, msg, hsplit, hpanic⟩ := hpanics
    cases pre with
    | nil =>
      obtain ⟨rfl, rfl⟩ := List.cons.inj hsplit
      exact Or.inl ⟨msg, hpanic⟩
    | cons head pre =>
      obtain ⟨rfl, rfl⟩ := List.cons.inj hsplit
      exact Or.inr ⟨pre, tx', post, msg, rfl, hpanic⟩
  · intro hpanics
    rcases hpanics with ⟨msg, hpanic⟩ | ⟨pre, tx', post, msg, rfl, hpanic⟩
    · exact ⟨[], tx, txs, msg, rfl, hpanic⟩
    · exact ⟨tx :: pre, tx', post, msg, rfl, hpanic⟩

theorem not_panics_nil (s : State C) : ¬ Panics s [] := by
  intro hpanics
  obtain ⟨pre, tx, post, msg, hsplit, _⟩ := hpanics
  cases pre <;> cases hsplit

namespace ChainSim

theorem commitLoop_isError {s : State C} (acc : List (Tx C)) (res : List (TxResult C)) {txs : List (Tx C)} :
    (∃ msg, commitLoop s acc res txs = .error msg) ↔ Panics s txs := by
  induction txs generalizing s acc res with
  | nil =>
    constructor
    · intro herr
      obtain ⟨msg, h⟩ := herr
      cases h
    · intro h
      exact absurd h (not_panics_nil s)
  | cons tx txs ih =>
    rw [commitLoop, panics_cons]
    cases ha : applyTx s tx with
    | ok next =>
      rw [feed_ok ha]
      simp [ih]
    | error fault =>
      rw [feed_error ha]
      cases fault with
      | err e => simp [ih]
      | panic msg => simp

theorem firstRejection_none {s s' : State C} {txs accepted : List (Tx C)} {results : List (TxResult C)}
    (h : commitLoop s [] [] txs = .ok (s', accepted, results)) :
    firstRejection results = none ↔ ∃ t, run applyTx s txs = .ok t := by
  induction txs generalizing s accepted results with
  | nil =>
    cases h
    exact iff_of_true rfl ⟨s', rfl⟩
  | cons tx txs ih =>
    rcases commitLoop_cons h with ⟨next, acc, res, ha, hl, rfl, rfl⟩ | ⟨e, res, ha, hl, rfl⟩
    · have hrest : (∃ t, run applyTx s (tx :: txs) = .ok t) ↔ ∃ t, run applyTx next txs = .ok t := by
        simp [run_cons, ha]
      rw [hrest, ← ih hl]
      rfl
    · refine iff_of_false (fun hnone => by cases hnone) ?_
      intro hall
      obtain ⟨t, ht⟩ := hall
      obtain ⟨m, hm, _⟩ := run_cons.mp ht
      rw [ha] at hm
      cases hm

end ChainSim

theorem firstRejection_append (results : List (TxResult C)) (result : TxResult C) :
    firstRejection (results ++ [result]) = (firstRejection results).or (firstRejection [result]) := by
  unfold firstRejection
  rw [List.findSome?_append]

theorem SigningSession.iterate_ne_rejected (id : Uuid) (bound : Nat) (session : SigningSession C) (e : ApplyError) :
    (iterate id bound session).1 ≠ .error (.err (.submitRequestRejected e)) := by
  induction bound generalizing session with
  | zero => simp [iterate]
  | succ bound ih =>
    rw [iterate]
    split
    · simp
    · split
      · simp
      · split
        · simp
        · split
          · simp
          · simp
          · split
            · exact ih _
            · simp
          · split
            · exact ih _
            · simp

/-! ## The first block -/

namespace SigningSession

section
variable (fillBytes : C.Rng → Vector UInt8 16 × C.Rng) (sighash : Vector UInt8 32) (alpha : C.Randomizer)
  (session : SigningSession C)

def ownRequest : Tx C := .submitRequest (Uuid.new fillBytes session.rng).1 sighash.toList alpha

/-- `apply_tx` rejects it: it is the last of the block. -/
def OwnRejected : Prop :=
  ∃ results chain e, (session.chain.submit (ownRequest fillBytes sighash alpha session)).commitBlock = .ok (results, chain) ∧
    results.getLast? = some (ownRequest fillBytes sighash alpha session, .error e)

def ReportsRejection : Prop :=
  ∃ e, (driveSigningSession fillBytes sighash alpha session).1 = .error (.err (.submitRequestRejected e))

def stateBefore : State C := replay applyTx session.chain.state session.chain.mempool

/-- The call reports a rejection exactly when its own request is rejected; and the
request is then not on the chain, nor will it be by what others submit. -/
structure Attributed : Prop where
  own : ReportsRejection fillBytes sighash alpha session ↔ OwnRejected fillBytes sighash alpha session
  absent : ReportsRejection fillBytes sighash alpha session →
    (Uuid.new fillBytes session.rng).1 ∉ (stateBefore session).requests → ∀ more : List (Tx C),
      (∀ tx ∈ more, ∀ msg r, tx ≠ .submitRequest (Uuid.new fillBytes session.rng).1 msg r) →
        (Uuid.new fillBytes session.rng).1 ∉
          (replay applyTx (driveSigningSession fillBytes sighash alpha session).2.chain.state more).requests

/-- All that waits is accepted in its turn, or the request itself is rejected, or the block panics before it. -/
def Unobstructed : Prop :=
  (∃ t, run applyTx session.chain.state session.chain.mempool = .ok t) ∨
    (∃ e, applyTx (stateBefore session) (ownRequest fillBytes sighash alpha session) = .error (.err e)) ∨
    Panics session.chain.state session.chain.mempool

end

section
variable {fillBytes : C.Rng → Vector UInt8 16 × C.Rng} {sighash : Vector UInt8 32} {alpha : C.Randomizer}
  {session : SigningSession C}

theorem ownRequest_no_panic (s : State C) (msg : String) :
    applyTx s (ownRequest fillBytes sighash alpha session) ≠ .error (.panic msg) := by
  intro h
  obtain ⟨v, pkp, c, htx, _⟩ := applyTx_panic h
  cases htx

theorem replay_unused {s : State C} {id : Uuid} (h : id ∉ s.requests) {more : List (Tx C)}
    (hmore : ∀ tx ∈ more, ∀ msg r, tx ≠ .submitRequest id msg r) : id ∉ (replay applyTx s more).requests := by
  apply replay_invariant_of (P := fun s : State C => id ∉ s.requests)
    (Q := fun tx => ∀ msg r, tx ≠ .submitRequest id msg r) _ h hmore
  intro s tx s' hs htx ha
  have hnone : s.requests[id]? = none := by simpa using hs
  rcases applyTx_entry ha id with heq | ⟨g, e, hid, _, hstep, _⟩
  · have hnone' : s'.requests[id]? = none := heq.trans hnone
    simpa using hnone'
  · rcases entryStep_content hid hstep with ⟨o, ho, _, _⟩ | ⟨_, heq⟩
    · rw [hnone] at ho
      cases ho
    · exact absurd heq (htx _ _)

variable (fillBytes sighash alpha) in
theorem first_block_eq {before : State C} {accepted : List (Tx C)} {results : List (TxResult C)}
    (h : ChainSim.commitLoop session.chain.state [] [] session.chain.mempool = .ok (before, accepted, results)) :
    (session.chain.submit (ownRequest fillBytes sighash alpha session)).commitBlock =
      match applyTx before (ownRequest fillBytes sighash alpha session) with
      | .ok next => .ok (results ++ [(ownRequest fillBytes sighash alpha session, .ok ())],
          { state := next, mempool := [], blockHeight := session.chain.blockHeight + 1,
            lastBlock := accepted ++ [ownRequest fillBytes sighash alpha session] })
      | .error (.err e) => .ok (results ++ [(ownRequest fillBytes sighash alpha session, .error e)],
          { state := before, mempool := [], blockHeight := session.chain.blockHeight + 1, lastBlock := accepted })
      | .error (.panic msg) => .error msg := by
  rw [ChainSim.commitBlock_eq, ChainSim.submit, ChainSim.commitLoop_append, h]
  simp only [Except.bind, ChainSim.commitLoop]
  cases applyTx before (ownRequest fillBytes sighash alpha session) with
  | ok next => rfl
  | error fault => cases fault <;> rfl

theorem drive_panic {msg : String}
    (h : (session.chain.submit (ownRequest fillBytes sighash alpha session)).commitBlock = .error msg) :
    (driveSigningSession fillBytes sighash alpha session).1 = .error (.panic msg) := by
  unfold ownRequest at h
  unfold driveSigningSession driveWithin
  simp only [h]

theorem drive_rejected {results : List (TxResult C)} {chain : ChainSim C} {e : ApplyError}
    (h : (session.chain.submit (ownRequest fillBytes sighash alpha session)).commitBlock = .ok (results, chain))
    (he : firstRejection results = some e) :
    (driveSigningSession fillBytes sighash alpha session).1 = .error (.err (.submitRequestRejected e)) ∧
      (driveSigningSession fillBytes sighash alpha session).2.chain = chain := by
  unfold ownRequest at h
  unfold driveSigningSession driveWithin
  simp only [h, he, and_self]

theorem drive_accepted {results : List (TxResult C)} {chain : ChainSim C}
    (h : (session.chain.submit (ownRequest fillBytes sighash alpha session)).commitBlock = .ok (results, chain))
    (hnone : firstRejection results = none) : ¬ ReportsRejection fillBytes sighash alpha session := by
  intro hreport
  obtain ⟨e, he⟩ := hreport
  unfold ownRequest at h
  unfold driveSigningSession driveWithin at he
  simp only [h, hnone] at he
  exact iterate_ne_rejected _ _ _ _ he

theorem Attributed.of_quiet (hreport : ¬ ReportsRejection fillBytes sighash alpha session)
    (hown : ¬ OwnRejected fillBytes sighash alpha session) : Attributed fillBytes sighash alpha session where
  own := iff_of_false hreport hown
  absent := fun h => absurd h hreport

theorem Attributed.of_panic (hpanics : Panics session.chain.state session.chain.mempool) :
    Attributed fillBytes sighash alpha session := by
  obtain ⟨msg, hloop⟩ := (ChainSim.commitLoop_isError [] []).mpr hpanics
  have hblock : (session.chain.submit (ownRequest fillBytes sighash alpha session)).commitBlock = .error msg := by
    rw [ChainSim.commitBlock_eq, ChainSim.submit, ChainSim.commitLoop_append, hloop]
    rfl
  apply Attributed.of_quiet
  · intro hreport
    obtain ⟨e, he⟩ := hreport
    rw [drive_panic hblock] at he
    cases he
  · intro hown
    obtain ⟨results, chain, e, hok, _⟩ := hown
    rw [hblock] at hok
    cases hok

section
variable {before : State C} {accepted : List (Tx C)} {results : List (TxResult C)}
  (hloop : ChainSim.commitLoop session.chain.state [] [] session.chain.mempool = .ok (before, accepted, results))
include hloop

/-- Where the own request is accepted, a report can only be of what was waiting. -/
theorem attributed_accepted {next : State C}
    (hown : applyTx before (ownRequest fillBytes sighash alpha session) = .ok next) :
    Attributed fillBytes sighash alpha session ↔ firstRejection results = none := by
  have hblock := first_block_eq fillBytes sighash alpha hloop
  simp only [hown] at hblock
  have haccepted : ¬ OwnRejected fillBytes sighash alpha session := by
    intro hrejected
    obtain ⟨results', chain, e, hok, hlast⟩ := hrejected
    rw [hblock] at hok
    cases hok
    rw [List.getLast?_concat] at hlast
    cases hlast
  have hfirst : firstRejection (results ++ [(ownRequest fillBytes sighash alpha session, .ok ())]) =
      firstRejection results := by
    rw [firstRejection_append]
    exact Option.or_none
  cases hres : firstRejection results with
  | none =>
    refine iff_of_true (.of_quiet ?_ haccepted) rfl
    exact drive_accepted hblock (hfirst.trans hres)
  | some e =>
    refine iff_of_false ?_ (Option.some_ne_none e)
    intro h
    exact haccepted (h.own.mp ⟨e, (drive_rejected hblock (hfirst.trans hres)).1⟩)

theorem Attributed.of_rejected {e : ApplyError}
    (hown : applyTx before (ownRequest fillBytes sighash alpha session) = .error (.err e)) :
    Attributed fillBytes sighash alpha session := by
  have hblock := first_block_eq fillBytes sighash alpha hloop
  simp only [hown] at hblock
  obtain ⟨e', hfirst⟩ : ∃ e',
      firstRejection (results ++ [(ownRequest fillBytes sighash alpha session, .error e)]) = some e' := by
    rw [firstRejection_append]
    cases firstRejection results with
    | none => exact ⟨e, rfl⟩
    | some e' => exact ⟨e', rfl⟩
  obtain ⟨hreport, hchain⟩ := drive_rejected hblock hfirst
  constructor
  · exact iff_of_true ⟨e', hreport⟩ ⟨_, _, e, hblock, List.getLast?_concat⟩
  · intro _ hnew more hmore
    rw [stateBefore, ← ChainSim.commitLoop_state hloop] at hnew
    rw [hchain]
    exact replay_unused hnew hmore

end

variable (fillBytes sighash alpha session) in
/-- A session reports its own rejection and no other's exactly when nothing that waits stands in its way. -/
theorem rejection_attributed_iff :
    Attributed fillBytes sighash alpha session ↔ Unobstructed fillBytes sighash alpha session := by
  cases hloop : ChainSim.commitLoop session.chain.state [] [] session.chain.mempool with
  | error msg =>
    have hpanics : Panics session.chain.state session.chain.mempool := (ChainSim.commitLoop_isError [] []).mp ⟨msg, hloop⟩
    exact iff_of_true (.of_panic hpanics) (Or.inr (Or.inr hpanics))
  | ok r =>
    obtain ⟨before, accepted, results⟩ := r
    have hbefore : before = stateBefore session := ChainSim.commitLoop_state hloop
    have hquiet : ¬ Panics session.chain.state session.chain.mempool := by
      rw [← ChainSim.commitLoop_isError [] [], hloop]
      simp
    cases hown : applyTx before (ownRequest fillBytes sighash alpha session) with
    | ok next =>
      rw [attributed_accepted hloop hown, ChainSim.firstRejection_none hloop]
      refine (or_iff_left ?_).symm
      intro hother
      rcases hother with ⟨e, he⟩ | hpanics
      · rw [← hbefore, hown] at he
        cases he
      · exact hquiet hpanics
    | error fault =>
      cases fault with
      | panic msg => exact absurd hown (ownRequest_no_panic before msg)
      | err e => exact iff_of_true (.of_rejected hloop hown) (Or.inr (Or.inl ⟨e, hbefore ▸ hown⟩))

end

end SigningSession

/-- A group, and another `InitGroup` that waits. -/
def Ideal.obstructed : SigningSession Ideal.suite where
  chain := { (ChainSim.new : ChainSim Ideal.suite) with
    state := reached [.initGroup Ideal.pair Ideal.pairKeys [1, 2]]
    mempool := [.initGroup Ideal.pair Ideal.pairKeys [1, 2]] }
  validators := []
  rng := (0 : Nat)

theorem SigningSession.rejection_misattributed :
    ¬ Attributed Ideal.duoFill (Vector.replicate 32 42) (5 : Int) Ideal.obstructed := by
  intro h
  have hblock : (Ideal.obstructed.chain.submit
      (ownRequest Ideal.duoFill (Vector.replicate 32 42) (5 : Int) Ideal.obstructed)).commitBlock =
      .ok ([(.initGroup Ideal.pair Ideal.pairKeys [1, 2], .error .alreadyInitialized),
        (ownRequest Ideal.duoFill (Vector.replicate 32 42) (5 : Int) Ideal.obstructed, .ok ())], _) := rfl
  obtain ⟨results, chain, e, hok, hlast⟩ := h.own.mp ⟨_, (drive_rejected hblock rfl).1⟩
  rw [hblock] at hok
  cases hok
  cases hlast

end Sapphire
