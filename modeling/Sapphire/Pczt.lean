import Sapphire.OpenSession

/-!
# Signing the actions of a PCZT

`sapphire-zcash`'s signer drives one session for every Orchard action of a
bundle and hands the signature to orchard, which checks it against the
action's own key. A padding action has a key of its own, so the bundle is
finished exactly when it has none, and no request left open on the chain spoils
the sessions. The orchard and redpallas crates and the byte encodings are
parameters.
-/

namespace Sapphire

open BTreeMap Replay

variable {C : Ciphersuite}

/-- What the signer reads and writes of an Orchard action. -/
structure PcztAction (Scalar VerificationKey : Type) where
  alpha : Option Scalar
  rk : VerificationKey
  spendAuthSig : Option (Vector UInt8 64)

/-- `applySignature` takes the action by `&mut`. `randomizer` and
`verificationKey` read the scalars and points of one crate in another. -/
structure Orchard (C : Ciphersuite) where
  Scalar : Type
  VerificationKey : Type
  toRepr : Scalar → Vector UInt8 32
  deserialize : Bytes → Except String C.Randomizer
  serialize : C.Signature → Except String Bytes
  applySignature : Vector UInt8 32 → Vector UInt8 64 → PcztAction Scalar VerificationKey →
    Except String Unit × PcztAction Scalar VerificationKey
  verify : VerificationKey → Vector UInt8 32 → Vector UInt8 64 → Bool
  randomizer : Scalar → C.Randomizer
  verificationKey : C.VerifyingKey → VerificationKey

inductive PcztSignError where
  | actionMissingAlpha (idx : Nat)
  | sign (action : Nat) (source : SignError)
  | conversion (idx : Nat)
  | applyRejected (idx : Nat) (e : String)
deriving DecidableEq, Repr

inductive PcztFault where
  | err (e : PcztSignError)
  | panic (msg : String)
deriving DecidableEq, Repr

/-- `try_into` of a slice to `[u8; n]`. -/
def tryIntoArray (n : Nat) (bytes : Bytes) : Option (Vector UInt8 n) :=
  if h : bytes.length = n then some ⟨bytes.toArray, List.size_toArray.trans h⟩ else none

namespace Orchard

variable (O : Orchard C)

abbrev Action := PcztAction O.Scalar O.VerificationKey

variable (fillBytes : C.Rng → Vector UInt8 16 × C.Rng) (sighash : Vector UInt8 32)

/-- One pass of the loop over the actions. -/
def signAction (idx : Nat) (action : O.Action) (session : SigningSession C) :
    Except PcztFault Unit × O.Action × SigningSession C :=
  match action.alpha with
  | none => (.error (.err (.actionMissingAlpha idx)), action, session)
  | some alphaScalar =>
    match O.deserialize (O.toRepr alphaScalar).toList with
    | .error _ => (.error (.err (.conversion idx)), action, session)
    | .ok alphaRandomizer =>
      match SigningSession.driveSigningSession fillBytes sighash alphaRandomizer session with
      | (.error (.err source), session) => (.error (.err (.sign idx source)), action, session)
      | (.error (.panic msg), session) => (.error (.panic msg), action, session)
      | (.ok signature, session) =>
        match O.serialize signature with
        | .error _ => (.error (.err (.conversion idx)), action, session)
        | .ok sigBytes =>
          match tryIntoArray 64 sigBytes with
          | none => (.error (.err (.conversion idx)), action, session)
          | some sigArr =>
            match O.applySignature sighash sigArr action with
            | (.error e, action) => (.error (.err (.applyRejected idx e)), action, session)
            | (.ok (), action) => (.ok (), action, session)

def signActions (idx : Nat) (session : SigningSession C) :
    List O.Action → Except PcztFault Unit × List O.Action × SigningSession C
  | [] => (.ok (), [], session)
  | action :: actions =>
    match O.signAction fillBytes sighash idx action session with
    | (.error e, action, session) => (.error e, action :: actions, session)
    | (.ok (), action, session) =>
      let rest := signActions (idx + 1) session actions
      (rest.1, action :: rest.2.1, rest.2.2)

def signPcztOrchardBundle (bundle : List O.Action) (session : SigningSession C) :
    Except PcztFault Unit × List O.Action × SigningSession C :=
  O.signActions fillBytes sighash 0 session bundle

/-! ## Bundles -/

variable (K : GroupKeys C)

/-- The group's key, rerandomized with the scalar. -/
def groupRk (alpha : O.Scalar) : O.VerificationKey :=
  O.verificationKey (C.verifyingKey K.pkp + O.randomizer alpha • C.generator)

def Real (action : O.Action) : Prop := ∃ alpha, action.alpha = some alpha ∧ action.rk = O.groupRk K alpha

/-- A padding spend, which the IO Finalizer has signed with its own key. -/
def Dummy (action : O.Action) : Prop :=
  ∃ alpha sig, action.alpha = some alpha ∧ action.rk ≠ O.groupRk K alpha ∧ action.spendAuthSig = some sig ∧
    O.verify action.rk sighash sig = true

/-- An action as the call should leave it. -/
structure Finished (before after : O.Action) : Prop where
  real : O.Real K before → ∃ sig, after = { before with spendAuthSig := some sig } ∧
    O.verify before.rk sighash sig = true
  dummy : O.Dummy sighash K before → after.spendAuthSig = before.spendAuthSig

/-- What the signer relies on. A signature over `sighash` is valid under one key only. -/
structure Laws : Prop where
  deserialize : ∀ alpha, O.deserialize (O.toRepr alpha).toList = .ok (O.randomizer alpha)
  serialize : ∀ key sighash signature, C.verify key (Vector.toList sighash) signature = true →
    ∃ sig : Vector UInt8 64, O.serialize signature = .ok sig.toList ∧
      O.verify (O.verificationKey key) sighash sig = true
  accepts : ∀ sighash sig (action : O.Action), O.verify action.rk sighash sig = true →
    O.applySignature sighash sig action = (.ok (), { action with spendAuthSig := some sig })
  rejects : ∀ sighash sig (action : O.Action), O.verify action.rk sighash sig = false →
    ∃ e, O.applySignature sighash sig action = (.error e, action)
  unique : ∀ rk rk' sighash sig, O.verify rk sighash sig = true → O.verify rk' sighash sig = true → rk = rk'

/-- Each session of the call draws a request id that is not in use. -/
def FreshIds (idx : Nat) (used : List Uuid) (session : SigningSession C) : List O.Action → Prop
  | [] => True
  | action :: actions =>
    let id := (Uuid.new fillBytes session.rng).1
    let signed := O.signAction fillBytes sighash idx action session
    id ∉ used ∧ (signed.1 = .ok () → FreshIds (idx + 1) (id :: used) signed.2.2 actions)

end Orchard

/-- Between two sessions, where no open request spoils the next. -/
def SigningSession.Rested (K : GroupKeys C) (commitmentsOf : C.SigningNonces → C.SigningCommitments)
    (slice : List C.Identifier) (used : List Uuid) (message : Bytes) (session : SigningSession C) : Prop :=
  ∃ node, session.Convened K slice used message node ∧ Unspoilt K commitmentsOf slice node session.chain.state

theorem tryIntoArray_toList {n : Nat} (v : Vector UInt8 n) : tryIntoArray n v.toList = some v := by
  unfold tryIntoArray
  rw [dif_pos (by simp)]
  rfl

namespace Orchard

variable {O : Orchard C} {fillBytes : C.Rng → Vector UInt8 16 × C.Rng} {sighash : Vector UInt8 32}
  {K : GroupKeys C} {commitmentsOf : C.SigningNonces → C.SigningCommitments} {slice : List C.Identifier}
  {used : List Uuid} {node : C.Identifier → Node C} {session : SigningSession C}

theorem Dummy.not_real {action : O.Action} (hdummy : O.Dummy sighash K action) : ¬ O.Real K action := by
  intro hreal
  obtain ⟨alpha, halpha, hrk⟩ := hreal
  obtain ⟨alpha', _, halpha', hne, _⟩ := hdummy
  cases Option.some.inj (halpha.symm.trans halpha')
  exact hne hrk

section
variable (hK : K.Honest) (hsigning : HonestSigning K) (hown : SignsOwn K commitmentsOf) (hslice : K.Quorum slice)
  (hlaws : O.Laws) (sighash : Vector UInt8 32)
include hK hsigning hown hslice hlaws

theorem signAction_applies (hrest : session.Rested K commitmentsOf slice used sighash.toList)
    (hid : (Uuid.new fillBytes session.rng).1 ∉ used) (idx : Nat) {action : O.Action} {alpha : O.Scalar}
    (halpha : action.alpha = some alpha) :
    ∃ sig session', O.verify (O.groupRk K alpha) sighash sig = true ∧
      session'.Rested K commitmentsOf slice ((Uuid.new fillBytes session.rng).1 :: used) sighash.toList ∧
      ∀ r after, O.applySignature sighash sig action = (r, after) →
        O.signAction fillBytes sighash idx action session =
          (r.mapError fun e => .err (.applyRejected idx e), after, session') := by
  obtain ⟨node, hconvened, hclear⟩ := hrest
  obtain ⟨signature, session', node', hdrive, hverify, hconvened', hclear'⟩ :=
    hconvened.drive hK hsigning hown hslice hclear hid (O.randomizer alpha)
  obtain ⟨sig, hserialize, hvalid⟩ := hlaws.serialize _ _ _ hverify
  refine ⟨sig, session', hvalid, ⟨node', hconvened', hclear'⟩, ?_⟩
  intro r after happly
  unfold signAction
  simp only [halpha, hlaws.deserialize, hdrive, hserialize, tryIntoArray_toList, happly]
  cases r <;> rfl

theorem signAction_real (hrest : session.Rested K commitmentsOf slice used sighash.toList)
    (hid : (Uuid.new fillBytes session.rng).1 ∉ used) (idx : Nat) {action : O.Action} (hreal : O.Real K action) :
    ∃ sig session', O.signAction fillBytes sighash idx action session =
        (.ok (), { action with spendAuthSig := some sig }, session') ∧
      O.verify action.rk sighash sig = true ∧
      session'.Rested K commitmentsOf slice ((Uuid.new fillBytes session.rng).1 :: used) sighash.toList := by
  obtain ⟨alpha, halpha, hrk⟩ := hreal
  obtain ⟨sig, session', hvalid, hrest', hresult⟩ :=
    signAction_applies hK hsigning hown hslice hlaws sighash hrest hid idx halpha
  rw [← hrk] at hvalid
  exact ⟨sig, session', hresult _ _ (hlaws.accepts sighash sig action hvalid), hvalid, hrest'⟩

theorem signAction_dummy (hrest : session.Rested K commitmentsOf slice used sighash.toList)
    (hid : (Uuid.new fillBytes session.rng).1 ∉ used) (idx : Nat) {action : O.Action}
    (hdummy : O.Dummy sighash K action) :
    ∃ e session', O.signAction fillBytes sighash idx action session =
      (.error (.err (.applyRejected idx e)), action, session') := by
  obtain ⟨alpha, _, halpha, hrk, _⟩ := hdummy
  obtain ⟨sig, session', hvalid, _, hresult⟩ :=
    signAction_applies hK hsigning hown hslice hlaws sighash hrest hid idx halpha
  have hinvalid : O.verify action.rk sighash sig = false := by
    rw [← Bool.not_eq_true]
    intro hboth
    exact hrk (hlaws.unique _ _ _ _ hboth hvalid)
  obtain ⟨e, happly⟩ := hlaws.rejects sighash sig action hinvalid
  exact ⟨e, session', hresult _ _ happly⟩

/-- **Run.** A bundle of real spends is signed to its end. -/
theorem signActions_real : ∀ {actions : List O.Action} {idx : Nat} {used : List Uuid} {session : SigningSession C},
    session.Rested K commitmentsOf slice used sighash.toList → O.FreshIds fillBytes sighash idx used session actions →
      (∀ action ∈ actions, O.Real K action) →
      (O.signActions fillBytes sighash idx session actions).1 = .ok () ∧
        List.Forall₂ (O.Finished sighash K) actions (O.signActions fillBytes sighash idx session actions).2.1
  | [], _, _, _, _, _, _ => ⟨rfl, .nil⟩
  | action :: actions, idx, used, session, hrest, hids, hreal => by
    obtain ⟨hid, hlater⟩ := hids
    obtain ⟨sig, session', hsigned, hvalid, hrest'⟩ :=
      signAction_real hK hsigning hown hslice hlaws sighash hrest hid idx (hreal action (by simp))
    simp only [hsigned] at hlater
    obtain ⟨hok, hall⟩ := signActions_real hrest' (hlater trivial) fun a ha => hreal a (List.mem_cons_of_mem _ ha)
    unfold signActions
    rw [hsigned]
    refine ⟨hok, .cons ⟨fun _ => ⟨sig, rfl, hvalid⟩, fun hdummy => ?_⟩ hall⟩
    exact absurd (hreal action (by simp)) hdummy.not_real

theorem signActions_dummy : ∀ {actions : List O.Action} {idx : Nat} {used : List Uuid} {session : SigningSession C},
    session.Rested K commitmentsOf slice used sighash.toList → O.FreshIds fillBytes sighash idx used session actions →
      (∀ action ∈ actions, O.Real K action ∨ O.Dummy sighash K action) →
      (∃ action ∈ actions, O.Dummy sighash K action) →
      ∃ pos e, (O.signActions fillBytes sighash idx session actions).1 = .error (.err (.applyRejected pos e))
  | [], _, _, _, _, _, _, hdummy => by simp at hdummy
  | action :: actions, idx, used, session, hrest, hids, hsignable, hdummy => by
    obtain ⟨hid, hlater⟩ := hids
    unfold signActions
    rcases hsignable action (by simp) with hreal | hdummy'
    · obtain ⟨sig, session', hsigned, hvalid, hrest'⟩ :=
        signAction_real hK hsigning hown hslice hlaws sighash hrest hid idx hreal
      simp only [hsigned] at hlater
      rw [hsigned]
      apply signActions_dummy hrest' (hlater trivial) fun a ha => hsignable a (List.mem_cons_of_mem _ ha)
      obtain ⟨a, ha, hda⟩ := hdummy
      rcases List.mem_cons.mp ha with rfl | ha
      · exact absurd hreal hda.not_real
      · exact ⟨a, ha, hda⟩
    · obtain ⟨e, session', hsigned⟩ := signAction_dummy hK hsigning hown hslice hlaws sighash hrest hid idx hdummy'
      rw [hsigned]
      exact ⟨idx, e, rfl⟩

end

/-- A request that spoils the session is an error of the action it is for. -/
theorem signAction_spoilt (hK : K.Honest) (hown : SignsOwn K commitmentsOf) (hslice : K.Quorum slice) (hlaws : O.Laws)
    (sighash : Vector UInt8 32) (h : session.Convened K slice used sighash.toList node)
    (hspoilt : ¬ SigningSession.Unspoilt K commitmentsOf slice node session.chain.state)
    (hid : (Uuid.new fillBytes session.rng).1 ∉ used) (idx : Nat) {action : O.Action}
    (hsignable : O.Real K action ∨ O.Dummy sighash K action) :
    ∃ e session', O.signAction fillBytes sighash idx action session =
      (.error (.err (.sign idx (.validatorReact e))), action, session') := by
  have halpha : ∃ alpha, action.alpha = some alpha := by
    rcases hsignable with ⟨alpha, halpha, _⟩ | ⟨alpha, _, halpha, _⟩
    · exact ⟨alpha, halpha⟩
    · exact ⟨alpha, halpha⟩
  obtain ⟨alpha, halpha⟩ := halpha
  obtain ⟨e, session', hdrive⟩ := h.drive_spoilt hK hown hslice hspoilt hid (O.randomizer alpha)
  refine ⟨e, session', ?_⟩
  unfold signAction
  simp only [halpha, hlaws.deserialize, hdrive]

/-- The call returns without an error and leaves each action as it should be. -/
structure Finishes (O : Orchard C) (sighash : Vector UInt8 32) (K : GroupKeys C) (bundle : List O.Action)
    (result : Except PcztFault Unit × List O.Action × SigningSession C) : Prop where
  ok : result.1 = .ok ()
  actions : List.Forall₂ (O.Finished sighash K) bundle result.2.1

end Orchard

namespace Ideal

/-- Keys and scalars of one byte; a signature is its key, repeated, and the digest. -/
@[reducible] def orchard : Orchard suite where
  Scalar := UInt8
  VerificationKey := UInt8
  toRepr alpha := Vector.replicate 32 alpha
  deserialize
    | [] => .error "malformed scalar encoding"
    | b :: _ => .ok (b.toNat : Int)
  serialize sig := .ok (List.replicate 32 (UInt8.ofNat sig.key.toNat) ++ sig.message)
  applySignature sighash sig action :=
    if sig.toList = List.replicate 32 action.rk ++ sighash.toList then (.ok (), { action with spendAuthSig := some sig })
    else (.error "InvalidExternalSignature", action)
  verify rk sighash sig := decide (sig.toList = List.replicate 32 rk ++ sighash.toList)
  randomizer alpha := (alpha.toNat : Int)
  verificationKey key := UInt8.ofNat key.toNat

theorem toList_keyed (rk : UInt8) (sighash : Vector UInt8 32) :
    (Vector.replicate 32 rk ++ sighash).toList = List.replicate 32 rk ++ sighash.toList := by
  rw [Vector.toList_append, Vector.toList_replicate]

theorem orchard_laws : orchard.Laws where
  deserialize _ := rfl
  serialize key sighash signature h := by
    have heq : signature = { key, message := sighash.toList } := of_decide_eq_true h
    subst heq
    have hlist := toList_keyed (UInt8.ofNat key.toNat) sighash
    refine ⟨Vector.replicate 32 (UInt8.ofNat key.toNat) ++ sighash, ?_, ?_⟩
    · exact congrArg Except.ok hlist.symm
    · exact decide_eq_true hlist
  accepts sighash sig action h := if_pos (of_decide_eq_true h)
  rejects sighash sig action h := ⟨_, if_neg (of_decide_eq_false h)⟩
  unique rk rk' sighash sig h h' := by
    have heq : List.replicate 32 rk ++ sighash.toList = List.replicate 32 rk' ++ sighash.toList :=
      (of_decide_eq_true h).symm.trans (of_decide_eq_true h')
    exact (List.cons.inj heq).1

def realAction (alpha : UInt8) : orchard.Action := { alpha := some alpha, rk := 7 + alpha, spendAuthSig := none }

def digest : Vector UInt8 32 := Vector.replicate 32 42

def dummyAction : orchard.Action :=
  { alpha := some 3, rk := 200, spendAuthSig := some (Vector.replicate 32 (200 : UInt8) ++ digest) }

def bundleSession : SigningSession suite :=
  (SigningSim.start duoKeys ([1, 2] : List Nat)).session (duoCall 42 0 [2, 1] 10)

/-- The same with a request open that nobody has driven. -/
def openSession : SigningSession suite :=
  { bundleSession with
    chain := { ChainSim.new with
      state := reached [.initGroup duoKeys.params duoKeys.pkp [1, 2], .submitRequest id0 [9] (5 : Int)] } }

def memberNode (i : Nat) : Node suite := Node.new { keyPackage := duoKeys.key i, publicKeyPackage := duoKeys.pkp }

theorem duoKeys_signsOwn : SignsOwn duoKeys id where
  commit _ _ := rfl
  sign i _ m message nonces randomizer c hsize hc := by
    change (∃ share, Ideal.sign ⟨m, message⟩ nonces (duoKeys.key i) randomizer = .ok share) ↔ c = nonces
    by_cases heq : c = nonces
    · subst heq
      exact iff_of_true ⟨_, (if_neg (not_lt.mpr hsize)).trans (if_neg (not_not.mpr hc))⟩ rfl
    · have hother : m[i]? ≠ some nonces := fun hn => heq (Option.some.inj (hc.symm.trans hn))
      refine iff_of_false (fun h => ?_) heq
      obtain ⟨share, hsign⟩ := h
      cases hsign.symm.trans ((if_neg (not_lt.mpr hsize)).trans (if_pos hother))

/-- A commitment in the first member's name came before that of the nonces it keeps. -/
def forgedSession : SigningSession suite :=
  { openSession with
    chain := { openSession.chain with
      state := feed applyTx openSession.chain.state (.submitCommitment id0 (1 : Nat) (8 : Nat)) }
    validators := [memberNode (2 : Nat), (memberNode (1 : Nat)).holding id0 (7 : Nat)] }

theorem openSession_request {id' : Uuid} {e : RequestEntry suite}
    (he : openSession.chain.state.requests[id']? = some e) : id' = id0 ∧ e = opened id0 [9] (5 : Int) := by
  have hstate : openSession.chain.state =
      (reached [.initGroup duoKeys.params duoKeys.pkp [1, 2]]).withRequest id0 (opened id0 [9] (5 : Int)) := rfl
  rw [hstate] at he
  by_cases heq : id0 = id'
  · subst heq
    rw [State.withRequest_self] at he
    exact ⟨rfl, (Option.some.inj he).symm⟩
  · rw [State.withRequest_of_ne _ _ heq] at he
    have hnone : (reached [.initGroup duoKeys.params duoKeys.pkp [1, 2]]).requests = (∅ : BTreeMap Uuid _) := rfl
    rw [hnone] at he
    simp at he

theorem openSession_convened : openSession.Convened duoKeys ([2, 1] : List Nat) [id0] digest.toList memberNode where
  hosts := ⟨⟨_, rfl⟩, rfl⟩
  mempool := rfl
  requests id' e he := by simp [(openSession_request he).1]
  validators := rfl
  serves i hi := ⟨rfl, rfl⟩
  policy i hi := rfl
  remembers i hi := ⟨fun _ h => by simp [memberNode, Node.new] at h, fun _ h => by simp [memberNode, Node.new] at h,
    fun _ h => by simp [memberNode, Node.new] at h⟩

theorem openSession_unspoilt (id' : Uuid) (e : RequestEntry suite)
    (he : openSession.chain.state.requests[id']? = some e) : ¬ Spoils duoKeys id ([2, 1] : List Nat) memberNode id' e := by
  obtain ⟨rfl, rfl⟩ := openSession_request he
  intro hspoils
  cases hspoils with
  | now hi hfails =>
    cases hfails with
    | sessionInUse _ hp => simp [memberNode, Node.new] at hp
    | frost hdue _ =>
      obtain ⟨_, _, hs, _⟩ := hdue
      cases hs
  | next _ _ _ _ hn _ _ => simp [memberNode, Node.new] at hn

end Ideal

example : (Ideal.orchard.signPcztOrchardBundle Ideal.duoFill Ideal.digest [Ideal.realAction 5] Ideal.forgedSession).1 =
    .error (.err (.sign 0 (.validatorReact (.frost "The Signing Package must contain the signer's commitment.")))) := rfl

end Sapphire
