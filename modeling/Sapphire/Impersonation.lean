import Sapphire.NodeSteps
import Sapphire.Accountability
import Sapphire.Topology

/-!
# Who a transaction is from

A frame of the mesh comes from an authenticated peer, but what reaches the
reactor is its bytes alone, and `apply_tx` takes the sender that a transaction
names. So a replica accepts what a dishonest peer says in another's name. The
encoding of transactions is a parameter.
-/

namespace Sapphire

open Replay

variable {C : Ciphersuite} {D : DkgWire C}

/-- `serde_json` of transactions, at the two ends of the mesh. -/
structure TxWire (C : Ciphersuite) where
  toVec : Tx C → Except String Bytes
  fromSlice : Bytes → Except String (Tx C)

def TxWire.Decodes (W : TxWire C) : Prop := ∀ tx bytes, W.toVec tx = .ok bytes → W.fromSlice bytes = .ok tx

def Tx.claimed? : Tx C → Option C.Identifier
  | .dkgRound1 sender _ => some sender
  | .dkgRound2 sender _ _ => some sender
  | .dkgFinalize sender _ => some sender
  | .submitCommitment _ validator _ => some validator
  | .submitShare _ validator _ => some validator
  | _ => none

/-- A validator's process. `emitted` is what its participant and its node have
returned, `submitted` what its operator has asked for, and `accepted` a log of
what its replica has taken. -/
structure Validator (D : DkgWire C) where
  state : State C
  participant : DkgParticipant D
  signer : Signer C
  emitted : List (Tx C)
  submitted : List (Tx C)
  broadcasts : List Bytes
  accepted : List (Tx C)

namespace Validator

def own (v : Validator D) : List (Tx C) := v.emitted ++ v.submitted

def apply (v : Validator D) (tx : Tx C) : Validator D :=
  match applyTx v.state tx with
  | .ok state => { v with state, accepted := v.accepted ++ [tx] }
  | .error _ => v

end Validator

/-- The static keys a validator's config allows, and the validator that holds the secret of a key. -/
structure Gossip (D : DkgWire C) where
  wire : TxWire C
  peers : C.Identifier → List StaticKey
  holder : StaticKey → Option C.Identifier
  honest : C.Identifier → Bool

inductive GossipEvent (C : Ciphersuite) where
  | participate (v : C.Identifier) (rng : C.Rng)
  | react (v : C.Identifier) (rng : C.Rng)
  | submit (v : C.Identifier) (tx : Tx C)
  /-- The `k`-th of its own transactions is sent to the peers. -/
  | broadcast (v : C.Identifier) (k : Nat)
  | applyOwn (v : C.Identifier) (k : Nat)
  /-- A payload from an authenticated peer comes out of the incoming channel. -/
  | frame (v : C.Identifier) (peer : StaticKey) (payload : Bytes)

namespace Gossip

abbrev World (D : DkgWire C) := C.Identifier → Validator D

def initial (seed : C.Identifier → C.Rng) (node : C.Identifier → Node C) : World D := fun v =>
  { state := State.default, participant := (DkgParticipant.new v (seed v)).1, signer := { node := node v, calls := [] },
    emitted := [], submitted := [], broadcasts := [], accepted := [] }

variable (G : Gossip D)

def honestKey (peer : StaticKey) : Bool := (G.holder peer).any G.honest

/-- An honest peer sends what it has broadcast; in which order it arrives, and
how often, is left open. A dishonest one sends what it likes. -/
def mayArrive (w : World D) (peer : StaticKey) (payload : Bytes) : Prop :=
  match G.holder peer with
  | some u => G.honest u = true → payload ∈ (w u).broadcasts
  | none => True

instance (w : World D) (peer : StaticKey) (payload : Bytes) : Decidable (G.mayArrive w peer payload) := by
  unfold mayArrive
  split <;> infer_instance

def stepOf (w : World D) : GossipEvent C → Option (C.Identifier × Validator D)
  | .participate v rng =>
    let result := (w v).participant.react (w v).state rng
    some (v, { w v with participant := result.1, emitted := (w v).emitted ++ result.2 })
  | .react v rng =>
    let result := (w v).signer.react (w v).state rng
    some (v, { w v with signer := result.1, emitted := (w v).emitted ++ result.2 })
  | .submit v tx => if tx.claimed? = none then some (v, { w v with submitted := (w v).submitted ++ [tx] }) else none
  | .broadcast v k =>
    match (w v).own[k]? with
    | none => none
    | some tx =>
      match G.wire.toVec tx with
      | .error _ => none
      | .ok bytes => some (v, { w v with broadcasts := (w v).broadcasts ++ [bytes] })
  | .applyOwn v k => ((w v).own[k]?).map fun tx => (v, (w v).apply tx)
  | .frame v peer payload =>
    if peer ∈ G.peers v ∧ G.mayArrive w peer payload then
      match G.wire.fromSlice payload with
      | .error _ => some (v, w v)
      | .ok tx => some (v, (w v).apply tx)
    else none

/-- Only honest validators' processes are run. -/
def step (w : World D) (e : GossipEvent C) : Except Unit (World D) :=
  match G.stepOf w e with
  | none => .error ()
  | some (v, next) => if G.honest v = true then .ok (Function.update w v next) else .error ()

/-- What a replica has accepted in an honest validator's name, that validator's own participant or node has returned. -/
def NoImpersonation (w : World D) : Prop :=
  ∀ v u tx, G.honest v = true → G.honest u = true → tx ∈ (w v).accepted → tx.claimed? = some u → tx ∈ (w u).emitted

/-- A dishonest peer's frame is in no honest validator's name, or repeats what that validator has emitted. -/
def Unforged (w : World D) : GossipEvent C → Prop
  | .frame _ peer payload => G.honestKey peer = false → ∀ tx u, G.wire.fromSlice payload = .ok tx →
      tx.claimed? = some u → G.honest u = true → tx ∈ (w u).emitted
  | _ => True

end Gossip

/-! ## Own transactions -/

theorem Tx.claimed?_of_sender? {tx : Tx C} {v : C.Identifier} (h : tx.sender? = some v) : tx.claimed? = some v := by
  cases tx <;> first | exact h | cases h

theorem DkgParticipant.react_claimed (p : DkgParticipant D) (s : State C) (rng : C.Rng) :
    (p.react s rng).1.identifier = p.identifier ∧ ∀ tx ∈ (p.react s rng).2, tx.claimed? = some p.identifier := by
  obtain ⟨hid, hstream⟩ := DkgCtx.react_stream { participant := p, rng } s
  exact ⟨hid, fun tx htx => Tx.claimed?_of_sender? (hstream tx htx)⟩

theorem Reaction.claimed {σ σ' : Signer C} {id : Uuid} {entry : RequestEntry C} {r : Except Error (Option (Tx C))}
    (hr : Reaction σ id entry r σ') :
    σ'.node.identifier = σ.node.identifier ∧ ∀ tx ∈ emitted r, tx.claimed? = some σ.node.identifier := by
  cases hr <;> exact ⟨rfl, by simp [emitted, Tx.claimed?]⟩

theorem Signer.react_claimed (σ : Signer C) (s : State C) (rng : C.Rng) :
    (σ.react s rng).1.node.identifier = σ.node.identifier ∧
      ∀ tx ∈ (σ.react s rng).2, tx.claimed? = some σ.node.identifier := by
  let P : List (Tx C) → Signer C → Prop := fun T σ' =>
    σ'.node.identifier = σ.node.identifier ∧ ∀ tx ∈ T, tx.claimed? = some σ.node.identifier
  have hstart : P [] σ := ⟨rfl, by simp⟩
  have hreact : P ([] ++ (σ.react s rng).2) (σ.react s rng).1 := by
    apply Signer.react_invariant _ _ hstart
    · intro T out σ' h
      exact ⟨h.1, fun tx htx => h.2 tx (List.mem_append_left _ htx)⟩
    · intro id e _ T σ' r σ'' h hr
      obtain ⟨hid, hclaimed⟩ := hr.claimed
      refine ⟨hid.trans h.1, fun tx htx => ?_⟩
      rcases List.mem_append.mp htx with htx | htx
      · exact h.2 tx htx
      · rw [hclaimed tx htx, h.1]
  rwa [List.nil_append] at hreact

structure Validator.Own (W : TxWire C) (v : C.Identifier) (p : Validator D) : Prop where
  participant : p.participant.identifier = v
  node : p.signer.node.identifier = v
  emitted : ∀ tx ∈ p.emitted, tx.claimed? = some v
  submitted : ∀ tx ∈ p.submitted, tx.claimed? = none
  broadcasts : ∀ bytes ∈ p.broadcasts, ∃ tx ∈ p.own, W.toVec tx = .ok bytes

@[simp] theorem Validator.apply_own {W : TxWire C} {v : C.Identifier} {p : Validator D} {tx : Tx C}
    (h : p.Own W v) : (p.apply tx).Own W v := by
  unfold apply
  cases applyTx p.state tx with
  | error f => exact h
  | ok state => exact ⟨h.participant, h.node, h.emitted, h.submitted, h.broadcasts⟩

theorem Validator.apply_emitted (p : Validator D) (tx : Tx C) : (p.apply tx).emitted = p.emitted := by
  unfold apply
  split <;> rfl

theorem Validator.mem_apply_accepted {p : Validator D} {tx tx' : Tx C} (h : tx' ∈ (p.apply tx).accepted) :
    tx' ∈ p.accepted ∨ tx' = tx := by
  unfold apply at h
  cases ha : applyTx p.state tx with
  | error f => rw [ha] at h; exact Or.inl h
  | ok state =>
    rw [ha] at h
    rcases List.mem_append.mp h with h | h
    · exact Or.inl h
    · exact Or.inr (List.mem_singleton.mp h)

namespace Gossip

variable {G : Gossip D} {w w' : World D}

def Spoken (G : Gossip D) (w : World D) (tx : Tx C) : Prop :=
  ∀ u, tx.claimed? = some u → G.honest u = true → tx ∈ (w u).emitted

theorem spoken_of_own {v : C.Identifier} (h : (w v).Own G.wire v) {tx : Tx C} (htx : tx ∈ (w v).own) :
    G.Spoken w tx := by
  intro u hclaimed _
  rcases List.mem_append.mp htx with htx | htx
  · have hv := h.emitted tx htx
    rw [hclaimed] at hv
    cases hv
    exact htx
  · rw [h.submitted tx htx] at hclaimed
    cases hclaimed

theorem spoken_of_frame (hdecodes : G.wire.Decodes) (hown : ∀ v, G.honest v = true → (w v).Own G.wire v)
    {v : C.Identifier} {peer : StaticKey} {payload : Bytes} (harrive : G.mayArrive w peer payload)
    (hunforged : G.Unforged w (.frame v peer payload)) {tx : Tx C} (htx : G.wire.fromSlice payload = .ok tx) :
    G.Spoken w tx := by
  have hforeign : G.honestKey peer = false → G.Spoken w tx := fun hkey u => hunforged hkey tx u htx
  unfold mayArrive at harrive
  unfold honestKey at hforeign
  cases hholder : G.holder peer with
  | none =>
    rw [hholder] at hforeign
    exact hforeign rfl
  | some u =>
    rw [hholder] at harrive hforeign
    cases hu : G.honest u with
    | false => exact hforeign hu
    | true =>
      obtain ⟨tx', hmem, hvec⟩ := (hown u hu).broadcasts payload (harrive hu)
      cases Except.ok.inj ((hdecodes tx' payload hvec).symm.trans htx)
      exact spoken_of_own (hown u hu) hmem

end Gossip

namespace Validator.Own

variable {W : TxWire C} {v : C.Identifier} {p : Validator D}

theorem emit (h : p.Own W v) {participant : DkgParticipant D} {signer : Signer C} {more : List (Tx C)}
    (hparticipant : participant.identifier = v) (hnode : signer.node.identifier = v)
    (hmore : ∀ tx ∈ more, tx.claimed? = some v) :
    ({ p with participant, signer, emitted := p.emitted ++ more } : Validator D).Own W v where
  participant := hparticipant
  node := hnode
  emitted := by
    intro tx htx
    rcases List.mem_append.mp htx with htx | htx
    · exact h.emitted tx htx
    · exact hmore tx htx
  submitted := h.submitted
  broadcasts := by
    intro bytes hbytes
    obtain ⟨tx, htx, hvec⟩ := h.broadcasts bytes hbytes
    refine ⟨tx, ?_, hvec⟩
    rcases List.mem_append.mp htx with htx | htx
    · exact List.mem_append_left _ (List.mem_append_left _ htx)
    · exact List.mem_append_right _ htx

theorem submit (h : p.Own W v) {tx : Tx C} (htx : tx.claimed? = none) :
    ({ p with submitted := p.submitted ++ [tx] } : Validator D).Own W v where
  participant := h.participant
  node := h.node
  emitted := h.emitted
  submitted := by
    intro tx' htx'
    rcases List.mem_append.mp htx' with htx' | htx'
    · exact h.submitted tx' htx'
    · rw [List.mem_singleton.mp htx']; exact htx
  broadcasts := by
    intro bytes hbytes
    obtain ⟨tx', htx', hvec⟩ := h.broadcasts bytes hbytes
    refine ⟨tx', ?_, hvec⟩
    unfold own
    rw [← List.append_assoc]
    exact List.mem_append_left _ htx'

theorem broadcast (h : p.Own W v) {tx : Tx C} {bytes : Bytes} (htx : tx ∈ p.own) (hvec : W.toVec tx = .ok bytes) :
    ({ p with broadcasts := p.broadcasts ++ [bytes] } : Validator D).Own W v where
  participant := h.participant
  node := h.node
  emitted := h.emitted
  submitted := h.submitted
  broadcasts := by
    intro bytes' hbytes'
    rcases List.mem_append.mp hbytes' with hbytes' | hbytes'
    · exact h.broadcasts bytes' hbytes'
    · rw [List.mem_singleton.mp hbytes']
      exact ⟨tx, htx, hvec⟩

end Validator.Own

namespace Gossip

variable {G : Gossip D} {w w' : World D}

structure Next (G : Gossip D) (w : World D) (v : C.Identifier) (next : Validator D) : Prop where
  own : next.Own G.wire v
  emitted : (w v).emitted ⊆ next.emitted
  accepted : ∀ tx ∈ next.accepted, tx ∈ (w v).accepted ∨ G.Spoken w tx

theorem next_apply {v : C.Identifier} (h : (w v).Own G.wire v) {tx : Tx C} (htx : G.Spoken w tx) :
    G.Next w v ((w v).apply tx) where
  own := Validator.apply_own h
  emitted := by rw [Validator.apply_emitted]; exact List.Subset.refl _
  accepted := by
    intro tx' htx'
    rcases Validator.mem_apply_accepted htx' with hold | rfl
    · exact Or.inl hold
    · exact Or.inr htx

theorem stepOf_next (hdecodes : G.wire.Decodes) (hown : ∀ v, G.honest v = true → (w v).Own G.wire v)
    {e : GossipEvent C} {v : C.Identifier} {next : Validator D} (hv : G.honest v = true) (hunforged : G.Unforged w e)
    (hstep : G.stepOf w e = some (v, next)) : G.Next w v next := by
  cases e with
  | participate u rng =>
    cases hstep
    have h := hown v hv
    obtain ⟨hid, hclaimed⟩ := (w v).participant.react_claimed (w v).state rng
    rw [h.participant] at hid hclaimed
    exact ⟨h.emit hid h.node hclaimed, List.subset_append_left _ _, fun _ htx => Or.inl htx⟩
  | react u rng =>
    cases hstep
    have h := hown v hv
    obtain ⟨hid, hclaimed⟩ := (w v).signer.react_claimed (w v).state rng
    rw [h.node] at hid hclaimed
    exact ⟨h.emit h.participant hid hclaimed, List.subset_append_left _ _, fun _ htx => Or.inl htx⟩
  | submit u tx =>
    simp only [stepOf] at hstep
    split at hstep
    · rename_i hnone
      cases hstep
      exact ⟨(hown v hv).submit hnone, List.Subset.refl _, fun _ htx => Or.inl htx⟩
    · cases hstep
  | broadcast u k =>
    simp only [stepOf] at hstep
    cases hk : (w u).own[k]? with
    | none => rw [hk] at hstep; cases hstep
    | some tx =>
      simp only [hk] at hstep
      cases hvec : G.wire.toVec tx with
      | error err => rw [hvec] at hstep; cases hstep
      | ok bytes =>
        rw [hvec] at hstep
        cases hstep
        exact ⟨(hown v hv).broadcast (List.mem_of_getElem? hk) hvec, List.Subset.refl _, fun _ htx => Or.inl htx⟩
  | applyOwn u k =>
    obtain ⟨tx, hk, heq⟩ := Option.map_eq_some_iff.mp hstep
    cases heq
    exact next_apply (hown v hv) (spoken_of_own (hown v hv) (List.mem_of_getElem? hk))
  | frame u peer payload =>
    simp only [stepOf] at hstep
    split at hstep
    · rename_i harrive
      cases hslice : G.wire.fromSlice payload with
      | error err =>
        rw [hslice] at hstep
        cases hstep
        exact ⟨hown v hv, List.Subset.refl _, fun _ htx => Or.inl htx⟩
      | ok tx =>
        rw [hslice] at hstep
        cases hstep
        exact next_apply (hown v hv) (spoken_of_frame hdecodes hown harrive.2 hunforged hslice)
    · cases hstep

theorem step_sound (hdecodes : G.wire.Decodes) (hown : ∀ v, G.honest v = true → (w v).Own G.wire v)
    (hnone : G.NoImpersonation w) {e : GossipEvent C} (hunforged : G.Unforged w e) (hstep : G.step w e = .ok w') :
    (∀ v, G.honest v = true → (w' v).Own G.wire v) ∧ G.NoImpersonation w' := by
  unfold step at hstep
  cases hof : G.stepOf w e with
  | none => rw [hof] at hstep; cases hstep
  | some result =>
    obtain ⟨u, next⟩ := result
    rw [hof] at hstep
    simp only at hstep
    split at hstep
    · rename_i hu
      cases hstep
      have hnext := stepOf_next hdecodes hown hu hunforged hof
      have hgrow : ∀ v, (w v).emitted ⊆ (Function.update w u next v).emitted := by
        intro v
        by_cases hv : v = u
        · subst hv; rw [Function.update_self]; exact hnext.emitted
        · rw [Function.update_of_ne hv]; exact List.Subset.refl _
      constructor
      · intro v hv
        by_cases heq : v = u
        · subst heq; rw [Function.update_self]; exact hnext.own
        · rw [Function.update_of_ne heq]; exact hown v hv
      · intro v u' tx hv hu' htx hclaimed
        apply hgrow u'
        by_cases heq : v = u
        · subst heq
          rw [Function.update_self] at htx
          rcases hnext.accepted tx htx with hold | hspoken
          · exact hnone v u' tx hv hu' hold hclaimed
          · exact hspoken u' hclaimed hu'
        · rw [Function.update_of_ne heq] at htx
          exact hnone v u' tx hv hu' htx hclaimed
    · cases hstep

end Gossip

/-- In a run whose dishonest frames are in no honest validator's name, or repeat
what that validator has emitted, no replica accepts anything in an honest name
that its own participant or node has not returned. -/
theorem no_impersonation (G : Gossip D) (hdecodes : G.wire.Decodes) (seed : C.Identifier → C.Rng)
    (node : C.Identifier → Node C) (hnode : ∀ v, G.honest v = true → (node v).identifier = v)
    {pre post : List (GossipEvent C)} (hevents : EachStep G.step G.Unforged (Gossip.initial seed node) (pre ++ post)) :
    G.NoImpersonation (replay G.step (Gossip.initial seed node) pre) := by
  have hstart : ∀ v, G.honest v = true → ((Gossip.initial seed node : Gossip.World D) v).Own G.wire v :=
    fun v hv => ⟨rfl, hnode v hv, by simp [Gossip.initial], by simp [Gossip.initial], by simp [Gossip.initial]⟩
  have hnone : G.NoImpersonation (Gossip.initial seed node : Gossip.World D) := by
    intro v u tx _ _ htx
    simp [Gossip.initial] at htx
  refine (hevents.invariant (P := fun w => (∀ v, G.honest v = true → (w v).Own G.wire v) ∧ G.NoImpersonation w)
    ?_ ⟨hstart, hnone⟩).2
  rintro w e w' ⟨hown, hnone⟩ hunforged hstep
  exact Gossip.step_sound hdecodes hown hnone hunforged hstep

namespace Ideal

/-- A round 1 in two bytes. -/
def toVec : Tx suite → Except String Bytes
  | .dkgRound1 sender pkg =>
    if sender < 256 ∧ 0 ≤ pkg ∧ pkg < 256 then .ok [UInt8.ofNat sender, UInt8.ofNat pkg.toNat]
    else .error "number out of range"
  | _ => .error "unknown variant"

def fromSlice : Bytes → Except String (Tx suite)
  | [sender, pkg] => .ok (.dkgRound1 sender.toNat (pkg.toNat : Int))
  | _ => .error "expected value"

def txWire : TxWire suite := { toVec, fromSlice }

theorem txWire_decodes : txWire.Decodes := by
  intro tx bytes h
  cases tx with
  | dkgRound1 sender pkg =>
    change toVec (.dkgRound1 sender pkg) = .ok bytes at h
    simp only [toVec] at h
    split at h
    · rename_i hrange
      obtain ⟨hsender, hnonneg, hpkg⟩ := hrange
      cases h
      have hs : (UInt8.ofNat sender).toNat = sender := UInt8.toNat_ofNat_of_lt' hsender
      have hp : ((UInt8.ofNat pkg.toNat).toNat : Int) = pkg := by
        rw [UInt8.toNat_ofNat_of_lt' (by change pkg.toNat < 256; omega), Int.toNat_of_nonneg hnonneg]
      change (.ok (.dkgRound1 (UInt8.ofNat sender).toNat ((UInt8.ofNat pkg.toNat).toNat : Int)) :
        Except String (Tx suite)) = _
      rw [hs, hp]
    · cases h
  | _ => cases h

def outsiderKey : StaticKey := ⟨Vector.replicate 32 3⟩

def owner (key : StaticKey) : Option Nat :=
  if key = Mesh.lowKey then some 1 else if key = Mesh.highKey then some 2 else none

/-- Validators 1 and 2, and a key of nobody honest in everybody's config. -/
def mesh : Gossip wire where
  wire := txWire
  peers _ := [Mesh.lowKey, Mesh.highKey, outsiderKey]
  holder := owner
  honest v := v == 1 || v == 2

def duoNode (v : Nat) : Node suite :=
  Node.new { keyPackage := { identifier := v, groupKey := 7, minSigners := 2 }, publicKeyPackage := pairKeys }

/-- The outsider sends a round 1 that names the first validator. -/
def forgery : List (GossipEvent suite) :=
  [.submit (2 : Nat) duoBegin, .applyOwn (2 : Nat) 0, .frame (2 : Nat) outsiderKey [1, 5]]

/-- The first validator's own round 1 arrives twice, once from the outsider. -/
def gossip : List (GossipEvent suite) :=
  [.submit (1 : Nat) duoBegin, .applyOwn (1 : Nat) 0, .participate (1 : Nat) (10 : Nat), .broadcast (1 : Nat) 0,
    .submit (2 : Nat) duoBegin, .applyOwn (2 : Nat) 0, .frame (2 : Nat) outsiderKey [1, 10],
    .frame (2 : Nat) Mesh.lowKey [1, 10]]

end Ideal

theorem impersonation_accepted :
    ¬ Ideal.mesh.NoImpersonation (replay Ideal.mesh.step (Gossip.initial id Ideal.duoNode) Ideal.forgery) := by
  intro h
  have hforged := h (2 : Nat) (1 : Nat) (.dkgRound1 (1 : Nat) (5 : Int)) rfl rfl
  have haccepted : (replay Ideal.mesh.step (Gossip.initial id Ideal.duoNode) Ideal.forgery (2 : Nat)).accepted =
      [Ideal.duoBegin, .dkgRound1 (1 : Nat) (5 : Int)] := rfl
  have hemitted : (replay Ideal.mesh.step (Gossip.initial id Ideal.duoNode) Ideal.forgery (1 : Nat)).emitted = [] := rfl
  rw [haccepted, hemitted] at hforged
  simp [Tx.claimed?] at hforged

theorem no_impersonation_gossip :
    Ideal.mesh.NoImpersonation (replay Ideal.mesh.step (Gossip.initial id Ideal.duoNode) Ideal.gossip) := by
  have hevents : EachStep Ideal.mesh.step Ideal.mesh.Unforged (Gossip.initial id Ideal.duoNode) (Ideal.gossip ++ []) := by
    refine ⟨fun _ _ => trivial, fun _ _ => trivial, fun _ _ => trivial, fun _ _ => trivial, fun _ _ => trivial,
      fun _ _ => trivial, fun _ _ => ?_, fun _ _ => ?_, trivial⟩
    · intro _ tx u hslice hclaimed _
      cases hslice
      cases hclaimed
      exact List.mem_singleton.mpr rfl
    · intro hkey
      cases hkey
  exact no_impersonation Ideal.mesh Ideal.txWire_decodes id Ideal.duoNode (fun _ _ => rfl) hevents

end Sapphire
