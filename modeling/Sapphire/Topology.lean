import Sapphire.Mesh

/-!
# One connection per pair

`Mesh::start` spawns a dialer for each peer with a greater static key and a
listener for the rest. The listener takes a connection from any configured
peer, so which connections a node drives is up to those who dial it. A
handshake authenticates both static keys, and its dialer is done before its
acceptor is. Nodes are named by their static keys.
-/

namespace Sapphire

structure StaticKey where
  bytes : Vector UInt8 32
deriving DecidableEq, Repr

/-- The derived order on `[u8; 32]`: lexicographic by byte. -/
instance : LinearOrder StaticKey :=
  LinearOrder.lift' (fun key => key.bytes.toList.map UInt8.toNat) (by
    intro a b h
    cases a; cases b
    simpa [Vector.toList_inj, UInt8.toNat_inj, List.map_inj_right] using h)

namespace Mesh

open Replay

/-- Of each `PeerConfig` its static key; who answers at its address is up to the network. -/
structure MeshConfig where
  localStaticPublic : StaticKey
  peers : List StaticKey

inductive MeshError where
  | unknownPeer (seen : StaticKey)
deriving DecidableEq, Repr

/-- A connection under `drive_connection`, with the node's own role in its handshake. -/
structure Driven where
  peer : StaticKey
  role : Side
deriving DecidableEq, Repr

/-- The peers that `Mesh::start` spawns a dialer for; the others dial us. -/
def MeshConfig.dialers (config : MeshConfig) : List StaticKey :=
  config.peers.filter fun peer => ¬ peer ≤ config.localStaticPublic

/-- What becomes of a dialer's connection once its handshake is through. -/
def serveInitiator (config : MeshConfig) (peer remoteStatic : StaticKey) : Except MeshError Driven :=
  if remoteStatic ≠ peer then .error (.unknownPeer remoteStatic)
  else if remoteStatic ∉ config.peers then .error (.unknownPeer remoteStatic)
  else .ok { peer := remoteStatic, role := .initiator }

def serveResponder (config : MeshConfig) (remoteStatic : StaticKey) : Except MeshError Driven :=
  if remoteStatic ∉ config.peers then .error (.unknownPeer remoteStatic)
  else .ok { peer := remoteStatic, role := .responder }

/-- `dialing` are the dialers whose handshake is not through. `spawned` logs
the dialers of `Mesh::start`; no step reads it. -/
structure MeshNode where
  started : Bool
  dialing : List StaticKey
  driven : List Driven
  spawned : List StaticKey

/-- `inflight` are the handshakes, dialer first, that are through at the dialer only. -/
structure World where
  node : StaticKey → MeshNode
  inflight : List (StaticKey × StaticKey)

inductive NetEvent where
  | start (v : StaticKey)
  /-- The handshake of the `i`-th dialer that is left ends, with whom it has authenticated. -/
  | dialed (v : StaticKey) (i : Nat) (remoteStatic : StaticKey)
  | dialFailed (v : StaticKey) (i : Nat)
  /-- A handshake with the listener ends, with whom it has authenticated. -/
  | accepted (v remoteStatic : StaticKey)
  | closed (v : StaticKey) (i : Nat)

def MeshNode.drive (node : MeshNode) : Except MeshError Driven → MeshNode
  | .ok conn => { node with driven := node.driven ++ [conn] }
  | .error _ => node

namespace World

def initial : World :=
  { node := fun _ => { started := false, dialing := [], driven := [], spawned := [] }, inflight := [] }

def set (w : World) (v : StaticKey) (node : MeshNode) : World := { w with node := Function.update w.node v node }

/-- The nodes of the `honest` keys are run from their `peers`. The others dial
whom they like when they like; a handshake authenticates an honest node only
where that node is a party to it. -/
def step (peers : StaticKey → List StaticKey) (honest : StaticKey → Bool) (w : World) : NetEvent → Except Unit World
  | .start v =>
    if honest v = true ∧ (w.node v).started = false then
      let config : MeshConfig := { localStaticPublic := v, peers := peers v }
      .ok (w.set v { started := true, dialing := config.dialers, driven := [], spawned := config.dialers })
    else .error ()
  | .dialed v i remoteStatic =>
    match (w.node v).dialing[i]? with
    | none => .error ()
    | some peer =>
      if honest remoteStatic = true ∧ (w.node remoteStatic).started = false then .error ()
      else
        let config : MeshConfig := { localStaticPublic := v, peers := peers v }
        let node := { w.node v with dialing := (w.node v).dialing.eraseIdx i }
        .ok { w.set v (node.drive (serveInitiator config peer remoteStatic)) with
              inflight := (v, remoteStatic) :: w.inflight }
  | .dialFailed v i =>
    if i < (w.node v).dialing.length then
      .ok (w.set v { w.node v with dialing := (w.node v).dialing.eraseIdx i })
    else .error ()
  | .accepted v remoteStatic =>
    if (w.node v).started = false ∨ (honest remoteStatic = true ∧ (remoteStatic, v) ∉ w.inflight) then .error ()
    else
      let config : MeshConfig := { localStaticPublic := v, peers := peers v }
      .ok { w.set v ((w.node v).drive (serveResponder config remoteStatic)) with
            inflight := w.inflight.erase (remoteStatic, v) }
  | .closed v i =>
    if i < (w.node v).driven.length then .ok (w.set v { w.node v with driven := (w.node v).driven.eraseIdx i })
    else .error ()

end World

/-! ## One connection -/

/-- An inbound connection is driven only from a peer with a lower key that has none. -/
def Orderly (peers : StaticKey → List StaticKey) (w : World) : NetEvent → Prop
  | .accepted v remoteStatic =>
    remoteStatic ∈ peers v → remoteStatic < v ∧ ∀ conn ∈ (w.node v).driven, conn.peer ≠ remoteStatic
  | _ => True

/-- Each dialer reaches the peer that it is for. -/
def Routed (w : World) : NetEvent → Prop
  | .dialed v i remoteStatic => (w.node v).dialing[i]? = some remoteStatic
  | _ => True

structure OneConnection (peers : StaticKey → List StaticKey) (w : World) : Prop where
  unique : ∀ v, ((w.node v).driven.map Driven.peer).Nodup
  dialed : ∀ v, ∀ conn ∈ (w.node v).driven, conn.role = .initiator → v < conn.peer
  accepted : ∀ v, ∀ conn ∈ (w.node v).driven, conn.role = .responder → conn.peer < v
  /-- Of two started nodes that know each other exactly one has a dialer, and one of them. -/
  dialer : ∀ u v, u ≠ v → v ∈ peers u → u ∈ peers v → (w.node u).started = true → (w.node v).started = true →
    (w.node u).spawned.count v + (w.node v).spawned.count u = 1

/-- A node whose dialers and connections are all for different peers. -/
structure MeshNode.Tidy (peers : List StaticKey) (v : StaticKey) (node : MeshNode) : Prop where
  dialing : ∀ peer ∈ node.dialing, v < peer
  dialed : ∀ conn ∈ node.driven, conn.role = .initiator → v < conn.peer
  accepted : ∀ conn ∈ node.driven, conn.role = .responder → conn.peer < v
  nodup : (node.dialing ++ node.driven.map Driven.peer).Nodup
  spawned : node.started = true → node.spawned = MeshConfig.dialers { localStaticPublic := v, peers }

namespace MeshNode.Tidy

variable {peers : List StaticKey} {v : StaticKey} {node : MeshNode}

theorem initial : ({ started := false, dialing := [], driven := [], spawned := [] } : MeshNode).Tidy peers v where
  dialing := by simp
  dialed := by simp
  accepted := by simp
  nodup := by simp
  spawned := by simp

theorem start {dialers : List StaticKey} (hnodup : dialers.Nodup)
    (hdialers : dialers = MeshConfig.dialers { localStaticPublic := v, peers }) :
    ({ started := true, dialing := dialers, driven := [], spawned := dialers } : MeshNode).Tidy peers v where
  dialing := by
    intro peer hpeer
    rw [hdialers] at hpeer
    have := (List.mem_filter.mp hpeer).2
    simpa using this
  dialed := by simp
  accepted := by simp
  nodup := by
    rw [List.map_nil, List.append_nil]
    exact hnodup
  spawned := fun _ => hdialers

theorem dialFailed (h : node.Tidy peers v) (i : Nat) :
    ({ node with dialing := node.dialing.eraseIdx i } : MeshNode).Tidy peers v where
  dialing := fun peer hpeer => h.dialing peer (List.mem_of_mem_eraseIdx hpeer)
  dialed := h.dialed
  accepted := h.accepted
  nodup := h.nodup.sublist ((List.eraseIdx_sublist _ _).append (List.Sublist.refl _))
  spawned := h.spawned

theorem closed (h : node.Tidy peers v) (i : Nat) :
    ({ node with driven := node.driven.eraseIdx i } : MeshNode).Tidy peers v where
  dialing := h.dialing
  dialed := fun conn hconn => h.dialed conn (List.mem_of_mem_eraseIdx hconn)
  accepted := fun conn hconn => h.accepted conn (List.mem_of_mem_eraseIdx hconn)
  nodup := h.nodup.sublist ((List.Sublist.refl _).append ((List.eraseIdx_sublist _ _).map _))
  spawned := h.spawned

theorem dialed' (h : node.Tidy peers v) {i : Nat} {peer : StaticKey} (hpeer : node.dialing[i]? = some peer) :
    ({ node with dialing := node.dialing.eraseIdx i, driven := node.driven ++ [{ peer, role := .initiator }] } :
      MeshNode).Tidy peers v where
  dialing := (h.dialFailed i).dialing
  dialed := by
    intro conn hconn hrole
    rcases List.mem_append.mp hconn with hconn | hconn
    · exact h.dialed conn hconn hrole
    · rw [List.mem_singleton.mp hconn]
      exact h.dialing peer (List.mem_of_getElem? hpeer)
  accepted := by
    intro conn hconn hrole
    rcases List.mem_append.mp hconn with hconn | hconn
    · exact h.accepted conn hconn hrole
    · rw [List.mem_singleton.mp hconn] at hrole
      cases hrole
  nodup := by
    obtain ⟨hi, rfl⟩ := List.getElem?_eq_some_iff.mp hpeer
    have hperm := List.getElem_cons_eraseIdx_perm hi
    rw [List.map_append, List.map_cons, List.map_nil]
    have hmove : (node.dialing ++ node.driven.map Driven.peer).Perm
        (node.dialing.eraseIdx i ++ (node.driven.map Driven.peer ++ [node.dialing[i]])) := by
      refine (hperm.symm.append_right _).trans ?_
      rw [← List.append_assoc]
      exact (List.perm_append_singleton _ _).symm
    exact hmove.nodup_iff.mp h.nodup
  spawned := h.spawned

theorem accepted' (h : node.Tidy peers v) {peer : StaticKey} (hlt : peer < v)
    (hnew : ∀ conn ∈ node.driven, conn.peer ≠ peer) :
    ({ node with driven := node.driven ++ [{ peer, role := .responder }] } : MeshNode).Tidy peers v where
  dialing := h.dialing
  dialed := by
    intro conn hconn hrole
    rcases List.mem_append.mp hconn with hconn | hconn
    · exact h.dialed conn hconn hrole
    · rw [List.mem_singleton.mp hconn] at hrole
      cases hrole
  accepted := by
    intro conn hconn hrole
    rcases List.mem_append.mp hconn with hconn | hconn
    · exact h.accepted conn hconn hrole
    · rw [List.mem_singleton.mp hconn]
      exact hlt
  nodup := by
    rw [List.map_append, List.map_cons, List.map_nil, ← List.append_assoc]
    apply List.nodup_append.mpr
    refine ⟨h.nodup, List.nodup_singleton _, ?_⟩
    intro a ha b hb hab
    rw [List.mem_singleton] at hb
    subst hab hb
    rcases List.mem_append.mp ha with hdialing | hdriven
    · exact absurd (h.dialing _ hdialing) (lt_asymm hlt)
    · obtain ⟨conn, hconn, hpeer⟩ := List.mem_map.mp hdriven
      exact hnew conn hconn hpeer
  spawned := h.spawned

end MeshNode.Tidy

theorem serveInitiator_ok {config : MeshConfig} {peer remoteStatic : StaticKey} {conn : Driven}
    (h : serveInitiator config peer remoteStatic = .ok conn) : conn = { peer, role := .initiator } := by
  unfold serveInitiator at h
  split at h
  · cases h
  · split at h
    · cases h
    · cases h
      simp_all

theorem serveResponder_ok {config : MeshConfig} {remoteStatic : StaticKey} {conn : Driven}
    (h : serveResponder config remoteStatic = .ok conn) :
    remoteStatic ∈ config.peers ∧ conn = { peer := remoteStatic, role := .responder } := by
  unfold serveResponder at h
  split at h
  · cases h
  · rename_i hmem
    cases h
    exact ⟨not_not.mp hmem, rfl⟩

/-! ## What a step does -/

section
variable {peers : StaticKey → List StaticKey} {honest : StaticKey → Bool} {w w' : World}

inductive Stepped (peers : StaticKey → List StaticKey) (honest : StaticKey → Bool) (w : World) : NetEvent → World → Prop
  | start {v dialers} : (w.node v).started = false →
      dialers = MeshConfig.dialers { localStaticPublic := v, peers := peers v } →
      Stepped peers honest w (.start v) (w.set v { started := true, dialing := dialers, driven := [], spawned := dialers })
  | dialed {v i remoteStatic peer} : (w.node v).dialing[i]? = some peer →
      Stepped peers honest w (.dialed v i remoteStatic)
        { w.set v (MeshNode.drive { w.node v with dialing := (w.node v).dialing.eraseIdx i }
            (serveInitiator { localStaticPublic := v, peers := peers v } peer remoteStatic)) with
          inflight := (v, remoteStatic) :: w.inflight }
  | dialFailed {v i} : Stepped peers honest w (.dialFailed v i)
      (w.set v { w.node v with dialing := (w.node v).dialing.eraseIdx i })
  | accepted {v remoteStatic} : (honest remoteStatic = true → (remoteStatic, v) ∈ w.inflight) →
      Stepped peers honest w (.accepted v remoteStatic)
        { w.set v ((w.node v).drive (serveResponder { localStaticPublic := v, peers := peers v } remoteStatic)) with
          inflight := w.inflight.erase (remoteStatic, v) }
  | closed {v i} : Stepped peers honest w (.closed v i)
      (w.set v { w.node v with driven := (w.node v).driven.eraseIdx i })

theorem World.stepped {e : NetEvent} (h : w.step peers honest e = .ok w') : Stepped peers honest w e w' := by
  cases e with
  | start v =>
    simp only [step] at h
    split at h
    · rename_i hv
      cases h
      exact .start hv.2 rfl
    · cases h
  | dialed v i remoteStatic =>
    simp only [step] at h
    cases hpeer : (w.node v).dialing[i]? with
    | none => rw [hpeer] at h; cases h
    | some peer =>
      simp only [hpeer] at h
      split at h
      · cases h
      · cases h
        exact .dialed hpeer
  | dialFailed v i =>
    simp only [step] at h
    split at h
    · cases h; exact .dialFailed
    · cases h
  | accepted v remoteStatic =>
    simp only [step] at h
    split at h
    · cases h
    · rename_i hv
      cases h
      refine .accepted fun hhonest => ?_
      by_contra hnone
      exact hv (Or.inr ⟨hhonest, hnone⟩)
  | closed v i =>
    simp only [step] at h
    split at h
    · cases h; exact .closed
    · cases h

def World.Tidy (peers : StaticKey → List StaticKey) (w : World) : Prop := ∀ v, (w.node v).Tidy (peers v) v

theorem World.Tidy.set {v : StaticKey} {node : MeshNode} {inflight : List (StaticKey × StaticKey)} (h : w.Tidy peers)
    (hnode : node.Tidy (peers v) v) : World.Tidy peers { w.set v node with inflight } := by
  intro u
  show ((Function.update w.node v node) u).Tidy (peers u) u
  by_cases hu : u = v
  · subst hu
    rw [Function.update_self]; exact hnode
  · rw [Function.update_of_ne hu]; exact h u

theorem World.Tidy.step (hpeers : ∀ v, (MeshConfig.dialers { localStaticPublic := v, peers := peers v }).Nodup)
    (h : w.Tidy peers) {e : NetEvent} (horderly : Orderly peers w e)
    (hstep : w.step peers honest e = .ok w') : w'.Tidy peers := by
  cases World.stepped hstep with
  | start _ hdialers => exact h.set (.start (hdialers ▸ hpeers _) hdialers)
  | @dialed v i remoteStatic peer hpeer =>
    refine h.set ?_
    cases hserve : serveInitiator { localStaticPublic := v, peers := peers v } peer remoteStatic with
    | error _ => exact (h v).dialFailed i
    | ok conn =>
      rw [serveInitiator_ok hserve]
      exact (h v).dialed' hpeer
  | dialFailed => exact h.set ((h _).dialFailed _)
  | @accepted v remoteStatic _ =>
    refine h.set ?_
    cases hserve : serveResponder { localStaticPublic := v, peers := peers v } remoteStatic with
    | error _ => exact h v
    | ok conn =>
      obtain ⟨hmem, rfl⟩ := serveResponder_ok hserve
      obtain ⟨hlt, hnew⟩ := horderly hmem
      exact (h v).accepted' hlt hnew
  | closed => exact h.set ((h _).closed _)

theorem count_dialers {v peer : StaticKey}
    (hpeers : (MeshConfig.dialers { localStaticPublic := v, peers := peers v }).Nodup) (hmem : peer ∈ peers v) :
    (MeshConfig.dialers { localStaticPublic := v, peers := peers v }).count peer = if v < peer then 1 else 0 := by
  by_cases hlt : v < peer
  · rw [if_pos hlt]
    exact List.count_eq_one_of_mem hpeers (List.mem_filter.mpr ⟨hmem, by simpa using hlt⟩)
  · rw [if_neg hlt]
    apply List.count_eq_zero.mpr
    intro hdialer
    exact hlt (by simpa using (List.mem_filter.mp hdialer).2)

theorem World.Tidy.oneConnection (hpeers : ∀ v, (MeshConfig.dialers { localStaticPublic := v, peers := peers v }).Nodup)
    (h : w.Tidy peers) : OneConnection peers w where
  unique := fun v => (List.nodup_append.mp (h v).nodup).2.1
  dialed := fun v => (h v).dialed
  accepted := fun v => (h v).accepted
  dialer := by
    intro u v hne hv hu hsu hsv
    rw [(h u).spawned hsu, (h v).spawned hsv, count_dialers (hpeers u) hv, count_dialers (hpeers v) hu]
    rcases lt_or_gt_of_ne hne with hlt | hlt
    · rw [if_pos hlt, if_neg (lt_asymm hlt)]
    · rw [if_neg (lt_asymm hlt), if_pos hlt]

end

/-! ## When nobody misbehaves -/

/-- What is left or has come of the dialers of `u` for `v`. -/
def World.tokens (w : World) (u v : StaticKey) : Nat :=
  (w.node u).dialing.count v + w.inflight.count (u, v) + (w.node v).driven.count { peer := u, role := .responder }

/-- A dialer is spawned once for a peer, and comes to one connection at most. -/
structure World.Spent (w : World) : Prop where
  once : ∀ u v, w.tokens u v ≤ (w.node u).started.toNat
  upward : ∀ u v, (u, v) ∈ w.inflight → u < v

section
variable {peers : StaticKey → List StaticKey} {honest : StaticKey → Bool} {w w' : World}

@[simp] theorem drive_dialing (node : MeshNode) (r : Except MeshError Driven) : (node.drive r).dialing = node.dialing := by
  cases r <;> rfl

@[simp] theorem drive_started (node : MeshNode) (r : Except MeshError Driven) : (node.drive r).started = node.started := by
  cases r <;> rfl

theorem World.tokens_set (w : World) (v₀ : StaticKey) (node : MeshNode) (inflight : List (StaticKey × StaticKey))
    (u v : StaticKey) :
    World.tokens { w.set v₀ node with inflight } u v =
      (if u = v₀ then node else w.node u).dialing.count v + inflight.count (u, v) +
        (if v = v₀ then node else w.node v).driven.count { peer := u, role := .responder } := by
  unfold tokens
  simp only [World.set, Function.update_apply]

theorem World.Spent.shrink (h : w.Spent) {v₀ : StaticKey} {node : MeshNode} {inflight : List (StaticKey × StaticKey)}
    (hstarted : node.started = (w.node v₀).started)
    (hle : ∀ u v, World.tokens { w.set v₀ node with inflight } u v ≤ w.tokens u v)
    (hup : ∀ u v, (u, v) ∈ inflight → u < v) : World.Spent { w.set v₀ node with inflight } := by
  refine ⟨fun u v => (hle u v).trans ((h.once u v).trans (le_of_eq ?_)), hup⟩
  by_cases hu : u = v₀
  · subst hu
    simp [World.set, hstarted]
  · simp [World.set, hu]

section
variable {v₀ : StaticKey} {node : MeshNode} {inflight : List (StaticKey × StaticKey)}

theorem World.tokens_from
    (hdial : ∀ v, node.dialing.count v + inflight.count (v₀, v) ≤ (w.node v₀).dialing.count v + w.inflight.count (v₀, v))
    (hother : ∀ u v, u ≠ v₀ → inflight.count (u, v) ≤ w.inflight.count (u, v))
    (hdriven : ∀ u, node.driven.count { peer := u, role := .responder } ≤
      (w.node v₀).driven.count { peer := u, role := .responder }) (u v : StaticKey) :
    World.tokens { w.set v₀ node with inflight } u v ≤ w.tokens u v := by
  have h1 := hdial v
  have h2 := hdriven u
  rw [tokens_set]
  unfold tokens
  by_cases hu : u = v₀
  · subst hu
    rw [if_pos rfl]
    split_ifs with hv
    · subst hv; omega
    · omega
  · have h3 := hother u v hu
    rw [if_neg hu]
    split_ifs with hv
    · subst hv; omega
    · omega

theorem World.tokens_to (hdial : node.dialing = (w.node v₀).dialing)
    (hother : ∀ u v, v ≠ v₀ → inflight.count (u, v) ≤ w.inflight.count (u, v))
    (hdriven : ∀ u, inflight.count (u, v₀) + node.driven.count { peer := u, role := .responder } ≤
      w.inflight.count (u, v₀) + (w.node v₀).driven.count { peer := u, role := .responder }) (u v : StaticKey) :
    World.tokens { w.set v₀ node with inflight } u v ≤ w.tokens u v := by
  have hsame : (if u = v₀ then node else w.node u).dialing = (w.node u).dialing := by
    split_ifs with hu
    · rw [hu, hdial]
    · rfl
  rw [tokens_set, hsame]
  unfold tokens
  by_cases hv : v = v₀
  · subst hv
    have := hdriven u
    rw [if_pos rfl]
    omega
  · have := hother u v hv
    rw [if_neg hv]
    omega

end

theorem drive_initiator_count {config : MeshConfig} {peer remoteStatic u : StaticKey} (node : MeshNode) :
    (node.drive (serveInitiator config peer remoteStatic)).driven.count { peer := u, role := .responder } =
      node.driven.count { peer := u, role := .responder } := by
  cases hserve : serveInitiator config peer remoteStatic with
  | error _ => rfl
  | ok conn =>
    rw [serveInitiator_ok hserve]
    simp [MeshNode.drive, List.count_append]

theorem drive_responder_count (config : MeshConfig) (remoteStatic u : StaticKey) (node : MeshNode) :
    (node.drive (serveResponder config remoteStatic)).driven.count { peer := u, role := .responder } ≤
      node.driven.count { peer := u, role := .responder } + if u = remoteStatic then 1 else 0 := by
  cases hserve : serveResponder config remoteStatic with
  | error _ => exact Nat.le_add_right _ _
  | ok conn =>
    obtain ⟨_, rfl⟩ := serveResponder_ok hserve
    by_cases hu : u = remoteStatic
    · subst hu
      simp [MeshNode.drive, List.count_append]
    · have hne : ¬ remoteStatic = u := fun h => hu h.symm
      simp [MeshNode.drive, List.count_append, hu, hne]

theorem World.Spent.start (h : w.Spent) {v₀ : StaticKey} (hnot : (w.node v₀).started = false) {dialers : List StaticKey}
    (hnodup : dialers.Nodup) :
    (w.set v₀ { started := true, dialing := dialers, driven := [], spawned := dialers }).Spent := by
  refine ⟨fun u v => ?_, h.upward⟩
  have honce := h.once u v
  have hcount := List.nodup_iff_count_le_one.mp hnodup v
  rw [World.tokens_set]
  unfold tokens at honce
  by_cases hu : u = v₀
  · subst hu
    rw [hnot, Bool.toNat_false] at honce
    simp only [World.set, Function.update_self, if_true, Bool.toNat_true]
    split_ifs
    · rw [List.count_nil]; omega
    · omega
  · simp only [World.set, Function.update_of_ne hu, if_neg hu]
    split_ifs with hv
    · subst hv
      rw [List.count_nil]; omega
    · exact honce

theorem World.Spent.dialed (h : w.Spent) (config : MeshConfig) {v₀ peer : StaticKey} {i : Nat}
    (hpeer : (w.node v₀).dialing[i]? = some peer) (hlt : v₀ < peer) :
    World.Spent { w.set v₀ (MeshNode.drive { w.node v₀ with dialing := (w.node v₀).dialing.eraseIdx i }
        (serveInitiator config peer peer)) with inflight := (v₀, peer) :: w.inflight } := by
  refine h.shrink (drive_started _ _) ?_ ?_
  · apply World.tokens_from
    · intro v
      obtain ⟨hi, hget⟩ := List.getElem?_eq_some_iff.mp hpeer
      have hmoved := (List.getElem_cons_eraseIdx_perm hi).count_eq v
      rw [hget, List.count_cons] at hmoved
      rw [drive_dialing, List.count_cons]
      simp only [beq_iff_eq, Prod.mk.injEq, true_and] at hmoved ⊢
      omega
    · intro u v hu
      rw [List.count_cons_of_ne]
      intro heq
      exact hu (Prod.mk.inj heq).1.symm
    · intro u
      exact le_of_eq (drive_initiator_count _)
  · intro u v hmem
    rcases List.mem_cons.mp hmem with heq | hmem
    · cases heq
      exact hlt
    · exact h.upward u v hmem

theorem World.Spent.accepted (h : w.Spent) (config : MeshConfig) {v₀ remoteStatic : StaticKey}
    (hmem : (remoteStatic, v₀) ∈ w.inflight) :
    World.Spent { w.set v₀ ((w.node v₀).drive (serveResponder config remoteStatic)) with
      inflight := w.inflight.erase (remoteStatic, v₀) } := by
  refine h.shrink (drive_started _ _) ?_ ?_
  · apply World.tokens_to (drive_dialing _ _)
    · intro u v _
      exact (List.erase_sublist ..).count_le _
    · intro u
      have hcount := drive_responder_count config remoteStatic u (w.node v₀)
      by_cases hu : u = remoteStatic
      · subst hu
        have hpos := List.count_pos_iff.mpr hmem
        rw [List.count_erase_self]
        rw [if_pos rfl] at hcount
        omega
      · rw [List.count_erase_of_ne fun heq => hu (Prod.mk.inj heq).1]
        rw [if_neg hu] at hcount
        omega
  · intro u v hmem
    exact h.upward u v (List.mem_of_mem_erase hmem)

/-- **Step.** Where every dialer reaches its peer, no token is made but by a start. -/
theorem World.Spent.step (hpeers : ∀ v, (MeshConfig.dialers { localStaticPublic := v, peers := peers v }).Nodup)
    (hall : ∀ v, honest v = true) (htidy : w.Tidy peers) (h : w.Spent) {e : NetEvent} (hrouted : Routed w e)
    (hstep : w.step peers honest e = .ok w') : w'.Spent := by
  cases World.stepped hstep with
  | start hnot hdialers =>
    apply h.start hnot
    rw [hdialers]
    exact hpeers _
  | @dialed v₀ i remoteStatic peer hpeer =>
    obtain rfl : peer = remoteStatic := Option.some.inj (hpeer.symm.trans hrouted)
    exact h.dialed _ hpeer ((htidy v₀).dialing peer (List.mem_of_getElem? hpeer))
  | @dialFailed v₀ i =>
    refine h.shrink rfl (World.tokens_from (fun v => ?_) (fun _ _ _ => le_rfl) fun _ => le_rfl) h.upward
    exact Nat.add_le_add_right (((w.node v₀).dialing.eraseIdx_sublist i).count_le v) _
  | @accepted v₀ remoteStatic hinflight => exact h.accepted _ (hinflight (hall remoteStatic))
  | @closed v₀ i =>
    refine h.shrink rfl (World.tokens_from (fun _ => le_rfl) (fun _ _ _ => le_rfl) fun u => ?_) h.upward
    exact ((w.node v₀).driven.eraseIdx_sublist i).count_le _

/-- An honest dialer that has just finished its handshake has no other connection there. -/
theorem World.Spent.orderly (hall : ∀ v, honest v = true) (htidy : w.Tidy peers) (h : w.Spent) {e : NetEvent}
    (hstep : w.step peers honest e = .ok w') : Orderly peers w e := by
  cases World.stepped hstep with
  | @accepted v remoteStatic hinflight =>
    have hmem := hinflight (hall remoteStatic)
    have hlt := h.upward _ _ hmem
    intro _
    refine ⟨hlt, fun conn hconn heq => ?_⟩
    subst heq
    cases hrole : conn.role with
    | initiator => exact lt_asymm hlt ((htidy v).dialed conn hconn hrole)
    | responder =>
      -- the handshake and the connection are two tokens of one dialer
      have hdriven : 0 < (w.node v).driven.count { peer := conn.peer, role := .responder } := by
        rw [← hrole]
        exact List.count_pos_iff.mpr hconn
      have hflying := List.count_pos_iff.mpr hmem
      have honce := h.once conn.peer v
      have := Bool.toNat_le (w.node conn.peer).started
      unfold tokens at honce
      omega
  | _ => trivial

end

/-- Where no node is to dial a key twice, and every inbound connection that is
driven is from a lower peer that has none, a node has one connection per peer,
dialed by the lower key. That is so when nobody misbehaves. -/
theorem one_connection_per_pair (peers : StaticKey → List StaticKey)
    (hpeers : ∀ v, (MeshConfig.dialers { localStaticPublic := v, peers := peers v }).Nodup)
    (honest : StaticKey → Bool) :
    (∀ pre post, EachStep (World.step peers honest) (Orderly peers) .initial (pre ++ post) →
      OneConnection peers (replay (World.step peers honest) .initial pre)) ∧
    ((∀ v, honest v = true) → ∀ pre post, EachStep (World.step peers honest) Routed .initial (pre ++ post) →
      OneConnection peers (replay (World.step peers honest) .initial pre)) := by
  have htidy : World.initial.Tidy peers := fun _ => .initial
  constructor
  · intro pre post hevents
    have hrun : (replay (World.step peers honest) .initial pre).Tidy peers :=
      hevents.invariant (fun _ _ _ h horderly hstep => h.step hpeers horderly hstep) htidy
    exact hrun.oneConnection hpeers
  · intro hall pre post hevents
    have hspent : World.initial.Spent := ⟨by simp [World.tokens, World.initial], by simp [World.initial]⟩
    have hrun : (replay (World.step peers honest) .initial pre).Tidy peers ∧
        (replay (World.step peers honest) .initial pre).Spent := by
      refine hevents.invariant (P := fun w => w.Tidy peers ∧ w.Spent) ?_ ⟨htidy, hspent⟩
      rintro w e w' ⟨h, hspent⟩ hrouted hstep
      exact ⟨h.step hpeers (hspent.orderly hall h hstep) hstep, hspent.step hpeers hall h hrouted hstep⟩
    exact hrun.1.oneConnection hpeers

def lowKey : StaticKey := ⟨Vector.replicate 32 1⟩

def highKey : StaticKey := ⟨Vector.replicate 32 2⟩

def pairPeers (v : StaticKey) : List StaticKey := if v = highKey then [lowKey] else [highKey]

def honestBoot : List NetEvent := [.start lowKey, .start highKey, .dialed lowKey 0 highKey, .accepted highKey lowKey]

theorem one_connection_per_pair_boot :
    OneConnection pairPeers (replay (World.step pairPeers fun _ => true) .initial honestBoot) ∧
    ((replay (World.step pairPeers fun _ => true) .initial honestBoot).node highKey).driven =
      [{ peer := lowKey, role := .responder }] := by
  have hpeers : ∀ v, (MeshConfig.dialers { localStaticPublic := v, peers := pairPeers v }).Nodup := fun v => by
    unfold pairPeers MeshConfig.dialers
    split <;> exact (List.nodup_singleton _).filter _
  refine ⟨(one_connection_per_pair pairPeers hpeers fun _ => true).2 (fun _ => rfl) honestBoot [] ?_, rfl⟩
  exact ⟨fun _ _ => trivial, fun _ _ => trivial, fun _ _ => rfl, fun _ _ => trivial, trivial⟩

theorem second_connection_driven :
    ¬ OneConnection pairPeers (replay (World.step pairPeers fun v => decide (v = highKey)) .initial
      [.start highKey, .accepted highKey lowKey, .accepted highKey lowKey]) := by
  intro h
  have hdriven : ((replay (World.step pairPeers fun v => decide (v = highKey)) .initial
      [.start highKey, .accepted highKey lowKey, .accepted highKey lowKey]).node highKey).driven.map Driven.peer =
        [lowKey, lowKey] := rfl
  have hunique := h.unique highKey
  rw [hdriven] at hunique
  simp at hunique

end Mesh

end Sapphire
