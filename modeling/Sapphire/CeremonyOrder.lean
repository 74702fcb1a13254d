import Sapphire.Diamond

/-!
# Delivery order of a ceremony

A replica drops what arrives before its phase, and nothing delivers it again.
A reordering of a completed ceremony therefore converges exactly when it is in
phase order: then equal phases commute, and otherwise some transaction is
missing from a count that only the full set reaches.
-/

namespace Sapphire

open BTreeMap Replay

variable {C : Ciphersuite}

def Tx.rank : Tx C → Nat
  | .dkgRound1 _ _ => 1
  | .dkgRound2 _ _ _ => 2
  | .dkgFinalize _ _ => 3
  | _ => 0

def Tx.isDkgBegin : Tx C → Bool
  | .dkgBegin _ _ => true
  | _ => false

def Tx.IsDkg (tx : Tx C) : Prop := tx.isDkgBegin = true ∨ 0 < tx.rank

def Tx.sender? : Tx C → Option C.Identifier
  | .dkgRound1 v _ => some v
  | .dkgRound2 v _ _ => some v
  | .dkgFinalize v _ => some v
  | _ => none

/-- Every round-1 package before every envelope, and those before every finalize. -/
def PhaseOrdered (txs : List (Tx C)) : Prop := txs.Pairwise (fun a b => a.rank ≤ b.rank)

/-- A delivery of the same transactions, `DkgBegin` first and every sender's stream in its order. -/
structure Redelivery (txs txs' : List (Tx C)) : Prop where
  perm : txs.Perm txs'
  first : txs'.head? = txs.head?
  streams : ∀ v : C.Identifier, txs'.filter (·.sender? = some v) = txs.filter (·.sender? = some v)

/-! ## What a run of rounds counts -/

/-- The furthest phase a state has accepted something of. -/
def State.floor (s : State C) : Nat :=
  match s.ceremony, s.group with
  | some c, _ => if c.finalize.size ≠ 0 then 3 else if c.round2.size ≠ 0 then 2 else 1
  | none, some _ => 4
  | none, none => 0

def State.members (s : State C) : Finset C.Identifier :=
  match s.ceremony, s.group with
  | some c, _ => dom c.validators
  | none, some g => g.validators
  | none, none => ∅

/-- Accepted round transactions: all of them, once there is a group. -/
def State.progress (s : State C) : Nat :=
  match s.ceremony with
  | some c => c.round1.size + c.round2.size + c.finalize.size
  | none => s.members.card * (s.members.card + 1)

theorem State.floor_ceremony {s : State C} {c : DkgCeremony C} (hc : s.ceremony = some c) :
    s.floor = if c.finalize.size ≠ 0 then 3 else if c.round2.size ≠ 0 then 2 else 1 := by
  unfold floor; rw [hc]

theorem State.members_ceremony {s : State C} {c : DkgCeremony C} (hc : s.ceremony = some c) :
    s.members = dom c.validators := by
  unfold members; rw [hc]

theorem State.progress_ceremony {s : State C} {c : DkgCeremony C} (hc : s.ceremony = some c) :
    s.progress = c.round1.size + c.round2.size + c.finalize.size := by
  unfold progress; rw [hc]

theorem State.floor_bounds {s : State C} {c : DkgCeremony C} (hc : s.ceremony = some c) :
    1 ≤ s.floor ∧ s.floor ≤ 3 := by
  rw [State.floor_ceremony hc]
  by_cases hf : c.finalize.size = 0
  · by_cases h2 : c.round2.size = 0 <;> simp [hf, h2]
  · simp [hf]

theorem applyTx_floor {s s' : State C} {tx : Tx C} (h : s.Valid) (hd : tx.IsDkg) (ha : applyTx s tx = .ok s') :
    s.floor ≤ tx.rank ∧ tx.rank ≤ s'.floor := by
  cases tx with
  | dkgBegin params validators =>
    obtain ⟨hg, hc, _⟩ := applyDkgBegin_ok.mp ha
    refine ⟨?_, Nat.zero_le _⟩
    unfold State.floor; rw [hg, hc]; exact Nat.zero_le _
  | dkgRound1 v p =>
    obtain ⟨c, hc, hv, hr, rfl⟩ := applyDkgRound1_ok.mp ha
    have hval := h.ceremony hc
    have hzero := hval.round2_empty_of_round1_lt (hval.round1_lt hv hr)
    have hfin := hval.finalize_empty_of_round1 hv hr
    refine ⟨?_, ?_⟩
    · rw [State.floor_ceremony hc, if_neg (not_not.mpr hfin), if_neg (not_not.mpr hzero)]; rfl
    · exact (State.floor_bounds rfl).1
  | dkgRound2 v w sealed =>
    obtain ⟨c, hc, _, hne, hv, hw, hr, rfl⟩ := applyDkgRound2_ok.mp ha
    have hval := h.ceremony hc
    have hfin := hval.finalize_empty_of_round2 hv hw hne hr
    have hsz := size_insert_of_not_mem sealed hr
    refine ⟨?_, ?_⟩
    · rw [State.floor_ceremony hc, if_neg (not_not.mpr hfin)]
      show (if c.round2.size ≠ 0 then 2 else 1) ≤ 2
      split <;> omega
    · rw [State.floor_ceremony rfl, if_neg (not_not.mpr hfin), if_pos]
      · exact le_rfl
      · show (c.round2.insert (toLex (v, w)) sealed).size ≠ 0
        omega
  | dkgFinalize v pkp =>
    obtain ⟨c, hc, _, hv, hf, _, hfin⟩ := applyDkgFinalize_ok.mp ha
    refine ⟨?_, ?_⟩
    · exact (State.floor_bounds hc).2
    · cases hfin with
      | extended hd =>
        have hsz := size_insert_of_not_mem pkp hf
        rw [State.floor_ceremony rfl, if_pos]
        · exact le_rfl
        · show (c.finalize.insert v pkp).size ≠ 0
          omega
      | promoted hd hp =>
        show 3 ≤ 4
        omega
  | _ => rcases hd with hd | hd <;> simp [Tx.isDkgBegin, Tx.rank] at hd

theorem applyTx_members {s s' : State C} {tx : Tx C} (hr : 0 < tx.rank) (ha : applyTx s tx = .ok s') :
    s'.members = s.members ∧ ∃ v ∈ s.members, tx.sender? = some v := by
  cases tx with
  | dkgRound1 v p =>
    obtain ⟨c, hc, hv, _, rfl⟩ := applyDkgRound1_ok.mp ha
    rw [State.members_ceremony hc]
    exact ⟨rfl, v, mem_dom.mpr hv, rfl⟩
  | dkgRound2 v w sealed =>
    obtain ⟨c, hc, _, _, hv, _, _, rfl⟩ := applyDkgRound2_ok.mp ha
    rw [State.members_ceremony hc]
    exact ⟨rfl, v, mem_dom.mpr hv, rfl⟩
  | dkgFinalize v pkp =>
    obtain ⟨c, hc, _, hv, _, _, hfin⟩ := applyDkgFinalize_ok.mp ha
    rw [State.members_ceremony hc]
    refine ⟨?_, v, mem_dom.mpr hv, rfl⟩
    cases hfin <;> rfl
  | _ => simp [Tx.rank] at hr

theorem applyTx_progress {s s' : State C} {tx : Tx C} (h : s.Valid) (hr : 0 < tx.rank) (hn : 2 ≤ s.members.card)
    (ha : applyTx s tx = .ok s') : s'.progress = s.progress + 1 := by
  cases tx with
  | dkgRound1 v p =>
    obtain ⟨c, hc, _, hr, rfl⟩ := applyDkgRound1_ok.mp ha
    rw [State.progress_ceremony hc, State.progress_ceremony rfl]
    have hsz := size_insert_of_not_mem p hr
    dsimp only
    omega
  | dkgRound2 v w sealed =>
    obtain ⟨c, hc, _, _, _, _, hr, rfl⟩ := applyDkgRound2_ok.mp ha
    rw [State.progress_ceremony hc, State.progress_ceremony rfl]
    have hsz := size_insert_of_not_mem sealed hr
    dsimp only
    omega
  | dkgFinalize v pkp =>
    obtain ⟨c, hc, h2, hv, hf, _, hfin⟩ := applyDkgFinalize_ok.mp ha
    rw [State.progress_ceremony hc]
    have hsz := size_insert_of_not_mem pkp hf
    cases hfin with
    | extended hd =>
      rw [State.progress_ceremony rfl]
      dsimp only
      omega
    | @promoted k₀ p hd hp =>
      have hval := h.ceremony hc
      rw [State.members_ceremony hc, hval.card_validators] at hn
      obtain ⟨_, hsz2⟩ := DkgCeremony.r2Complete_iff.mp h2
      -- two members make a pair, so round 2 is not vacuously complete
      have hne : c.round2.size ≠ 0 := by
        rw [hsz2]; exact Nat.mul_ne_zero (by omega) (by omega)
      have hsz1 := hval.round2_after hne
      have hcard : State.progress { s with ceremony := none, group := some (DkgCeremony.toGroup
          { c with finalize := c.finalize.insert v pkp } p) } = c.total * (c.total + 1) := by
        show (dom c.validators).card * ((dom c.validators).card + 1) = _
        rw [hval.card_validators]
      change (c.finalize.insert v pkp).size = c.total at hd
      rw [hcard, hsz1, hsz2]
      obtain ⟨k, hk⟩ : ∃ k, c.total = k + 1 := ⟨c.total - 1, by omega⟩
      have hfs : c.finalize.size = k := by omega
      rw [hfs, hk, Nat.add_sub_cancel]
      ring
  | _ => simp [Tx.rank] at hr

/-! ## Equal phases swap -/

theorem swaps_round1 {s : State C} {v w : C.Identifier} {p q : C.Round1Package} :
    SwapsAt applyTx s (.dkgRound1 v p) (.dkgRound1 w q) := by
  intro m t ha hb
  obtain ⟨c, hc, hv, hrv, hm⟩ := applyDkgRound1_ok.mp ha
  obtain ⟨c', hc', hw, hrw, _⟩ := applyDkgRound1_ok.mp hb
  rw [hm] at hc'; cases hc'
  simp only [mem_insert', not_or] at hrw
  have hb' : applyDkgRound1 s w q = .ok _ := applyDkgRound1_ok.mpr ⟨c, hc, hw, hrw.2, rfl⟩
  obtain ⟨t', h1, h2⟩ := meets_round1 hrw.1 ha hb'
  cases hb.symm.trans h1
  exact ⟨_, hb', h2⟩

theorem swaps_round2 {s : State C} {v v' w w' : C.Identifier} {x y : Sealed} :
    SwapsAt applyTx s (.dkgRound2 v v' x) (.dkgRound2 w w' y) := by
  intro m t ha hb
  obtain ⟨c, hc, h1, hne, hv, hv', hrv, hm⟩ := applyDkgRound2_ok.mp ha
  obtain ⟨c', hc', h1', hne', hw, hw', hrw, _⟩ := applyDkgRound2_ok.mp hb
  rw [hm] at hc'; cases hc'
  simp only [mem_insert', not_or] at hrw
  have hb' : applyDkgRound2 s w w' y = .ok _ := applyDkgRound2_ok.mpr ⟨c, hc, h1', hne', hw, hw', hrw.2, rfl⟩
  obtain ⟨t', h1, h2⟩ := meets_round2 hrw.1 ha hb'
  cases hb.symm.trans h1
  exact ⟨_, hb', h2⟩

theorem swaps_finalize {s : State C} (h : s.Valid) {v w : C.Identifier} {p q : C.PublicKeyPackage} :
    SwapsAt applyTx s (.dkgFinalize v p) (.dkgFinalize w q) := by
  intro m t ha hb
  obtain ⟨c, hc, h2, hv, hfv, hmp, hfa⟩ := applyDkgFinalize_ok.mp ha
  obtain ⟨c', hc', h2', hw, hfw, hmq, _⟩ := applyDkgFinalize_ok.mp hb
  cases hfa with
  | promoted _ _ => cases hc'
  | extended hd =>
    cases hc'
    simp only [mem_insert', not_or] at hfw
    have hval := h.ceremony hc
    -- the second package agrees with all that are stored, the first one among them
    have hall := (hval.withFinalize h2 hv hfv hmp hd).mismatch_iff.mp hmq
    have hpq : C.Agree p q := hall v p (by simp)
    have hmq' : c.mismatch q = false := hval.mismatch_iff.mpr fun k r hr => by
      refine hall k r ?_
      have hne : v ≠ k := fun e => hfv (e ▸ mem_of_getElem? hr)
      show (c.finalize.insert v p)[k]? = some r
      rw [getElem?_insert_ne _ _ hne]; exact hr
    obtain ⟨sb, hsb⟩ : ∃ sb, Finalized s { c with finalize := c.finalize.insert w q } sb :=
      Finalized.exists_of_mem (show w ∈ c.finalize.insert w q by simp)
    have hb' : applyDkgFinalize s w q = .ok sb := applyDkgFinalize_ok.mpr ⟨c, hc, h2, hw, hfw.2, hmq', hsb⟩
    obtain ⟨t', h1, h2⟩ := meets_finalize h hfw.1 hpq ha hb'
    cases hb.symm.trans h1
    exact ⟨_, hb', h2⟩

theorem swaps_of_rank {a b : Tx C} (ha : a.IsDkg) (hb : b.IsDkg) (hab : a.rank = b.rank) {s : State C}
    (h : s.Valid) : SwapsAt applyTx s a b := by
  cases a with
  | dkgBegin params validators =>
    intro m t hm ht
    -- no second ceremony begins while one is open
    obtain ⟨_, _, _, rfl⟩ := applyDkgBegin_ok.mp hm
    cases b with
    | dkgBegin params' validators' =>
      obtain ⟨_, hc, _⟩ := applyDkgBegin_ok.mp ht
      cases hc
    | _ => rcases hb with hb | hb <;> simp_all [Tx.rank, Tx.isDkgBegin]
  | dkgRound1 v p =>
    cases b with
    | dkgRound1 w q => exact swaps_round1
    | _ => simp [Tx.rank] at hab
  | dkgRound2 v v' x =>
    cases b with
    | dkgRound2 w w' y => exact swaps_round2
    | _ => simp [Tx.rank] at hab
  | dkgFinalize v p =>
    cases b with
    | dkgFinalize w q => exact swaps_finalize h
    | _ => simp [Tx.rank] at hab
  | _ => rcases ha with ha | ha <;> simp [Tx.rank, Tx.isDkgBegin] at ha

/-! ## Redelivery -/

theorem run_phaseOrdered {txs : List (Tx C)} {s t : State C} (h : s.Valid) (hd : ∀ tx ∈ txs, tx.IsDkg)
    (hr : run applyTx s txs = .ok t) : PhaseOrdered txs ∧ ∀ tx ∈ txs, s.floor ≤ tx.rank :=
  run_ranked (fun tx htx _ _ hv ha => ⟨applyTx_valid hv ha, applyTx_floor hv (hd tx htx) ha⟩) h hr

theorem run_begins {txs : List (Tx C)} {s : State C} (hd : ∀ tx ∈ txs, tx.IsDkg)
    (hr : run applyTx State.default txs = .ok s) (hg : s.group ≠ none) :
    ∃ b m rest, txs = b :: rest ∧ applyTx State.default b = .ok m ∧ run applyTx m rest = .ok s ∧ m.Valid ∧
      b.rank = 0 ∧ ∀ tx ∈ rest, 0 < tx.rank := by
  cases txs with
  | nil => cases hr; exact absurd rfl hg
  | cons b rest =>
    obtain ⟨m, hm, hrest⟩ := run_cons.mp hr
    have hval := applyTx_valid State.Valid.default hm
    have hrank : b.rank = 0 := by
      by_contra hne
      obtain ⟨_, v, hv, _⟩ := applyTx_members (Nat.pos_of_ne_zero hne) hm
      simp [State.members, State.default] at hv
    refine ⟨b, m, rest, rfl, hm, hrest, hval, hrank, fun tx htx => ?_⟩
    -- a ceremony is open, so the floor is past another `DkgBegin`
    have hfloor : 1 ≤ m.floor := by
      cases b with
      | dkgBegin params validators =>
        obtain ⟨_, _, _, rfl⟩ := applyDkgBegin_ok.mp hm
        exact (State.floor_bounds rfl).1
      | _ => rcases hd _ (List.mem_cons_self ..) with hb | hb <;> simp_all [Tx.rank, Tx.isDkgBegin]
    exact hfloor.trans ((run_phaseOrdered hval (fun a ha => hd a (by simp [ha])) hrest).2 tx htx)

theorem rank_zero_sender {tx : Tx C} (h : tx.rank = 0) : tx.sender? = none := by
  cases tx <;> simp_all [Tx.rank, Tx.sender?]

theorem redelivery_single {b : Tx C} {rest rest' : List (Tx C)} {m s : State C} (hb : b.rank = 0)
    (hre : Redelivery (b :: rest) (b :: rest')) (hround : ∀ tx ∈ rest, 0 < tx.rank)
    (hr : run applyTx m rest = .ok s) (hcard : m.members.card ≤ 1) : rest' = rest := by
  have hp : rest.Perm rest' := hre.perm.cons_inv
  have hsender : ∀ tx ∈ rest, ∃ v ∈ m.members, tx.sender? = some v :=
    run_forall (P := fun u => u.members = m.members) (fun tx htx u u' hu ha => by
      obtain ⟨hm, hv⟩ := applyTx_members (hround tx htx) ha
      exact ⟨hm.trans hu, hu ▸ hv⟩) rfl hr
  cases hrest : rest with
  | nil => rw [hrest] at hp; exact hp.nil_eq.symm
  | cons a as =>
    obtain ⟨v, hv, _⟩ := hsender a (by simp [hrest])
    have hall : ∀ tx ∈ rest, tx.sender? = some v := fun tx htx => by
      obtain ⟨w, hw, htw⟩ := hsender tx htx
      rw [htw, Finset.card_le_one.mp hcard w hw v hv]
    have hstream := hre.streams v
    have hskip : decide (b.sender? = some v) = false := by simp [rank_zero_sender hb]
    rw [List.filter_cons, List.filter_cons, hskip] at hstream
    rw [← hrest]
    calc rest' = rest'.filter (·.sender? = some v) :=
          (List.filter_eq_self.mpr fun tx htx => by simpa using hall tx (hp.mem_iff.mpr htx)).symm
      _ = rest.filter (·.sender? = some v) := by simpa using hstream
      _ = rest := List.filter_eq_self.mpr fun tx htx => by simpa using hall tx htx

/-- With two members or more, only the whole set of rounds makes the progress to a group. -/
theorem accepted_all {rest rest' : List (Tx C)} {m s : State C} (h : m.Valid) (hp : rest.Perm rest')
    (hround : ∀ tx ∈ rest, 0 < tx.rank) (hcard : 2 ≤ m.members.card) (hr : run applyTx m rest = .ok s)
    (hs : replay applyTx m rest' = s) : run applyTx m rest' = .ok s := by
  have hcount : ∀ l : List (Tx C), (∀ tx ∈ l, 0 < tx.rank) → run applyTx m l = .ok s →
      s.progress = m.progress + l.length := fun l hl =>
    run_length (P := fun u => u.Valid ∧ u.members = m.members) (fun tx htx u u' hu ha =>
      ⟨⟨applyTx_valid hu.1 ha, (applyTx_members (hl tx htx) ha).1.trans hu.2⟩,
        applyTx_progress hu.1 (hl tx htx) (by rw [hu.2]; exact hcard) ha⟩) ⟨h, rfl⟩
  have hacc := run_accepted applyTx m rest'
  have hsub := accepted_sublist applyTx m rest'
  rw [hs] at hacc
  have h1 := hcount rest hround hr
  have h2 := hcount _ (fun tx htx => hround tx (hp.mem_iff.mpr (hsub.mem htx))) hacc
  have hlen : (accepted applyTx m rest').length = rest'.length := by rw [← hp.length_eq]; omega
  rwa [hsub.eq_of_length hlen] at hacc

/-- **Redelivery.** A replica that receives a completed ceremony in another
order, every stream in its own, ends in the same state exactly when it
receives the phases in order. -/
theorem redelivery_converges_iff {txs txs' : List (Tx C)} {s : State C} (hd : ∀ tx ∈ txs, tx.IsDkg)
    (hr : run applyTx State.default txs = .ok s) (hg : s.group ≠ none) (hre : Redelivery txs txs') :
    reached txs' = s ↔ PhaseOrdered txs' := by
  have hd' : ∀ tx ∈ txs', tx.IsDkg := fun tx htx => hd tx (hre.perm.mem_iff.mpr htx)
  constructor
  · intro hs
    obtain ⟨b, m, rest, rfl, hm, hrest, hval, hb, hround⟩ := run_begins hd hr hg
    obtain ⟨rest', rfl⟩ : ∃ rest', txs' = b :: rest' := List.head?_eq_some_iff.mp hre.first
    have hs' : replay applyTx m rest' = s := by rw [← hs, ← feed_ok hm]; rfl
    refine (run_phaseOrdered State.Valid.default hd' (t := s) (run_cons.mpr ⟨m, hm, ?_⟩)).1
    rcases Nat.lt_or_ge m.members.card 2 with hlt | hge
    · rw [redelivery_single hb hre hround hrest (by omega)]; exact hrest
    · exact accepted_all hval hre.perm.cons_inv hround hge hrest hs'
  · intro hord
    refine replay_of_run (run_perm_ranked (fun _ _ _ h ha => applyTx_valid h ha) Tx.rank hre.perm
      (run_phaseOrdered State.Valid.default hd hr).1 hord ?_ .default hr)
    exact fun a ha b hb hab u hu => swaps_of_rank (hd a ha) (hd b hb) hab hu

namespace Ideal

def encKey (n : UInt8) : EncPublicKey := ⟨Vector.replicate 32 n⟩

def duoMembers : BTreeMap Nat EncPublicKey := Std.ExtTreeMap.ofList [(1, encKey 1), (2, encKey 2)]

def duoBegin : Tx suite := .dkgBegin pair duoMembers

def duoRound1 (v : Nat) : Tx suite := .dkgRound1 v (v : Int)

def duoRound2 (v w : Nat) : Tx suite := .dkgRound2 v w ⟨[]⟩

def duoFinalize (v : Nat) : Tx suite := .dkgFinalize v pairKeys

def duoRun : List (Tx suite) :=
  [duoBegin, duoRound1 1, duoRound1 2, duoRound2 1 2, duoRound2 2 1, duoFinalize 1, duoFinalize 2]

def duoSwapped : List (Tx suite) :=
  [duoBegin, duoRound1 2, duoRound1 1, duoRound2 1 2, duoRound2 2 1, duoFinalize 1, duoFinalize 2]

def duoEarly : List (Tx suite) :=
  [duoBegin, duoRound1 1, duoRound2 1 2, duoRound1 2, duoRound2 2 1, duoFinalize 1, duoFinalize 2]

theorem duoRun_dkg : ∀ tx ∈ duoRun, tx.IsDkg := by
  simp [duoRun, duoBegin, duoRound1, duoRound2, duoFinalize, Tx.IsDkg, Tx.isDkgBegin, Tx.rank]

theorem duoRun_accepted : run applyTx State.default duoRun = .ok (reached duoRun) := rfl

theorem streams_duo {txs txs' : List (Tx suite)}
    (h1 : txs'.filter (·.sender? = some (1 : Nat)) = txs.filter (·.sender? = some (1 : Nat)))
    (h2 : txs'.filter (·.sender? = some (2 : Nat)) = txs.filter (·.sender? = some (2 : Nat)))
    (h : ∀ tx ∈ txs, ∀ v : Nat, tx.sender? = some v → v = 1 ∨ v = 2) (hp : txs.Perm txs') (v : Nat) :
    txs'.filter (·.sender? = some v) = txs.filter (·.sender? = some v) := by
  by_cases hv1 : v = 1
  · rw [hv1]; exact h1
  by_cases hv2 : v = 2
  · rw [hv2]; exact h2
  have hnone : ∀ tx ∈ txs, ¬ tx.sender? = some v := fun tx htx hs => (h tx htx v hs).elim hv1 hv2
  have hnone' : ∀ tx ∈ txs', ¬ tx.sender? = some v := fun tx htx => hnone tx (hp.mem_iff.mpr htx)
  rw [List.filter_eq_nil_iff.mpr (by simpa using hnone'), List.filter_eq_nil_iff.mpr (by simpa using hnone)]

theorem duoRun_senders : ∀ tx ∈ duoRun, ∀ v : Nat, tx.sender? = some v → v = 1 ∨ v = 2 := by
  simp [duoRun, duoBegin, duoRound1, duoRound2, duoFinalize, Tx.sender?]

theorem redelivery_swapped : Redelivery duoRun duoSwapped where
  perm := .cons _ (.swap ..)
  first := rfl
  streams := streams_duo rfl rfl duoRun_senders (.cons _ (.swap ..))

theorem redelivery_early : Redelivery duoRun duoEarly where
  perm := .cons _ (.cons _ (.swap ..))
  first := rfl
  streams := streams_duo rfl rfl duoRun_senders (.cons _ (.cons _ (.swap ..)))

end Ideal

theorem redelivery_converges_iff_duo :
    reached Ideal.duoSwapped = reached Ideal.duoRun ↔ PhaseOrdered Ideal.duoSwapped :=
  redelivery_converges_iff Ideal.duoRun_dkg Ideal.duoRun_accepted (fun h => by cases h) Ideal.redelivery_swapped

/-- The early envelope is dropped, round 2 never completes, and no group is committed. -/
theorem redelivery_diverges :
    ¬ ∀ (txs txs' : List (Tx Ideal.suite)) (s : State Ideal.suite), (∀ tx ∈ txs, tx.IsDkg) →
      run applyTx State.default txs = .ok s → s.group ≠ none → Redelivery txs txs' → reached txs' = s := by
  intro h
  have hs := h _ _ _ Ideal.duoRun_dkg Ideal.duoRun_accepted (fun h => by cases h) Ideal.redelivery_early
  have hg : (reached Ideal.duoEarly).group = none := rfl
  rw [hs] at hg
  cases hg

end Sapphire
