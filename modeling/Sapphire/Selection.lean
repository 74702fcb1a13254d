import Sapphire.ChainInv
import Sapphire.Ideal

/-!
# Which commitments the threshold cut selects

The cut is taken inside the commitment that reaches the threshold, so it
selects among the commitments that have arrived by then. Two replicas that
receive the same commitments in different orders agree exactly when the cut
cannot fall before the last of them, or cannot reach any of them.
-/

namespace Sapphire

open BTreeMap Replay

variable {C : Ciphersuite}

def commitTxs (id : Uuid) (l : List (C.Identifier × C.SigningCommitments)) : List (Tx C) :=
  l.map fun p => .submitCommitment id p.1 p.2

def statusAfter (s : State C) (id : Uuid) (l : List (C.Identifier × C.SigningCommitments)) :
    Option (RequestStatus C) :=
  ((replay applyTx s (commitTxs id l)).requests[id]?).map RequestEntry.status

/-! ## The status as a function of the arrivals -/

section
variable (params : MpcParams) (message : Bytes)

/-- The status commitments lead to, one by one, from a map of earlier ones. -/
def collect : BTreeMap C.Identifier C.SigningCommitments → List (C.Identifier × C.SigningCommitments) →
    RequestStatus C
  | m, [] => .awaitingCommitments m
  | m, p :: l =>
    if p.1 ∈ m then collect m l
    else if params.threshold ≤ UInt16.ofNat (m.insert p.1 p.2).size then thresholdCut params message (m.insert p.1 p.2)
    else collect (m.insert p.1 p.2) l

/-- `n` commitments fire the cut: the count, as `u16`, is at the threshold. -/
def Fires (n : Nat) : Prop := params.threshold.toNat ≤ n % 65536

def cutStatus (m : BTreeMap C.Identifier C.SigningCommitments) : RequestStatus C :=
  .signing (C.signingPackage (cut params.threshold.toNat m) message) (dom (cut params.threshold.toNat m)) ∅

/-- The commitments of a list from validators that have none stored yet. -/
def fresh (m : BTreeMap C.Identifier C.SigningCommitments) (l : List (C.Identifier × C.SigningCommitments)) :
    List (C.Identifier × C.SigningCommitments) :=
  l.filter fun p => decide (p.1 ∉ m)

instance (n : Nat) : Decidable (Fires params n) := inferInstanceAs (Decidable (_ ≤ _))

theorem thresholdCut_fires {m : BTreeMap C.Identifier C.SigningCommitments} (h : Fires params m.size) :
    thresholdCut params message m = cutStatus params message m := by
  unfold thresholdCut
  rw [if_pos (threshold_le_iff.mpr h)]; rfl

variable {params message}

theorem fresh_perm {m : BTreeMap C.Identifier C.SigningCommitments} {l l' : List (C.Identifier × C.SigningCommitments)}
    (h : l.Perm l') : (fresh m l).Perm (fresh m l') := h.filter _

theorem fresh_nodup {m : BTreeMap C.Identifier C.SigningCommitments} {l : List (C.Identifier × C.SigningCommitments)}
    (h : (l.map Prod.fst).Nodup) : ((fresh m l).map Prod.fst).Nodup :=
  h.sublist (List.filter_sublist.map _)

theorem fresh_not_mem {m : BTreeMap C.Identifier C.SigningCommitments} {l : List (C.Identifier × C.SigningCommitments)}
    {p} (h : p ∈ fresh m l) : p.1 ∉ m := by
  simpa using (List.mem_filter.mp h).2

theorem fresh_insert {m : BTreeMap C.Identifier C.SigningCommitments} {l : List (C.Identifier × C.SigningCommitments)}
    {v : C.Identifier} (com : C.SigningCommitments) (h : v ∉ l.map Prod.fst) :
    fresh (m.insert v com) l = fresh m l := by
  unfold fresh
  refine List.filter_congr fun p hp => ?_
  have hne : v ≠ p.1 := fun he => h (List.mem_map.mpr ⟨p, hp, he.symm⟩)
  simp [hne]

theorem collect_fresh : ∀ (l : List (C.Identifier × C.SigningCommitments)) (m : BTreeMap C.Identifier C.SigningCommitments),
    (l.map Prod.fst).Nodup → collect params message m l = collect params message m (fresh m l)
  | [], _, _ => rfl
  | p :: l, m, hd => by
    rw [List.map_cons, List.nodup_cons] at hd
    rw [collect, fresh, List.filter_cons]
    by_cases hp : p.1 ∈ m
    · rw [if_pos hp, if_neg (by simpa using hp)]
      exact collect_fresh l m hd.2
    · have hl := collect_fresh l (m.insert p.1 p.2) hd.2
      rw [fresh_insert _ hd.1] at hl
      have hk : decide (p.1 ∉ m) = true := by simpa using hp
      rw [if_neg hp, if_pos hk, collect, if_neg hp, hl]
      rfl

theorem collect_none : ∀ (l : List (C.Identifier × C.SigningCommitments)) (m : BTreeMap C.Identifier C.SigningCommitments),
    (l.map Prod.fst).Nodup → (∀ p ∈ l, p.1 ∉ m) → (∀ j, 1 ≤ j → j ≤ l.length → ¬ Fires params (m.size + j)) →
    collect params message m l = .awaitingCommitments (m.insertMany l)
  | [], m, _, _, _ => by rw [collect, Std.ExtTreeMap.insertMany_nil]
  | p :: l, m, hd, hm, hj => by
    rw [List.map_cons, List.nodup_cons] at hd
    have hp := hm p (by simp)
    have hs := size_insert_of_not_mem p.2 hp
    have h1 : ¬ Fires params (m.insert p.1 p.2).size := by
      rw [hs]; exact hj 1 le_rfl (by simp)
    rw [collect, if_neg hp, if_neg (fun h => h1 (threshold_le_iff.mp h)), Std.ExtTreeMap.insertMany_cons]
    refine collect_none l _ hd.2 (fun q hq => ?_) (fun j h0 hle => ?_)
    · rw [mem_insert']
      rintro (he | hmem)
      · exact hd.1 (List.mem_map.mpr ⟨q, hq, he.symm⟩)
      · exact hm q (by simp [hq]) hmem
    · rw [hs, Nat.add_assoc, Nat.add_comm 1 j]
      exact hj (j + 1) (by omega) (by simpa using hle)

theorem collect_fire : ∀ (a b : List (C.Identifier × C.SigningCommitments)) (m : BTreeMap C.Identifier C.SigningCommitments),
    (a.map Prod.fst).Nodup → (∀ p ∈ a, p.1 ∉ m) → a ≠ [] →
    (∀ j, 1 ≤ j → j < a.length → ¬ Fires params (m.size + j)) → Fires params (m.size + a.length) →
    collect params message m (a ++ b) = cutStatus params message (m.insertMany a)
  | [], _, _, _, _, hne, _, _ => absurd rfl hne
  | p :: a, b, m, hd, hm, _, hj, hf => by
    rw [List.map_cons, List.nodup_cons] at hd
    have hp := hm p (by simp)
    have hs := size_insert_of_not_mem p.2 hp
    rw [List.cons_append, collect, if_neg hp, Std.ExtTreeMap.insertMany_cons]
    by_cases ha : a = []
    · subst ha
      have h1 : Fires params (m.insert p.1 p.2).size := by rw [hs]; exact hf
      rw [if_pos (threshold_le_iff.mpr h1), thresholdCut_fires params message h1, Std.ExtTreeMap.insertMany_nil]
    · have hlen : 0 < a.length := List.length_pos_iff.mpr ha
      have h1 : ¬ Fires params (m.insert p.1 p.2).size := by
        rw [hs]; exact hj 1 le_rfl (by simpa using hlen)
      rw [if_neg (fun h => h1 (threshold_le_iff.mp h))]
      refine collect_fire a b _ hd.2 (fun q hq => ?_) ha (fun j h0 hlt => ?_) ?_
      · rw [mem_insert']
        rintro (he | hmem)
        · exact hd.1 (List.mem_map.mpr ⟨q, hq, he.symm⟩)
        · exact hm q (by simp [hq]) hmem
      · rw [hs, Nat.add_assoc, Nat.add_comm 1 j]
        exact hj (j + 1) (by omega) (by simpa using hlt)
      · rw [hs, Nat.add_assoc, Nat.add_comm 1]
        simpa using hf

end

/-! ## Replaying commitments on the chain -/

/-- A validator that has committed, or an entry past its first phase, changes nothing. -/
theorem feed_commitment_refused {s : State C} {id : Uuid} {e : RequestEntry C} (he : s.requests[id]? = some e)
    {v : C.Identifier} (hno : ∀ m, e.status = .awaitingCommitments m → v ∈ m) (com : C.SigningCommitments) :
    feed applyTx s (.submitCommitment id v com) = s := by
  rcases feed_cases applyTx s (.submitCommitment id v com) with h | h
  · exact h
  · obtain ⟨g, e', _, hstep, _⟩ := (applyTx_request_ok rfl).mp h
    obtain ⟨_, o, m, ho, hst, hm, _⟩ := entryStep_submitCommitment.mp hstep
    rw [he] at ho; cases ho
    exact absurd (hno m hst) hm

theorem replay_commits_done {s : State C} {id : Uuid} {e : RequestEntry C} (he : s.requests[id]? = some e)
    (hs : ∀ m, e.status ≠ .awaitingCommitments m) (l : List (C.Identifier × C.SigningCommitments)) :
    replay applyTx s (commitTxs id l) = s := by
  induction l with
  | nil => rfl
  | cons p l ih =>
    show replay applyTx (feed applyTx s (.submitCommitment id p.1 p.2)) (commitTxs id l) = s
    rw [feed_commitment_refused he (fun m hm => absurd hm (hs m))]
    exact ih

theorem replay_commits {g : GroupConfig C} {id : Uuid} : ∀ (l : List (C.Identifier × C.SigningCommitments))
    {s : State C} {e : RequestEntry C} {m : BTreeMap C.Identifier C.SigningCommitments}, s.group = some g →
    (∀ p ∈ l, p.1 ∈ g.validators) → s.requests[id]? = some e → e.status = .awaitingCommitments m →
    statusAfter s id l = some (collect g.params e.message m l)
  | [], s, e, m, _, _, he, hs => by simp [statusAfter, commitTxs, he, hs, collect]
  | p :: l, s, e, m, hg, hl, he, hs => by
    have hv := hl p (by simp)
    have hl' : ∀ q ∈ l, q.1 ∈ g.validators := fun q hq => hl q (by simp [hq])
    have hcons : statusAfter s id (p :: l) = statusAfter (feed applyTx s (.submitCommitment id p.1 p.2)) id l := rfl
    rw [hcons, collect]
    by_cases hp : p.1 ∈ m
    · have hf : feed applyTx s (.submitCommitment id p.1 p.2) = s := by
        apply feed_commitment_refused he
        intro m' hm'
        rw [hs] at hm'; cases hm'
        exact hp
      rw [if_pos hp, hf]
      exact replay_commits l hg hl' he hs
    · let e' : RequestEntry C := { e with status := thresholdCut g.params e.message (m.insert p.1 p.2) }
      have hstep : applyTx s (.submitCommitment id p.1 p.2) = .ok (s.withRequest id e') :=
        (applyTx_request_ok rfl).mpr ⟨g, _, hg, entryStep_submitCommitment.mpr ⟨hv, e, m, he, hs, hp, rfl⟩, rfl⟩
      have he' : (s.withRequest id e').requests[id]? = some e' := by rw [s.withRequest_get, if_pos rfl]
      have hg' : (s.withRequest id e').group = some g := hg
      rw [if_neg hp, feed_ok hstep]
      by_cases hle : g.params.threshold ≤ UInt16.ofNat (m.insert p.1 p.2).size
      · rw [if_pos hle]
        unfold statusAfter
        rw [replay_commits_done he' ?_ l, he']
        · rfl
        · intro m' h
          simp [e', thresholdCut, hle] at h
      · rw [if_neg hle]
        have hw : thresholdCut g.params e.message (m.insert p.1 p.2) = .awaitingCommitments (m.insert p.1 p.2) := by
          simp [thresholdCut, hle]
        have hr := replay_commits l hg' hl' he' hw
        exact hr

/-! ## Agreement -/

/-- No order of these commitments changes the cut: it cannot fall before the
last fresh one, or `threshold` stored validators precede all fresh ones. -/
def OrderFree (params : MpcParams) (m : BTreeMap C.Identifier C.SigningCommitments)
    (l : List (C.Identifier × C.SigningCommitments)) : Prop :=
  (∀ j, 1 ≤ j → j < (fresh m l).length → ¬ Fires params (m.size + j)) ∨
    params.threshold.toNat ≤ ((dom m).filter fun x => ∀ p ∈ fresh m l, x < p.1).card

section
variable {params : MpcParams} {message : Bytes} {m : BTreeMap C.Identifier C.SigningCommitments}
  {l l' : List (C.Identifier × C.SigningCommitments)}

theorem exists_first_firing {n j : Nat} (h1 : 1 ≤ j) (hf : Fires params (n + j)) :
    ∃ k, 1 ≤ k ∧ k ≤ j ∧ Fires params (n + k) ∧ ∀ i, 1 ≤ i → i < k → ¬ Fires params (n + i) := by
  have hex : ∃ k, 1 ≤ k ∧ Fires params (n + k) := ⟨j, h1, hf⟩
  obtain ⟨hk, hfk⟩ := Nat.find_spec hex
  refine ⟨Nat.find hex, hk, Nat.find_min' hex ⟨h1, hf⟩, hfk, ?_⟩
  intro i hi hlt hfi
  exact Nat.find_min hex hlt ⟨hi, hfi⟩

theorem exists_least_fresh (hne : fresh m l ≠ []) : ∃ p ∈ fresh m l, ∀ q ∈ fresh m l, p.1 ≤ q.1 := by
  have hkeys : ((fresh m l).map Prod.fst).toFinset.Nonempty := by
    rw [List.toFinset_nonempty_iff]
    intro hnil
    exact hne (List.map_eq_nil_iff.mp hnil)
  obtain ⟨v, hv, hmin⟩ := Finset.exists_min_image _ id hkeys
  obtain ⟨p, hp, rfl⟩ := List.mem_map.mp (List.mem_toFinset.mp hv)
  refine ⟨p, hp, ?_⟩
  intro q hq
  exact hmin q.1 (List.mem_toFinset.mpr (List.mem_map.mpr ⟨q, hq, rfl⟩))

theorem fresh_cons_of_not_mem {p : C.Identifier × C.SigningCommitments} (hp : p.1 ∉ m) :
    fresh m (p :: l) = p :: fresh m l := by
  unfold fresh
  rw [List.filter_cons, if_pos (by simpa using hp)]

theorem fresh_concat_of_not_mem {p : C.Identifier × C.SigningCommitments} (hp : p.1 ∉ m) :
    fresh m (l ++ [p]) = fresh m l ++ [p] := by
  unfold fresh
  rw [List.filter_append, List.filter_cons, if_pos (by simpa using hp)]
  rfl

/-- With fewer than `threshold` stored before it, the smallest of the commitments taken in is selected. -/
theorem least_mem_cut {n : Nat} {taken : List (C.Identifier × C.SigningCommitments)}
    {p : C.Identifier × C.SigningCommitments} (hp : p ∈ taken) (hmin : ∀ q ∈ taken, p.1 ≤ q.1)
    (hlow : ((dom m).filter fun x => x < p.1).card < n) : p.1 ∈ cut n (m.insertMany taken) := by
  apply mem_cut.mpr
  refine ⟨mem_insertMany.mpr (Or.inr (List.mem_map.mpr ⟨p, hp, rfl⟩)), lt_of_le_of_lt (Finset.card_le_card ?_) hlow⟩
  intro y hy
  obtain ⟨hy, hlt⟩ := Finset.mem_filter.mp hy
  rcases mem_insertMany.mp (mem_dom.mp hy) with hm | hl
  · exact Finset.mem_filter.mpr ⟨mem_dom.mpr hm, hlt⟩
  · obtain ⟨q, hq, rfl⟩ := List.mem_map.mp hl
    exact absurd (hmin q hq) (not_le.mpr hlt)

variable (hd : (l.map Prod.fst).Nodup)
include hd

theorem collect_await (hj : ∀ j, 1 ≤ j → j ≤ (fresh m l).length → ¬ Fires params (m.size + j)) :
    collect params message m l = .awaitingCommitments (m.insertMany (fresh m l)) := by
  rw [collect_fresh l m hd]
  exact collect_none _ m (fresh_nodup hd) (fun p => fresh_not_mem) hj

/-- With the first firing count `j`, the cut is over the first `j` fresh commitments. -/
theorem collect_cut {j : Nat} (h1 : 1 ≤ j) (hn : j ≤ (fresh m l).length) (hf : Fires params (m.size + j))
    (hmin : ∀ i, 1 ≤ i → i < j → ¬ Fires params (m.size + i)) :
    collect params message m l = cutStatus params message (m.insertMany ((fresh m l).take j)) := by
  have hlen : ((fresh m l).take j).length = j := by rw [List.length_take, Nat.min_eq_left hn]
  have hcut : collect params message m ((fresh m l).take j ++ (fresh m l).drop j) =
      cutStatus params message (m.insertMany ((fresh m l).take j)) := collect_fire _ _ m
    ((fresh_nodup hd).sublist ((List.take_sublist _ _).map _))
    (fun p hp => fresh_not_mem (List.mem_of_mem_take hp))
    (fun hnil => by rw [hnil] at hlen; simp at hlen; omega)
    (fun i hi hlt => hmin i hi (by rwa [hlen] at hlt)) (by rw [hlen]; exact hf)
  rw [List.take_append_drop] at hcut
  rw [collect_fresh l m hd]; exact hcut

theorem collect_perm_of_orderFree (hp : l.Perm l') (ho : OrderFree params m l) :
    collect params message m l' = collect params message m l := by
  have hd' : (l'.map Prod.fst).Nodup := (hp.map _).nodup_iff.mp hd
  have hlen := (fresh_perm (m := m) hp).length_eq
  by_cases hex : ∃ j, 1 ≤ j ∧ j ≤ (fresh m l).length ∧ Fires params (m.size + j)
  · obtain ⟨j, hj, hjn, hfj⟩ := hex
    obtain ⟨k, h1, hkj, hf, hm⟩ := exists_first_firing hj hfj
    have hn : k ≤ (fresh m l).length := by omega
    rw [collect_cut hd h1 hn hf hm, collect_cut hd' h1 (by omega) hf hm]
    rcases ho with hlast | hlow
    · -- the cut falls at the last fresh commitment: both replicas cut the same map
      have hk : k = (fresh m l).length := by
        by_contra hne
        exact hlast _ h1 (by omega) hf
      rw [List.take_of_length_le (by omega), List.take_of_length_le (by omega),
        insertMany_perm (fresh_perm hp) (fresh_nodup hd)]
    · -- the fresh commitments are out of the cut's reach
      have hcut : ∀ {l₁ : List (C.Identifier × C.SigningCommitments)}, l.Perm l₁ →
          cut params.threshold.toNat (m.insertMany ((fresh m l₁).take k)) =
            cut params.threshold.toNat m := by
        intro l₁ hl₁
        have hnd := fresh_nodup (m := m) ((hl₁.map _).nodup_iff.mp hd)
        refine cut_insertMany (hnd.sublist ((List.take_sublist _ _).map _)) (Finset.filter_subset _ _) hlow ?_
        intro y hy q hq
        exact (Finset.mem_filter.mp hy).2 q ((fresh_perm hl₁).mem_iff.mpr (List.mem_of_mem_take hq))
      unfold cutStatus
      rw [hcut hp, hcut (List.Perm.refl l)]
  · push Not at hex
    rw [collect_await hd hex, collect_await hd' (by rwa [← hlen]), insertMany_perm (fresh_perm hp) (fresh_nodup hd)]

/-- Otherwise moving the smallest fresh validator from first to last moves it out of the cut. -/
theorem orderFree_of_collect_perm
    (h : ∀ l', l.Perm l' → collect params message m l' = collect params message m l) : OrderFree params m l := by
  by_contra hno
  unfold OrderFree at hno
  push Not at hno
  obtain ⟨⟨j, h1, hjn, hf⟩, hlow⟩ := hno
  obtain ⟨k, hk, hkj, hfk, hkmin⟩ := exists_first_firing h1 hf
  have hne : fresh m l ≠ [] := List.ne_nil_of_length_pos (by omega)
  obtain ⟨p, hp, hpmin⟩ := exists_least_fresh hne
  have hpm : p.1 ∉ m := fresh_not_mem hp
  obtain ⟨a, b, hab⟩ := List.append_of_mem (List.mem_of_mem_filter hp)
  have hfirst : l.Perm (p :: (a ++ b)) := by rw [hab]; exact List.perm_middle
  have hlast : l.Perm ((a ++ b) ++ [p]) := hfirst.trans (List.perm_append_singleton p (a ++ b)).symm
  have hd₁ := (hfirst.map Prod.fst).nodup_iff.mp hd
  have hd₂ := (hlast.map Prod.fst).nodup_iff.mp hd
  have hn₁ := (fresh_perm (m := m) hfirst).length_eq
  have hn₂ := (fresh_perm (m := m) hlast).length_eq
  have hrest : k ≤ (fresh m (a ++ b)).length := by
    rw [fresh_concat_of_not_mem hpm, List.length_append, List.length_singleton] at hn₂
    omega
  -- both orders cut at the same count, so they select the same validators
  have heq := (h _ hfirst).trans (h _ hlast).symm
  rw [collect_cut hd₁ hk (by omega) hfk hkmin, collect_cut hd₂ hk (by omega) hfk hkmin] at heq
  simp only [cutStatus, RequestStatus.signing.injEq] at heq
  have hdom := heq.2.1
  have htaken : p ∈ (fresh m (p :: (a ++ b))).take k := by
    obtain ⟨i, rfl⟩ : ∃ i, k = i + 1 := ⟨k - 1, by omega⟩
    rw [fresh_cons_of_not_mem hpm, List.take_succ_cons]
    exact List.mem_cons_self
  have hbefore : ((dom m).filter fun x => x < p.1).card < params.threshold.toNat := by
    apply lt_of_le_of_lt (Finset.card_le_card _) hlow
    intro x hx
    obtain ⟨hxm, hlt⟩ := Finset.mem_filter.mp hx
    exact Finset.mem_filter.mpr ⟨hxm, fun q hq => hlt.trans_le (hpmin q hq)⟩
  have hin : p.1 ∈ dom (cut params.threshold.toNat (m.insertMany ((fresh m (p :: (a ++ b))).take k))) := by
    apply mem_dom.mpr
    apply least_mem_cut htaken _ hbefore
    intro q hq
    exact hpmin q ((fresh_perm hfirst).mem_iff.mpr (List.mem_of_mem_take hq))
  -- sent last it is not among the first `k` fresh commitments
  rw [hdom] at hin
  have hmem := (mem_cut.mp (mem_dom.mp hin)).1
  rcases mem_insertMany.mp hmem with hm | hl
  · exact hpm hm
  · obtain ⟨q, hq, hqp⟩ := List.mem_map.mp hl
    rw [fresh_concat_of_not_mem hpm, List.take_append_of_le_length hrest] at hq
    rw [List.map_cons, List.nodup_cons] at hd₁
    exact hd₁.1 (List.mem_map.mpr ⟨q, List.mem_of_mem_filter (List.mem_of_mem_take hq), hqp⟩)

end

/-- **Agreement.** For a request awaiting commitments, replicas that receive
the same commitments from distinct validators end with the same status in
every order, if and only if `OrderFree` holds of what is stored and what arrives. -/
theorem commit_order_agrees_iff {s : State C} {g : GroupConfig C} {id : Uuid} {e : RequestEntry C}
    {m : BTreeMap C.Identifier C.SigningCommitments} {l : List (C.Identifier × C.SigningCommitments)}
    (hg : s.group = some g) (he : s.requests[id]? = some e) (hs : e.status = .awaitingCommitments m)
    (hd : (l.map Prod.fst).Nodup) (hl : ∀ p ∈ l, p.1 ∈ g.validators) :
    (∀ l', l.Perm l' → statusAfter s id l' = statusAfter s id l) ↔ OrderFree g.params m l := by
  have hcollect : ∀ {l'}, l.Perm l' → statusAfter s id l' = some (collect g.params e.message m l') :=
    fun hp => replay_commits _ hg (fun q hq => hl q (hp.mem_iff.mpr hq)) he hs
  constructor
  · intro h
    have hc : ∀ l', l.Perm l' → collect g.params e.message m l' = collect g.params e.message m l := by
      intro l' hp
      have := h l' hp
      rwa [hcollect hp, hcollect (List.Perm.refl l), Option.some.injEq] at this
    exact orderFree_of_collect_perm hd hc
  · intro ho l' hp
    rw [hcollect hp, hcollect (List.Perm.refl l), collect_perm_of_orderFree hd hp ho]

namespace Ideal

def trioRun : List (Tx suite) :=
  [.initGroup { threshold := 2, total := 3 }
      { key := 9, shares := Std.ExtTreeMap.ofList [(1, (2 : Int)), (2, 3), (3, 4)], minSigners := 2 } [1, 2, 3],
    .submitRequest id0 [42] (5 : Int)]

def trioEntry : RequestEntry suite :=
  { requestId := id0, message := [42], randomizer := (5 : Int), status := .awaitingCommitments ∅ }

def participants : Option (RequestStatus suite) → Finset Nat
  | some (.signing _ parts _) => parts
  | _ => ∅

end Ideal

theorem commit_order_agrees_iff_trio :
    statusAfter (reached Ideal.trioRun) Ideal.id0 [((1 : Nat), (10 : Nat)), (2, 20)] =
      statusAfter (reached Ideal.trioRun) Ideal.id0 [((2 : Nat), (20 : Nat)), (1, 10)] :=
  (commit_order_agrees_iff (show (reached Ideal.trioRun).group = some _ from rfl)
    (show (reached Ideal.trioRun).requests[Ideal.id0]? = some Ideal.trioEntry from rfl) rfl
    (by decide) (by decide)).mpr (Or.inl (by decide)) _ (by decide)

/-- Three validators race for two places: the arrival order decides who signs. -/
theorem commit_order_disagrees :
    ¬ ∀ (s : State Ideal.suite) g id e m l, s.group = some g → s.requests[id]? = some e →
      e.status = .awaitingCommitments m → (l.map Prod.fst).Nodup → (∀ p ∈ l, p.1 ∈ g.validators) →
      ∀ l', l.Perm l' → statusAfter s id l' = statusAfter s id l := by
  intro h
  have heq := h (reached Ideal.trioRun) _ Ideal.id0 Ideal.trioEntry _ [((1 : Nat), (10 : Nat)), (2, 20), (3, 30)]
    rfl rfl rfl (by decide) (by decide) [((3 : Nat), (30 : Nat)), (2, 20), (1, 10)] (by decide)
  have hparts : Ideal.participants (statusAfter (reached Ideal.trioRun) Ideal.id0
      [((3 : Nat), (30 : Nat)), (2, 20), (1, 10)]) =
      Ideal.participants (statusAfter (reached Ideal.trioRun) Ideal.id0 [((1 : Nat), (10 : Nat)), (2, 20), (3, 30)]) :=
    congrArg _ heq
  exact absurd hparts (by decide)

end Sapphire
