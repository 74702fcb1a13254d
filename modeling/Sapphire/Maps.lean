import Mathlib

/-!
# Ordered maps

A `BTreeMap` is an extensional search tree over a linear order: equal maps
are equal terms, `toList` lists the entries by increasing key. Sets of keys
are finsets, so counting arguments about keys are arguments about `card`.
-/

abbrev BTreeMap (K V : Type) [LinearOrder K] := Std.ExtTreeMap K V compare

namespace BTreeMap

variable {K V : Type} [LinearOrder K]

/-- The comparison of a linear order is lawful whichever `BEq` is in scope. -/
instance (priority := high) : Std.LawfulEqCmp (compare : K → K → Ordering) where
  compare_self := compare_eq_iff_eq.mpr rfl
  eq_of_compare := compare_eq_iff_eq.mp

instance (priority := high) : Std.TransCmp (compare : K → K → Ordering) := inferInstance

def dom (m : BTreeMap K V) : Finset K := m.keys.toFinset

def first? (m : BTreeMap K V) : Option (K × V) := m.toList.head?

def cut (n : Nat) (m : BTreeMap K V) : BTreeMap K V := Std.ExtTreeMap.ofList (m.toList.take n)

@[simp] theorem mem_dom {m : BTreeMap K V} {k : K} : k ∈ dom m ↔ k ∈ m := by
  simp [dom]

@[simp] theorem card_dom (m : BTreeMap K V) : (dom m).card = m.size := by
  unfold dom
  rw [List.toFinset_card_of_nodup m.nodup_keys, m.length_keys]

theorem mem_iff {m : BTreeMap K V} {k : K} : k ∈ m ↔ ∃ v, m[k]? = some v := by
  rw [Std.ExtTreeMap.mem_iff_isSome_getElem?, Option.isSome_iff_exists]

theorem mem_of_getElem? {m : BTreeMap K V} {k : K} {v : V} (h : m[k]? = some v) : k ∈ m :=
  mem_iff.mpr ⟨v, h⟩

theorem getElem?_of_not_mem {m : BTreeMap K V} {k : K} (h : k ∉ m) : m[k]? = none :=
  Std.ExtTreeMap.getElem?_eq_none h

theorem not_mem_of_getElem? {m : BTreeMap K V} {k : K} (h : m[k]? = none) : k ∉ m := by
  intro hk
  obtain ⟨v, hv⟩ := mem_iff.mp hk
  rw [h] at hv; cases hv

@[simp] theorem getElem?_insert' (m : BTreeMap K V) (k a : K) (v : V) :
    (m.insert k v)[a]? = if k = a then some v else m[a]? := by
  rw [Std.ExtTreeMap.getElem?_insert]; simp only [compare_eq_iff_eq]

theorem getElem?_insert_ne (m : BTreeMap K V) {k a : K} (v : V) (h : k ≠ a) :
    (m.insert k v)[a]? = m[a]? := by
  rw [getElem?_insert', if_neg h]

@[simp] theorem mem_insert' {m : BTreeMap K V} {k a : K} {v : V} :
    a ∈ m.insert k v ↔ k = a ∨ a ∈ m := by
  rw [Std.ExtTreeMap.mem_insert, compare_eq_iff_eq]

theorem size_insert_of_not_mem {m : BTreeMap K V} {k : K} (v : V) (h : k ∉ m) :
    (m.insert k v).size = m.size + 1 := by
  rw [Std.ExtTreeMap.size_insert, if_neg (by simpa using h)]

theorem dom_insert (m : BTreeMap K V) (k : K) (v : V) : dom (m.insert k v) = insert k (dom m) := by
  ext a
  rw [mem_dom, mem_insert', Finset.mem_insert, mem_dom, eq_comm]

@[simp] theorem dom_empty : dom (∅ : BTreeMap K V) = ∅ := by
  ext a; simp

theorem insert_comm (m : BTreeMap K V) {k k' : K} (v v' : V) (h : k ≠ k') :
    (m.insert k v).insert k' v' = (m.insert k' v').insert k v := by
  ext1 a
  simp only [getElem?_insert']
  by_cases hk : k = a
  · subst hk; simp [h.symm]
  · simp [hk]

theorem insert_insert (m : BTreeMap K V) (k : K) (v v' : V) :
    (m.insert k v).insert k v' = m.insert k v' := by
  ext1 a
  simp only [getElem?_insert']
  by_cases hk : k = a <;> simp [hk]

theorem size_pos_of_mem {m : BTreeMap K V} {k : K} (h : k ∈ m) : 0 < m.size := by
  rw [← card_dom]; exact Finset.card_pos.mpr ⟨k, mem_dom.mpr h⟩

/-! ## Counting keys -/

theorem size_le_of_subset {m : BTreeMap K V} {S : Finset K} (h : dom m ⊆ S) : m.size ≤ S.card := by
  rw [← card_dom]; exact Finset.card_le_card h

theorem dom_eq_of_size {m : BTreeMap K V} {S : Finset K} (h : dom m ⊆ S) (hs : S.card ≤ m.size) : dom m = S :=
  Finset.eq_of_subset_of_card_le h (by rw [card_dom]; exact hs)

theorem size_lt_of_not_mem {m : BTreeMap K V} {S : Finset K} (h : dom m ⊆ S) {k : K} (hk : k ∈ S) (hm : k ∉ m) :
    m.size < S.card := by
  rw [← card_dom]
  exact Finset.card_lt_card ⟨h, fun hs => hm (mem_dom.mp (hs hk))⟩

/-- A map inside a finite set is as large as the set exactly when it covers it. -/
theorem size_eq_card_iff {m : BTreeMap K V} {S : Finset K} (h : dom m ⊆ S) :
    m.size = S.card ↔ ∀ k ∈ S, k ∈ m := by
  constructor
  · intro hs k hk
    rw [← dom_eq_of_size h hs.ge] at hk
    exact mem_dom.mp hk
  · intro hall
    have hsub : S ⊆ dom m := fun k hk => mem_dom.mpr (hall k hk)
    rw [← card_dom, h.antisymm hsub]

theorem ne_empty_of_size {m : BTreeMap K V} (h : m ≠ ∅) : m.size ≠ 0 :=
  fun hs => h (Std.ExtTreeMap.eq_empty_iff_size_eq_zero.mpr hs)

theorem exists_missing {m : BTreeMap K V} {S : Finset K} (h : m.size < S.card) : ∃ k ∈ S, k ∉ m := by
  by_contra hc
  push Not at hc
  have hs : S ⊆ dom m := fun k hk => mem_dom.mpr (hc k hk)
  have := Finset.card_le_card hs
  rw [card_dom] at this; omega

/-! ## Growing by an entry -/

/-- The map is the same or has one more entry. -/
def Grows (m m' : BTreeMap K V) : Prop := m' = m ∨ ∃ k v, k ∉ m ∧ m' = m.insert k v

theorem Grows.refl (m : BTreeMap K V) : Grows m m := Or.inl rfl

theorem Grows.insert {m : BTreeMap K V} {k : K} (v : V) (h : k ∉ m) : Grows m (m.insert k v) := Or.inr ⟨k, v, h, rfl⟩

theorem Grows.getElem? {m m' : BTreeMap K V} (h : Grows m m') {k : K} {v : V} (hk : m[k]? = some v) :
    m'[k]? = some v := by
  rcases h with rfl | ⟨a, w, ha, rfl⟩
  · exact hk
  · have hne : a ≠ k := fun he => ha (he ▸ mem_of_getElem? hk)
    rw [getElem?_insert_ne _ _ hne]; exact hk

theorem Grows.mem {m m' : BTreeMap K V} (h : Grows m m') {k : K} (hk : k ∈ m) : k ∈ m' := by
  obtain ⟨v, hv⟩ := mem_iff.mp hk
  exact mem_of_getElem? (h.getElem? hv)

/-! ## Inserting a list of entries -/

theorem distinct_of_nodup {l : List (K × V)} (hd : (l.map Prod.fst).Nodup) :
    l.Pairwise (fun a b => ¬ compare a.1 b.1 = .eq) := by
  rw [List.nodup_iff_pairwise_ne, List.pairwise_map] at hd
  exact hd.imp fun h => by simpa using h

theorem getElem?_insertMany {m : BTreeMap K V} {l : List (K × V)} (hd : (l.map Prod.fst).Nodup) {k : K} {v : V} :
    (m.insertMany l)[k]? = some v ↔ (k, v) ∈ l ∨ k ∉ l.map Prod.fst ∧ m[k]? = some v := by
  by_cases hk : k ∈ l.map Prod.fst
  · obtain ⟨⟨k', w⟩, hw, rfl⟩ := List.mem_map.mp hk
    rw [Std.ExtTreeMap.getElem?_insertMany_list_of_mem (by simp) (distinct_of_nodup hd) hw]
    constructor
    · intro h; cases h; exact Or.inl hw
    · rintro (hv | ⟨hn, _⟩)
      · rw [Prod.mk.inj (List.inj_on_of_nodup_map hd hw hv rfl) |>.2]
      · exact absurd hk hn
  · rw [Std.ExtTreeMap.getElem?_insertMany_list_of_contains_eq_false (by simpa using hk)]
    have hl : (k, v) ∉ l := fun h => hk (List.mem_map.mpr ⟨_, h, rfl⟩)
    simp [hk, hl]

theorem mem_insertMany {m : BTreeMap K V} {l : List (K × V)} {k : K} :
    k ∈ m.insertMany l ↔ k ∈ m ∨ k ∈ l.map Prod.fst := by
  rw [Std.ExtTreeMap.mem_insertMany_list]
  simp

theorem insertMany_perm {m : BTreeMap K V} {l l' : List (K × V)} (hp : l.Perm l') (hd : (l.map Prod.fst).Nodup) :
    m.insertMany l = m.insertMany l' := by
  ext1 k
  have hm : ∀ p, p ∈ l ↔ p ∈ l' := fun p => hp.mem_iff
  have hk : k ∈ l.map Prod.fst ↔ k ∈ l'.map Prod.fst := (hp.map _).mem_iff
  ext v
  rw [getElem?_insertMany hd, getElem?_insertMany ((hp.map _).nodup_iff.mp hd), hm, hk]

/-! ## Maps from lists -/

theorem getElem?_ofList {l : List (K × V)} (hd : (l.map Prod.fst).Nodup) {k : K} {v : V} :
    (Std.ExtTreeMap.ofList l : BTreeMap K V)[k]? = some v ↔ (k, v) ∈ l := by
  by_cases hk : k ∈ l.map Prod.fst
  · obtain ⟨⟨k', w⟩, hw, rfl⟩ := List.mem_map.mp hk
    rw [Std.ExtTreeMap.getElem?_ofList_of_mem (by simp) (distinct_of_nodup hd) hw]
    constructor
    · intro h; cases h; exact hw
    · intro hv
      rw [Prod.mk.inj (List.inj_on_of_nodup_map hd hw hv rfl) |>.2]
  · rw [Std.ExtTreeMap.getElem?_ofList_of_contains_eq_false (by simpa using hk)]
    have hl : (k, v) ∉ l := fun h => hk (List.mem_map.mpr ⟨_, h, rfl⟩)
    simp [hl]

theorem nodup_toList_keys (m : BTreeMap K V) : (m.toList.map Prod.fst).Nodup := by
  rw [m.map_fst_toList_eq_keys]; exact m.nodup_keys

theorem toList_keys (m : BTreeMap K V) : (m.toList.map Prod.fst).toFinset = dom m := by
  rw [m.map_fst_toList_eq_keys]; rfl

theorem dom_of_getElem?_iff {m : BTreeMap K V} {S : Finset K} {f : K → V}
    (h : ∀ (k : K) v, m[k]? = some v ↔ k ∈ S ∧ f k = v) : dom m = S := by
  ext k
  rw [mem_dom, mem_iff]
  simp [h]

theorem nodup_keys_filter (m : BTreeMap K V) (p : K × V → Bool) : ((m.toList.filter p).map Prod.fst).Nodup := by
  exact m.nodup_toList_keys.sublist (List.filter_sublist.map _)

theorem getElem?_ofList_filter {m : BTreeMap K V} {p : K × V → Bool} {k : K} {v : V} :
    (Std.ExtTreeMap.ofList (m.toList.filter p) : BTreeMap K V)[k]? = some v ↔ m[k]? = some v ∧ p (k, v) = true := by
  rw [getElem?_ofList (nodup_keys_filter m p), List.mem_filter, Std.ExtTreeMap.mem_toList_iff_getElem?_eq_some]

/-- The map of a function on a finite set of keys. -/
def tabulate (S : Finset K) (f : K → V) : BTreeMap K V := Std.ExtTreeMap.ofList ((S.sort (· ≤ ·)).map fun k => (k, f k))

theorem getElem?_tabulate {S : Finset K} {f : K → V} {k : K} {v : V} :
    (tabulate S f)[k]? = some v ↔ k ∈ S ∧ f k = v := by
  have hd : (((S.sort (· ≤ ·)).map fun k => (k, f k)).map Prod.fst).Nodup := by
    rw [List.map_map]
    simp [Function.comp_def]
  unfold tabulate
  rw [getElem?_ofList hd]
  simp only [List.mem_map, Finset.mem_sort, Prod.mk.injEq]
  constructor
  · rintro ⟨a, ha, rfl, rfl⟩; exact ⟨ha, rfl⟩
  · rintro ⟨ha, rfl⟩; exact ⟨k, ha, rfl, rfl⟩

theorem dom_tabulate (S : Finset K) (f : K → V) : dom (tabulate S f) = S := by
  ext k
  rw [mem_dom, mem_iff]
  simp [getElem?_tabulate]

theorem eq_of_getElem?_iff {m m' : BTreeMap K V} (h : ∀ (k : K) v, m[k]? = some v ↔ m'[k]? = some v) : m = m' := by
  ext1 k
  ext v
  exact h k v

theorem size_tabulate (S : Finset K) (f : K → V) : (tabulate S f).size = S.card := by
  rw [← card_dom, dom_tabulate]

theorem mem_tabulate {S : Finset K} {f : K → V} {k : K} : k ∈ tabulate S f ↔ k ∈ S := by
  rw [← mem_dom, dom_tabulate]

/-- A map is the table of its own values. -/
theorem exists_tabulate {m : BTreeMap K V} {k₀ : K} (h₀ : k₀ ∈ m) :
    ∃ f : K → V, m = tabulate (dom m) f ∧ ∀ k ∈ m, m[k]? = some (f k) := by
  obtain ⟨v₀, _⟩ := mem_iff.mp h₀
  have hget : ∀ k ∈ m, ∃ v, m[k]? = some v := fun k hk => mem_iff.mp hk
  have : Nonempty V := ⟨v₀⟩
  choose! f hf using hget
  refine ⟨f, eq_of_getElem?_iff fun k v => ?_, hf⟩
  rw [getElem?_tabulate, mem_dom]
  constructor
  · intro hk
    have hmem := mem_of_getElem? hk
    rw [hf k hmem] at hk
    exact ⟨hmem, Option.some.inj hk⟩
  · rintro ⟨hmem, rfl⟩
    exact hf k hmem

theorem tabulate_empty (f : K → V) : tabulate ∅ f = ∅ := by
  apply eq_of_getElem?_iff
  simp [getElem?_tabulate]

theorem insert_tabulate (S : Finset K) (f : K → V) (k : K) :
    (tabulate S f).insert k (f k) = tabulate (insert k S) f := by
  refine eq_of_getElem?_iff fun a v => ?_
  rw [getElem?_insert', getElem?_tabulate, Finset.mem_insert]
  by_cases ha : k = a
  · subst ha
    simp
  · rw [if_neg ha, getElem?_tabulate]
    simp [Ne.symm ha]

/-! ## Entries as a multiset -/

def entries (m : BTreeMap K V) : Multiset (K × V) := m.toList

theorem nodup_toList (m : BTreeMap K V) : m.toList.Nodup := by
  exact m.nodup_toList_keys.of_map _

theorem mem_entries {m : BTreeMap K V} {k : K} {v : V} : (k, v) ∈ entries m ↔ m[k]? = some v := by
  unfold entries
  rw [Multiset.mem_coe, Std.ExtTreeMap.mem_toList_iff_getElem?_eq_some]

theorem nodup_entries (m : BTreeMap K V) : (entries m).Nodup := Multiset.coe_nodup.mpr m.nodup_toList

theorem entries_insert {m : BTreeMap K V} {k : K} (v : V) (h : k ∉ m) :
    entries (m.insert k v) = (k, v) ::ₘ entries m := by
  have hnew : (k, v) ∉ entries m := by
    rw [mem_entries, getElem?_of_not_mem h]; simp
  refine (nodup_entries _).ext (Multiset.nodup_cons.mpr ⟨hnew, nodup_entries m⟩) |>.mpr ?_
  rintro ⟨a, b⟩
  rw [Multiset.mem_cons, mem_entries, mem_entries, getElem?_insert']
  by_cases hka : k = a
  · subst hka
    simp [getElem?_of_not_mem h, eq_comm]
  · simp [hka, Ne.symm hka]

theorem getElem?_erase' (m : BTreeMap K V) (k a : K) : (m.erase k)[a]? = if k = a then none else m[a]? := by
  rw [Std.ExtTreeMap.getElem?_erase]; simp only [compare_eq_iff_eq]

theorem entries_erase {m : BTreeMap K V} {k : K} {v : V} (h : m[k]? = some v) :
    entries m = (k, v) ::ₘ entries (m.erase k) := by
  have hgone : (m.erase k)[k]? = none := by rw [getElem?_erase', if_pos rfl]
  have hback : (m.erase k).insert k v = m := by
    ext1 a
    rw [getElem?_insert', getElem?_erase']
    by_cases hka : k = a
    · subst hka; simp [h]
    · simp [hka]
  rw [← entries_insert v (not_mem_of_getElem? hgone), hback]

/-! ## The first entry -/

theorem first?_none {m : BTreeMap K V} : first? m = none ↔ m = ∅ := by
  unfold first?
  rw [List.head?_eq_none_iff, Std.ExtTreeMap.toList_eq_nil_iff]

theorem first?_mem {m : BTreeMap K V} {k : K} {v : V} (h : first? m = some (k, v)) : m[k]? = some v := by
  unfold first? at h
  exact Std.ExtTreeMap.mem_toList_iff_getElem?_eq_some.mp (List.mem_of_head? h)

theorem first?_some_of_mem {m : BTreeMap K V} {k : K} (h : k ∈ m) : ∃ k' v, first? m = some (k', v) := by
  cases hf : first? m with
  | none => rw [first?_none.mp hf] at h; simp at h
  | some p => exact ⟨p.1, p.2, rfl⟩

/-! ## Cuts -/

/-- An entry of a sorted list is among the first `n` when fewer than `n` keys precede it. -/
theorem mem_take_sorted : ∀ (l : List (K × V)) (n : Nat) (p : K × V),
    l.Pairwise (fun a b => a.1 < b.1) →
    (p ∈ l.take n ↔ p ∈ l ∧ (l.filter (fun q => decide (q.1 < p.1))).length < n)
  | [], n, p, _ => by simp
  | a :: l, 0, p, _ => by simp
  | a :: l, n + 1, p, hs => by
    obtain ⟨ha, hl⟩ := List.pairwise_cons.mp hs
    have ih := mem_take_sorted l n p hl
    rw [List.take_succ_cons, List.mem_cons, List.mem_cons, List.filter_cons, ih]
    by_cases hpa : p = a
    · subst hpa
      have hnil : l.filter (fun q => decide (q.1 < p.1)) = [] := by
        rw [List.filter_eq_nil_iff]
        intro q hq
        simpa using (ha q hq).le
      simp [hnil]
    · by_cases hp : p ∈ l
      · simp [hpa, hp, ha p hp]
      · simp [hpa, hp]

theorem toList_sorted (m : BTreeMap K V) : m.toList.Pairwise (fun a b => a.1 < b.1) :=
  m.ordered_keys_toList.imp fun h => compare_lt_iff_lt.mp h

theorem length_filter_toList (m : BTreeMap K V) (p : K → Bool) :
    (m.toList.filter (fun q => p q.1)).length = ((dom m).filter (fun k => p k = true)).card := by
  have hk : m.toList.filter (fun q => p q.1) = m.toList.filter (p ∘ Prod.fst) := rfl
  rw [hk, ← List.length_map Prod.fst, ← List.filter_map, m.map_fst_toList_eq_keys]
  unfold dom
  rw [← List.toFinset_filter, List.toFinset_card_of_nodup (m.nodup_keys.filter _)]

theorem getElem?_cut {n : Nat} {m : BTreeMap K V} {k : K} {v : V} :
    (cut n m)[k]? = some v ↔ m[k]? = some v ∧ ((dom m).filter (· < k)).card < n := by
  have hd : (m.toList.take n).Pairwise (fun a b => ¬ compare a.1 b.1 = .eq) :=
    m.distinct_keys_toList.sublist (List.take_sublist _ _)
  have hc := length_filter_toList m (fun q => decide (q < k))
  have ht := mem_take_sorted m.toList n (k, v) m.toList_sorted
  simp only [decide_eq_true_eq] at hc
  rw [hc, Std.ExtTreeMap.mem_toList_iff_getElem?_eq_some] at ht
  rw [← ht]
  unfold cut
  constructor
  · intro h
    by_contra hn
    by_cases hm : (k : K) ∈ (m.toList.take n).map Prod.fst
    · obtain ⟨q, hq, hqk⟩ := List.mem_map.mp hm
      obtain ⟨k', v'⟩ := q
      simp only at hqk; subst hqk
      rw [Std.ExtTreeMap.getElem?_ofList_of_mem (by simp) hd hq] at h
      cases h; exact hn hq
    · rw [Std.ExtTreeMap.getElem?_ofList_of_contains_eq_false (by simpa using hm)] at h
      cases h
  · intro h
    exact Std.ExtTreeMap.getElem?_ofList_of_mem (by simp) hd h

theorem mem_cut {n : Nat} {m : BTreeMap K V} {k : K} :
    k ∈ cut n m ↔ k ∈ m ∧ ((dom m).filter (· < k)).card < n := by
  simp only [mem_iff, getElem?_cut]
  exact ⟨fun ⟨v, hv, hn⟩ => ⟨⟨v, hv⟩, hn⟩, fun ⟨⟨v, hv⟩, hn⟩ => ⟨v, hv, hn⟩⟩

theorem cut_insertMany {m : BTreeMap K V} {l : List (K × V)} (hd : (l.map Prod.fst).Nodup) {n : Nat} {low : Finset K}
    (hsub : low ⊆ dom m) (hn : n ≤ low.card) (hlow : ∀ y ∈ low, ∀ p ∈ l, y < p.1) :
    cut n (m.insertMany l) = cut n m := by
  have hdom : dom m ⊆ dom (m.insertMany l) := fun k hk =>
    mem_dom.mpr (mem_insertMany.mpr (Or.inl (mem_dom.mp hk)))
  -- a key with fewer than `n` below it lies below every inserted one
  have below : ∀ x, ((dom m).filter (· < x)).card < n → ∀ p ∈ l, x < p.1 := by
    intro x hx p hp
    by_contra hc
    have hs : low ⊆ (dom m).filter (· < x) := fun y hy =>
      Finset.mem_filter.mpr ⟨hsub hy, (hlow y hy p hp).trans_le (not_lt.mp hc)⟩
    have := Finset.card_le_card hs; omega
  have key : ∀ x, (∀ p ∈ l, x < p.1) → x ∉ l.map Prod.fst := by
    intro x hx hmem
    obtain ⟨p, hp, rfl⟩ := List.mem_map.mp hmem
    exact lt_irrefl _ (hx p hp)
  ext1 x
  ext v
  rw [getElem?_cut, getElem?_cut]
  constructor
  · rintro ⟨hv, hc⟩
    have hle := Finset.card_le_card (Finset.filter_subset_filter (· < x) hdom)
    have hc' : ((dom m).filter (· < x)).card < n := by omega
    rcases (getElem?_insertMany hd).mp hv with hin | ⟨_, hm⟩
    · exact absurd (below x hc' _ hin) (lt_irrefl _)
    · exact ⟨hm, hc'⟩
  · rintro ⟨hv, hc⟩
    have hx := below x hc
    refine ⟨(getElem?_insertMany hd).mpr (Or.inr ⟨key x hx, hv⟩), ?_⟩
    have hs : (dom (m.insertMany l)).filter (· < x) ⊆ (dom m).filter (· < x) := by
      intro y hy
      obtain ⟨hy, hlt⟩ := Finset.mem_filter.mp hy
      rcases mem_insertMany.mp (mem_dom.mp hy) with hm | hl
      · exact Finset.mem_filter.mpr ⟨mem_dom.mpr hm, hlt⟩
      · obtain ⟨p, hp, rfl⟩ := List.mem_map.mp hl
        exact absurd (hx p hp) (not_lt.mpr hlt.le)
    exact lt_of_le_of_lt (Finset.card_le_card hs) hc

theorem dom_cut_subset (n : Nat) (m : BTreeMap K V) : dom (cut n m) ⊆ dom m :=
  fun _ hk => mem_dom.mpr (mem_cut.mp (mem_dom.mp hk)).1

theorem size_cut (n : Nat) (m : BTreeMap K V) : (cut n m).size = min n m.size := by
  have hd : (m.toList.take n).Pairwise (fun a b => ¬ compare a.1 b.1 = .eq) :=
    m.distinct_keys_toList.sublist (List.take_sublist _ _)
  unfold cut
  rw [Std.ExtTreeMap.size_ofList hd, List.length_take, m.length_toList]

theorem dom_cut_of_size {m : BTreeMap K V} {n : Nat} (h : m.size ≤ n) :
    dom (cut n m) = dom m := by
  refine dom_eq_of_size (dom_cut_subset n m) ?_
  rw [card_dom, size_cut, Nat.min_eq_right h]

theorem cut_of_size {m : BTreeMap K V} {n : Nat} (h : m.size ≤ n) : cut n m = m := by
  refine eq_of_getElem?_iff fun k v => ?_
  have hmem : k ∈ cut n m ↔ k ∈ m := by
    rw [← mem_dom, dom_cut_of_size h, mem_dom]
  rw [getElem?_cut]
  constructor
  · rintro ⟨hv, _⟩; exact hv
  · intro hv
    exact ⟨hv, (mem_cut.mp (hmem.mpr (mem_of_getElem? hv))).2⟩

/-! ## A map as the table of a relation -/

/-- The pairs of the map are the pairs of the relation. -/
def Tables (m : BTreeMap K V) (R : K → V → Prop) : Prop := ∀ (k : K) v, m[k]? = some v ↔ R k v

namespace Tables

variable {m m' : BTreeMap K V} {R R' : K → V → Prop}

theorem unique (h : Tables m R) (h' : Tables m' R) : m = m' :=
  eq_of_getElem?_iff fun k v => (h k v).trans (h' k v).symm

theorem congr (h : Tables m R) (hr : ∀ k v, R' k v ↔ R k v) : Tables m R' := by
  intro k v
  rw [hr k v]
  exact h k v

theorem empty (h : ∀ k v, ¬ R k v) : Tables (∅ : BTreeMap K V) R := by
  intro k v
  simp [h k v]

theorem insert (h : Tables m R) {k : K} (v : V) (hk : k ∉ m) (hr : ∀ k' v', R' k' v' ↔ k' = k ∧ v' = v ∨ R k' v') :
    Tables (m.insert k v) R' := by
  intro a b
  rw [hr, getElem?_insert', ← h a b]
  by_cases ha : k = a
  · subst ha
    simp [getElem?_of_not_mem hk, eq_comm]
  · simp [ha, Ne.symm ha]

end Tables

end BTreeMap
