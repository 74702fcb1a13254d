import Sapphire.Replay

/-!
# Logs that meet

Where any two actions that are both accepted are accepted in either order and
meet, an action once accepted stays so until it is taken. Then replicas that
have nothing left to take have taken the same, in whatever order, and to get
there it is enough to be offered everything often enough.
-/

namespace Replay

variable {S A E : Type*} {step : S → A → Except E S}

theorem accepted_of_run {as : List A} {s t : S} (h : run step s as = .ok t) : accepted step s as = as := by
  induction as generalizing s with
  | nil => rfl
  | cons a as ih =>
    obtain ⟨m, ha, hrest⟩ := run_cons.mp h
    rw [accepted, ha]
    exact congrArg (a :: ·) (ih hrest)

/-- In the states of `I`, two of the actions `U` that are both accepted are
accepted in either order, and meet. -/
structure Confluent (step : S → A → Except E S) (I : S → Prop) (U : A → Prop) : Prop where
  keeps : ∀ {s a s'}, I s → U a → step s a = .ok s' → I s'
  meets : ∀ {s a b sa sb}, I s → U a → U b → a ≠ b → step s a = .ok sa → step s b = .ok sb →
    ∃ t, step sa b = .ok t ∧ step sb a = .ok t

/-- None of the actions is accepted. -/
def Saturated (step : S → A → Except E S) (U : A → Prop) (s : S) : Prop := ∀ a, U a → ∀ s', step s a ≠ .ok s'

variable {I : S → Prop} {U : A → Prop}

theorem Saturated.replay {s : S} (h : Saturated step U s) {as : List A} (ha : ∀ a ∈ as, U a) :
    replay step s as = s := by
  induction as with
  | nil => rfl
  | cons a as ih =>
    rcases feed_cases step s a with heq | hok
    · rw [replay_cons, heq]
      exact ih fun b hb => ha b (List.mem_cons_of_mem _ hb)
    · exact absurd hok (h a (ha a List.mem_cons_self) _)

namespace Confluent

variable (hC : Confluent step I U)
include hC

/-- An action that is not among those taken is still accepted after them, and may as well go first. -/
theorem run_commute {a : A} (hU : U a) {bs : List A} (hbs : ∀ b ∈ bs, U b) (hne : a ∉ bs) {s sa t : S} (hI : I s)
    (ha : step s a = .ok sa) (hrun : run step s bs = .ok t) : ∃ t', step t a = .ok t' ∧ run step sa bs = .ok t' := by
  induction bs generalizing s sa with
  | nil =>
    rw [run_nil] at hrun
    cases hrun
    exact ⟨sa, ha, run_nil sa⟩
  | cons b bs ih =>
    obtain ⟨sb, hb, hrest⟩ := run_cons.mp hrun
    obtain ⟨hab, hnew⟩ := List.ne_and_not_mem_of_not_mem_cons hne
    have hUb : U b := hbs b List.mem_cons_self
    obtain ⟨u, hab', hba⟩ := hC.meets hI hU hUb hab ha hb
    have hIb : I sb := hC.keeps hI hUb hb
    obtain ⟨t', ht, hrun'⟩ := ih (fun c hc => hbs c (List.mem_cons_of_mem _ hc)) hnew hIb hba hrest
    exact ⟨t', ht, run_cons.mpr ⟨u, hab', hrun'⟩⟩

/-- Where two runs have nothing left to take, they end in one state. -/
theorem saturated_unique {as bs : List A} (has : ∀ a ∈ as, U a) (hbs : ∀ b ∈ bs, U b) {s t t' : S} (hI : I s)
    (hrun : run step s as = .ok t) (hrun' : run step s bs = .ok t') (ht : Saturated step U t)
    (ht' : Saturated step U t') : t = t' := by
  induction as generalizing s bs with
  | nil =>
    rw [run_nil] at hrun
    cases hrun
    cases bs with
    | nil => rw [run_nil] at hrun'; cases hrun'; rfl
    | cons b bs =>
      obtain ⟨sb, hb, _⟩ := run_cons.mp hrun'
      exact absurd hb (ht b (hbs b List.mem_cons_self) sb)
  | cons a as ih =>
    obtain ⟨sa, ha, hrest⟩ := run_cons.mp hrun
    have hU : U a := has a List.mem_cons_self
    -- the other run takes it as well, and might have taken it first
    have hmem : a ∈ bs := by
      by_contra hne
      obtain ⟨u, hu, _⟩ := hC.run_commute hU hbs hne hI ha hrun'
      exact ht' a hU u hu
    obtain ⟨pre, post, rfl, hfirst⟩ := List.eq_append_cons_of_mem hmem
    obtain ⟨u, hpre, hpost⟩ := run_append.mp hrun'
    obtain ⟨u', hu, hpost⟩ := run_cons.mp hpost
    obtain ⟨u'', hu', hpre'⟩ := hC.run_commute hU (fun b hb => hbs b (List.mem_append_left _ hb)) hfirst hI ha hpre
    rw [hu] at hu'
    cases hu'
    refine ih (fun b hb => has b (List.mem_cons_of_mem _ hb)) (fun b hb => ?_) (hC.keeps hI hU ha) hrest
      (run_append.mpr ⟨u', hpre', hpost⟩)
    rcases List.mem_append.mp hb with hb | hb
    · exact hbs b (List.mem_append_left _ hb)
    · exact hbs b (List.mem_append_right _ (List.mem_cons_of_mem _ hb))

/-- What is accepted now is taken when it comes. -/
theorem mem_accepted {a : A} (hU : U a) {bs : List A} (hbs : ∀ b ∈ bs, U b) (hmem : a ∈ bs) {s sa : S} (hI : I s)
    (ha : step s a = .ok sa) : a ∈ accepted step s bs := by
  induction bs generalizing s sa with
  | nil => cases hmem
  | cons b bs ih =>
    have hUb : U b := hbs b List.mem_cons_self
    have hrest : ∀ c ∈ bs, U c := fun c hc => hbs c (List.mem_cons_of_mem _ hc)
    rw [accepted]
    by_cases hab : a = b
    · subst hab
      rw [ha]
      exact List.mem_cons_self
    have hmem' : a ∈ bs := (List.mem_cons.mp hmem).resolve_left hab
    cases hb : step s b with
    | error e => exact ih hrest hmem' hI ha
    | ok sb =>
      obtain ⟨u, _, hba⟩ := hC.meets hI hU hUb hab ha hb
      exact List.mem_cons_of_mem _ (ih hrest hmem' (hC.keeps hI hUb hb) hba)

theorem replay_keeps {bs : List A} (hbs : ∀ b ∈ bs, U b) {s : S} (hI : I s) : I (replay step s bs) :=
  replay_invariant_of (fun _ _ _ hI hU ha => hC.keeps hI hU ha) hI hbs

/-- A round offers each of the actions. As long as something is left to take, it takes something. -/
theorem rounds_progress {rounds : List (List A)} (hr : ∀ round ∈ rounds, ∀ a, a ∈ round ↔ U a) {s : S} (hI : I s) :
    Saturated step U (replay step s rounds.flatten) ∨ rounds.length ≤ (accepted step s rounds.flatten).length := by
  induction rounds generalizing s with
  | nil => exact Or.inr (Nat.zero_le _)
  | cons round rounds ih =>
    have hround : ∀ a ∈ round, U a := fun a ha => (hr round List.mem_cons_self a).mp ha
    have hrest : ∀ r ∈ rounds, ∀ a, a ∈ r ↔ U a := fun r hr' => hr r (List.mem_cons_of_mem _ hr')
    rw [List.flatten_cons, replay_append, accepted_append, List.length_append, List.length_cons]
    by_cases hs : Saturated step U s
    · left
      have hall : ∀ a ∈ rounds.flatten, U a := by
        intro a ha
        obtain ⟨r, hr', ha⟩ := List.mem_flatten.mp ha
        exact (hrest r hr' a).mp ha
      rw [hs.replay hround, hs.replay hall]
      exact hs
    · unfold Saturated at hs
      push Not at hs
      obtain ⟨a, hU, sa, ha⟩ := hs
      have hmem := hC.mem_accepted hU hround ((hr round List.mem_cons_self a).mpr hU) hI ha
      have hpos := List.length_pos_of_mem hmem
      rcases ih hrest (hC.replay_keeps hround hI) with hsat | hlen
      · exact Or.inl hsat
      · exact Or.inr (by omega)

/-- More rounds than can take something. -/
theorem rounds_saturate {n : Nat} {s : S} (hI : I s)
    (hn : ∀ bs : List A, (∀ b ∈ bs, U b) → (accepted step s bs).length ≤ n) {rounds : List (List A)}
    (hr : ∀ round ∈ rounds, ∀ a, a ∈ round ↔ U a) (hlen : n < rounds.length) :
    Saturated step U (replay step s rounds.flatten) := by
  rcases hC.rounds_progress hr hI with hsat | hle
  · exact hsat
  · have hall : ∀ a ∈ rounds.flatten, U a := by
      intro a ha
      obtain ⟨r, hr', ha⟩ := List.mem_flatten.mp ha
      exact (hr r hr' a).mp ha
    have := hn _ hall
    omega

end Confluent

end Replay
