import Mathlib

/-!
# Replaying a log against a fallible step

A replica folds a partial step over a log and drops what the step rejects.
The rules here are the induction principles of such replicas: invariants,
monotone relations, the entry at which a property first holds, and the
permutations of a log that do not change the outcome.
-/

namespace Replay

variable {S A E : Type*} (step : S → A → Except E S)

def feed (s : S) (a : A) : S :=
  match step s a with
  | .ok s' => s'
  | .error _ => s

def replay (s : S) (as : List A) : S := as.foldl (feed step) s

def run : S → List A → Except E S
  | s, [] => .ok s
  | s, a :: as =>
    match step s a with
    | .ok s' => run s' as
    | .error e => .error e

def accepted : S → List A → List A
  | _, [] => []
  | s, a :: as =>
    match step s a with
    | .ok s' => a :: accepted s' as
    | .error _ => accepted s as

variable {step}

theorem feed_ok {s s' : S} {a : A} (h : step s a = .ok s') : feed step s a = s' := by
  unfold feed; rw [h]

theorem feed_error {s : S} {a : A} {e : E} (h : step s a = .error e) : feed step s a = s := by
  unfold feed; rw [h]

variable (step) in
theorem feed_cases (s : S) (a : A) : feed step s a = s ∨ step s a = .ok (feed step s a) := by
  cases h : step s a with
  | ok s' => right; rw [feed_ok h]
  | error e => left; exact feed_error h

@[simp] theorem replay_nil (s : S) : replay step s [] = s := rfl

@[simp] theorem replay_cons (s : S) (a : A) (as : List A) :
    replay step s (a :: as) = replay step (feed step s a) as := rfl

theorem replay_append (s : S) (as bs : List A) : replay step s (as ++ bs) = replay step (replay step s as) bs :=
  List.foldl_append

/-! ## Invariants -/

theorem feed_invariant {P : S → Prop} (hs : ∀ s a s', P s → step s a = .ok s' → P s') {s : S} (h : P s) (a : A) :
    P (feed step s a) := by
  rcases feed_cases step s a with he | ha
  · rw [he]; exact h
  · exact hs s a _ h ha

theorem replay_invariant {P : S → Prop} (hs : ∀ s a s', P s → step s a = .ok s' → P s') {s : S} (h : P s) :
    ∀ as, P (replay step s as) := by
  intro as
  induction as generalizing s with
  | nil => exact h
  | cons a as ih => exact ih (feed_invariant hs h a)

theorem replay_invariant_of {P : S → Prop} {Q : A → Prop} (hs : ∀ s a s', P s → Q a → step s a = .ok s' → P s') {s : S}
    (h : P s) {as : List A} (ha : ∀ a ∈ as, Q a) : P (replay step s as) := by
  induction as generalizing s with
  | nil => exact h
  | cons a as ih =>
    refine ih ?_ fun b hb => ha b (List.mem_cons_of_mem _ hb)
    rcases feed_cases step s a with he | hok
    · rw [he]; exact h
    · exact hs s a _ h (ha a (by simp)) hok

variable (step) in
/-- A reflexive and transitive relation that every accepted step respects relates the ends of a replay. -/
theorem replay_rel {R : S → S → Prop} (hr : ∀ s, R s s) (ht : ∀ s t u, R s t → R t u → R s u)
    (hs : ∀ s a s', step s a = .ok s' → R s s') (s : S) (as : List A) : R s (replay step s as) := by
  induction as generalizing s with
  | nil => exact hr s
  | cons a as ih =>
    refine ht _ _ _ ?_ (ih (feed step s a))
    rcases feed_cases step s a with he | ha
    · rw [he]; exact hr s
    · exact hs _ _ _ ha

variable (step) in
theorem exists_gain {Q : S → Prop} {s : S} (h0 : ¬ Q s) : ∀ {as : List A}, Q (replay step s as) →
    ∃ pre a post s', as = pre ++ a :: post ∧ ¬ Q (replay step s pre) ∧
      step (replay step s pre) a = .ok s' ∧ Q s' := by
  intro as
  induction as generalizing s with
  | nil => intro h; exact absurd h h0
  | cons a as ih =>
    intro h
    by_cases hq : Q (feed step s a)
    · refine ⟨[], a, as, feed step s a, rfl, h0, ?_, hq⟩
      rcases feed_cases step s a with he | ha
      · rw [he] at hq; exact absurd hq h0
      · exact ha
    · obtain ⟨pre, b, post, s', he, hn, hb, hq'⟩ := ih hq h
      exact ⟨a :: pre, b, post, s', by rw [he]; rfl, hn, hb, hq'⟩

/-! ## Conditions on steps -/

variable (step) in
def EachStep (R : S → A → Prop) : S → List A → Prop
  | _, [] => True
  | s, a :: as => (∀ s', step s a = .ok s' → R s a) ∧ EachStep R (feed step s a) as

theorem EachStep.of_mem {R : S → A → Prop} {as : List A} (h : ∀ a ∈ as, ∀ s, R s a) (s : S) : EachStep step R s as := by
  induction as generalizing s with
  | nil => trivial
  | cons a as ih => exact ⟨fun _ _ => h a List.mem_cons_self s, ih (fun b hb => h b (List.mem_cons_of_mem _ hb)) _⟩

/-- A property that each accepted step keeps exactly when it satisfies `R`
holds after a replay exactly when all steps satisfied `R`. -/
theorem replay_iff {P Q : S → Prop} {R : S → A → Prop}
    (hs : ∀ s a s', P s → step s a = .ok s' → P s' ∧ (Q s' ↔ Q s ∧ R s a)) {s : S} (h : P s) :
    ∀ as, Q (replay step s as) ↔ Q s ∧ EachStep step R s as := by
  intro as
  induction as generalizing s with
  | nil => simp [EachStep]
  | cons a as ih =>
    have hP : P (feed step s a) := feed_invariant (fun s a s' hp ha => (hs s a s' hp ha).1) h a
    rw [replay_cons, ih hP, EachStep, ← and_assoc]
    refine and_congr_left fun _ => ?_
    cases hstep : step s a with
    | ok s' =>
      rw [feed_ok hstep, (hs s a s' h hstep).2]
      simp
    | error e => simp [feed_error hstep]

/-- An invariant of the steps that satisfy `R` holds at every point of a replay whose steps do. -/
theorem EachStep.invariant {P : S → Prop} {R : S → A → Prop}
    (hs : ∀ s a s', P s → R s a → step s a = .ok s' → P s') {s : S} (h : P s) {pre post : List A}
    (he : EachStep step R s (pre ++ post)) : P (replay step s pre) := by
  induction pre generalizing s with
  | nil => exact h
  | cons a pre ih =>
    obtain ⟨ha, hrest⟩ := he
    refine ih ?_ hrest
    rcases feed_cases step s a with heq | hok
    · rw [heq]; exact h
    · exact hs s a _ h (ha _ hok) hok

/-- Where some action is accepted and lowers a measure until the goal is met, a log leads to the goal. -/
theorem exists_replay_of_measure {P G : S → Prop} (μ : S → Nat)
    (hs : ∀ s, P s → ¬ G s → ∃ a s', step s a = .ok s' ∧ (G s' ∨ P s' ∧ μ s' < μ s)) {s : S} (h : P s) :
    ∃ as, G (replay step s as) := by
  induction hn : μ s using Nat.strong_induction_on generalizing s with
  | _ n ih =>
    by_cases hg : G s
    · exact ⟨[], hg⟩
    obtain ⟨a, s', ha, hgoal | ⟨hp, hlt⟩⟩ := hs s h hg
    · exact ⟨[a], by rw [replay_cons, feed_ok ha]; exact hgoal⟩
    · obtain ⟨as, has⟩ := ih (μ s') (hn ▸ hlt) hp rfl
      exact ⟨a :: as, by rw [replay_cons, feed_ok ha]; exact has⟩

/-! ## Logs that are accepted whole -/

@[simp] theorem run_nil (s : S) : run step s [] = .ok s := rfl

theorem run_cons {s t : S} {a : A} {as : List A} :
    run step s (a :: as) = .ok t ↔ ∃ m, step s a = .ok m ∧ run step m as = .ok t := by
  rw [run]
  cases h : step s a with
  | ok m => simp
  | error e => simp

theorem run_append {s t : S} {as bs : List A} :
    run step s (as ++ bs) = .ok t ↔ ∃ m, run step s as = .ok m ∧ run step m bs = .ok t := by
  induction as generalizing s with
  | nil => simp
  | cons a as ih =>
    rw [List.cons_append, run_cons]
    simp only [ih, run_cons]
    constructor
    · rintro ⟨m, hm, m', hm', ht⟩; exact ⟨m', ⟨m, hm, hm'⟩, ht⟩
    · rintro ⟨m', ⟨m, hm, hm'⟩, ht⟩; exact ⟨m, hm, m', hm', ht⟩

theorem replay_of_run {s t : S} {as : List A} (h : run step s as = .ok t) : replay step s as = t := by
  induction as generalizing s with
  | nil => simpa using h
  | cons a as ih =>
    obtain ⟨m, hm, ht⟩ := run_cons.mp h
    rw [replay_cons, feed_ok hm]; exact ih ht

variable (step) in
theorem run_accepted (s : S) (as : List A) : run step s (accepted step s as) = .ok (replay step s as) := by
  induction as generalizing s with
  | nil => rfl
  | cons a as ih =>
    rw [accepted, replay_cons]
    cases h : step s a with
    | ok m => rw [feed_ok h]; exact run_cons.mpr ⟨m, h, ih m⟩
    | error e => rw [feed_error h]; exact ih s

variable (step) in
theorem accepted_sublist (s : S) (as : List A) : (accepted step s as).Sublist as := by
  induction as generalizing s with
  | nil => exact List.Sublist.refl _
  | cons a as ih =>
    rw [accepted]
    cases step s a with
    | ok m => exact (ih m).cons_cons a
    | error e => exact (ih s).cons a

theorem accepted_append (s : S) (as bs : List A) :
    accepted step s (as ++ bs) = accepted step s as ++ accepted step (replay step s as) bs := by
  induction as generalizing s with
  | nil => rfl
  | cons a as ih =>
    rw [List.cons_append, accepted, accepted, replay_cons]
    cases h : step s a with
    | ok m => rw [feed_ok h]; simp only [List.cons_append, ih m]
    | error e => rw [feed_error h]; exact ih s

/-- An invariant of the state and of what was accepted before it. -/
theorem accepted_invariant {P : List A → S → Prop}
    (hs : ∀ h s a s', P h s → step s a = .ok s' → P (h ++ [a]) s') {h : List A} {s : S} (h0 : P h s) (as : List A) :
    P (h ++ accepted step s as) (replay step s as) := by
  induction as generalizing h s with
  | nil => simpa [accepted] using h0
  | cons a as ih =>
    rw [accepted, replay_cons]
    cases ha : step s a with
    | ok m =>
      rw [feed_ok ha]
      have := ih (hs h s a m h0 ha)
      simpa using this
    | error e => rw [feed_error ha]; exact ih h0

/-- Where accepting an action takes its slot, and a taken slot stays taken and
is refused, no two accepted actions have one slot. -/
theorem accepted_nodup {B : Type*} {P : S → Prop} {slot : A → B} {taken : S → B → Prop}
    (hs : ∀ s a s', P s → step s a = .ok s' →
      P s' ∧ ¬ taken s (slot a) ∧ taken s' (slot a) ∧ ∀ b, taken s b → taken s' b) {s : S} (h : P s) (as : List A) :
    ((accepted step s as).map slot).Nodup ∧ ∀ b ∈ (accepted step s as).map slot, ¬ taken s b := by
  induction as generalizing s with
  | nil => simp [accepted]
  | cons a as ih =>
    rw [accepted]
    cases ha : step s a with
    | error e => exact ih h
    | ok m =>
      obtain ⟨hp, hfree, htaken, hkeep⟩ := hs s a m h ha
      obtain ⟨hnodup, hlater⟩ := ih hp
      refine ⟨List.nodup_cons.mpr ⟨fun hmem => hlater _ hmem htaken, hnodup⟩, fun b hb => ?_⟩
      rcases List.mem_cons.mp hb with rfl | hb
      · exact hfree
      · exact fun hold => hlater b hb (hkeep b hold)

theorem run_forall {P : S → Prop} {Q : A → Prop} {s t : S} {as : List A}
    (hs : ∀ a ∈ as, ∀ s s', P s → step s a = .ok s' → P s' ∧ Q a) (h : P s) (hr : run step s as = .ok t) :
    ∀ a ∈ as, Q a := by
  induction as generalizing s with
  | nil => intro a ha; cases ha
  | cons b as ih =>
    obtain ⟨m, hm, ht⟩ := run_cons.mp hr
    obtain ⟨hp, hq⟩ := hs b (by simp) _ _ h hm
    intro a ha
    rcases List.mem_cons.mp ha with rfl | ha
    · exact hq
    · exact ih (fun c hc => hs c (List.mem_cons_of_mem _ hc)) hp ht a ha

theorem run_length {P : S → Prop} {f : S → Nat} {s t : S} {as : List A}
    (hs : ∀ a ∈ as, ∀ s s', P s → step s a = .ok s' → P s' ∧ f s' = f s + 1) (h : P s)
    (hr : run step s as = .ok t) : f t = f s + as.length := by
  induction as generalizing s with
  | nil => rw [run_nil] at hr; cases hr; rfl
  | cons b as ih =>
    obtain ⟨m, hm, ht⟩ := run_cons.mp hr
    obtain ⟨hp, hf⟩ := hs b (by simp) _ _ h hm
    rw [ih (fun c hc => hs c (List.mem_cons_of_mem _ hc)) hp ht, hf, List.length_cons]; omega

/-- When a state only takes actions ranked at or above its floor, and they raise
the floor to their rank, a run is in rank order. -/
theorem run_ranked {P : S → Prop} {floor : S → Nat} {rank : A → Nat} {s t : S} {as : List A}
    (hs : ∀ a ∈ as, ∀ s s', P s → step s a = .ok s' → P s' ∧ floor s ≤ rank a ∧ rank a ≤ floor s') (h : P s)
    (hr : run step s as = .ok t) : as.Pairwise (rank · ≤ rank ·) ∧ ∀ a ∈ as, floor s ≤ rank a := by
  induction as generalizing s with
  | nil => exact ⟨.nil, by simp⟩
  | cons b as ih =>
    obtain ⟨m, hm, ht⟩ := run_cons.mp hr
    obtain ⟨hp, hlo, hhi⟩ := hs b (by simp) _ _ h hm
    obtain ⟨hsorted, hfloor⟩ := ih (fun c hc => hs c (List.mem_cons_of_mem _ hc)) hp ht
    refine ⟨List.pairwise_cons.mpr ⟨fun a ha => hhi.trans (hfloor a ha), hsorted⟩, fun a ha => ?_⟩
    rcases List.mem_cons.mp ha with rfl | ha
    · exact hlo
    · exact hlo.trans (hhi.trans (hfloor a ha))

/-! ## Reordering -/

variable (step) in
/-- Two actions swap where a run that takes `a` then `b` could as well take `b` then `a`. -/
def SwapsAt (s : S) (a b : A) : Prop :=
  ∀ m t, step s a = .ok m → step m b = .ok t → ∃ m', step s b = .ok m' ∧ step m' a = .ok t

theorem run_move {P : S → Prop} (hs : ∀ s a s', P s → step s a = .ok s' → P s') {a : A} {bs cs : List A}
    (hsw : ∀ b ∈ bs, ∀ s, P s → SwapsAt step s a b) {s t : S} (h : P s) (hr : run step s (a :: (bs ++ cs)) = .ok t) :
    run step s (bs ++ a :: cs) = .ok t := by
  induction bs generalizing s with
  | nil => exact hr
  | cons b bs ih =>
    obtain ⟨m, hm, hr'⟩ := run_cons.mp hr
    obtain ⟨m₂, hm₂, ht⟩ := run_cons.mp hr'
    obtain ⟨m', h1, h2⟩ := hsw b (by simp) s h m m₂ hm hm₂
    refine run_cons.mpr ⟨m', h1, ih (fun c hc => hsw c (by simp [hc])) (hs _ _ _ h h1) ?_⟩
    exact run_cons.mpr ⟨m₂, h2, ht⟩

/-- Two orderings by rank of the same actions run alike when actions of equal rank swap. -/
theorem run_perm_ranked {P : S → Prop} (hs : ∀ s a s', P s → step s a = .ok s' → P s') (rank : A → Nat)
    {as bs : List A} (hp : as.Perm bs) (ha : as.Pairwise (rank · ≤ rank ·)) (hb : bs.Pairwise (rank · ≤ rank ·))
    (hsw : ∀ a ∈ as, ∀ b ∈ as, rank a = rank b → ∀ s, P s → SwapsAt step s a b) {s t : S} (h : P s)
    (hr : run step s as = .ok t) : run step s bs = .ok t := by
  induction as generalizing s bs with
  | nil => rw [← hp.nil_eq]; exact hr
  | cons a as ih =>
    obtain ⟨pre, post, rfl⟩ := List.append_of_mem (hp.mem_iff.mp (List.mem_cons_self ..))
    obtain ⟨hle, hsorted⟩ := List.pairwise_cons.mp ha
    have hp' : as.Perm (pre ++ post) := (hp.trans List.perm_middle).cons_inv
    have hmem : ∀ b ∈ pre, b ∈ as := fun b hb' => hp'.mem_iff.mpr (List.mem_append_left _ hb')
    -- what `bs` puts before `a` ranks no higher, and `a` ranks lowest
    have heq : ∀ b ∈ pre, rank a = rank b := fun b hb' =>
      le_antisymm (hle b (hmem b hb')) ((List.pairwise_append.mp hb).2.2 b hb' a (by simp))
    have hsub : (pre ++ post).Sublist (pre ++ a :: post) := (List.Sublist.refl _).append (List.sublist_cons_self ..)
    obtain ⟨m, hm, ht⟩ := run_cons.mp hr
    refine run_move hs (fun b hb' => hsw a (by simp) b (by simp [hmem b hb']) (heq b hb')) h ?_
    refine run_cons.mpr ⟨m, hm, ih hp' hsorted (hb.sublist hsub) ?_ (hs _ _ _ h hm) ht⟩
    exact fun b hb' c hc => hsw b (List.mem_cons_of_mem _ hb') c (List.mem_cons_of_mem _ hc)

end Replay
