import Sapphire.Parties

/-!
# Parties around many logs

Without a consensus every replica has a log of its own. A party reacts to states
its own replica's log has been in; what it returns may come to any replica, in
any order, any number of times or not at all, and so may what is free.
-/

namespace Parties

open Replay

structure Network (R A P M : Type*) where
  log : R → List A
  mem : P → M
  sent : P → List A

inductive NetworkEvent (R A P I : Type*) where
  | submit (r : R) (a : A)
  | deliver (r : R) (p : P) (j : Nat)
  /-- Let the party react to the state its replica was in after `k` actions of its log. -/
  | react (p : P) (k : Nat) (i : I)

variable {R S A E P M I : Type*} [DecidableEq R] [DecidableEq P] (sys : System S A E P M I) (home : P → R)

namespace Network

def extend (n : Network R A P M) (r : R) (a : A) : Network R A P M :=
  { n with log := Function.update n.log r (n.log r ++ [a]) }

def exec (n : Network R A P M) : NetworkEvent R A P I → Network R A P M
  | .submit r a => if sys.free a then n.extend r a else n
  | .deliver r p j =>
    match (n.sent p)[j]? with
    | some a => n.extend r a
    | none => n
  | .react p k i =>
    let reaction := sys.act p (n.mem p) (replay sys.step sys.init ((n.log (home p)).take k)) i
    { n with mem := Function.update n.mem p reaction.1, sent := Function.update n.sent p (n.sent p ++ reaction.2) }

def execAll (n : Network R A P M) (events : List (NetworkEvent R A P I)) : Network R A P M :=
  events.foldl (exec sys home) n

variable {sys home}

variable (sys home) in
theorem exec_cases (n : Network R A P M) (e : NetworkEvent R A P I) :
    n.exec sys home e = n ∨
      (∃ r a, (sys.free a = true ∨ ∃ p, a ∈ n.sent p) ∧ n.exec sys home e = n.extend r a) ∨
      ∃ p k i, e = .react p k i := by
  cases e with
  | submit r a =>
    by_cases hf : sys.free a = true
    · exact Or.inr (Or.inl ⟨r, a, Or.inl hf, if_pos hf⟩)
    · exact Or.inl (if_neg hf)
  | deliver r p j =>
    cases hj : (n.sent p)[j]? with
    | none => left; simp only [exec, hj]
    | some a => exact Or.inr (Or.inl ⟨r, a, Or.inr ⟨p, List.mem_of_getElem? hj⟩, by simp only [exec, hj]⟩)
  | react p k i => exact Or.inr (Or.inr ⟨p, k, i, rfl⟩)

theorem execAll_invariant {Q : Network R A P M → Prop} (hs : ∀ n e, Q n → Q (n.exec sys home e)) {n : Network R A P M}
    (h : Q n) : ∀ events, Q (n.execAll sys home events) := by
  intro events
  induction events generalizing n with
  | nil => exact h
  | cons e events ih => exact ih (hs n e h)

/-- An invariant of each party around one log is one around its replica's. -/
theorem partyInvariant_exec {Q : List A → P → M → List A → Prop} (hQ : System.PartyInvariant sys Q)
    {n : Network R A P M} (h : ∀ p, Q (n.log (home p)) p (n.mem p) (n.sent p)) (e : NetworkEvent R A P I) :
    ∀ p, Q ((n.exec sys home e).log (home p)) p ((n.exec sys home e).mem p) ((n.exec sys home e).sent p) := by
  intro p
  rcases exec_cases sys home n e with he | ⟨r, a, _, he⟩ | ⟨q, k, i, rfl⟩
  · rw [he]; exact h p
  · rw [he]
    by_cases hr : home p = r
    · subst hr
      simp only [extend, Function.update_self]
      exact hQ.grow (h p) a
    · simp only [extend, Function.update_of_ne hr]
      exact h p
  · by_cases hp : p = q
    · subst hp
      simp only [exec, Function.update_self]
      exact hQ.act (h p) k i
    · simp only [exec, Function.update_of_ne hp]
      exact h p

theorem partyInvariant_execAll {Q : List A → P → M → List A → Prop} (hQ : System.PartyInvariant sys Q)
    {n : Network R A P M} (h : ∀ p, Q (n.log (home p)) p (n.mem p) (n.sent p)) (events : List (NetworkEvent R A P I)) :
    ∀ p, Q ((n.execAll sys home events).log (home p)) p ((n.execAll sys home events).mem p)
      ((n.execAll sys home events).sent p) :=
  execAll_invariant (Q := fun n => ∀ p, Q (n.log (home p)) p (n.mem p) (n.sent p))
    (fun _ e h => partyInvariant_exec hQ h e) h events

/-- Every action of every log was there to begin with, is free, or was returned by a party. -/
def Justified (sys : System S A E P M I) (boot : List A) (n : Network R A P M) : Prop :=
  ∀ r, ∀ a ∈ n.log r, a ∈ boot ∨ sys.free a = true ∨ ∃ p, a ∈ n.sent p

theorem exec_sent_mono (n : Network R A P M) (e : NetworkEvent R A P I) {p : P} {a : A} (h : a ∈ n.sent p) :
    a ∈ (n.exec sys home e).sent p := by
  rcases exec_cases sys home n e with he | ⟨r, b, _, he⟩ | ⟨q, k, i, rfl⟩
  · rw [he]; exact h
  · rw [he]; exact h
  · by_cases hp : p = q
    · subst hp
      simp only [exec, Function.update_self]
      exact List.mem_append_left _ h
    · simpa only [exec, Function.update_of_ne hp] using h

theorem Justified.exec {boot : List A} {n : Network R A P M} (h : n.Justified sys boot) (e : NetworkEvent R A P I) :
    (n.exec sys home e).Justified sys boot := by
  have hkeep : ∀ r, ∀ a ∈ n.log r, a ∈ boot ∨ sys.free a = true ∨ ∃ p, a ∈ (n.exec sys home e).sent p := by
    intro r a ha
    rcases h r a ha with hboot | hfree | ⟨p, hp⟩
    · exact Or.inl hboot
    · exact Or.inr (Or.inl hfree)
    · exact Or.inr (Or.inr ⟨p, exec_sent_mono n e hp⟩)
  intro r a ha
  rcases exec_cases sys home n e with he | ⟨r', b, hb, he⟩ | ⟨q, k, i, rfl⟩
  · rw [he] at ha ⊢; exact h r a ha
  · by_cases hr : r = r'
    · subst hr
      have hlog : (n.exec sys home e).log r = n.log r ++ [b] := by rw [he]; simp [extend]
      rw [hlog] at ha
      rcases List.mem_append.mp ha with ha | ha
      · exact hkeep r a ha
      · rw [List.mem_singleton.mp ha]
        exact Or.inr (hb.imp_right fun ⟨p, hp⟩ => ⟨p, exec_sent_mono n e hp⟩)
    · have hlog : (n.exec sys home e).log r = n.log r := by rw [he]; simp [extend, hr]
      rw [hlog] at ha
      exact hkeep r a ha
  · exact hkeep r a ha

theorem Justified.execAll {boot : List A} {n : Network R A P M} (h : n.Justified sys boot)
    (events : List (NetworkEvent R A P I)) : (n.execAll sys home events).Justified sys boot :=
  execAll_invariant (Q := fun n => n.Justified sys boot) (fun _ e h => h.exec e) h events

end Network

end Parties
