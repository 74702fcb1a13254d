import Sapphire.Replay

/-!
# Parties around a replicated log

Parties react to states the log has been in, at any time and as often as
the schedule says, and submit what they like of what they returned. Others may
submit what is free. A schedule is a list of events, and what it may not do is
skipped, so every list is a run.
-/

namespace Parties

open Replay

/-- The shared machine `step` from `init`, the reaction of a party's memory to
a state (`I` is the input of the call), and what anybody may submit. -/
structure System (S A E P M I : Type*) where
  init : S
  step : S → A → Except E S
  act : P → M → S → I → M × List A
  free : A → Bool

structure World (A P M : Type*) where
  log : List A
  mem : P → M
  sent : P → List A

inductive Event (A P I : Type*) where
  | submit (a : A)
  | deliver (p : P) (j : Nat)
  /-- Let the party react to the state after `k` actions of the log. -/
  | react (p : P) (k : Nat) (i : I)

variable {S A E P M I : Type*} [DecidableEq P] (sys : System S A E P M I)

namespace System

def stateAt (w : World A P M) (k : Nat) : S := replay sys.step sys.init (w.log.take k)

def exec (w : World A P M) : Event A P I → World A P M
  | .submit a => if sys.free a then { w with log := w.log ++ [a] } else w
  | .deliver p j =>
    match (w.sent p)[j]? with
    | some a => { w with log := w.log ++ [a] }
    | none => w
  | .react p k i =>
    let reaction := sys.act p (w.mem p) (sys.stateAt w k) i
    { w with mem := Function.update w.mem p reaction.1, sent := Function.update w.sent p (w.sent p ++ reaction.2) }

def execAll (w : World A P M) (events : List (Event A P I)) : World A P M := events.foldl sys.exec w

variable {sys}

variable (sys) in
theorem exec_cases (w : World A P M) (e : Event A P I) :
    sys.exec w e = w ∨
      (∃ a, (sys.free a = true ∨ ∃ p, a ∈ w.sent p) ∧ sys.exec w e = { w with log := w.log ++ [a] }) ∨
      ∃ p k i, e = .react p k i := by
  cases e with
  | submit a =>
    by_cases hf : sys.free a = true
    · exact Or.inr (Or.inl ⟨a, Or.inl hf, if_pos hf⟩)
    · exact Or.inl (if_neg hf)
  | deliver p j =>
    cases hj : (w.sent p)[j]? with
    | none => left; simp only [exec, hj]
    | some a =>
      exact Or.inr (Or.inl ⟨a, Or.inr ⟨p, List.mem_of_getElem? hj⟩, by simp only [exec, hj]⟩)
  | react p k i => exact Or.inr (Or.inr ⟨p, k, i, rfl⟩)

theorem execAll_invariant {Q : World A P M → Prop} (hs : ∀ w e, Q w → Q (sys.exec w e)) {w : World A P M} (h : Q w) :
    ∀ es, Q (sys.execAll w es) := by
  intro es
  induction es generalizing w with
  | nil => exact h
  | cons e es ih => exact ih (hs w e h)

variable (sys) in
theorem execAll_log (w : World A P M) (es : List (Event A P I)) : ∃ more, (sys.execAll w es).log = w.log ++ more := by
  refine execAll_invariant (Q := fun u => ∃ more, u.log = w.log ++ more) (fun u e h => ?_) ⟨[], by simp⟩ es
  obtain ⟨more, hu⟩ := h
  rcases exec_cases sys u e with he | ⟨a, _, he⟩ | ⟨p, k, i, rfl⟩
  · exact ⟨more, by rw [he]; exact hu⟩
  · exact ⟨more ++ [a], by rw [he, ← List.append_assoc, ← hu]⟩
  · exact ⟨more, hu⟩

/-- What an invariant of each party needs: it survives a longer log, and a reaction to a state the log has been in. -/
structure PartyInvariant (sys : System S A E P M I) (Q : List A → P → M → List A → Prop) : Prop where
  grow : ∀ {log p m out}, Q log p m out → ∀ a, Q (log ++ [a]) p m out
  act : ∀ {log p m out}, Q log p m out → ∀ k i,
    Q log p (sys.act p m (replay sys.step sys.init (log.take k)) i).1
      (out ++ (sys.act p m (replay sys.step sys.init (log.take k)) i).2)

theorem PartyInvariant.exec {Q : List A → P → M → List A → Prop} (hQ : PartyInvariant sys Q) {w : World A P M}
    (h : ∀ p, Q w.log p (w.mem p) (w.sent p)) (e : Event A P I) :
    ∀ p, Q (sys.exec w e).log p ((sys.exec w e).mem p) ((sys.exec w e).sent p) := by
  intro p
  rcases exec_cases sys w e with he | ⟨a, _, he⟩ | ⟨q, k, i, rfl⟩
  · rw [he]; exact h p
  · rw [he]; exact hQ.grow (h p) a
  · by_cases hp : p = q
    · subst hp
      simp only [System.exec, Function.update_self]
      exact hQ.act (h p) k i
    · simp only [System.exec, Function.update_of_ne hp]
      exact h p

theorem PartyInvariant.execAll {Q : List A → P → M → List A → Prop} (hQ : PartyInvariant sys Q) {w : World A P M}
    (h : ∀ p, Q w.log p (w.mem p) (w.sent p)) (es : List (Event A P I)) :
    ∀ p, Q (sys.execAll w es).log p ((sys.execAll w es).mem p) ((sys.execAll w es).sent p) :=
  execAll_invariant (Q := fun w => ∀ p, Q w.log p (w.mem p) (w.sent p)) (fun _ e h => hQ.exec h e) h es

/-- Every action of the log was there to begin with, is free, or was returned by a party. -/
def Justified (sys : System S A E P M I) (boot : List A) (w : World A P M) : Prop :=
  ∃ log, w.log = boot ++ log ∧ ∀ a ∈ log, sys.free a = true ∨ ∃ p, a ∈ w.sent p

theorem exec_sent_mono (w : World A P M) (e : Event A P I) {p : P} {a : A} (h : a ∈ w.sent p) :
    a ∈ (sys.exec w e).sent p := by
  rcases exec_cases sys w e with he | ⟨b, _, he⟩ | ⟨q, k, i, rfl⟩
  · rw [he]; exact h
  · rw [he]; exact h
  · by_cases hp : p = q
    · subst hp
      simp only [exec, Function.update_self]
      exact List.mem_append_left _ h
    · simpa only [exec, Function.update_of_ne hp] using h

theorem Justified.exec {boot : List A} {w : World A P M} (h : Justified sys boot w) (e : Event A P I) :
    Justified sys boot (sys.exec w e) := by
  obtain ⟨log, hlog, hall⟩ := h
  have hkeep : ∀ a ∈ log, sys.free a = true ∨ ∃ p, a ∈ (sys.exec w e).sent p := fun a ha =>
    (hall a ha).imp_right fun ⟨p, hp⟩ => ⟨p, exec_sent_mono w e hp⟩
  rcases exec_cases sys w e with he | ⟨b, hb, he⟩ | ⟨q, k, i, rfl⟩
  · exact ⟨log, by rw [he]; exact hlog, hkeep⟩
  · refine ⟨log ++ [b], by rw [he, ← List.append_assoc, ← hlog], ?_⟩
    intro a ha
    rcases List.mem_append.mp ha with ha | ha
    · exact hkeep a ha
    · rw [List.mem_singleton.mp ha]
      exact hb.imp_right fun ⟨p, hp⟩ => ⟨p, exec_sent_mono w e hp⟩
  · exact ⟨log, hlog, hkeep⟩

theorem Justified.execAll {boot : List A} {w : World A P M} (h : Justified sys boot w) (es : List (Event A P I)) :
    Justified sys boot (sys.execAll w es) :=
  execAll_invariant (fun _ e h => h.exec e) h es

end System

end Parties
