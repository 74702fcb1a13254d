import Mathlib

/-!
# Frames on a byte stream, and lossy queues

A frame is a body after its length in four bytes, big end first. A reader that
takes one byte at a time gives the bodies back, however the stream is cut. A
broadcast queue of bounded capacity overwrites its oldest values, and tells a
receiver how many it has missed before it gives the next one.
-/

namespace Framing

/-! ## Lengths -/

/-- `u32::to_be_bytes`. -/
def toBeBytes (n : UInt32) : List UInt8 :=
  [UInt8.ofNat (n.toNat / 2 ^ 24), UInt8.ofNat (n.toNat / 2 ^ 16), UInt8.ofNat (n.toNat / 2 ^ 8), UInt8.ofNat n.toNat]

def fromBeBytes (bytes : List UInt8) : UInt32 := UInt32.ofNat (bytes.foldl (fun n b => n * 256 + b.toNat) 0)

theorem fromBeBytes_toBeBytes (n : UInt32) : fromBeBytes (toBeBytes n) = n := by
  have hlt := n.toNat_lt
  apply UInt32.toNat_inj.mp
  simp only [fromBeBytes, toBeBytes, List.foldl_cons, List.foldl_nil, UInt8.toNat_ofNat', UInt32.toNat_ofNat']
  omega

theorem toBeBytes_ofNat_inj {m n : Nat} (hm : m < 2 ^ 32) (hn : n < 2 ^ 32)
    (h : toBeBytes (UInt32.ofNat m) = toBeBytes (UInt32.ofNat n)) : m = n := by
  have hsame := congrArg (fun bytes => (fromBeBytes bytes).toNat) h
  simp only [fromBeBytes_toBeBytes, UInt32.toNat_ofNat'] at hsame
  omega

/-! ## Frames -/

/-- The length is cast to 32 bits. -/
def frame (body : List UInt8) : List UInt8 := toBeBytes (UInt32.ofNat body.length) ++ body

/-- Where a reader stands in a frame. -/
inductive Reading where
  | header (got : List UInt8)
  | body (len : Nat) (got : List UInt8)
deriving DecidableEq, Repr

inductive Fed where
  | more (r : Reading)
  | done (body : List UInt8)
deriving DecidableEq, Repr

/-- One byte. A length above the limit is an error. -/
def feed (limit : Nat) : Reading → UInt8 → Option Fed
  | .header got, b =>
    let got := got ++ [b]
    if got.length < 4 then some (.more (.header got))
    else
      let len := (fromBeBytes got).toNat
      if limit < len then none
      else if len = 0 then some (.done [])
      else some (.more (.body len []))
  | .body len got, b =>
    let got := got ++ [b]
    if got.length < len then some (.more (.body len got)) else some (.done got)

theorem feed_header (limit : Nat) (got : List UInt8) (b : UInt8) : feed limit (.header got) b =
    if (got ++ [b]).length < 4 then some (.more (.header (got ++ [b])))
    else if limit < (fromBeBytes (got ++ [b])).toNat then none
    else if (fromBeBytes (got ++ [b])).toNat = 0 then some (.done [])
    else some (.more (.body (fromBeBytes (got ++ [b])).toNat [])) := rfl

theorem feed_body (limit len : Nat) (got : List UInt8) (b : UInt8) : feed limit (.body len got) b =
    if (got ++ [b]).length < len then some (.more (.body len (got ++ [b]))) else some (.done (got ++ [b])) := rfl

namespace Reading

/-- The bytes of the frame so far. -/
def bytes : Reading → List UInt8
  | .header got => got
  | .body len got => toBeBytes (UInt32.ofNat len) ++ got

def Valid (limit : Nat) : Reading → Prop
  | .header got => got.length < 4
  | .body len got => got.length < len ∧ len ≤ limit

end Reading

theorem Reading.Valid.unfinished {limit : Nat} (hlimit : limit < 2 ^ 32) {r : Reading} (hr : r.Valid limit)
    {body : List UInt8} (hlen : body.length ≤ limit) : r.bytes ≠ frame body := by
  intro h
  cases r with
  | header got =>
    change got.length < 4 at hr
    have hsame := congrArg List.length h
    simp only [Reading.bytes, frame, toBeBytes, List.length_append, List.length_cons, List.length_nil] at hsame
    omega
  | body len got =>
    obtain ⟨hgot, hle⟩ := hr
    obtain ⟨hhead, htail⟩ := List.append_inj (show toBeBytes _ ++ got = toBeBytes _ ++ body from h) rfl
    have hsame : len = body.length := toBeBytes_ofNat_inj (by omega) (by omega) hhead
    rw [htail, hsame] at hgot
    exact lt_irrefl _ hgot

/-- A byte of a frame brings the reader further into it, or to its end. -/
theorem feed_frame {limit : Nat} (hlimit : limit < 2 ^ 32) {r : Reading} (hr : r.Valid limit)
    {body more tail : List UInt8} {b : UInt8} (hlen : body.length ≤ limit)
    (h : r.bytes ++ b :: tail = frame body ++ more) :
    (∃ r', feed limit r b = some (.more r') ∧ r'.Valid limit ∧ r'.bytes ++ tail = frame body ++ more) ∨
      feed limit r b = some (.done body) ∧ tail = more := by
  have hcons : ∀ got : List UInt8, got ++ b :: tail = (got ++ [b]) ++ tail := by simp
  cases r with
  | header got =>
    change got.length < 4 at hr
    change got ++ b :: tail = _ at h
    rw [hcons] at h
    rw [feed_header]
    by_cases hshort : (got ++ [b]).length < 4
    · rw [if_pos hshort]
      exact Or.inl ⟨_, rfl, hshort, h⟩
    rw [if_neg hshort]
    have h4 : (got ++ [b]).length = (toBeBytes (UInt32.ofNat body.length)).length := by
      change _ = 4
      simp only [List.length_append, List.length_singleton] at hshort ⊢
      omega
    unfold frame at h
    rw [List.append_assoc (toBeBytes _)] at h
    obtain ⟨hgot, htail⟩ := List.append_inj h h4
    have hvalue : (fromBeBytes (got ++ [b])).toNat = body.length := by
      rw [hgot, fromBeBytes_toBeBytes, UInt32.toNat_ofNat']
      omega
    simp only [hvalue, if_neg (not_lt.mpr hlen)]
    by_cases hzero : body.length = 0
    · have hnil : body = [] := List.length_eq_zero_iff.mp hzero
      subst hnil
      exact Or.inr ⟨rfl, htail⟩
    · rw [if_neg hzero]
      refine Or.inl ⟨_, rfl, ⟨Nat.pos_of_ne_zero hzero, hlen⟩, ?_⟩
      simp [Reading.bytes, frame, htail]
  | body len got =>
    obtain ⟨hgot, hle⟩ := hr
    change (toBeBytes (UInt32.ofNat len) ++ got) ++ b :: tail = (toBeBytes (UInt32.ofNat body.length) ++ body) ++ more at h
    rw [List.append_assoc, List.append_assoc, hcons] at h
    obtain ⟨hhead, htail⟩ := List.append_inj h rfl
    have hsame : len = body.length := toBeBytes_ofNat_inj (by omega) (by omega) hhead
    subst hsame
    rw [feed_body]
    by_cases hshort : (got ++ [b]).length < body.length
    · rw [if_pos hshort]
      refine Or.inl ⟨_, rfl, ⟨hshort, hle⟩, ?_⟩
      simp only [Reading.bytes, frame, List.append_assoc]
      rw [← htail, List.append_assoc]
    · rw [if_neg hshort]
      have hfull : (got ++ [b]).length = body.length := by
        simp only [List.length_append, List.length_singleton] at hshort ⊢
        omega
      obtain ⟨hbody, htail⟩ := List.append_inj htail hfull
      exact Or.inr ⟨by rw [hbody], htail⟩

end Framing

/-! ## Lossy queues -/

namespace Lossy

/-- What a receiver has yet to take, the oldest first, and how much it has missed. -/
structure Queue (α : Type) where
  values : List α
  missed : Nat

inductive Received (α : Type) where
  | empty
  | lagged (n : Nat)
  | value (a : α)

namespace Queue

variable {α : Type}

def new : Queue α := { values := [], missed := 0 }

def send (capacity : Nat) (q : Queue α) (a : α) : Queue α :=
  if q.values.length < capacity then { q with values := q.values ++ [a] }
  else { values := q.values.tail ++ [a], missed := q.missed + 1 }

/-- A receiver that has missed values learns how many before it takes the next. -/
def recv (q : Queue α) : Received α × Queue α :=
  if q.missed ≠ 0 then (.lagged q.missed, { q with missed := 0 })
  else
    match q.values with
    | [] => (.empty, q)
    | a :: values => (.value a, { q with values })

theorem send_kept {capacity : Nat} {q : Queue α} (h : q.values.length < capacity) (a : α) :
    q.send capacity a = { q with values := q.values ++ [a] } := if_pos h

theorem send_sublist (capacity : Nat) (q : Queue α) (a : α) :
    ((q.send capacity a).values).Sublist (q.values ++ [a]) := by
  unfold send
  split
  · exact List.Sublist.refl _
  · exact (List.tail_sublist _).append (List.Sublist.refl _)

theorem recv_cases (q : Queue α) :
    q.recv = (.empty, q) ∨ (∃ n, q.recv = (.lagged n, { q with missed := 0 }) ∧ q.missed = n ∧ n ≠ 0) ∨
      ∃ a values, q.values = a :: values ∧ q.missed = 0 ∧ q.recv = (.value a, { values, missed := 0 }) := by
  unfold recv
  by_cases hm : q.missed = 0
  · cases hv : q.values with
    | nil => simp [hm]
    | cons a values => simp [hm]
  · simp [hm]

end Queue

end Lossy
