import Sapphire.Maps

/-!
# Serialization into documents

The documents that `serde_json` writes, as trees, and what derived
implementations make of structs, options, maps and enums. Two facts compose
along a type: what is written is read back (`Sound`), and what can be written
(`Serializes`). Only the second can fail, at a map key that is no text.
-/

namespace Serde

variable {α β K V ε : Type}

/-- No type here has signed or floating numbers. -/
inductive Json where
  | null
  | bool (b : Bool)
  | number (n : UInt64)
  | string (s : String)
  | array (items : List Json)
  | object (entries : List (String × Json))

inductive Error where
  | keyMustBeAString
  | invalidType (expected : String)
  | invalidValue (expected : String)
  | invalidLength (expected : String)
  | missingField (name : String)
  | duplicateField (name : String)
  | unknownVariant (name : String)
  | custom (msg : String)
deriving DecidableEq, Repr

/-- `Serialize` and `Deserialize` of a type. `missing` is what a struct reads a
missing field as. -/
structure Codec (α : Type) where
  serialize : α → Except Error Json
  deserialize : Json → Except Error α
  missing : Option α := none

namespace Codec

/-- What is written is read back. -/
def Sound (c : Codec α) : Prop := ∀ a j, c.serialize a = .ok j → c.deserialize j = .ok a

def Serializes (c : Codec α) (a : α) : Prop := ∃ j, c.serialize a = .ok j

structure Lawful (c : Codec α) : Prop where
  sound : c.Sound
  total : ∀ a, c.Serializes a

def RoundTrips (c : Codec α) (a : α) : Prop := ∃ j, c.serialize a = .ok j ∧ c.deserialize j = .ok a

theorem Sound.roundTrips_iff {c : Codec α} (h : c.Sound) (a : α) : c.RoundTrips a ↔ c.Serializes a := by
  constructor
  · intro htrip
    obtain ⟨j, hj, _⟩ := htrip
    exact ⟨j, hj⟩
  · intro hwritten
    obtain ⟨j, hj⟩ := hwritten
    exact ⟨j, hj, h a j hj⟩

end Codec

/-! ## Sequences of results -/

theorem bind_ok {x : Except ε α} {f : α → Except ε β} {b : β} :
    (x >>= f) = .ok b ↔ ∃ a, x = .ok a ∧ f a = .ok b := by
  cases x <;> simp [bind, Except.bind]

theorem bind_of_ok {x : Except ε α} {f : α → Except ε β} {a : α} (h : x = .ok a) : (x >>= f) = f a := by
  rw [h]
  rfl

theorem bind_error {x : Except ε α} {f : α → Except ε β} {e : ε} (h : x = .error e) : (x >>= f) = .error e := by
  rw [h]
  rfl

theorem mapM_ok {f : α → Except ε β} {l : List α} {out : List β} :
    l.mapM f = .ok out ↔ List.Forall₂ (fun a b => f a = .ok b) l out := by
  induction l generalizing out with
  | nil =>
    rw [List.mapM_nil, List.forall₂_nil_left_iff]
    exact ⟨fun h => (Except.ok.inj h).symm, fun h => by rw [h]; rfl⟩
  | cons a l ih =>
    rw [List.mapM_cons, List.forall₂_cons_left_iff]
    simp only [bind_ok, ih]
    constructor
    · intro h
      obtain ⟨b, hb, bs, hbs, heq⟩ := h
      exact ⟨b, bs, hb, hbs, (Except.ok.inj heq).symm⟩
    · intro h
      obtain ⟨b, bs, hb, hbs, heq⟩ := h
      exact ⟨b, hb, bs, hbs, by rw [heq]; rfl⟩

theorem exists_mapM_ok {f : α → Except ε β} {l : List α} : (∃ out, l.mapM f = .ok out) ↔ ∀ a ∈ l, ∃ b, f a = .ok b := by
  induction l with
  | nil => simp [pure, Except.pure]
  | cons a l ih =>
    rw [List.forall_mem_cons, ← ih, List.mapM_cons]
    simp only [bind_ok]
    constructor
    · intro h
      obtain ⟨_, b, hb, bs, hbs, _⟩ := h
      exact ⟨⟨b, hb⟩, bs, hbs⟩
    · intro h
      obtain ⟨⟨b, hb⟩, bs, hbs⟩ := h
      exact ⟨_, b, hb, bs, hbs, rfl⟩

theorem mapM_error {f : α → Except ε β} {e : ε} {l : List α} (hl : l ≠ []) (h : ∀ a ∈ l, f a = .error e) :
    l.mapM f = .error e := by
  obtain ⟨a, l', rfl⟩ := List.exists_cons_of_ne_nil hl
  rw [List.mapM_cons]
  exact bind_error (h a List.mem_cons_self)

/-- What is written one by one is read back one by one. -/
theorem mapM_inverse {f : α → Except ε β} {g : β → Except ε α} (h : ∀ a b, f a = .ok b → g b = .ok a) {l : List α}
    {out : List β} (hout : l.mapM f = .ok out) : out.mapM g = .ok l := by
  rw [mapM_ok] at hout ⊢
  apply List.Forall₂.flip
  exact hout.imp h

/-! ## Scalars and sequences -/

namespace Codec

def string : Codec String where
  serialize s := .ok (.string s)
  deserialize
    | .string s => .ok s
    | _ => .error (.invalidType "a string")

/-- An unsigned integer of a width. -/
def uint (bits : Nat) (expected : String) (widen : α → UInt64) (narrow : UInt64 → α) : Codec α where
  serialize n := .ok (.number (widen n))
  deserialize
    | .number n => if n.toNat < 2 ^ bits then .ok (narrow n) else .error (.invalidValue expected)
    | _ => .error (.invalidType expected)

def uint8 : Codec UInt8 := uint 8 "u8" UInt8.toUInt64 UInt64.toUInt8

def uint16 : Codec UInt16 := uint 16 "u16" UInt16.toUInt64 UInt64.toUInt16

def vec (c : Codec α) : Codec (List α) where
  serialize l := do return .array (← l.mapM c.serialize)
  deserialize
    | .array items => items.mapM c.deserialize
    | _ => .error (.invalidType "a sequence")

/-- A `BTreeSet`, the keys of a map to `()`. -/
def set [LinearOrder K] (c : Codec K) : Codec (Finset K) where
  serialize s := do return .array (← (BTreeMap.tabulate s fun _ => ()).keys.mapM c.serialize)
  deserialize
    | .array items => do return (← items.mapM c.deserialize).toFinset
    | _ => .error (.invalidType "a sequence")

theorem length_toArray {n : Nat} {l : List α} (h : l.length = n) : l.toArray.size = n := List.size_toArray.trans h

/-- `[T; n]`. -/
def array (c : Codec α) (n : Nat) : Codec (Vector α n) where
  serialize v := do return .array (← v.toList.mapM c.serialize)
  deserialize
    | .array items => do
      let l ← items.mapM c.deserialize
      if h : l.length = n then .ok ⟨l.toArray, length_toArray h⟩ else .error (.invalidLength "an array")
    | _ => .error (.invalidType "an array")

def option (c : Codec α) : Codec (Option α) where
  serialize
    | none => .ok .null
    | some a => c.serialize a
  deserialize
    | .null => .ok none
    | j => some <$> c.deserialize j
  missing := some none

def pair (a : Codec α) (b : Codec β) : Codec (α × β) where
  serialize p := do return .array [← a.serialize p.1, ← b.serialize p.2]
  deserialize
    | .array [j, j'] => do return (← a.deserialize j, ← b.deserialize j')
    | .array _ => .error (.invalidLength "a tuple of size 2")
    | _ => .error (.invalidType "a tuple of size 2")

/-- A newtype struct, or a type read through another. -/
def newtype (c : Codec β) (inner : α → β) (mk : β → α) : Codec α where
  serialize a := c.serialize (inner a)
  deserialize j := mk <$> c.deserialize j

theorem string_lawful : string.Lawful where
  sound := by
    intro s j h
    cases h; rfl
  total := fun s => ⟨.string s, rfl⟩

theorem uint_lawful {bits : Nat} {expected : String} {widen : α → UInt64} {narrow : UInt64 → α}
    (hlt : ∀ n, (widen n).toNat < 2 ^ bits) (hnarrow : ∀ n, narrow (widen n) = n) :
    (uint bits expected widen narrow).Lawful where
  sound := by
    intro n j h
    cases h
    simp only [uint, if_pos (hlt n), hnarrow]
  total := fun n => ⟨.number (widen n), rfl⟩

theorem uint8_lawful : uint8.Lawful := by
  apply uint_lawful _ UInt8.toUInt8_toUInt64
  intro n
  rw [UInt8.toNat_toUInt64]
  exact n.toNat_lt

theorem uint16_lawful : uint16.Lawful := by
  apply uint_lawful _ UInt16.toUInt16_toUInt64
  intro n
  rw [UInt16.toNat_toUInt64]
  exact n.toNat_lt

variable {c : Codec α}

theorem vec_serializes {l : List α} : c.vec.Serializes l ↔ ∀ a ∈ l, c.Serializes a := by
  unfold Serializes
  rw [← exists_mapM_ok]
  constructor
  · intro h
    obtain ⟨j, hj⟩ := h
    obtain ⟨items, hitems, _⟩ := bind_ok.mp hj
    exact ⟨items, hitems⟩
  · intro h
    obtain ⟨items, hitems⟩ := h
    exact ⟨.array items, bind_ok.mpr ⟨items, hitems, rfl⟩⟩

theorem Sound.vec (h : c.Sound) : c.vec.Sound := by
  intro l j hj
  obtain ⟨items, hitems, heq⟩ := bind_ok.mp hj
  cases heq
  exact mapM_inverse h hitems

theorem Lawful.vec (h : c.Lawful) : c.vec.Lawful where
  sound := h.sound.vec
  total := fun _ => vec_serializes.mpr fun a _ => h.total a

theorem Lawful.set [LinearOrder K] {c : Codec K} (h : c.Lawful) : c.set.Lawful where
  sound := by
    intro s j hj
    obtain ⟨items, hitems, heq⟩ := bind_ok.mp hj
    cases heq
    apply bind_ok.mpr
    exact ⟨_, mapM_inverse h.sound hitems, congrArg Except.ok (BTreeMap.dom_tabulate s _)⟩
  total := by
    intro s
    obtain ⟨items, hitems⟩ := exists_mapM_ok.mpr fun a (_ : a ∈ (BTreeMap.tabulate s fun _ => ()).keys) => h.total a
    exact ⟨.array items, bind_ok.mpr ⟨items, hitems, rfl⟩⟩

theorem Lawful.array (h : c.Lawful) (n : Nat) : (c.array n).Lawful where
  sound := by
    intro v j hj
    obtain ⟨items, hitems, heq⟩ := bind_ok.mp hj
    cases heq
    apply bind_ok.mpr
    refine ⟨_, mapM_inverse h.sound hitems, ?_⟩
    rw [dif_pos (by simp)]
    congr 1
  total := by
    intro v
    obtain ⟨items, hitems⟩ := exists_mapM_ok.mpr fun a (_ : a ∈ v.toList) => h.total a
    exact ⟨.array items, bind_ok.mpr ⟨items, hitems, rfl⟩⟩

theorem option_serializes {o : Option α} : c.option.Serializes o ↔ ∀ a, o = some a → c.Serializes a := by
  cases o with
  | none => exact iff_of_true ⟨.null, rfl⟩ (fun a h => by cases h)
  | some a => exact ⟨fun h _ heq => Option.some.inj heq ▸ h, fun h => h a rfl⟩

/-- Of a type that is never written as `null`. -/
theorem Sound.option (h : c.Sound) (hnull : ∀ a, c.serialize a ≠ .ok .null) : c.option.Sound := by
  intro o j hj
  cases o with
  | none => cases hj; rfl
  | some a =>
    have hread := h a j hj
    cases j with
    | null => exact absurd hj (hnull a)
    | _ => exact congrArg (some <$> ·) hread

theorem Sound.newtype {c : Codec β} (h : c.Sound) {inner : α → β} {mk : β → α} (hmk : ∀ a, mk (inner a) = a) :
    (c.newtype inner mk).Sound := by
  intro a j hj
  change mk <$> c.deserialize j = .ok a
  rw [h _ j hj]
  exact congrArg Except.ok (hmk a)

theorem Lawful.newtype {c : Codec β} (h : c.Lawful) {inner : α → β} {mk : β → α} (hmk : ∀ a, mk (inner a) = a) :
    (c.newtype inner mk).Lawful := ⟨h.sound.newtype hmk, fun a => h.total (inner a)⟩

theorem Sound.pair {b : Codec β} (h : c.Sound) (h' : b.Sound) : (c.pair b).Sound := by
  intro p j hj
  obtain ⟨j₁, hj₁, hj⟩ := bind_ok.mp hj
  obtain ⟨j₂, hj₂, heq⟩ := bind_ok.mp hj
  cases heq
  apply bind_ok.mpr
  refine ⟨p.1, h _ _ hj₁, bind_ok.mpr ⟨p.2, h' _ _ hj₂, rfl⟩⟩

theorem Lawful.pair {b : Codec β} (h : c.Lawful) (h' : b.Lawful) : (c.pair b).Lawful where
  sound := h.sound.pair h'.sound
  total := by
    intro p
    obtain ⟨j₁, hj₁⟩ := h.total p.1
    obtain ⟨j₂, hj₂⟩ := h'.total p.2
    exact ⟨_, bind_ok.mpr ⟨j₁, hj₁, bind_ok.mpr ⟨j₂, hj₂, rfl⟩⟩⟩

end Codec

/-! ## Maps -/

/-- `serde_json` takes strings, numbers and booleans as keys of an object. -/
def Json.keyText : Json → Except Error String
  | .string s => .ok s
  | .number n => .ok (toString n.toNat)
  | .bool b => .ok (toString b)
  | _ => .error .keyMustBeAString

namespace Codec

def writeEntry (key : Codec K) (value : Codec V) (entry : K × V) : Except Error (String × Json) := do
  let text ← (← key.serialize entry.1).keyText
  return (text, ← value.serialize entry.2)

def readEntry (key : Codec K) (value : Codec V) (entry : String × Json) : Except Error (K × V) := do
  return (← key.deserialize (.string entry.1), ← value.deserialize entry.2)

/-- A `BTreeMap`. Of two entries under one key the later is kept. -/
def map [LinearOrder K] (key : Codec K) (value : Codec V) : Codec (BTreeMap K V) where
  serialize m := do return .object (← m.toList.mapM (writeEntry key value))
  deserialize
    | .object entries => do return Std.ExtTreeMap.ofList (← entries.mapM (readEntry key value))
    | _ => .error (.invalidType "a map")

/-- A key is written as text. -/
def WritesKey (key : Codec K) (k : K) : Prop := ∃ j, key.serialize k = .ok j ∧ ∃ text, j.keyText = .ok text

/-- What is written as a key is read back from it. -/
def SoundKey (key : Codec K) : Prop :=
  ∀ k j text, key.serialize k = .ok j → j.keyText = .ok text → key.deserialize (.string text) = .ok k

theorem SoundKey.of_string {key : Codec K} (h : key.Sound) (hstring : ∀ k, ∃ s, key.serialize k = .ok (.string s)) :
    key.SoundKey := by
  intro k j text hj htext
  obtain ⟨s, hs⟩ := hstring k
  cases hs.symm.trans hj
  cases htext
  exact h k _ hj

theorem WritesKey.of_string {key : Codec K} (hstring : ∀ k, ∃ s, key.serialize k = .ok (.string s)) (k : K) :
    key.WritesKey k := by
  obtain ⟨s, hs⟩ := hstring k
  exact ⟨.string s, hs, s, rfl⟩

theorem not_writesKey_pair (a : Codec α) (b : Codec β) (p : α × β) : ¬ (a.pair b).WritesKey p := by
  intro h
  obtain ⟨j, hj, text, htext⟩ := h
  obtain ⟨j₁, _, hj⟩ := bind_ok.mp hj
  obtain ⟨j₂, _, heq⟩ := bind_ok.mp hj
  cases heq
  cases htext

variable {key : Codec K} {value : Codec V}

theorem writeEntry_ok {entry : K × V} {out : String × Json} : writeEntry key value entry = .ok out ↔
    ∃ j, key.serialize entry.1 = .ok j ∧ j.keyText = .ok out.1 ∧ value.serialize entry.2 = .ok out.2 := by
  unfold writeEntry
  simp only [bind_ok]
  constructor
  · intro h
    obtain ⟨j, hj, text, htext, v, hv, heq⟩ := h
    cases heq
    exact ⟨j, hj, htext, hv⟩
  · intro h
    obtain ⟨j, hj, htext, hv⟩ := h
    exact ⟨j, hj, out.1, htext, out.2, hv, rfl⟩

theorem map_serializes [LinearOrder K] {m : BTreeMap K V} : (map key value).Serializes m ↔
    ∀ (k : K) v, m[k]? = some v → key.WritesKey k ∧ value.Serializes v := by
  have hentries : (map key value).Serializes m ↔ ∀ entry ∈ m.toList, ∃ out, writeEntry key value entry = .ok out := by
    rw [← exists_mapM_ok]
    constructor
    · intro h
      obtain ⟨j, hj⟩ := h
      obtain ⟨entries, hentries, _⟩ := bind_ok.mp hj
      exact ⟨entries, hentries⟩
    · intro h
      obtain ⟨entries, hentries⟩ := h
      exact ⟨.object entries, bind_ok.mpr ⟨entries, hentries, rfl⟩⟩
  rw [hentries]
  constructor
  · intro h k v hk
    obtain ⟨out, hout⟩ := h (k, v) (Std.ExtTreeMap.mem_toList_iff_getElem?_eq_some.mpr hk)
    obtain ⟨j, hj, htext, hv⟩ := writeEntry_ok.mp hout
    exact ⟨⟨j, hj, out.1, htext⟩, out.2, hv⟩
  · intro h entry hentry
    obtain ⟨⟨j, hj, text, htext⟩, v, hv⟩ := h entry.1 entry.2 (Std.ExtTreeMap.mem_toList_iff_getElem?_eq_some.mp hentry)
    exact ⟨(text, v), writeEntry_ok.mpr ⟨j, hj, htext, hv⟩⟩

/-- A map whose keys are never text can be written when it is empty only. -/
theorem map_serializes_iff_empty [LinearOrder K] (hkey : ∀ k, ¬ key.WritesKey k) {m : BTreeMap K V} :
    (map key value).Serializes m ↔ m = ∅ := by
  rw [map_serializes]
  constructor
  · intro h
    apply BTreeMap.eq_of_getElem?_iff
    intro k v
    simp only [Std.ExtTreeMap.getElem?_empty, reduceCtorEq, iff_false]
    intro hk
    exact hkey k (h k v hk).1
  · intro h k v hk
    simp [h] at hk

/-- Otherwise it fails at its first key. -/
theorem map_serialize_error [LinearOrder K] {e : Error}
    (hkey : ∀ k, ∃ j, key.serialize k = .ok j ∧ j.keyText = .error e)
    {m : BTreeMap K V} (hm : m ≠ ∅) : (map key value).serialize m = .error e := by
  have hne : m.toList ≠ [] := by
    intro hnil
    apply hm
    apply BTreeMap.eq_of_getElem?_iff
    intro k v
    rw [← Std.ExtTreeMap.mem_toList_iff_getElem?_eq_some, hnil]
    simp
  apply bind_error
  apply mapM_error hne
  intro entry _
  obtain ⟨j, hj, hjkey⟩ := hkey entry.1
  exact (bind_of_ok hj).trans (bind_error hjkey)

theorem Sound.map [LinearOrder K] (hkey : key.SoundKey) (hvalue : value.Sound) : (map key value).Sound := by
  intro m j hj
  obtain ⟨entries, hentries, heq⟩ := bind_ok.mp hj
  cases heq
  have hread : ∀ entry out, writeEntry key value entry = .ok out → readEntry key value out = .ok entry := by
    intro entry out hout
    obtain ⟨j, hj, htext, hv⟩ := writeEntry_ok.mp hout
    unfold readEntry
    rw [hkey _ _ _ hj htext, hvalue _ _ hv]
    rfl
  apply bind_ok.mpr
  refine ⟨m.toList, mapM_inverse hread hentries, congrArg Except.ok ?_⟩
  apply BTreeMap.eq_of_getElem?_iff
  intro k v
  rw [BTreeMap.getElem?_ofList m.nodup_toList_keys, Std.ExtTreeMap.mem_toList_iff_getElem?_eq_some]

theorem Lawful.map [LinearOrder K] (hkey : key.Sound) (hstring : ∀ k, ∃ s, key.serialize k = .ok (.string s))
    (hvalue : value.Lawful) :
    (Codec.map key value).Lawful where
  sound := .map (.of_string hkey hstring) hvalue.sound
  total := fun _ => map_serializes.mpr fun k v _ => ⟨.of_string hstring k, hvalue.total v⟩

end Codec

/-! ## Structs and enums -/

def fieldsNamed (name : String) (entries : List (String × Json)) : List Json :=
  (entries.filter fun entry => entry.1 = name).map Prod.snd

/-- The fields of a struct, in order. -/
structure Record (α : Type) where
  names : List String
  serialize : α → Except Error (List (String × Json))
  visitMap : List (String × Json) → Except Error α
  visitSeq : List Json → Except Error α

namespace Record

def nil : Record Unit where
  names := []
  serialize _ := .ok []
  visitMap _ := .ok ()
  visitSeq
    | [] => .ok ()
    | _ => .error (.invalidLength "trailing elements")

def readField (name : String) (c : Codec α) (entries : List (String × Json)) : Except Error α :=
  match fieldsNamed name entries with
  | [] => (c.missing).elim (.error (.missingField name)) .ok
  | [j] => c.deserialize j
  | _ => .error (.duplicateField name)

def field (name : String) (c : Codec α) (rest : Record β) : Record (α × β) where
  names := name :: rest.names
  serialize a := do
    let j ← c.serialize a.1
    return (name, j) :: (← rest.serialize a.2)
  visitMap entries := do return (← readField name c entries, ← rest.visitMap entries)
  visitSeq
    | [] => .error (.invalidLength name)
    | j :: items => do return (← c.deserialize j, ← rest.visitSeq items)

def Serializes (r : Record α) (a : α) : Prop := ∃ entries, r.serialize a = .ok entries

/-- From a list that has the fields written, and of these names no others. -/
structure Sound (r : Record α) : Prop where
  names : ∀ a entries, r.serialize a = .ok entries → entries.map Prod.fst = r.names
  reads : ∀ a entries, r.serialize a = .ok entries → ∀ all,
    (∀ name ∈ r.names, fieldsNamed name all = fieldsNamed name entries) →
    r.visitMap all = .ok a

theorem nil_sound : nil.Sound where
  names := by
    intro _ entries h
    cases h; rfl
  reads := fun _ _ _ _ _ => rfl

theorem nil_serializes : nil.Serializes () := ⟨[], rfl⟩

variable {name : String} {c : Codec α} {r : Record β}

@[simp] theorem nil_names : nil.names = [] := rfl

@[simp] theorem field_names : (field name c r).names = name :: r.names := rfl

theorem field_ok {a : α × β} {entries : List (String × Json)} : (field name c r).serialize a = .ok entries ↔
    ∃ j rest, c.serialize a.1 = .ok j ∧ r.serialize a.2 = .ok rest ∧ entries = (name, j) :: rest := by
  constructor
  · intro h
    obtain ⟨j, hj, h⟩ := bind_ok.mp h
    obtain ⟨rest, hrest, heq⟩ := bind_ok.mp h
    exact ⟨j, rest, hj, hrest, (Except.ok.inj heq).symm⟩
  · intro h
    obtain ⟨j, rest, hj, hrest, heq⟩ := h
    exact bind_ok.mpr ⟨j, hj, bind_ok.mpr ⟨rest, hrest, by rw [heq]; rfl⟩⟩

theorem field_serializes {a : α × β} : (field name c r).Serializes a ↔ c.Serializes a.1 ∧ r.Serializes a.2 := by
  constructor
  · intro h
    obtain ⟨entries, hentries⟩ := h
    obtain ⟨j, rest, hj, hrest, _⟩ := field_ok.mp hentries
    exact ⟨⟨j, hj⟩, rest, hrest⟩
  · intro h
    obtain ⟨⟨j, hj⟩, rest, hrest⟩ := h
    exact ⟨_, field_ok.mpr ⟨j, rest, hj, hrest, rfl⟩⟩

theorem field_error {a : α × β} {e : Error} (h : c.serialize a.1 = .error e) :
    (field name c r).serialize a = .error e :=
  bind_error h

theorem field_error_later {a : α × β} {e : Error} (h : c.Serializes a.1) (hr : r.serialize a.2 = .error e) :
    (field name c r).serialize a = .error e := by
  obtain ⟨j, hj⟩ := h
  exact (bind_of_ok hj).trans (bind_error hr)

theorem fieldsNamed_self {j : Json} {rest : List (String × Json)} (h : name ∉ rest.map Prod.fst) :
    fieldsNamed name ((name, j) :: rest) = [j] := by
  have hnone : rest.filter (fun entry => entry.1 = name) = [] := by
    apply List.filter_eq_nil_iff.mpr
    intro entry hentry heq
    exact h (List.mem_map.mpr ⟨entry, hentry, of_decide_eq_true heq⟩)
  simp [fieldsNamed, hnone]

theorem fieldsNamed_of_ne {name' : String} {j : Json} {rest : List (String × Json)} (h : name ≠ name') :
    fieldsNamed name' ((name, j) :: rest) = fieldsNamed name' rest := by
  simp [fieldsNamed, h]

theorem Sound.field (h : c.Sound) (hr : r.Sound) (hname : name ∉ r.names) : (field name c r).Sound where
  names := by
    intro a entries hentries
    obtain ⟨j, rest, _, hrest, rfl⟩ := field_ok.mp hentries
    rw [List.map_cons, hr.names _ _ hrest]
    rfl
  reads := by
    intro a entries hentries all hall
    obtain ⟨j, rest, hj, hrest, rfl⟩ := field_ok.mp hentries
    have hnew : name ∉ rest.map Prod.fst := by
      rw [hr.names _ _ hrest]; exact hname
    have hself : readField name c all = .ok a.1 := by
      unfold readField
      rw [hall name List.mem_cons_self, fieldsNamed_self hnew]
      exact h _ _ hj
    have hlater : r.visitMap all = .ok a.2 := by
      apply hr.reads _ _ hrest
      intro name' hmem
      rw [hall name' (List.mem_cons_of_mem _ hmem)]
      apply fieldsNamed_of_ne
      intro heq
      exact hname (heq ▸ hmem)
    exact bind_ok.mpr ⟨a.1, hself, bind_ok.mpr ⟨a.2, hlater, rfl⟩⟩

/-- Every value can be written, under the names of the fields, and is read back. -/
structure Lawful (r : Record α) : Prop where
  sound : r.Sound
  total : ∀ a, r.Serializes a

theorem nil_lawful : nil.Lawful := ⟨nil_sound, fun _ => nil_serializes⟩

theorem Lawful.field (h : c.Lawful) (hr : r.Lawful) (hname : name ∉ r.names) : (field name c r).Lawful where
  sound := .field h.sound hr.sound hname
  total := fun a => field_serializes.mpr ⟨h.total a.1, hr.total a.2⟩

end Record

namespace Codec

def struct (r : Record β) (fields : α → β) (mk : β → α) : Codec α where
  serialize a := do return .object (← r.serialize (fields a))
  deserialize
    | .object entries => mk <$> r.visitMap entries
    | .array items => mk <$> r.visitSeq items
    | _ => .error (.invalidType "a struct")

/-- An enum of struct variants, each an object of one entry: its name and its content. -/
def enum (variant : α → String) (content : α → Except Error Json)
    (read : String → Json → Except Error α) : Codec α where
  serialize a := do return .object [(variant a, ← content a)]
  deserialize
    | .object [(name, j)] => read name j
    | .string name => read name .null
    | _ => .error (.invalidType "an enum")

variable {r : Record β} {fields : α → β} {mk : β → α}

theorem struct_serializes {a : α} : (struct r fields mk).Serializes a ↔ r.Serializes (fields a) := by
  constructor
  · intro h
    obtain ⟨j, hj⟩ := h
    obtain ⟨entries, hentries, _⟩ := bind_ok.mp hj
    exact ⟨entries, hentries⟩
  · intro h
    obtain ⟨entries, hentries⟩ := h
    exact ⟨.object entries, bind_ok.mpr ⟨entries, hentries, rfl⟩⟩

theorem struct_error {a : α} {e : Error} (h : r.serialize (fields a) = .error e) :
    (struct r fields mk).serialize a = .error e := bind_error h

theorem struct_ne_null (a : α) : (struct r fields mk).serialize a ≠ .ok .null := by
  intro h
  obtain ⟨entries, _, heq⟩ := bind_ok.mp h
  cases heq

theorem Sound.struct (h : r.Sound) (hmk : ∀ a, mk (fields a) = a) : (struct r fields mk).Sound := by
  intro a j hj
  obtain ⟨entries, hentries, heq⟩ := bind_ok.mp hj
  cases heq
  change mk <$> r.visitMap entries = .ok a
  rw [h.reads _ _ hentries entries fun _ _ => rfl]
  exact congrArg Except.ok (hmk a)

theorem Lawful.struct (h : r.Lawful) (hmk : ∀ a, mk (fields a) = a) : (Codec.struct r fields mk).Lawful where
  sound := .struct h.sound hmk
  total := fun a => struct_serializes.mpr (h.total (fields a))

variable {variant : α → String} {content : α → Except Error Json} {read : String → Json → Except Error α}

theorem enum_serializes {a : α} : (enum variant content read).Serializes a ↔ ∃ j, content a = .ok j := by
  constructor
  · intro h
    obtain ⟨j, hj⟩ := h
    obtain ⟨inner, hinner, _⟩ := bind_ok.mp hj
    exact ⟨inner, hinner⟩
  · intro h
    obtain ⟨inner, hinner⟩ := h
    exact ⟨_, bind_ok.mpr ⟨inner, hinner, rfl⟩⟩

theorem Sound.enum (h : ∀ a j, content a = .ok j → read (variant a) j = .ok a) : (enum variant content read).Sound := by
  intro a j hj
  obtain ⟨inner, hinner, heq⟩ := bind_ok.mp hj
  cases heq
  exact h a inner hinner

/-! ### Structs of two and of three fields -/

section

variable {γ : Type} (name₁ name₂ name₃ : String) (c₁ : Codec α) (c₂ : Codec β) (c₃ : Codec γ)

def fields₂ : Codec (α × β) :=
  .struct (.field name₁ c₁ <| .field name₂ c₂ .nil) (fun (a, b) => (a, b, ())) (fun (a, b, _) => (a, b))

def fields₃ : Codec (α × β × γ) :=
  .struct (.field name₁ c₁ <| .field name₂ c₂ <| .field name₃ c₃ .nil) (fun (a, b, d) => (a, b, d, ()))
    (fun (a, b, d, _) => (a, b, d))

variable {name₁ name₂ name₃ c₁ c₂ c₃}

theorem Lawful.fields₂ (h₁ : c₁.Lawful) (h₂ : c₂.Lawful) (hne : name₁ ≠ name₂) :
    (Codec.fields₂ name₁ name₂ c₁ c₂).Lawful := by
  apply Lawful.struct _ fun _ => rfl
  apply Record.Lawful.field h₁ _ (by simpa using hne)
  exact .field h₂ Record.nil_lawful (by simp)

theorem Lawful.fields₃ (h₁ : c₁.Lawful) (h₂ : c₂.Lawful) (h₃ : c₃.Lawful)
    (hnodup : [name₁, name₂, name₃].Nodup) : (Codec.fields₃ name₁ name₂ name₃ c₁ c₂ c₃).Lawful := by
  obtain ⟨hfirst, hrest⟩ := List.nodup_cons.mp hnodup
  apply Lawful.struct _ fun _ => rfl
  apply Record.Lawful.field h₁ _ (by simpa using hfirst)
  apply Record.Lawful.field h₂ _ (by simpa using (List.nodup_cons.mp hrest).1)
  exact .field h₃ Record.nil_lawful (by simp)

end

end Codec

end Serde
