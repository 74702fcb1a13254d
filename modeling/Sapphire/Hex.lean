import Sapphire.Frost

/-!
# The `hex` crate

Identifiers of requests and of escrows are shown in hex by a library. What
reading them back rests on is that it decodes what it encoded.
-/

namespace Sapphire

/-- The functions of the crate, an error as it displays. -/
structure Hex where
  encode : Bytes → String
  decode : String → Except String Bytes

def Hex.Lawful (hex : Hex) : Prop := ∀ bytes, hex.decode (hex.encode bytes) = .ok bytes

namespace Ideal

def hexDigit (n : Nat) : Char := if n < 10 then Char.ofNat (48 + n) else Char.ofNat (87 + n)

/-- Two lower-case digits a byte. -/
def hexEncode (bytes : Bytes) : String :=
  String.ofList (bytes.flatMap fun b => [hexDigit (b.toNat / 16), hexDigit (b.toNat % 16)])

def hexVal (c : UInt8) : Except String UInt8 :=
  if 65 ≤ c ∧ c ≤ 70 then .ok (c - 65 + 10)
  else if 97 ≤ c ∧ c ≤ 102 then .ok (c - 97 + 10)
  else if 48 ≤ c ∧ c ≤ 57 then .ok (c - 48)
  else .error "Invalid character"

def hexPairs : Bytes → Except String Bytes
  | high :: low :: rest => do
    let high ← hexVal high
    let low ← hexVal low
    return (high <<< 4 ||| low) :: (← hexPairs rest)
  | [] => .ok []
  | [_] => .error "Odd number of digits"

def hexDecode (s : String) : Except String Bytes := hexPairs s.toUTF8.data.toList

def hex : Hex where
  encode := hexEncode
  decode := hexDecode

/-- A digit is one byte of text, and read back as its value. -/
theorem hexDigit_read {n : Nat} (h : n < 16) :
    ∃ c, String.utf8EncodeChar (hexDigit n) = [c] ∧ hexVal c = .ok (UInt8.ofNat n) := by
  interval_cases n <;> exact ⟨_, rfl, rfl⟩

theorem nibbles (b : UInt8) : UInt8.ofNat (b.toNat / 16) <<< 4 ||| UInt8.ofNat (b.toNat % 16) = b := by
  have hb := b.toNat_lt
  have hhigh : b.toNat / 16 < UInt8.size := by simp only [UInt8.size]; omega
  have hlow : b.toNat % 16 < UInt8.size := by simp only [UInt8.size]; omega
  have hjoin : (b.toNat / 16) <<< 4 ||| b.toNat % 16 = b.toNat := by
    rw [← Nat.shiftLeft_add_eq_or_of_lt (Nat.mod_lt _ (by decide)), Nat.shiftLeft_eq]
    omega
  have hshift : (b.toNat / 16) <<< 4 < 2 ^ 8 := by
    rw [Nat.shiftLeft_eq]; omega
  apply UInt8.toNat_inj.mp
  rw [UInt8.toNat_or, UInt8.toNat_shiftLeft, UInt8.toNat_ofNat_of_lt' hhigh, UInt8.toNat_ofNat_of_lt' hlow]
  change (b.toNat / 16) <<< 4 % 2 ^ 8 ||| b.toNat % 16 = b.toNat
  rw [Nat.mod_eq_of_lt hshift, hjoin]

def hexText (bytes : Bytes) : Bytes :=
  bytes.flatMap fun b =>
    String.utf8EncodeChar (hexDigit (b.toNat / 16)) ++ String.utf8EncodeChar (hexDigit (b.toNat % 16))

theorem toUTF8_hexEncode (bytes : Bytes) : (hexEncode bytes).toUTF8.data.toList = hexText bytes := by
  unfold hexEncode hexText
  simp only [String.toUTF8, String.toByteArray_ofList, List.utf8Encode]
  simp [List.flatMap_assoc]

theorem hexText_read (bytes : Bytes) : hexPairs (hexText bytes) = .ok bytes := by
  induction bytes with
  | nil => rfl
  | cons b bytes ih =>
    have hb := b.toNat_lt
    obtain ⟨high, hhigh, hvalHigh⟩ := hexDigit_read (n := b.toNat / 16) (by omega)
    obtain ⟨low, hlow, hvalLow⟩ := hexDigit_read (n := b.toNat % 16) (by omega)
    have hcons : hexText (b :: bytes) = high :: low :: hexText bytes := by
      simp [hexText, hhigh, hlow]
    rw [hcons]
    simp only [hexPairs, hvalHigh, hvalLow, ih, nibbles, bind, Except.bind, pure, Except.pure]

theorem hex_lawful : hex.Lawful := by
  intro bytes
  change hexPairs (hexEncode bytes).toUTF8.data.toList = _
  rw [toUTF8_hexEncode, hexText_read]

end Ideal

end Sapphire
