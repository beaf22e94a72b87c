import FieldWire.Bytes

/-!
# Hexadecimal text

Bytes are written as two uppercase digits each (`Hex.encode`) and read from digits of either case
(`Hex.decode`). Reading counts in UTF-8 bytes: a text of odd length is refused as a whole, and
otherwise the first byte that is no digit is reported with its position.

Main statement: a written text reads back (`decode_encode`).
-/

namespace FieldWire.Hex

/-- Why a text is not hexadecimal. -/
inductive Fault where
  /-- The text has an odd number of bytes. -/
  | oddLength
  /-- The byte at `index` is not a digit. -/
  | badByte (byte : UInt8) (index : Nat)
deriving DecidableEq

/-- The uppercase digit of a number below sixteen. -/
def digit (n : Nat) : Char :=
  if n < 10 then Char.ofNat (48 + n) else Char.ofNat (55 + n)

/-- The value of a digit of either case. -/
def digitValue? (b : UInt8) : Option Nat :=
  let n := b.toNat
  if 48 ≤ n ∧ n ≤ 57 then some (n - 48)
  else if 65 ≤ n ∧ n ≤ 70 then some (n - 55)
  else if 97 ≤ n ∧ n ≤ 102 then some (n - 87)
  else none

/-- The two digits of a byte, high half first. -/
def encodeByte (b : UInt8) : List Char :=
  [digit (b.toNat / 16), digit (b.toNat % 16)]

/-- Bytes as uppercase hexadecimal text. -/
def encode (bytes : List UInt8) : String :=
  String.ofList (bytes.flatMap encodeByte)

/-- Reads pairs of digits, of which the first stands at `index`, onto the bytes already read (last
byte first). -/
def decodePairs : (index : Nat) → (read : List UInt8) → List UInt8 → Except Fault (List UInt8)
  | index, read, high :: low :: rest =>
    match digitValue? high with
    | none => .error (.badByte high index)
    | some h =>
      match digitValue? low with
      | none => .error (.badByte low (index + 1))
      | some l => decodePairs (index + 2) (UInt8.ofNat (16 * h + l) :: read) rest
  | _, read, _ => .ok read.reverse

/-- The bytes that a hexadecimal text denotes. -/
def decode (text : String) : Except Fault (List UInt8) :=
  let bytes := utf8Bytes text
  if bytes.length % 2 = 1 then .error .oddLength else decodePairs 0 [] bytes

/-! ### A written text reads back -/

@[simp] theorem toList_encode (bytes : List UInt8) :
    (encode bytes).toList = bytes.flatMap encodeByte := String.toList_ofList

private theorem utf8EncodeChar_digit {n : Nat} (h : n < 16) :
    ∃ b, String.utf8EncodeChar (digit n) = [b] ∧ digitValue? b = some n := by
  have all : ∀ n < 16, String.utf8EncodeChar (digit n) = [UInt8.ofNat (digit n).toNat] ∧
      digitValue? (UInt8.ofNat (digit n).toNat) = some n := by
    decide
  exact ⟨_, all n h⟩

private theorem decodePairs_digits (bytes read : List UInt8) (index : Nat) :
    decodePairs index read ((bytes.flatMap encodeByte).flatMap String.utf8EncodeChar) =
      .ok (read.reverse ++ bytes) := by
  induction bytes generalizing read index with
  | nil => simp [decodePairs]
  | cons b rest ih =>
    have hb := b.toNat_lt
    obtain ⟨high, hh, hv⟩ := utf8EncodeChar_digit (n := b.toNat / 16) (by omega)
    obtain ⟨low, hl, lv⟩ := utf8EncodeChar_digit (n := b.toNat % 16) (by omega)
    have hbyte : 16 * (b.toNat / 16) + b.toNat % 16 = b.toNat := by omega
    simp [encodeByte, hh, hl, decodePairs, hv, lv, hbyte, ih]

theorem length_utf8Bytes_encode (bytes : List UInt8) :
    (utf8Bytes (encode bytes)).length = 2 * bytes.length := by
  simp only [utf8Bytes, toList_encode]
  induction bytes with
  | nil => rfl
  | cons b rest ih =>
    have hb := b.toNat_lt
    obtain ⟨high, hh, -⟩ := utf8EncodeChar_digit (n := b.toNat / 16) (by omega)
    obtain ⟨low, hl, -⟩ := utf8EncodeChar_digit (n := b.toNat % 16) (by omega)
    simp [encodeByte, hh, hl, ih] at ih ⊢
    omega

@[simp] theorem decode_encode (bytes : List UInt8) : decode (encode bytes) = .ok bytes := by
  have h := length_utf8Bytes_encode bytes
  simp only [decode]
  rw [if_neg (by omega)]
  simpa [utf8Bytes] using decodePairs_digits bytes [] 0

end FieldWire.Hex
