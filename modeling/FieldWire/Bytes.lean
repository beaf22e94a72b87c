/-!
# Byte strings

Three views of a byte string that the wire format is built from:

* `Octets n`, a string of exactly `n` bytes;
* `BigEndian`, numbers in base 256 with the most significant digit first, where `ofNat` keeps the
  low digits (`toNat_ofNat`) and every string of a width is the digits of its number
  (`ofNat_toNat`);
* `utf8Bytes`, the bytes of a text, which is what lengths and positions in a text count.
-/

namespace FieldWire

/-- A string of exactly `n` bytes. -/
structure Octets (n : Nat) where
  /-- The bytes, first to last. -/
  toList : List UInt8
  /-- There are `n` of them. -/
  length_toList : toList.length = n
deriving DecidableEq

namespace Octets

attribute [simp] length_toList

/-- The bytes as a string of length `n`, if there are that many. -/
def ofList? (n : Nat) (bytes : List UInt8) : Option (Octets n) :=
  if h : bytes.length = n then some ⟨bytes, h⟩ else none

/-- The string of `n` zero bytes. -/
def zero (n : Nat) : Octets n := ⟨List.replicate n 0, List.length_replicate⟩

@[ext] theorem ext {n : Nat} {a b : Octets n} (h : a.toList = b.toList) : a = b := by
  cases a; cases b; cases h; rfl

@[simp] theorem ofList?_toList {n : Nat} (a : Octets n) : ofList? n a.toList = some a := by
  simp [ofList?]

end Octets

/-! ### Big-endian numbers -/

namespace BigEndian

/-- The number that the bytes denote, most significant byte first. -/
def toNat (bytes : List UInt8) : Nat :=
  bytes.foldl (fun n b => n * 256 + b.toNat) 0

/-- The `width` lowest base-256 digits of a number, most significant first. -/
def ofNat : (width : Nat) → Nat → List UInt8
  | 0, _ => []
  | width + 1, n => ofNat width (n / 256) ++ [UInt8.ofNat n]

@[simp] theorem length_ofNat (width n : Nat) : (ofNat width n).length = width := by
  induction width generalizing n with
  | zero => rfl
  | succ width ih => simp [ofNat, ih]

@[simp] theorem toNat_nil : toNat [] = 0 := rfl

theorem toNat_concat (bytes : List UInt8) (b : UInt8) :
    toNat (bytes ++ [b]) = toNat bytes * 256 + b.toNat := by
  simp [toNat]

/-- Writing keeps the number modulo `256 ^ width`. -/
theorem toNat_ofNat (width n : Nat) : toNat (ofNat width n) = n % Nat.pow 256 width := by
  induction width generalizing n with
  | zero => exact (Nat.mod_one n).symm
  | succ width ih =>
    have step : Nat.pow 256 (width + 1) = 256 * Nat.pow 256 width := Nat.mul_comm _ _
    rw [ofNat, toNat_concat, ih, step, Nat.mod_mul, UInt8.toNat_ofNat']
    omega

theorem ofNat_toNat_of_length {width : Nat} {bytes : List UInt8} (h : bytes.length = width) :
    ofNat width (toNat bytes) = bytes := by
  induction width generalizing bytes with
  | zero => simp_all [ofNat]
  | succ width ih =>
    obtain ⟨front, b, rfl⟩ : ∃ front b, bytes = front ++ [b] :=
      ⟨bytes.dropLast, bytes.getLast (by intro e; simp [e] at h),
        (List.dropLast_concat_getLast _).symm⟩
    have hb : b.toNat < 256 := b.toNat_lt
    rw [toNat_concat, ofNat]
    have hq : (toNat front * 256 + b.toNat) / 256 = toNat front := by omega
    rw [hq, ih (by simpa using h)]
    congr 1
    simp

/-- Every byte string is the digits of the number it denotes. -/
theorem ofNat_toNat (bytes : List UInt8) : ofNat bytes.length (toNat bytes) = bytes :=
  ofNat_toNat_of_length rfl

theorem toNat_lt (bytes : List UInt8) : toNat bytes < Nat.pow 256 bytes.length := by
  have h := toNat_ofNat bytes.length (toNat bytes)
  rw [ofNat_toNat] at h
  rw [h]
  exact Nat.mod_lt _ (Nat.pow_pos (by decide : 0 < 256))

end BigEndian

/-! ### Texts as bytes -/

/-- The UTF-8 bytes of a text. -/
def utf8Bytes (text : String) : List UInt8 :=
  text.toList.flatMap String.utf8EncodeChar

end FieldWire
