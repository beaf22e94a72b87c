import FieldWire.Error

/-!
# Plain values of fixed width

Byte strings of a fixed width are plain texts of twice as many hexadecimal digits. The length is
checked before the digits.
-/

namespace FieldWire

/-- The text of a plain value. -/
def expectText (kind : Kind) : Json → Except Error String
  | .str text => .ok text
  | j => .error (.ofKind kind (.notText j))

/-- The `n` bytes that a text of `2 * n` hexadecimal digits denotes. -/
def Octets.ofHex (kind : Kind) (n : Nat) (text : String) : Except Error (Octets n) :=
  let length := (utf8Bytes text).length
  if length = 2 * n then
    match Hex.decode text with
    | .error fault => .error (.invalidHex fault)
    | .ok bytes =>
      if h : bytes.length = n then .ok ⟨bytes, h⟩
      else .error (.ofKind kind (.hexLength (2 * n) length))
  else .error (.ofKind kind (.hexLength (2 * n) length))

/-- The hexadecimal text of a byte string. -/
def Octets.toHex {n : Nat} (bytes : Octets n) : String := Hex.encode bytes.toList

/-- A written byte string reads back. -/
@[simp] theorem Octets.ofHex_toHex (kind : Kind) {n : Nat} (bytes : Octets n) :
    ofHex kind n bytes.toHex = .ok bytes := by
  simp [ofHex, toHex, Hex.length_utf8Bytes_encode]

end FieldWire
