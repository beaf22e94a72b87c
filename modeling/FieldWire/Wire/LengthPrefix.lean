import FieldWire.Wire.Cursor

/-!
# Lengths before values

The length of a value of variable size is written in one, two or three bytes. One byte holds lengths
up to 192; first bytes from 193 to 240 start two bytes for the next 12288 lengths, and first bytes
from 241 start three bytes for the rest, of which writing uses those up to 918744.
-/

namespace FieldWire.LengthPrefix

/-- The greatest length in one byte. -/
def maxSingle : Nat := 192

/-- The greatest length in two bytes. -/
def maxDouble : Nat := 12480

/-- The greatest length that is written. -/
def maxLength : Nat := 918744

/-- The bytes of a length. -/
def bytes (n : Nat) : Except Error (List UInt8) :=
  if n ≤ maxSingle then .ok [UInt8.ofNat n]
  else if n ≤ maxDouble then
    let rest := n - 193
    .ok [UInt8.ofNat (193 + rest / 256), UInt8.ofNat (rest % 256)]
  else if n ≤ maxLength then
    let rest := n - 12481
    .ok [UInt8.ofNat (241 + rest / 65536), UInt8.ofNat (rest / 256 % 256),
      UInt8.ofNat (rest % 256)]
  else .error (.lengthOverflow n)

/-- Takes a length. -/
def read : Reader Nat := do
  let first ← Reader.byte
  let n := first.toNat
  if n ≤ 192 then return n
  else if n ≤ 240 then
    let second ← Reader.byte
    return 193 + (n - 193) * 256 + second.toNat
  else if n ≤ 254 then
    let second ← Reader.byte
    let third ← Reader.byte
    return 12481 + (n - 241) * 65536 + second.toNat * 256 + third.toNat
  else throw (.invalidLengthPrefix first)

end FieldWire.LengthPrefix
