/-!
# Field headers

A header is a pair of codes, one for the kind of the value and one for the field among those of its
kind. Headers are ordered by the first code and then the second; `Header.ordinal` is the sort key.

On the wire a code below sixteen takes half a byte of the first byte, the code of the kind the high
half, and any other code is announced by a zero half and follows in a byte of its own, the code of
the kind before that of the field. A code that exceeds a byte keeps its low byte.
-/

namespace FieldWire

/-- The codes that stand for a field on the wire. -/
@[ext] structure Header where
  /-- The code of the kind. -/
  typeCode : Nat
  /-- The code among the fields of that kind. -/
  fieldCode : Nat
deriving DecidableEq, Repr

namespace Header

/-- The sort key. -/
def ordinal (h : Header) : Nat := h.typeCode * 65536 + h.fieldCode

/-- The bytes of a header. -/
def bytes (h : Header) : List UInt8 :=
  if h.typeCode < 16 then
    if h.fieldCode < 16 then [UInt8.ofNat (16 * h.typeCode + h.fieldCode)]
    else [UInt8.ofNat (16 * h.typeCode), UInt8.ofNat h.fieldCode]
  else
    if h.fieldCode < 16 then [UInt8.ofNat h.fieldCode, UInt8.ofNat h.typeCode]
    else [0, UInt8.ofNat h.typeCode, UInt8.ofNat h.fieldCode]

/-- The number of bytes of a header. -/
def encodedLength (h : Header) : Nat :=
  match decide (h.typeCode < 16), decide (h.fieldCode < 16) with
  | true, true => 1
  | false, false => 3
  | _, _ => 2

theorem length_bytes (h : Header) : h.bytes.length = h.encodedLength := by
  by_cases t : h.typeCode < 16 <;> by_cases f : h.fieldCode < 16 <;>
    simp [bytes, encodedLength, t, f]

/-- The canonical order. -/
def le (a b : Header) : Bool :=
  a.typeCode < b.typeCode || (a.typeCode == b.typeCode && a.fieldCode ≤ b.fieldCode)

end Header

/-- Why bytes are no header of a field in its place. -/
inductive HeaderFault where
  /-- A code of a kind that would fit half a byte has a byte of its own. -/
  | shortTypeCode
  /-- A code of a field that would fit half a byte has a byte of its own. -/
  | shortFieldCode
  /-- The end of an array where no array is open. -/
  | strayArrayEnd
deriving DecidableEq, Repr

/-- The fault in words. -/
def HeaderFault.message : HeaderFault → String
  | .shortTypeCode => "escaped type code must be at least 16"
  | .shortFieldCode => "escaped field code must be at least 16"
  | .strayArrayEnd => "array end marker outside an array"

end FieldWire
