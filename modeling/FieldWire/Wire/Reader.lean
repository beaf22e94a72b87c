import FieldWire.Registry.Basic
import FieldWire.Value.Basic
import FieldWire.Wire.LengthPrefix

/-!
# Reading values

A field is read by its header, which the registry resolves, and its value by its kind, within its
length where it has one. An object inside another one, or in an array, ends with the marker of
objects, and the object that fills a byte string also with the last byte. Objects and arrays inside
each other are counted, and too many are refused.

Every field and every element takes at least one byte for its header. The readers of their lists
recurse on a number above the count of bytes left, which is therefore never used up.
-/

namespace FieldWire

/-- Takes a header. A code below sixteen has its half of the first byte and no byte of its own. -/
def Header.read : Reader Header := do
  let first ← Reader.byte
  let high := first.toNat / 16
  let low := first.toNat % 16
  let typeCode ← if high = 0 then do
      let code ← Reader.byte
      if code.toNat < 16 then throw (.invalidHeader .shortTypeCode)
      pure code.toNat
    else pure high
  let fieldCode ← if low = 0 then do
      let code ← Reader.byte
      if code.toNat < 16 then throw (.invalidHeader .shortFieldCode)
      pure code.toNat
    else pure low
  return ⟨typeCode, fieldCode⟩

/-- Takes a header and finds its field. -/
def Registry.readField (registry : Registry) : Reader Field := do
  let header ← Header.read
  Reader.lift (registry.fieldByHeader header)

namespace Value

/-- Takes hashes, `count` of them, behind those already taken (last one first). -/
def readHashes : (count : Nat) → (taken : List (Octets 32)) → Reader (List (Octets 32))
  | 0, taken => pure taken.reverse
  | count + 1, taken => do
    let hash ← Reader.octets 32
    readHashes count (hash :: taken)

/-- Takes the hashes that fill a length. -/
def readVector : (length : Option Nat) → Reader (List (Octets 32))
  | none => throw (.ofKind .vector256 .unprefixedVector)
  | some n =>
    if n % 32 = 0 then readHashes (n / 32) []
    else throw (.ofKind .vector256 (.raggedVector n))

/-- Takes the bytes that fill a length. -/
def readBlob : (length : Option Nat) → Reader (List UInt8)
  | none => throw (.ofKind .blob .unprefixedBlob)
  | some n => Reader.take n

/-- Takes a word of `width` bytes that fills its length. -/
def readWord (kind : Kind) (width : Nat) (length : Option Nat) : Reader Nat := do
  Reader.checkWidth kind length width
  Reader.number width

/-- Takes `width` bytes that fill their length. -/
def readOctets (kind : Kind) (width : Nat) (length : Option Nat) : Reader (Octets width) := do
  Reader.checkWidth kind length width
  Reader.octets width

/-- Takes a value of a kind, given how to take an object and an array. -/
def readWith (objects : Reader Object) (arrays : Reader (List Element)) (kind : Kind)
    (length : Option Nat) : Reader Value :=
  match kind with
  | .uint8 => do return uint8 (UInt8.ofNat (← readWord .uint8 1 length))
  | .uint16 => do return uint16 (UInt16.ofNat (← readWord .uint16 2 length))
  | .uint32 => do return uint32 (UInt32.ofNat (← readWord .uint32 4 length))
  | .uint64 => do return uint64 (UInt64.ofNat (← readWord .uint64 8 length))
  | .hash128 => do return hash128 (← readOctets .hash128 16 length)
  | .hash160 => do return hash160 (← readOctets .hash160 20 length)
  | .hash256 => do return hash256 (← readOctets .hash256 32 length)
  | .account => do return account (← readOctets .account 20 length)
  | .blob => do return blob (← readBlob length)
  | .amount => do return amount (← Amount.read length)
  | .currency => do return currency (← Currency.read length)
  | .issue => do return issue (← Issue.read length)
  | .vector256 => do return vector256 (← readVector length)
  | .pathSet => do return pathSet (← PathSet.read)
  | .object => do return object (← objects)
  | .array => do return array (← arrays)

/-- Takes the value of a field within its length, given how to take a value. -/
def readOfFieldWith (value : Kind → Option Nat → Reader Value) (f : Field) : Reader Value :=
  if f.variableLength then do
    let length ← LengthPrefix.read
    Reader.need length
    let start := (← get).position
    let v ← value f.kind (some length)
    let used := (← get).position - start
    if used = length then return v
    else throw (.typeMismatch f.name (.kind f.kind) (.lengthMismatch used length))
  else value f.kind none

variable (registry : Registry) (limit : Nat)

mutual
/-- Takes the fields of an object behind those already taken (last one first). An `inner` object
needs its end marker. -/
def readFields : (fuel : Nat) → (inner : Bool) → (taken : Object) → Reader Object
  | 0, _, _ => throw (.bufferUnderrun 1 0)
  | fuel + 1, inner, taken => do
    if !inner && (← get).rest.isEmpty then return taken.reverse
    else
      let f ← registry.readField
      if f.name = objectEndName then return taken.reverse
      else if f.name = arrayEndName then throw (.invalidHeader .strayArrayEnd)
      else
        let v ← readOfFieldWith
          (readWith (Reader.nested limit (readFields fuel true []))
            (Reader.nested limit (readElements fuel []))) f
        readFields fuel inner ((f, v) :: taken)

/-- Takes the elements of an array and its end marker, behind those already taken (last one
first). -/
def readElements : (fuel : Nat) → (taken : List Element) → Reader (List Element)
  | 0, _ => throw (.bufferUnderrun 1 0)
  | fuel + 1, taken => do
    let f ← registry.readField
    if f.name = arrayEndName then return taken.reverse
    else if f.isElement then
      let fields ← Reader.nested limit (readFields fuel true [])
      readElements fuel ((f, fields) :: taken)
    else throw (.typeMismatch f.name (.kind .array) .elementKind)
end

/-- Takes a value of a kind. -/
def read (kind : Kind) (length : Option Nat) : Reader Value := do
  let fuel := (← get).remaining + 1
  readWith (Reader.nested limit (readFields registry limit fuel true []))
    (Reader.nested limit (readElements registry limit fuel [])) kind length

/-- Takes the value of a field. -/
def readOfField (f : Field) : Reader Value := readOfFieldWith (read registry limit) f

end Value

/-- Takes the object that fills a byte string. -/
def Object.readRoot (registry : Registry) (limit : Nat) : Reader Object := do
  let fuel := (← get).remaining + 1
  Value.readFields registry limit fuel false []

/-- The object that a byte string holds. -/
def Object.ofBytes (registry : Registry) (limit : Nat) (bytes : List UInt8) :
    Except Error Object :=
  match Object.readRoot registry limit (Cursor.start bytes) with
  | .ok fields _ => .ok fields
  | .error e _ => .error e

end FieldWire
