import FieldWire.Value.Basic
import FieldWire.Wire.LengthPrefix

/-!
# Writing values

A `Writer` appends bytes to a buffer or fails; what it appended before a failure stays. A field is
its header, the length of its value where it has one, and its value; for the length the value is
written to a buffer of its own first. A field that holds an object is closed by the marker of
objects, and so is every element of an array; an array is closed by its own marker.
-/

namespace FieldWire

/-- A step that appends bytes or fails. -/
abbrev Writer := EStateM Error (Array UInt8)

namespace Writer

/-- Appends bytes. -/
def append (bytes : List UInt8) : Writer Unit := fun buffer => .ok () (buffer ++ bytes)

/-- Appends the bytes of a value that may have none. -/
def appendOf : Except Error (List UInt8) → Writer Unit
  | .ok bytes => append bytes
  | .error e => fun buffer => .error e buffer

/-- Runs a writer on a buffer of its own. -/
def apart (writer : Writer Unit) : Writer (Array UInt8) := fun buffer =>
  match writer #[] with
  | .ok _ inner => .ok inner buffer
  | .error e _ => .error e buffer

/-- Appends the bytes that a writer appends, behind their length. -/
def withLength (writer : Writer Unit) : Writer Unit := do
  let inner ← apart writer
  appendOf (LengthPrefix.bytes inner.size)
  append inner.toList

/-- The bytes that a writer appends. -/
def run (writer : Writer Unit) : Except Error (List UInt8) :=
  match writer #[] with
  | .ok _ buffer => .ok buffer.toList
  | .error e _ => .error e

/-- Appends a field, given how to append its value. -/
def fieldWith (f : Field) (value : Writer Unit) : Writer Unit := do
  append f.header.bytes
  if f.variableLength then withLength value else value

end Writer

namespace Value

mutual
/-- Appends a value. -/
def write : Value → Writer Unit
  | .uint8 n => Writer.append (BigEndian.ofNat 1 n.toNat)
  | .uint16 n => Writer.append (BigEndian.ofNat 2 n.toNat)
  | .uint32 n => Writer.append (BigEndian.ofNat 4 n.toNat)
  | .uint64 n => Writer.append (BigEndian.ofNat 8 n.toNat)
  | .hash128 hash => Writer.append hash.toList
  | .hash160 hash => Writer.append hash.toList
  | .hash256 hash => Writer.append hash.toList
  | .account id => Writer.append id.toList
  | .blob bytes => Writer.append bytes
  | .amount a => Writer.append a.bytes
  | .currency c => Writer.append c.bytes.toList
  | .issue i => Writer.append i.bytes
  | .vector256 hashes => Writer.append (hashes.flatMap Octets.toList)
  | .pathSet paths => Writer.appendOf (PathSet.bytes paths)
  | .object fields => writeFields fields
  | .array elements => writeElements elements

/-- Appends fields with their values, and the end marker behind every object. -/
def writeFields : List (Field × Value) → Writer Unit
  | [] => pure ()
  | (f, v) :: rest => do
    Writer.fieldWith f (write v)
    if f.isObject then Writer.append [objectEnd]
    writeFields rest

/-- Appends elements and the end marker of the array. -/
def writeElements : List (Field × List (Field × Value)) → Writer Unit
  | [] => Writer.append [arrayEnd]
  | (f, fields) :: rest => do
    Writer.append f.header.bytes
    writeFields fields
    Writer.append [objectEnd]
    writeElements rest
end

/-- Appends a field with its value. -/
def writeInField (f : Field) (v : Value) : Writer Unit := Writer.fieldWith f v.write

/-- The bytes of a value. -/
def toBytes (v : Value) : Except Error (List UInt8) := Writer.run v.write

end Value

/-- The bytes of an object, without an end marker. -/
def Object.toBytes (fields : Object) : Except Error (List UInt8) :=
  Writer.run (Value.writeFields fields)

end FieldWire
