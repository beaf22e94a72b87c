/-!
# Counters

Seven counters say how often a codec was used and with what outcome. They are words of 64 bits and
start again at zero when they overflow.
-/

namespace FieldWire

/-- Counts of encodings and decodings. -/
structure Metrics where
  /-- Encodings, those for signatures included. -/
  encodesTotal : UInt64
  /-- Encodings that failed. -/
  encodesFailed : UInt64
  /-- Bytes of successful encodings. -/
  bytesEncoded : UInt64
  /-- Encodings for signatures. -/
  signingEncodes : UInt64
  /-- Decodings. -/
  decodesTotal : UInt64
  /-- Decodings that failed. -/
  decodesFailed : UInt64
  /-- Bytes of successfully decoded inputs. -/
  bytesDecoded : UInt64
deriving DecidableEq, Repr

namespace Metrics

/-- All counters at zero. -/
def zero : Metrics := ⟨0, 0, 0, 0, 0, 0, 0⟩

/-- Counts an encoding, with the length of its output if it succeeded. -/
def encodeFinished (output : Option Nat) (m : Metrics) : Metrics :=
  match output with
  | some length =>
    { m with
      encodesTotal := m.encodesTotal + 1
      bytesEncoded := m.bytesEncoded + UInt64.ofNat length }
  | none =>
    { m with
      encodesTotal := m.encodesTotal + 1
      encodesFailed := m.encodesFailed + 1 }

/-- Counts an encoding for a signature, whatever becomes of it. -/
def signingEncode (m : Metrics) : Metrics := { m with signingEncodes := m.signingEncodes + 1 }

/-- Counts a decoding, with the length of its input. -/
def decodeFinished (input : Nat) (succeeded : Bool) (m : Metrics) : Metrics :=
  if succeeded then
    { m with
      decodesTotal := m.decodesTotal + 1
      bytesDecoded := m.bytesDecoded + UInt64.ofNat input }
  else
    { m with
      decodesTotal := m.decodesTotal + 1
      decodesFailed := m.decodesFailed + 1 }

/-- The counters in order. -/
def toList (m : Metrics) : List UInt64 :=
  [m.encodesTotal, m.encodesFailed, m.bytesEncoded, m.signingEncodes, m.decodesTotal,
    m.decodesFailed, m.bytesDecoded]

/-- How far each counter has moved since an earlier time. -/
def since (m earlier : Metrics) : List UInt64 :=
  List.zipWith (· - ·) m.toList earlier.toList

end Metrics

end FieldWire
