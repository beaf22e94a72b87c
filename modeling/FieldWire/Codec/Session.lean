import FieldWire.Codec.Metrics
import FieldWire.Codec.Signing

/-!
# Counted calls

A `Call` is one use of a codec. Performing it yields an answer or an error and moves the counters:
every encoding is counted once with its outcome, encodings for signatures also as such before
anything else happens, and every decoding once, except that a text which is not hexadecimal never
reaches the decoder.
-/

namespace FieldWire

/-- One use of a codec. -/
inductive Call where
  /-- Encode a plain object. -/
  | encode (j : Json) (onlySigning : Bool)
  /-- Encode a plain object as hexadecimal text. -/
  | encodeHex (j : Json) (onlySigning : Bool)
  /-- Decode bytes. -/
  | decode (bytes : List UInt8)
  /-- Decode bytes given as hexadecimal text. -/
  | decodeHex (text : String)
  /-- Encode for a single signature. -/
  | encodeForSigning (j : Json)
  /-- Encode for one of several signatures. -/
  | encodeForMultisigning (j : Json) (signer : String)
  /-- Encode a claim for its signature. -/
  | encodeForSigningClaim (j : Json)

/-- What a call yields. -/
inductive Answer where
  /-- Bytes. -/
  | bytes (bytes : List UInt8)
  /-- Bytes as hexadecimal text. -/
  | hex (text : String)
  /-- A plain object. -/
  | plain (j : Json)

/-- A step that moves the counters. -/
abbrev Counted := StateM Metrics

namespace Codec

/-- Counts the outcome of an encoding. -/
def recordEncode (result : Except Error (List UInt8)) : Counted (Except Error (List UInt8)) := do
  modify (Metrics.encodeFinished (result.toOption.map List.length))
  return result

/-- Encodes and counts. -/
def countedEncode (codec : Codec) (j : Json) (onlySigning : Bool) :
    Counted (Except Error (List UInt8)) :=
  recordEncode (codec.encode j onlySigning)

/-- Counts an encoding for a signature, and its outcome. -/
def countedSigning (result : Except Error (List UInt8)) :
    Counted (Except Error (List UInt8)) := do
  modify Metrics.signingEncode
  recordEncode result

/-- Decodes and counts. -/
def countedDecode (codec : Codec) (bytes : List UInt8) : Counted (Except Error Json) := do
  let result := codec.decode bytes
  modify (Metrics.decodeFinished bytes.length result.isOk)
  return result

/-- Performs a call and moves the counters. -/
def perform (codec : Codec) : Call → Counted (Except Error Answer)
  | .encode j onlySigning => do
    return (← codec.countedEncode j onlySigning).map .bytes
  | .encodeHex j onlySigning => do
    return (← codec.countedEncode j onlySigning).map fun bytes => .hex (Hex.encode bytes)
  | .decode bytes => do
    return (← codec.countedDecode bytes).map .plain
  | .decodeHex text =>
    match Hex.decode text with
    | .error fault => return .error (.invalidHex fault)
    | .ok bytes => do
      return (← codec.countedDecode bytes).map .plain
  | .encodeForSigning j => do
    return (← countedSigning (codec.signingData j)).map .bytes
  | .encodeForMultisigning j signer => do
    return (← countedSigning (codec.multisigningData j signer)).map .bytes
  | .encodeForSigningClaim j => do
    return (← countedSigning (codec.claimData j)).map .bytes

/-- Performs calls in order, with the counters after each. -/
def performAll (codec : Codec) : List Call → Metrics → List (Except Error Answer × Metrics)
  | [], _ => []
  | call :: rest, metrics =>
    let (answer, metrics) := (codec.perform call).run metrics
    (answer, metrics) :: performAll codec rest metrics

end Codec

end FieldWire
