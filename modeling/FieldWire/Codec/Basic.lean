import FieldWire.Plain.Object
import FieldWire.Registry.Bundled
import FieldWire.Wire.Reader
import FieldWire.Wire.Writer

/-!
# The codec

A codec encodes plain objects as bytes and decodes them. It has a registry, an address book, and two
limits for decoding: how deeply objects and arrays may nest, and how many bytes an input may have.
-/

namespace FieldWire

/-- The default limit on nesting. -/
def defaultMaxDepth : Nat := 64

/-- The default limit on the size of an input, in bytes. -/
def defaultMaxInput : Nat := 16 * 1024 * 1024

/-- An encoder and decoder for the fields of a registry. -/
structure Codec where
  /-- The fields. -/
  registry : Registry
  /-- How accounts are written. -/
  addresses : AddressBook
  /-- The limit on nesting. -/
  maxDepth : Nat
  /-- The limit on the size of an input, in bytes. -/
  maxInput : Nat

namespace Codec

/-- The codec of a registry with hexadecimal accounts and the default limits. -/
def ofRegistry (registry : Registry) : Codec :=
  ⟨registry, AddressBook.hex, defaultMaxDepth, defaultMaxInput⟩

/-- The codec of the bundled registry. -/
def default : Codec := ofRegistry Registry.bundled

/-- What the codec reads and shows plain values with. -/
def context (codec : Codec) : Context := ⟨codec.registry, codec.addresses⟩

/-- The summary of a codec. -/
def summary (codec : Codec) : String :=
  "Codec \x7b fields: " ++ toString codec.registry.fields.length ++ ", max_nesting_depth: " ++
    toString codec.maxDepth ++ ", max_input_size: " ++ toString codec.maxInput ++ ", .. \x7d"

/-- Appends a plain object; with signing fields alone at the outermost level if these are wanted. -/
def encodeInto (codec : Codec) (j : Json) (onlySigning : Bool) : Writer Unit :=
  match Object.ofJson codec.context onlySigning j with
  | .ok fields => Value.writeFields fields
  | .error e => throw e

/-- The bytes of a plain object; with signing fields alone at the outermost level if these are
wanted. -/
def encode (codec : Codec) (j : Json) (onlySigning : Bool) : Except Error (List UInt8) :=
  Writer.run (codec.encodeInto j onlySigning)

/-- The plain object of bytes. What stands behind the end marker of an object is not looked at. -/
def decode (codec : Codec) (bytes : List UInt8) : Except Error Json := do
  if codec.maxInput < bytes.length then throw (.oversizedInput bytes.length codec.maxInput)
  let fields ← Object.ofBytes codec.registry codec.maxDepth bytes
  fields.toJson codec.context

/-- The bytes of a plain object as hexadecimal text. -/
def encodeHex (codec : Codec) (j : Json) (onlySigning : Bool) : Except Error String := do
  return Hex.encode (← codec.encode j onlySigning)

/-- The plain object of bytes given as hexadecimal text. -/
def decodeHex (codec : Codec) (text : String) : Except Error Json := do
  codec.decode (← (Hex.decode text).mapError .invalidHex)

end Codec

end FieldWire
