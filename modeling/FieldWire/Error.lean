import FieldWire.Config.Fault
import FieldWire.Field.Header
import FieldWire.Registry.Fault
import FieldWire.Value.Fault

/-!
# Errors

Every operation that can fail says why with an `Error`. An error is a cause with what it is about;
its wording is in `Error.message` alone. A fault of a value is reported first without the field that
holds the value, and gets the field on the way out (`Error.inField`); errors of every other sort say
enough already and pass unchanged.
-/

namespace FieldWire

/-- Why a path set is refused. -/
inductive PathSetFault where
  /-- A plain path set is no list. -/
  | notList
  /-- There is no path. -/
  | empty
  /-- A plain path is no list. -/
  | pathNotList
  /-- A path has no step. -/
  | emptyPath
  /-- The bytes end before the path set does. -/
  | unterminated
deriving DecidableEq, Repr

/-- The fault in words. -/
def PathSetFault.message : PathSetFault → String
  | notList => "path set must be a list of paths"
  | empty => "path set must contain at least one path"
  | pathNotList => "path must be a list of path steps"
  | emptyPath => "path must contain at least one step"
  | unterminated => "path set ended without a terminator byte"

/-- Why a step of a path is refused. -/
inductive PathStepFault where
  /-- A plain step is no object. -/
  | notObject
  /-- A step has no member. -/
  | empty
  /-- A tag has bits that announce no member. -/
  | unknownBits (tag : UInt8)
  /-- The bytes end before the announced members do. -/
  | truncated (tag : UInt8)
deriving DecidableEq, Repr

/-- The fault in words. -/
def PathStepFault.message : PathStepFault → String
  | notObject => "path step must be an object"
  | empty => "path step needs at least one of account, currency, issuer"
  | unknownBits tag => s!"unknown type bits in tag {Text.hexByte tag}"
  | truncated tag => s!"step with tag {Text.hexByte tag} is truncated"

/-- Why an operation fails. -/
inductive Error where
  /-- The bytes end too early. -/
  | bufferUnderrun (needed remaining : Nat)
  /-- A byte starts no length. -/
  | invalidLengthPrefix (byte : UInt8)
  /-- A length has no written form. -/
  | lengthOverflow (length : Nat)
  /-- Bytes are no header in their place. -/
  | invalidHeader (fault : HeaderFault)
  /-- No field has the name. -/
  | unknownName (name : String)
  /-- No written field has the header. -/
  | unknownHeader (header : Header)
  /-- The value of a field is refused. -/
  | typeMismatch (field : String) (expected : Subject) (fault : ValueFault)
  /-- A value is refused. -/
  | invalidValue (subject : Subject) (fault : ValueFault)
  /-- A path set is refused. -/
  | malformedPathSet (fault : PathSetFault)
  /-- A step of a path is refused. -/
  | malformedPathStep (fault : PathStepFault)
  /-- An address carries a tag and another one is given beside it. -/
  | mismatchedTag (field tagField : String) (expanded : UInt32) (explicit : Json)
  /-- An address in a field without a tag carries one. -/
  | unexpectedTag (field : String)
  /-- A value has no name, or a name no value, in the table of a field. -/
  | unsupportedEnum (field value : String)
  /-- A required key is missing. -/
  | missingField (name : String)
  /-- Objects and arrays nest too deeply. -/
  | nestingTooDeep (limit : Nat)
  /-- An input is too large. -/
  | oversizedInput (size limit : Nat)
  /-- A text is not hexadecimal. -/
  | invalidHex (fault : Hex.Fault)
  /-- A schema is refused or a type is unknown. -/
  | registry (fault : RegistryFault)
  /-- A configuration is refused. -/
  | config (fault : ConfigFault)

namespace Error

/-- A fault of a value of a kind. -/
def ofKind (k : Kind) (fault : ValueFault) : Error := invalidValue (.kind k) fault

/-- Puts the field into the fault of a value. -/
def inField (field : String) : Error → Error
  | invalidValue subject fault => typeMismatch field subject fault
  | e => e

/-- Why a text is not hexadecimal, in words. -/
def hexMessage : Hex.Fault → String
  | .oddLength => "Odd number of digits"
  | .badByte byte index => s!"Invalid character {Text.quotedByte byte} at position {index}"

/-- The error in words. -/
def message : Error → String
  | bufferUnderrun needed remaining =>
    s!"Buffer underrun: needed {needed} bytes, {remaining} remaining"
  | invalidLengthPrefix byte => s!"Invalid length prefix byte: {Text.hexByte byte}"
  | lengthOverflow length => s!"Length {length} exceeds the maximum encodable length"
  | invalidHeader fault => s!"Invalid field header: {fault.message}"
  | unknownName name => s!"Unknown field: {name}"
  | unknownHeader header =>
    s!"Unknown field: type_code={header.typeCode} field_code={header.fieldCode}"
  | typeMismatch field expected fault =>
    s!"Type mismatch for field {field}: expected {expected.name} ({fault.message})"
  | invalidValue subject fault => s!"Invalid {subject.name} value: {fault.message}"
  | malformedPathSet fault => s!"Malformed path set: {fault.message}"
  | malformedPathStep fault => s!"Malformed path step: {fault.message}"
  | mismatchedTag field tagField expanded explicit =>
    s!"Mismatched address tag: {field} carries {tagField}={expanded} but " ++
      s!"{tagField}={explicit.compact} was also given"
  | unexpectedTag field => s!"Field {field} cannot carry an address tag"
  | unsupportedEnum field value => s!"Unsupported value for enum field {field}: {value}"
  | missingField name => s!"Missing required field: {name}"
  | nestingTooDeep limit => s!"Nesting depth exceeds limit of {limit}"
  | oversizedInput size limit => s!"Input too large: {size} bytes (limit {limit})"
  | invalidHex fault => s!"Invalid hex: {hexMessage fault}"
  | registry fault => s!"Registry error: {fault.message}"
  | config fault => s!"Configuration error: {fault.message}"

end Error

/-- Puts the field into the fault of a value, if that is why there is no result. -/
def withField {α : Type} (field : String) (result : Except Error α) : Except Error α :=
  result.mapError (Error.inField field)

end FieldWire
