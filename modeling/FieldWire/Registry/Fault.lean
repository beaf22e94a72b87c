import FieldWire.Field.Header
import FieldWire.Files
import FieldWire.Text.Quoted

/-!
# Why a registry cannot be built or asked

A schema is refused for the first fault in it, and a fault says which field or type is to blame.
-/

namespace FieldWire

/-- Why a schema is refused or a type is unknown. -/
inductive RegistryFault where
  /-- The file of the schema cannot be read. -/
  | unreadableFile (path : String) (fault : FileFault)
  /-- The document is no schema. -/
  | invalidDocument
  /-- The type of a field has no code. -/
  | noTypeCode (field type : String)
  /-- The number of a written field does not fit its header. -/
  | serializedRange (field : String) (nth : Int)
  /-- The number of a field is out of range. -/
  | nthRange (field : String) (nth : Int)
  /-- Two fields have one name. -/
  | duplicateName (field : String)
  /-- Two written fields have one header. -/
  | sharedHeader (previous field : String) (header : Header)
  /-- There is no field for an end marker. -/
  | missingMarker (field : String)
  /-- The field for an end marker has another header. -/
  | markerByte (field : String) (byte : UInt8)
  /-- A type has no code. -/
  | unknownType (type : String)

/-- A header as messages show it. -/
def Header.shown (h : Header) : String :=
  "FieldHeader \x7b type_code: " ++ toString h.typeCode ++ ", field_code: " ++
    toString h.fieldCode ++ " \x7d"

/-- The fault in words. -/
def RegistryFault.message : RegistryFault → String
  | unreadableFile path fault => s!"Failed to read definitions file {path}: {fault.message}"
  | invalidDocument => "Failed to parse definitions"
  | noTypeCode field type => s!"Field {field} has type {type} with no valid type code"
  | serializedRange field nth => s!"Serialized field {field} has out-of-range nth {nth}"
  | nthRange field nth => s!"Field {field} has out-of-range nth {nth}"
  | duplicateName field => s!"Duplicate field name {field}"
  | sharedHeader previous field header =>
    s!"Fields {previous} and {field} share header {header.shown}"
  | missingMarker field => s!"Schema lacks the {field} field"
  | markerByte field byte => s!"{field} must encode as {Text.hexByte byte}"
  | unknownType type => s!"Unknown type {type}"

end FieldWire
