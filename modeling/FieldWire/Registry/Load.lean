import FieldWire.Json.Parser
import FieldWire.Registry.Basic
import FieldWire.Registry.Schema

/-!
# From a schema to a registry

Fields are taken in the order of the schema. A field whose type is not a supported kind is passed
over; any other must have a code for its type, a number that fits its header when the field is
written and two bytes otherwise, a new name, and, when it is written, a new header. At the end the
two fields for the end markers must be there and have the markers as their headers. The first fault
ends the work.
-/

namespace FieldWire.Registry

/-- The types whose code fits a header. -/
def headerCodes (types : Members Int) : Members Nat :=
  types.filterMap fun (name, code) =>
    if 1 ≤ code ∧ code ≤ 255 then some (name, code.toNat) else none

/-- The field that a schema describes; none when its type is not supported. -/
def resolve (codes : Members Nat) (entry : SchemaField) : Except RegistryFault (Option Field) :=
  match Kind.ofName? entry.type with
  | none => .ok none
  | some kind =>
    match Members.get? codes entry.type with
    | none => .error (.noTypeCode entry.name entry.type)
    | some code =>
      if entry.serialized ∧ ¬(1 ≤ entry.nth ∧ entry.nth ≤ 255) then
        .error (.serializedRange entry.name entry.nth)
      else if ¬(0 ≤ entry.nth ∧ entry.nth ≤ 65535) then .error (.nthRange entry.name entry.nth)
      else .ok (some { name := entry.name
                       kind := kind
                       header := ⟨code, entry.nth.toNat⟩
                       variableLength := entry.variableLength
                       serialized := entry.serialized
                       signing := entry.signing })

/-- A field behind those already taken (last one first), if its name and header are new. -/
def addField (taken : List Field) (f : Field) : Except RegistryFault (List Field) :=
  if taken.any fun g => g.name = f.name then .error (.duplicateName f.name)
  else
    match taken.find? fun g => f.serialized && g.serialized && g.header = f.header with
    | some previous => .error (.sharedHeader previous.name f.name f.header)
    | none => .ok (f :: taken)

/-- The fields of a schema behind those already taken (last one first). -/
def loadFields (codes : Members Nat) : (taken : List Field) → List SchemaField →
    Except RegistryFault (List Field)
  | taken, [] => .ok taken.reverse
  | taken, entry :: rest =>
    match resolve codes entry with
    | .error fault => .error fault
    | .ok none => loadFields codes taken rest
    | .ok (some f) =>
      match addField taken f with
      | .error fault => .error fault
      | .ok taken => loadFields codes taken rest

/-- Whether the field for an end marker has the marker as its header. -/
def checkMarker (fields : List Field) (name : String) (byte : UInt8) : Except RegistryFault Unit :=
  match fields.find? fun f => f.name = name with
  | none => .error (.missingMarker name)
  | some f => if f.header.bytes = [byte] then .ok () else .error (.markerByte name byte)

/-- The registry of a schema. -/
def load (schema : Schema) : Except RegistryFault Registry := do
  let codes := headerCodes schema.types
  let fields ← loadFields codes [] schema.fields
  checkMarker fields objectEndName objectEnd
  checkMarker fields arrayEndName arrayEnd
  return { fields := fields
           typeCodes := codes
           transactionTypes := ⟨schema.transactionTypes⟩
           transactionResults := ⟨schema.transactionResults⟩
           ledgerEntryTypes := ⟨schema.ledgerEntryTypes⟩ }

/-- The registry of a schema document. -/
def ofDocument (document : Json) : Except Error Registry :=
  match Schema.ofJson? document with
  | none => .error (.registry .invalidDocument)
  | some schema => (load schema).mapError .registry

/-- The registry of the text of a schema document. Members that a schema does not know may hold
anything that has the form of a value. -/
def ofText (text : String) : Except Error Registry :=
  match Json.parseLenient? text with
  | none => .error (.registry .invalidDocument)
  | some document => ofDocument document

/-- The registry of a schema file. -/
def ofFile (files : Files) (path : String) : Except Error Registry :=
  match files.read path with
  | .error fault => .error (.registry (.unreadableFile path fault))
  | .ok text => ofText text

end FieldWire.Registry
