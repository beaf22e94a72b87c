import FieldWire.Json.Record

/-!
# Schemas

A schema lists the codes of types, the fields in order, and the names of enumerated values. Its
document is a record of five members, of which the last three may be missing; each field is a list
of its name and a record of its properties.
-/

namespace FieldWire

/-- A field as a schema describes it. -/
structure SchemaField where
  /-- The name. -/
  name : String
  /-- The number among the fields of its type. -/
  nth : Int
  /-- Whether the length of the value stands before it. -/
  variableLength : Bool
  /-- Whether the field is written. -/
  serialized : Bool
  /-- Whether signatures cover the field. -/
  signing : Bool
  /-- The name of the type. -/
  type : String
deriving DecidableEq, Repr

/-- The contents of a schema document. -/
structure Schema where
  /-- The codes of types. -/
  types : Members Int
  /-- The fields in order. -/
  fields : List SchemaField
  /-- The names of transaction types. -/
  transactionTypes : Members Int
  /-- The names of transaction results. -/
  transactionResults : Members Int
  /-- The names of ledger entry types. -/
  ledgerEntryTypes : Members Int

namespace Schema

/-- An object whose members are signed words; of a repeated key the last value counts. -/
def codes? (j : Json) : Option (Members Int) := do
  let members ← j.obj?
  let codes ← members.mapM fun (name, code) => do return (name, ← code.int64?)
  return Members.merge codes

/-- Names with codes that may be missing from a document. -/
def optionalCodes? : Option Json → Option (Members Int)
  | none => some []
  | some j => codes? j

/-- The properties of a field, as a record. -/
def field? (name : String) (j : Json) : Option SchemaField := do
  match ← j.record? ["nth", "isVLEncoded", "isSerialized", "isSigningField", "type"] false with
  | [some nth, some variableLength, some serialized, some signing, some type] =>
    return { name := name
             nth := ← nth.int64?
             variableLength := ← variableLength.bool?
             serialized := ← serialized.bool?
             signing := ← signing.bool?
             type := ← type.str? }
  | _ => none

/-- A field of a document: its name and its properties. -/
def entry? : Json → Option SchemaField
  | .arr [.str name, properties] => field? name properties
  | _ => none

/-- The schema that a document holds. -/
def ofJson? (document : Json) : Option Schema := do
  match ← document.record? ["TYPES", "FIELDS", "TRANSACTION_TYPES", "TRANSACTION_RESULTS",
      "LEDGER_ENTRY_TYPES"] false with
  | [some types, some fields, transactionTypes, transactionResults, ledgerEntryTypes] =>
    return { types := ← codes? types
             fields := ← (← fields.arr?).mapM entry?
             transactionTypes := ← optionalCodes? transactionTypes
             transactionResults := ← optionalCodes? transactionResults
             ledgerEntryTypes := ← optionalCodes? ledgerEntryTypes }
  | _ => none

end Schema

end FieldWire
