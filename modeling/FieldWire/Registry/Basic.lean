import FieldWire.Error
import FieldWire.Field.Basic
import FieldWire.Registry.EnumTable

/-!
# The field registry

A registry lists the fields of a schema that have a supported kind, in the order of the schema, with
the codes of all types and the names of enumerated values. Fields are found by name, and written
fields by header.
-/

namespace FieldWire

/-- The fields, types and named values of a schema. -/
structure Registry where
  /-- The supported fields in order. -/
  fields : List Field
  /-- The types that have a code, with it. -/
  typeCodes : Members Nat
  /-- The names of transaction types. -/
  transactionTypes : EnumTable
  /-- The names of transaction results. -/
  transactionResults : EnumTable
  /-- The names of ledger entry types. -/
  ledgerEntryTypes : EnumTable
deriving DecidableEq, Repr

namespace Registry

/-- The field of a name. -/
def fieldByName (registry : Registry) (name : String) : Except Error Field :=
  match registry.fields.find? fun f => f.name = name with
  | some f => .ok f
  | none => .error (.unknownName name)

/-- The written field of a header. -/
def fieldByHeader (registry : Registry) (header : Header) : Except Error Field :=
  match registry.fields.find? fun f => f.serialized && f.header = header with
  | some f => .ok f
  | none => .error (.unknownHeader header)

/-- The code of a type. -/
def typeCode (registry : Registry) (type : String) : Except Error Nat :=
  match Members.get? registry.typeCodes type with
  | some code => .ok code
  | none => .error (.registry (.unknownType type))

/-- The named values of a field, if it has some. -/
def enumTable? (registry : Registry) (field : String) : Option EnumTable :=
  if field = "TransactionType" then some registry.transactionTypes
  else if field = "TransactionResult" then some registry.transactionResults
  else if field = "LedgerEntryType" then some registry.ledgerEntryTypes
  else none

/-! ### What a lookup finds -/

theorem name_of_fieldByName {registry : Registry} {name : String} {f : Field}
    (h : registry.fieldByName name = .ok f) : f.name = name := by
  unfold fieldByName at h
  split at h
  · next g hg =>
    cases h
    simpa using List.find?_some hg
  · cases h

theorem mem_of_fieldByName {registry : Registry} {name : String} {f : Field}
    (h : registry.fieldByName name = .ok f) : f ∈ registry.fields := by
  unfold fieldByName at h
  split at h
  · next g hg =>
    cases h
    exact List.mem_of_find?_eq_some hg
  · cases h

/-- A field found by its header is written and has that header. -/
theorem serialized_of_fieldByHeader {registry : Registry} {header : Header} {f : Field}
    (h : registry.fieldByHeader header = .ok f) : f.serialized = true ∧ f.header = header := by
  unfold fieldByHeader at h
  split at h
  · next g hg =>
    cases h
    simpa using List.find?_some hg
  · cases h

theorem mem_of_fieldByHeader {registry : Registry} {header : Header} {f : Field}
    (h : registry.fieldByHeader header = .ok f) : f ∈ registry.fields := by
  unfold fieldByHeader at h
  split at h
  · next g hg =>
    cases h
    exact List.mem_of_find?_eq_some hg
  · cases h

end Registry

end FieldWire
