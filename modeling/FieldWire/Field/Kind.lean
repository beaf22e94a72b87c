/-!
# Kinds of values

The sixteen kinds of values that a field can hold, and their names in schemas and messages. The
names are distinct and `Kind.ofName?` recognises exactly them (`ofName?_eq_some_iff`).
-/

namespace FieldWire

/-- What a field holds. -/
inductive Kind where
  | uint8 | uint16 | uint32 | uint64
  | hash128 | hash160 | hash256
  | account | blob | amount | currency | issue | vector256 | pathSet
  | object | array
deriving DecidableEq, Repr

namespace Kind

/-- The name of a kind. -/
def name : Kind → String
  | uint8 => "UInt8"
  | uint16 => "UInt16"
  | uint32 => "UInt32"
  | uint64 => "UInt64"
  | hash128 => "Hash128"
  | hash160 => "Hash160"
  | hash256 => "Hash256"
  | account => "AccountID"
  | blob => "Blob"
  | amount => "Amount"
  | currency => "Currency"
  | issue => "Issue"
  | vector256 => "Vector256"
  | pathSet => "PathSet"
  | object => "STObject"
  | array => "STArray"

/-- Every kind. -/
def all : List Kind :=
  [uint8, uint16, uint32, uint64, hash128, hash160, hash256, account, blob, amount, currency, issue,
   vector256, pathSet, object, array]

/-- The kind of a name. -/
def ofName? (text : String) : Option Kind := all.find? fun k => k.name = text

theorem name_injective {a b : Kind} (h : a.name = b.name) : a = b := by
  revert h
  cases a <;> cases b <;> decide

theorem ofName?_eq_some_iff {text : String} {k : Kind} : ofName? text = some k ↔ k.name = text := by
  constructor
  · intro h
    simpa using List.find?_some h
  · rintro rfl
    cases k <;> decide

end Kind

end FieldWire
