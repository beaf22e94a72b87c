import FieldWire.Amount.Basic
import FieldWire.Field.Basic
import FieldWire.Issue
import FieldWire.PathSet

/-!
# Values

A value is of one of the sixteen kinds. An object is a list of fields with their values, in the
order in which they are written; an array is a list of elements, each an object wrapped in a field.
-/

namespace FieldWire

/-- The value of a field. -/
inductive Value where
  /-- A word of one byte. -/
  | uint8 (n : UInt8)
  /-- A word of two bytes. -/
  | uint16 (n : UInt16)
  /-- A word of four bytes. -/
  | uint32 (n : UInt32)
  /-- A word of eight bytes. -/
  | uint64 (n : UInt64)
  /-- A hash of sixteen bytes. -/
  | hash128 (hash : Octets 16)
  /-- A hash of twenty bytes. -/
  | hash160 (hash : Octets 20)
  /-- A hash of thirty-two bytes. -/
  | hash256 (hash : Octets 32)
  /-- An account. -/
  | account (account : AccountId)
  /-- Bytes of any number. -/
  | blob (bytes : List UInt8)
  /-- An amount. -/
  | amount (amount : Amount)
  /-- A currency. -/
  | currency (currency : Currency)
  /-- An asset. -/
  | issue (issue : Issue)
  /-- Hashes of thirty-two bytes each. -/
  | vector256 (hashes : List (Octets 32))
  /-- Alternative paths. -/
  | pathSet (paths : PathSet)
  /-- Fields with their values. -/
  | object (fields : List (Field × Value))
  /-- Objects, each in a field that wraps it. -/
  | array (elements : List (Field × List (Field × Value)))

/-- Fields with their values, in the order in which they are written. -/
abbrev Object := List (Field × Value)

/-- An object in the field that wraps it. -/
abbrev Element := Field × Object

/-- The kind of a value. -/
def Value.kind : Value → Kind
  | uint8 _ => .uint8
  | uint16 _ => .uint16
  | uint32 _ => .uint32
  | uint64 _ => .uint64
  | hash128 _ => .hash128
  | hash160 _ => .hash160
  | hash256 _ => .hash256
  | account _ => .account
  | blob _ => .blob
  | amount _ => .amount
  | currency _ => .currency
  | issue _ => .issue
  | vector256 _ => .vector256
  | pathSet _ => .pathSet
  | object _ => .object
  | array _ => .array

namespace Object

/-- The value of the first field of a name. -/
def get? (fields : Object) (name : String) : Option Value :=
  (fields.find? fun p => p.1.name = name).map Prod.snd

/-- Puts a field before the first one whose sort key is not smaller. -/
def insertSorted (p : Field × Value) : Object → Object
  | [] => [p]
  | q :: rest => if p.1.ordinal ≤ q.1.ordinal then p :: q :: rest else q :: insertSorted p rest

/-- The fields by their sort keys; fields with one key keep their order. -/
def sorted (fields : Object) : Object := fields.foldr insertSorted []

theorem insertSorted_perm (p : Field × Value) (fields : Object) :
    (insertSorted p fields).Perm (p :: fields) := by
  induction fields with
  | nil => exact .refl _
  | cons q rest ih =>
    simp only [insertSorted]
    split
    · exact .refl _
    · exact (ih.cons q).trans (.swap p q rest)

/-- Sorting loses no field and repeats none. -/
theorem sorted_perm (fields : Object) : (sorted fields).Perm fields := by
  induction fields with
  | nil => exact .refl _
  | cons p rest ih => exact (insertSorted_perm p _).trans (ih.cons p)

end Object

end FieldWire
