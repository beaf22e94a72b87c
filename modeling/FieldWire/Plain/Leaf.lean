import FieldWire.Value.Basic

/-!
# Plain values of single kinds

Words of up to four bytes are plain numbers, or texts of decimal digits. A word of eight bytes is a
text of hexadecimal digits, for which a number may be given, and is always written as sixteen
digits. Hashes and blobs are hexadecimal texts, and a vector is a list of them.
-/

namespace FieldWire.Value

/-- The unsigned number of a plain value, which must not exceed `maximum`. -/
def unsignedOfJson (kind : Kind) (maximum : Nat) (j : Json) : Except Error Nat :=
  let number : Option Nat :=
    match j with
    | .num n => n.uint64?
    | .str text => Text.uint64? text
    | _ => none
  match number with
  | none => .error (.ofKind kind (.notUnsigned j))
  | some n =>
    if n ≤ maximum then .ok n else .error (.ofKind kind (.exceedsMaximum n maximum))

/-- The word of eight bytes of a plain value. -/
def uint64OfJson (j : Json) : Except Error Nat :=
  match j with
  | .str text =>
    let length := (utf8Bytes text).length
    if 0 < length ∧ length ≤ 16 then
      match Text.readUnsigned 16 Text.maxUInt64 text.toList with
      | .ok n => .ok n
      | .error fault => .error (.ofKind .uint64 (.badHexWord text fault))
    else .error (.ofKind .uint64 (.notHexWord j))
  | .num n =>
    match n.uint64? with
    | some n => .ok n
    | none => .error (.ofKind .uint64 (.notUnsignedNumber n))
  | _ => .error (.ofKind .uint64 (.notHexWord j))

/-- The `n` bytes of a plain value. -/
def octetsOfJson (kind : Kind) (n : Nat) (j : Json) : Except Error (Octets n) := do
  Octets.ofHex kind n (← expectText kind j)

/-- The bytes of a plain value. -/
def blobOfJson (j : Json) : Except Error (List UInt8) := do
  (Hex.decode (← expectText .blob j)).mapError .invalidHex

/-- The hashes of a plain value. -/
def vectorOfJson (j : Json) : Except Error (List (Octets 32)) :=
  match j.arr? with
  | none => .error (.ofKind .vector256 (.notList j))
  | some items => items.mapM (octetsOfJson .vector256 32)

/-- The value of a kind other than objects and arrays, for which there is none here. -/
def leafOfJson? (book : AddressBook) (kind : Kind) (j : Json) : Option (Except Error Value) :=
  match kind with
  | .uint8 => some do return uint8 (UInt8.ofNat (← unsignedOfJson .uint8 0xFF j))
  | .uint16 => some do return uint16 (UInt16.ofNat (← unsignedOfJson .uint16 0xFFFF j))
  | .uint32 => some do return uint32 (UInt32.ofNat (← unsignedOfJson .uint32 0xFFFFFFFF j))
  | .uint64 => some do return uint64 (UInt64.ofNat (← uint64OfJson j))
  | .hash128 => some do return hash128 (← octetsOfJson .hash128 16 j)
  | .hash160 => some do return hash160 (← octetsOfJson .hash160 20 j)
  | .hash256 => some do return hash256 (← octetsOfJson .hash256 32 j)
  | .account => some do return account (← book.accountOfJson j)
  | .blob => some do return blob (← blobOfJson j)
  | .amount => some do return amount (← Amount.ofJson book j)
  | .currency => some do return currency (← Currency.ofJson j)
  | .issue => some do return issue (← Issue.ofJson book j)
  | .vector256 => some do return vector256 (← vectorOfJson j)
  | .pathSet => some do return pathSet (← PathSet.ofJson book j)
  | .object => none
  | .array => none

end FieldWire.Value
