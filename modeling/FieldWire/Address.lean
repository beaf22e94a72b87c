import FieldWire.Value.HexText

/-!
# Addresses

An account is identified by twenty bytes, and an address book says how accounts are written for
people. A book may also have extended addresses, which carry a tag beside the account; they are
split before a plain object is read. Whatever the book, forty hexadecimal digits are an account.
-/

namespace FieldWire

/-- The identity of an account. -/
abbrev AccountId := Octets 20

/-- How accounts are written for people. -/
structure AddressBook where
  /-- The account of an address. -/
  decodeAccount : String → Except Error AccountId
  /-- The address of an account. -/
  encodeAccount : AccountId → String
  /-- The account of an extended address, and its tag if it has one. -/
  decodeExtended : String → Option (AccountId × Option UInt32)

namespace AddressBook

/-- The book that writes accounts as hexadecimal digits and has no extended addresses. -/
def hex : AddressBook where
  decodeAccount := Octets.ofHex .account 20
  encodeAccount := Octets.toHex
  decodeExtended := fun _ => none

/-- Whether a text is forty hexadecimal digits. -/
def isHexAccount (text : String) : Bool :=
  let bytes := utf8Bytes text
  bytes.length = 40 && bytes.all fun b => (Hex.digitValue? b).isSome

/-- The account of a text: of its digits, or else of the address in the book. -/
def accountOfText (book : AddressBook) (text : String) : Except Error AccountId :=
  if isHexAccount text then Octets.ofHex .account 20 text else book.decodeAccount text

/-- The account of a plain value. -/
def accountOfJson (book : AddressBook) (j : Json) : Except Error AccountId := do
  let text ← expectText .account j
  match book.accountOfText text with
  | .error (.invalidHex _) => .error (.ofKind .account (.notAddress text))
  | result => result

/-- The plain form of an account. -/
def accountToJson (book : AddressBook) (account : AccountId) : Json :=
  .str (book.encodeAccount account)

end AddressBook

end FieldWire
