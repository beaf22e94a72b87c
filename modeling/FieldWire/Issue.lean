import FieldWire.Address
import FieldWire.Currency

/-!
# Assets

An asset is the native currency alone, or a currency with its issuer.
-/

namespace FieldWire

/-- A currency with its issuer; the native one has none. -/
structure Issue where
  /-- The currency. -/
  currency : Currency
  /-- The issuer. -/
  issuer : Option AccountId
deriving DecidableEq

namespace Issue

/-- The native asset. -/
def native : Issue := ⟨Currency.native, none⟩

/-- The asset of a plain object; an absent issuer may be written as null. -/
def ofJson (book : AddressBook) (j : Json) : Except Error Issue := do
  match j.obj? with
  | none => throw (.ofKind .issue (.notObject j))
  | some members =>
    match Members.get? members "currency" with
    | none => throw (.ofKind .issue .issueWithoutCurrency)
    | some text =>
      let currency ← Currency.ofJson text
      let issuer := (Members.get? members "issuer").filter fun j => !j.isNull
      match currency.isNative, issuer with
      | true, none => return native
      | true, some _ => throw (.ofKind .issue .nativeWithIssuer)
      | false, some issuer => return ⟨currency, some (← book.accountOfJson issuer)⟩
      | false, none => throw (.ofKind .issue .issuedWithoutIssuer)

/-- The plain form of an asset. -/
def toJson (book : AddressBook) (issue : Issue) : Json :=
  .obj (("currency", issue.currency.toJson) ::
    match issue.issuer with
    | some issuer => [("issuer", book.accountToJson issuer)]
    | none => [])

/-- The bytes of an asset. -/
def bytes (issue : Issue) : List UInt8 :=
  issue.currency.bytes.toList ++
    match issue.issuer with
    | some issuer => issuer.toList
    | none => []

/-- Takes an asset that fills its length. -/
def read (length : Option Nat) : Reader Issue := do
  let currency ← Currency.readChecked
  if currency.isNative then
    Reader.checkWidth .issue length 20
    return native
  else
    Reader.checkWidth .issue length 40
    let issuer ← Reader.octets 20
    return ⟨currency, some issuer⟩

end Issue

end FieldWire
