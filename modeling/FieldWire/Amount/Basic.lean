import FieldWire.Address
import FieldWire.Amount.Issued
import FieldWire.Currency

/-!
# Amounts

An amount is a number of drops of the native asset, or a decimal number of an issued currency of an
issuer. On the wire the first bit tells them apart: eight bytes for the first, and forty-eight for
the second, which go to the number, the currency and the issuer. As plain values the first is a text
of digits and the second an object.
-/

namespace FieldWire

/-- An amount of some asset. -/
inductive Amount where
  /-- Drops of the native asset. -/
  | native (drops : Nat) (negative : Bool)
  /-- A number of an issued currency. -/
  | issued (value : IssuedValue) (currency : Currency) (issuer : AccountId)
deriving DecidableEq

namespace Amount

/-- Whether the amount is of the native asset. -/
def isNative : Amount → Bool
  | native _ _ => true
  | issued _ _ _ => false

/-- Fails for more drops than there can be. -/
def checkDrops (drops : Nat) : Except Error Unit :=
  if maxDrops < drops then .error (.ofKind .amount (.tooManyDrops (toString drops))) else .ok ()

/-- A number of drops that is not negative. -/
def ofDrops (drops : Nat) : Except Error Amount := do
  checkDrops drops
  return native drops false

/-! ### Plain form -/

/-- A text without a minus sign, and whether there was one. -/
def splitMinus : List Char → Bool × List Char
  | '-' :: rest => (true, rest)
  | cs => (false, cs)

/-- The native amount of a text of digits with at most a minus sign; zero is not negative. -/
def nativeOfText (text : String) : Except Error Amount := do
  let (negative, digits) := splitMinus text.toList
  if digits.isEmpty ∨ ¬digits.all Char.isDigit then throw (.ofKind .amount (.notDrops text))
  let drops := Nat.ofDigitChars 10 digits 0
  if Text.maxUInt64 < drops then throw (.ofKind .amount (.tooManyDrops text))
  checkDrops drops
  return native drops (negative && drops ≠ 0)

/-- The number of a plain issued amount. -/
def issuedValueOfJson : Json → Except Error IssuedValue
  | .str text => (IssuedValue.ofText text).mapError (.invalidValue .issuedValue)
  | .num n => (IssuedValue.ofText n.toText).mapError (.invalidValue .issuedValue)
  | j => .error (.ofKind .amount (.notIssuedText j))

/-- A member that an issued amount must have. -/
def member (members : Members Json) (key : String) : Except Error Json :=
  match Members.get? members key with
  | some j => .ok j
  | none => .error (.ofKind .amount (.missingMember key))

/-- The issued amount of an object's members. -/
def issuedOfMembers (book : AddressBook) (members : Members Json) : Except Error Amount := do
  let value ← issuedValueOfJson (← member members "value")
  let currency ← Currency.ofJson (← member members "currency")
  if currency.isNative then throw (.ofKind .amount .nativeIssued)
  let issuer ← book.accountOfJson (← member members "issuer")
  return issued value currency issuer

/-- The amount of a plain value. -/
def ofJson (book : AddressBook) : Json → Except Error Amount
  | .str text => nativeOfText text
  | .num n => nativeOfText n.toText
  | .obj members => issuedOfMembers book members
  | j => .error (.ofKind .amount (.notAmount j))

/-- The plain form of an amount. -/
def toJson (book : AddressBook) : Amount → Json
  | native drops negative => .str ((if negative then "-" else "") ++ toString drops)
  | issued value currency issuer =>
    .obj [("currency", currency.toJson), ("issuer", book.accountToJson issuer),
      ("value", .str value.toText)]

/-! ### Written form -/

/-- The bytes of an amount. -/
def bytes : Amount → List UInt8
  | native drops negative =>
    BigEndian.ofNat 8 ((if negative then 0 else IssuedValue.positiveBit) ||| drops)
  | issued value currency issuer =>
    BigEndian.ofNat 8 value.toBits ++ currency.bytes.toList ++ issuer.toList

/-- The native amount of a word without the issued bit. -/
def nativeOfBits (bits : Nat) : Except Error Amount := do
  let drops := bits % IssuedValue.positiveBit
  checkDrops drops
  let negative : Bool := bits / IssuedValue.positiveBit % 2 = 0
  if negative ∧ drops = 0 then throw (.ofKind .amount .negativeZero)
  return native drops negative

/-- Takes an amount that fills its length. -/
def read (length : Option Nat) : Reader Amount := do
  let first ← Reader.peek
  Reader.checkWidth .amount length (if first.toNat < 128 then 8 else 48)
  let bits ← Reader.number 8
  if bits / IssuedValue.issuedBit % 2 = 0 then Reader.lift (nativeOfBits bits)
  else
    let value ← Reader.lift
      ((IssuedValue.ofBits bits).mapError (.invalidValue .issuedValue))
    let currency ← Currency.readChecked
    if currency.isNative then throw (.ofKind .amount .nativeIssuedOnWire)
    let issuer ← Reader.octets 20
    return issued value currency issuer

end Amount

end FieldWire
