import FieldWire.Codec.Basic

/-!
# What signatures cover

A signature covers four bytes that tell what is signed, followed by the signing fields of an object.
One of several signers signs the object with an empty public key, followed by the account of the
signer. A claim on a payment channel is signed in a layout of its own: the channel and the drops.
All parts are written to one buffer, one behind the other.
-/

namespace FieldWire.Codec

/-- The bytes in front of what a single signer signs. -/
def signingLead : List UInt8 := [0x53, 0x54, 0x58, 0x00]

/-- The bytes in front of what one of several signers signs. -/
def multisigningLead : List UInt8 := [0x53, 0x4D, 0x54, 0x00]

/-- The bytes in front of a signed claim. -/
def claimLead : List UInt8 := [0x43, 0x4C, 0x4D, 0x00]

/-- The field for the public key of the signer. -/
def publicKeyField : String := "SigningPubKey"

/-- The bytes that a single signer signs. -/
def signingData (codec : Codec) (j : Json) : Except Error (List UInt8) :=
  Writer.run do
    Writer.append signingLead
    codec.encodeInto j true

/-- The bytes that one of several signers signs. -/
def multisigningData (codec : Codec) (j : Json) (signer : String) :
    Except Error (List UInt8) := do
  match j.obj? with
  | none => throw (.ofKind .object .notFields)
  | some members =>
    let members := Members.insert publicKeyField (.str "") members
    let account ← withField "signing_account" (codec.addresses.accountOfText signer)
    Writer.run do
      Writer.append multisigningLead
      codec.encodeInto (.obj members) true
      Value.write (.account account)

/-- A member that a claim must have. -/
def claimMember (j : Json) (key : String) : Except Error Json :=
  match j.get? key with
  | some value => .ok value
  | none => .error (.missingField key)

/-- The drops of an amount that can be claimed. -/
def claimedDrops : Amount → Except Error Nat
  | .native drops false => .ok drops
  | _ => .error (.typeMismatch "amount" (.kind .amount) .notClaimable)

/-- The bytes of a signed claim. -/
def claimData (codec : Codec) (j : Json) : Except Error (List UInt8) := do
  let channel ← withField "channel" (Value.octetsOfJson .hash256 32 (← claimMember j "channel"))
  let amount ← withField "amount" (Amount.ofJson codec.addresses (← claimMember j "amount"))
  let drops ← claimedDrops amount
  Writer.run do
    Writer.append claimLead
    Value.write (.hash256 channel)
    Writer.append (BigEndian.ofNat 8 drops)

end FieldWire.Codec
