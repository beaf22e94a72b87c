import FieldWire.Codec.Signing
import FieldWire.Proofs.Outcome
import FieldWire.Proofs.Wire.Writing

/-!
# What encoding writes

An object is encoded behind whatever its buffer holds. Its own bytes do not depend on that
(`Codec.isAppend_encodeInto`), because fields are only ever appended. So the bytes that are signed,
which are written to one buffer part by part, are the bytes of the parts in a row: behind the lead
those that encoding the object alone yields, and what follows behind these
(`Codec.signingData_eq_map`, `Codec.multisigningData_obj`, `Codec.run_claim`).
-/

namespace FieldWire.Codec

variable {codec : Codec}

/-! ### Objects -/

/-- An object is appended to any buffer as it is to an empty one. -/
theorem isAppend_encodeInto (codec : Codec) (j : Json) (onlySigning : Bool) :
    (codec.encodeInto j onlySigning).IsAppend := by
  unfold encodeInto
  cases Object.ofJson codec.context onlySigning j with
  | ok fields => exact Value.isAppend_writeFields fields
  | error e => exact Writer.isAppend_appendOf (.error e)

/-- An object is read from the plain value and then written. -/
theorem encode_eq_bind (codec : Codec) (j : Json) (onlySigning : Bool) :
    codec.encode j onlySigning =
      Object.ofJson codec.context onlySigning j >>= Object.toBytes := by
  unfold encode encodeInto
  cases Object.ofJson codec.context onlySigning j <;> rfl

theorem encode_eq_ok_iff {j : Json} {onlySigning : Bool} {bytes : List UInt8} :
    codec.encode j onlySigning = .ok bytes ↔ ∃ fields,
      Object.ofJson codec.context onlySigning j = .ok fields ∧ fields.toBytes = .ok bytes := by
  rw [encode_eq_bind, bind_eq_ok_iff]

/-! ### Signed bytes -/

/-- A single signer signs the bytes of the signing fields behind the lead. -/
theorem signingData_eq_map (codec : Codec) (j : Json) :
    codec.signingData j = (codec.encode j true).map (signingLead ++ ·) :=
  Writer.run_append_bind (codec.isAppend_encodeInto j true) signingLead

/-- One of several signers signs the bytes of the signing fields, with an empty public key, between
the lead and the account. -/
theorem multisigningData_obj (codec : Codec) (members : Members Json) (signer : String) :
    codec.multisigningData (.obj members) signer = (do
      let account ← withField "signing_account" (codec.addresses.accountOfText signer)
      let body ← codec.encode (.obj (Members.insert publicKeyField (.str "") members)) true
      return multisigningLead ++ body ++ account.toList) := by
  rw [multisigningData]
  dsimp only [Json.obj?]
  congr 1
  funext account
  have hbody := codec.isAppend_encodeInto
    (.obj (Members.insert publicKeyField (.str "") members)) true
  rw [Value.write, Writer.run_append_bind (hbody.bind (Writer.isAppend_append _)),
    Writer.run_bind_append, ← encode]
  cases codec.encode (.obj (Members.insert publicKeyField (.str "") members)) true with
  | ok body => exact congrArg Except.ok (List.append_assoc _ _ _).symm
  | error e => rfl

/-- The channel and the drops of a claim stand behind the lead. -/
theorem run_claim (channel : Octets 32) (drops : Nat) :
    Writer.run (do
        Writer.append claimLead
        Value.write (.hash256 channel)
        Writer.append (BigEndian.ofNat 8 drops)) =
      .ok (claimLead ++ channel.toList ++ BigEndian.ofNat 8 drops) := by
  have hdrops := Writer.isAppend_append (BigEndian.ofNat 8 drops)
  rw [Value.write, Writer.run_append_bind ((Writer.isAppend_append _).bind hdrops),
    Writer.run_append_bind hdrops, Writer.run_append]
  exact congrArg Except.ok (List.append_assoc _ _ _).symm

end FieldWire.Codec
