import FieldWire.Proofs.Codec.RoundTrip
import FieldWire.Proofs.Plain.NormalForm
import FieldWire.Proofs.Value.Nesting

/-!
# Decoding and encoding brings bytes into normal form

Many byte strings are decoded: fields may stand in any order and occur more than once, and bytes may
stand behind the end marker of the outermost object. What is decoded can be encoded again, and that
brings the bytes into normal form (`Codec.exists_decode_of_reencode`). They do not get longer, they
are decoded within the same limits as the same plain object, up to the order of the keys where an
object holds fields, and encoding that gives these bytes again.

The object that is encoded is the normal form of the one that was read. So the three parts are facts
about normal forms: they are not wider, they do not nest more deeply, and they show the same. No
marked element (`Rule.unmarked`) comes out of bytes, so what is written is read back.

Registries are regular, and accounts are written in hexadecimal digits.
-/

namespace FieldWire.Codec

variable {codec : Codec}

/-- **What is decoded and encoded is in normal form**: it is not longer than the bytes were, it is
decoded as the same up to the order of keys, and it is encoded as itself. -/
theorem exists_decode_of_reencode (hregistry : codec.registry.Regular)
    (hhex : codec.addresses = .hex) {bytes : List UInt8} {j : Json}
    (hdecode : codec.decode bytes = .ok j) {again : List UInt8}
    (hencode : codec.encode j false = .ok again) :
    again.length ≤ bytes.length ∧ ∃ j', codec.decode again = .ok j' ∧
      Json.Alike codec.registry .order (.value .object) j j' ∧
      codec.encode j' false = .ok again := by
  have hformed := hregistry.accepted.wellFormed
  obtain ⟨hsize, fields, hread, hshown⟩ := decode_eq_ok_iff.1 hdecode
  obtain ⟨hfits, hunmarked⟩ := Object.fits_of_ofBytes hregistry hread
  have hfits' : Object.Obeys (.fits codec.registry) fields.normal := Object.fits_normal hfits
  obtain ⟨written, hwritten, hbytes⟩ := encode_eq_ok_iff.1 hencode
  obtain rfl : fields.normal = written :=
    Except.ok.inj ((ofJson_of_decode hregistry hhex hread hshown).symm.trans hwritten)
  have hlength : again.length ≤ bytes.length := by
    calc again.length = Value.widthFields fields.normal := Value.length_of_toBytesFields _ hbytes
      _ ≤ Value.widthFields fields := Object.width_normal_le fields
      _ ≤ bytes.length := Object.width_le_of_ofBytes hregistry hread
  have hdepth : fields.normal.nesting ≤ codec.maxDepth :=
    Nat.le_trans (Object.nesting_normal_le fields) (Object.nesting_le_of_ofBytes hread)
  have hback := Object.ofBytes_of_toBytes hregistry hfits' (Object.unmarked_normal hunmarked)
    hdepth hbytes
  obtain ⟨j', hshown', halike⟩ := Object.toJson_normal hformed hfits hshown
  -- a normal form is its own normal form, so what is shown of it is read as itself
  have hagain := Object.ofJson_toJson hformed hhex hfits' hshown'
  rw [Object.normal_normal hformed hfits] at hagain
  exact ⟨hlength, j', decode_eq_ok_iff.2 ⟨Nat.le_trans hlength hsize, _, hback, hshown'⟩, halike,
    encode_eq_ok_iff.2 ⟨_, hagain, hbytes⟩⟩

/-- Bytes with a repeated field, with fields out of order in an element, and with a byte behind the
end marker. -/
def Crossed.disorder : List UInt8 :=
  [0x77, 0x01, 0xAB, 0xE2, 0xF2, 0x77, 0x01, 0x01, 0x73, 0x01, 0x02, 0xE1, 0xF1, 0x77, 0x01, 0xEF,
    0xE1, 0xFF]

/-- The bytes in normal form. -/
def Crossed.order : List UInt8 :=
  [0x77, 0x01, 0xEF, 0xE2, 0xF2, 0x73, 0x01, 0x02, 0x77, 0x01, 0x01, 0xE1, 0xF1]

/-- The bytes in disorder are decoded, encoded in normal form and decoded again. -/
theorem exists_decode_of_reencode_crossed : ∃ j,
    Crossed.codec.decode Crossed.disorder = .ok j ∧
      Crossed.codec.encode j false = .ok Crossed.order ∧
      Crossed.order.length ≤ Crossed.disorder.length ∧
      ∃ j', Crossed.codec.decode Crossed.order = .ok j' ∧
        Json.Alike Crossed.codec.registry .order (.value .object) j j' ∧
        Crossed.codec.encode j' false = .ok Crossed.order := by
  have hagain : ((Crossed.codec.decode Crossed.disorder).toOption.bind fun j =>
      (Crossed.codec.encode j false).toOption) = some Crossed.order := by decide +kernel
  cases hdecode : Crossed.codec.decode Crossed.disorder with
  | error e =>
    rw [hdecode] at hagain
    cases hagain
  | ok j =>
    have hencode : Crossed.codec.encode j false = .ok Crossed.order := by
      rw [hdecode] at hagain
      cases hbytes : Crossed.codec.encode j false with
      | error e =>
        simp only [Except.toOption, Option.bind_some, hbytes] at hagain
        cases hagain
      | ok bytes =>
        simp only [Except.toOption, Option.bind_some, hbytes] at hagain
        exact congrArg Except.ok (Option.some.inj hagain)
    exact ⟨j, rfl, hencode, exists_decode_of_reencode Crossed.regular rfl hdecode hencode⟩

end FieldWire.Codec
