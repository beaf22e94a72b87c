import FieldWire.Proofs.Codec.Encoding
import FieldWire.Proofs.Plain.Writing
import FieldWire.Proofs.Value.WriteBack

/-!
# Encoding and decoding undo each other

Encoding reads a plain object and writes it; decoding reads bytes and shows them. The two directions
differ in what they forget.

* What is encoded is decoded with its keys in order and is then encoded with the same bytes
  (`Codec.restores_iff_unmarked`), exactly if no element is wrapped in the field of the array end
  marker. Such a field can wrap an element when a schema gives it objects to hold, and then its
  header ends the array when it is read (`Codec.not_restores_crossed`).
* What is decoded is encoded with the same bytes if they are canonical
  (`Codec.encode_of_decode_of_canonical`): they hold nothing behind the object, its fields are in
  order, and no length goes beyond what is written.

Registries are regular, and accounts are written in hexadecimal digits.
-/

namespace FieldWire

namespace Codec

theorem registry_default : Codec.default.registry = .bundled := by
  rw [Codec.default, Codec.ofRegistry]

/-- The registry of the bundled codec is regular. -/
theorem regular_default : Codec.default.registry.Regular := by
  rw [registry_default]
  exact Registry.regular_bundled

variable {codec : Codec}

theorem decode_eq_ok_iff {bytes : List UInt8} {j : Json} :
    codec.decode bytes = .ok j ↔ bytes.length ≤ codec.maxInput ∧ ∃ fields,
      Object.ofBytes codec.registry codec.maxDepth bytes = .ok fields ∧
        fields.toJson codec.context = .ok j := by
  unfold decode
  split
  · next hlarge => exact ⟨nofun, fun ⟨hsize, _⟩ => absurd hlarge (Nat.not_lt.2 hsize)⟩
  · next hsmall =>
    refine Iff.trans ?_ (and_iff_right (Nat.not_lt.1 hsmall)).symm
    exact bind_eq_ok_iff

/-- What is decoded is encoded as its normal form. -/
theorem ofJson_of_decode (hregistry : codec.registry.Regular) (hhex : codec.addresses = .hex)
    {bytes : List UInt8} {fields : Object}
    (hread : Object.ofBytes codec.registry codec.maxDepth bytes = .ok fields) {j : Json}
    (hshown : fields.toJson codec.context = .ok j) :
    Object.ofJson codec.context false j = .ok fields.normal :=
  Object.ofJson_toJson hregistry.accepted.wellFormed hhex
    (Object.fits_of_ofBytes hregistry hread).1 hshown

/-! ### Encoded objects -/

/-- The bytes are decoded as the plain form of the object, with its keys in order, and that is
encoded with the same bytes. -/
def Restores (codec : Codec) (fields : Object) (bytes : List UInt8) : Prop :=
  ∃ j, codec.decode bytes = .ok j ∧ fields.toJson codec.context = .ok j ∧
    Json.InOrder codec.registry .object j ∧ codec.encode j false = .ok bytes

/-- **Encoded objects are restored**, within the limits of the codec, exactly if no element in them
is wrapped in the field of the array end marker. The object is that of the plain value, and plain
values have no key twice. -/
theorem restores_iff_unmarked (hregistry : codec.registry.Regular)
    (hhex : codec.addresses = .hex) {j : Json} (hkeys : j.KeysDistinct) {fields : Object}
    (hfields : Object.ofJson codec.context false j = .ok fields) {bytes : List UInt8}
    (hbytes : codec.encode j false = .ok bytes) (hsize : bytes.length ≤ codec.maxInput)
    (hdepth : fields.nesting ≤ codec.maxDepth) :
    codec.Restores fields bytes ↔ Object.Obeys .unmarked fields := by
  have hformed := hregistry.accepted.wellFormed
  have hfits : Object.Obeys (.fits codec.registry) fields := Object.fits_of_ofJson hfields
  have hordered : Object.Obeys .ordered fields :=
    Object.ordered_of_ofJson hformed hkeys hfields
  have hnormal : fields.normal = fields := Object.normal_of_ordered hformed hfits hordered
  constructor
  · rintro ⟨w, hdecode, hshown, -, -⟩
    -- the plain form that is decoded stands for one object only, and reading bytes never yields an
    -- element that is wrapped in an end marker
    obtain ⟨-, read, hread, hreadShown⟩ := decode_eq_ok_iff.1 hdecode
    have hback := Object.ofJson_toJson hformed hhex hfits hshown
    rw [ofJson_of_decode hregistry hhex hread hreadShown, hnormal] at hback
    rw [← Except.ok.inj hback]
    exact Object.unmarked_normal (Object.fits_of_ofBytes hregistry hread).2
  · intro hunmarked
    obtain ⟨fields', hfields', hwritten⟩ := encode_eq_ok_iff.1 hbytes
    cases hfields.symm.trans hfields'
    -- reading the bytes back gives the same object, so decoding shows what encoding was given
    have hread := Object.ofBytes_of_toBytes hregistry hfits hunmarked hdepth hwritten
    obtain ⟨w, hshown⟩ := Object.exists_toJson (Object.named_of_ofJson hregistry hfields)
    have hback := Object.ofJson_toJson hformed hhex hfits hshown
    rw [hnormal] at hback
    exact ⟨w, decode_eq_ok_iff.2 ⟨hsize, fields, hread, hshown⟩, hshown,
      Object.inOrder_of_toJson hregistry hfits hordered hshown,
      encode_eq_ok_iff.2 ⟨fields, hback, hwritten⟩⟩

end Codec

/-! ### Crossed end markers -/

/-- A schema in which the end marker of each kind has the code of the other kind. -/
def crossedSchema : Schema where
  types := [("Blob", 7), ("STArray", 14), ("STObject", 15)]
  fields :=
    [⟨"ObjectEndMarker", 1, false, true, true, "STArray"⟩,
     ⟨"ArrayEndMarker", 1, false, true, true, "STObject"⟩,
     ⟨"Items", 2, false, true, true, "STArray"⟩,
     ⟨"Memo", 2, false, true, true, "STObject"⟩,
     ⟨"SigningPubKey", 3, true, true, true, "Blob"⟩,
     ⟨"Domain", 7, true, true, true, "Blob"⟩]
  transactionTypes := []
  transactionResults := []
  ledgerEntryTypes := []

namespace Crossed

/-- The field of the array end marker, which can wrap an element. -/
def endField : Field := ⟨arrayEndName, .object, ⟨15, 1⟩, false, true, true⟩

/-- A field for arrays. -/
def itemsField : Field := ⟨"Items", .array, ⟨14, 2⟩, false, true, true⟩

/-- A field for elements. -/
def memoField : Field := ⟨"Memo", .object, ⟨15, 2⟩, false, true, true⟩

/-- The field for the public key of a signer. -/
def publicKeyField : Field := ⟨"SigningPubKey", .blob, ⟨7, 3⟩, true, true, true⟩

/-- A field for bytes. -/
def domainField : Field := ⟨"Domain", .blob, ⟨7, 7⟩, true, true, true⟩

/-- The registry of the schema. -/
def registry : Registry where
  fields := [⟨objectEndName, .array, ⟨14, 1⟩, false, true, true⟩, endField, itemsField, memoField,
    publicKeyField, domainField]
  typeCodes := [("Blob", 7), ("STArray", 14), ("STObject", 15)]
  transactionTypes := ⟨[]⟩
  transactionResults := ⟨[]⟩
  ledgerEntryTypes := ⟨[]⟩

/-- The schema is an acceptable one. -/
theorem regular : registry.Regular := by
  have hload : Registry.load crossedSchema = .ok registry := rfl
  refine Registry.regular_of_load hload ?_ (by decide)
  unfold Schema.NamesDistinct
  decide

/-- The codec of the registry. -/
def codec : Codec := .ofRegistry registry

/-- Items that hold one element, in a field of their choice. -/
def itemsJson (wrapper : String) (inner : Json) : Json :=
  .obj [("Items", .arr [.obj [(wrapper, inner)]])]

theorem keysDistinct_itemsJson {wrapper : String} {inner : Json} (h : inner.KeysDistinct) :
    (itemsJson wrapper inner).KeysDistinct := by
  simp [itemsJson, Members.keys, h]

end Crossed

namespace Codec

/-- An element in an ordinary field is restored. -/
theorem restores_crossed : Crossed.codec.Restores
    [(Crossed.itemsField, .array [(Crossed.memoField, [(Crossed.domainField, .blob [0xAB])])])]
    [0xE2, 0xF2, 0x77, 0x01, 0xAB, 0xE1, 0xF1] := by
  refine (restores_iff_unmarked Crossed.regular rfl
    (j := Crossed.itemsJson "Memo" (.obj [("Domain", .str "AB")])) ?_ rfl rfl (by decide)
    (by decide)).2 ?_
  · exact Crossed.keysDistinct_itemsJson ⟨List.pairwise_singleton _ _, trivial, trivial⟩
  · have hname : Crossed.memoField.name ≠ arrayEndName := by decide
    exact ⟨trivial, ⟨hname, ⟨trivial, trivial, trivial⟩, trivial⟩, trivial⟩

/-- An element in the field of the array end marker is encoded, within every limit, and is not
restored: its header ends the array. -/
theorem not_restores_crossed :
    (Crossed.itemsJson arrayEndName (.obj [])).KeysDistinct ∧
    Object.ofJson Crossed.codec.context false (Crossed.itemsJson arrayEndName (.obj [])) =
      .ok [(Crossed.itemsField, .array [(Crossed.endField, [])])] ∧
    Crossed.codec.encode (Crossed.itemsJson arrayEndName (.obj [])) false =
      .ok [0xE2, 0xF1, 0xE1, 0xF1] ∧
    Object.nesting [(Crossed.itemsField, .array [(Crossed.endField, [])])] ≤
      Crossed.codec.maxDepth ∧
    ¬Crossed.codec.Restores [(Crossed.itemsField, .array [(Crossed.endField, [])])]
      [0xE2, 0xF1, 0xE1, 0xF1] := by
  refine ⟨Crossed.keysDistinct_itemsJson ⟨List.nodup_nil, trivial⟩, rfl, rfl, by decide, ?_⟩
  rintro ⟨j, hdecode, -, -, hencode⟩
  have hdecoded : Crossed.codec.decode [0xE2, 0xF1, 0xE1, 0xF1] =
      .ok (.obj [("Items", .arr [])]) := rfl
  cases hdecode.symm.trans hdecoded
  have hencoded : Crossed.codec.encode (.obj [("Items", .arr [])]) false = .ok [0xE2, 0xF1] := rfl
  cases hencode.symm.trans hencoded

/-! ### Decoded bytes -/

variable {codec : Codec}

/-- The bytes are the one way to write the object that is read from them: they hold nothing behind
it, its sort keys increase strictly at every level, and no length that stands in them is greater
than a length that is written. Such a length is the width of its value
(`Value.lengthPrefix_of_readInField`). -/
structure Canonical (codec : Codec) (bytes : List UInt8) (fields : Object) : Prop where
  /-- The object is read from the bytes. -/
  read : Object.ofBytes codec.registry codec.maxDepth bytes = .ok fields
  /-- The object ends with the last byte and not with an end marker. -/
  ends : ¬Object.Closed codec.registry codec.maxDepth bytes
  /-- The fields are in order at every level. -/
  ordered : Object.Obeys .ordered fields
  /-- Lengths are not greater than those that are written. -/
  writable : Object.Obeys .writable fields

/-- **Canonical bytes are encoded again** from what they decode to, and so no others that are
canonical decode to it. -/
theorem encode_of_decode_of_canonical (hregistry : codec.registry.Regular)
    (hhex : codec.addresses = .hex) {bytes : List UInt8} {j : Json}
    (hdecode : codec.decode bytes = .ok j) {fields : Object}
    (hcanonical : codec.Canonical bytes fields) :
    codec.encode j false = .ok bytes ∧ ∀ other fields', codec.Canonical other fields' →
      codec.decode other = .ok j → other = bytes := by
  have hencode : ∀ {bytes fields}, codec.Canonical bytes fields → codec.decode bytes = .ok j →
      codec.encode j false = .ok bytes := by
    intro bytes fields hcanonical hdecode
    obtain ⟨-, read, hread, hshown⟩ := decode_eq_ok_iff.1 hdecode
    cases hcanonical.read.symm.trans hread
    have hfits := (Object.fits_of_ofBytes hregistry hread).1
    have hback := ofJson_of_decode hregistry hhex hread hshown
    rw [Object.normal_of_ordered hregistry.accepted.wellFormed hfits hcanonical.ordered] at hback
    exact encode_eq_ok_iff.2 ⟨fields, hback,
      Object.toBytes_of_ofBytes hregistry hread hcanonical.ends hcanonical.writable⟩
  refine ⟨hencode hcanonical hdecode, fun other fields' hother hdecodeOther => ?_⟩
  exact Except.ok.inj ((hencode hother hdecodeOther).symm.trans (hencode hcanonical hdecode))

/-- Bytes with an array, an element and a length are encoded again. -/
theorem encode_of_decode_crossed :
    Crossed.codec.encode (Crossed.itemsJson "Memo" (.obj [("Domain", .str "AB")])) false =
      .ok [0xE2, 0xF2, 0x77, 0x01, 0xAB, 0xE1, 0xF1] := by
  have hcanonical : Crossed.codec.Canonical [0xE2, 0xF2, 0x77, 0x01, 0xAB, 0xE1, 0xF1]
      [(Crossed.itemsField,
        .array [(Crossed.memoField, [(Crossed.domainField, .blob [0xAB])])])] := by
    refine ⟨rfl, ?_, ?_, ?_⟩
    · rintro ⟨fields, c, hread⟩
      cases hread
    · exact ⟨nofun, ⟨trivial, ⟨nofun, trivial, trivial⟩, trivial⟩, trivial⟩
    · exact ⟨nofun, ⟨trivial, ⟨fun _ => by decide, trivial, trivial⟩, trivial⟩, trivial⟩
  exact (encode_of_decode_of_canonical Crossed.regular rfl rfl hcanonical).1

end Codec

end FieldWire
