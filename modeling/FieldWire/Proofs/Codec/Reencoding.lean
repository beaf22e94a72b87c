import FieldWire.Proofs.Codec.RoundTrip

/-!
# Encoding what was decoded

What is decoded can be encoded, unless a value in it is longer than a length that is written can say
(`Codec.exists_encode_iff`, and `Codec.default_reencodes_iff` for the bundled registry). The reader
of lengths takes any three bytes whose first one is at most 254, and so lengths up to 929984; the
writer stops at 918744. A value between the two is decoded and cannot be encoded
(`Codec.default_not_reencodes`).
-/

namespace FieldWire

/-! ### Objects with one field -/

/-- Bytes behind a header and a length are read as an object with one field. -/
theorem Object.ofBytes_blob {registry : Registry} (hregistry : registry.WellFormed) {f : Field}
    (hf : f ∈ registry.fields) (hs : f.serialized = true) (hmarker : f.isMarker = false)
    (hkind : f.kind = .blob) (hlength : f.variableLength = true) {head payload : List UInt8}
    (hhead : LengthPrefix.read.Reads 0 head payload.length) (limit : Nat) :
    ofBytes registry limit (f.header.bytes ++ (head ++ payload)) = .ok [(f, .blob payload)] := by
  have hnames : f.name ≠ objectEndName ∧ f.name ≠ arrayEndName := by
    simpa [Field.isMarker] using hmarker
  have hheader := f.header.length_bytes_pos
  obtain ⟨n, hn⟩ : ∃ n, (f.header.bytes ++ (head ++ payload)).length = n + 1 :=
    ⟨_, (Nat.succ_pred_eq_of_pos (by rw [List.length_append]; omega)).symm⟩
  have hmore : f.header.bytes ++ (head ++ payload) ≠ [] := by
    intro hnil
    rw [hnil, List.length_nil] at hn
    omega
  have hvalue : (Value.readInField registry limit (n + 1) f).Reads 0 (head ++ payload)
      (.blob payload) := by
    refine Value.reads_readOfFieldWith_of_length hlength hhead ?_
    rw [hkind]
    exact (Reader.Reads.take payload).bind_nil (.pure _)
  have hlast := hvalue [] (0 + f.header.bytes.length)
  rw [List.append_nil] at hlast
  have hroot : readRoot registry limit (Cursor.start (f.header.bytes ++ (head ++ payload))) =
      Value.readFields registry limit ((f.header.bytes ++ (head ++ payload)).length + 1) false []
        ⟨f.header.bytes ++ (head ++ payload), 0, 0⟩ := rfl
  rw [ofBytes, hroot, hn, Value.readFields_succ (.inr hmore),
    Reader.bind_of_ok (hregistry.reads_readField hf hs _ _), if_neg hnames.1, if_neg hnames.2,
    Reader.bind_of_ok hlast, Value.readFields_end]
  rfl

/-- An object with one field for bytes is shown as the digits of these. -/
theorem Object.toJson_blob {context : Context} {f : Field}
    (hnames : context.registry.enumTable? f.name = none) (payload : List UInt8) :
    toJson context [(f, .blob payload)] = .ok (.obj [(f.name, .str (Hex.encode payload))]) := by
  simp only [toJson, Value.fieldsToJson, hnames, Value.toJson, Members.insert]
  rfl

namespace Codec

variable {codec : Codec}

/-- What is decoded can be encoded exactly if no value in its normal form is longer than a length
that is written can say. -/
theorem exists_encode_iff (hregistry : codec.registry.Regular) (hhex : codec.addresses = .hex)
    {bytes : List UInt8} {fields : Object}
    (hread : Object.ofBytes codec.registry codec.maxDepth bytes = .ok fields) {j : Json}
    (hshown : fields.toJson codec.context = .ok j) :
    (∃ again, codec.encode j false = .ok again) ↔ Object.Obeys .writable fields.normal := by
  have hfits := Object.fits_normal (Object.fits_of_ofBytes hregistry hread).1
  have hback := ofJson_of_decode hregistry hhex hread hshown
  rw [← Value.exists_toBytesFields_iff fields.normal hfits]
  constructor
  · rintro ⟨again, hagain⟩
    obtain ⟨fields', hfields', hwritten⟩ := encode_eq_ok_iff.1 hagain
    cases hback.symm.trans hfields'
    exact ⟨again, hwritten⟩
  · rintro ⟨again, hwritten⟩
    exact ⟨again, encode_eq_ok_iff.2 ⟨_, hback, hwritten⟩⟩

/-! ### The bundled registry -/

/-- **What the bundled codec decodes it can encode**, exactly if no value behind a length is longer
than a length that is written can say, repeated fields apart that are shown once. In particular it
can if this holds of all that was read. -/
theorem default_reencodes_iff {bytes : List UInt8} {j : Json}
    (h : Codec.default.decode bytes = .ok j) :
    ∃ fields, Object.ofBytes Codec.default.registry Codec.default.maxDepth bytes = .ok fields ∧
      ((∃ again, Codec.default.encode j false = .ok again) ↔
        Object.Obeys .writable fields.normal) ∧
      (Object.Obeys .writable fields → ∃ again, Codec.default.encode j false = .ok again) := by
  obtain ⟨-, fields, hread, hshown⟩ := decode_eq_ok_iff.1 h
  have hiff := exists_encode_iff regular_default rfl hread hshown
  exact ⟨fields, hread, hiff, fun hwritable => hiff.2 (Object.writable_normal hwritable)⟩

/-- The bundled field for a domain. -/
def domainField : Field := ⟨"Domain", .blob, ⟨7, 7⟩, true, true, true⟩

private theorem mem_domainField : domainField ∈ Codec.default.registry.fields := by
  rw [registry_default]
  refine (Registry.mem_loadFields_iff (Registry.of_load_eq_ok Registry.load_bundled).1).2
    ⟨⟨"Domain", 7, true, true, true, "Blob"⟩, ?_, ?_⟩
  · decide +kernel
  · rfl

/-- A domain is decoded as its digits, if its length can be read. -/
private theorem decode_domain {head payload : List UInt8}
    (hhead : LengthPrefix.read.Reads 0 head payload.length)
    (hsize : (0x77 :: (head ++ payload)).length ≤ defaultMaxInput) :
    Object.ofBytes Codec.default.registry Codec.default.maxDepth (0x77 :: (head ++ payload)) =
        .ok [(domainField, .blob payload)] ∧
      Codec.default.decode (0x77 :: (head ++ payload)) =
        .ok (.obj [("Domain", .str (Hex.encode payload))]) := by
  have hread : Object.ofBytes Codec.default.registry Codec.default.maxDepth
      (0x77 :: (head ++ payload)) = .ok [(domainField, .blob payload)] :=
    Object.ofBytes_blob regular_default.accepted.wellFormed mem_domainField rfl rfl rfl rfl hhead _
  have hname : Codec.default.context.registry.enumTable? "Domain" = none := by
    simp [Registry.enumTable?]
  have hshown : Object.toJson Codec.default.context [(domainField, .blob payload)] =
      .ok (.obj [("Domain", .str (Hex.encode payload))]) := Object.toJson_blob hname payload
  exact ⟨hread, decode_eq_ok_iff.2 ⟨hsize, _, hread, hshown⟩⟩

/-- A domain of one byte is decoded and can be encoded. -/
theorem default_reencodes_domain :
    ∃ again, Codec.default.encode (.obj [("Domain", .str "AB")]) false = .ok again := by
  have hhead : LengthPrefix.read.Reads 0 [1] 1 := LengthPrefix.reads_read rfl
  obtain ⟨hread, hdecode⟩ := @decode_domain [1] [0xAB] hhead (by decide)
  obtain ⟨fields, hfields, -, hwritable⟩ := default_reencodes_iff hdecode
  cases hread.symm.trans hfields
  exact hwritable ⟨fun _ => by decide, trivial, trivial⟩

/-- A domain that is longer than a length that is written can say cannot be encoded. -/
private theorem not_encode_domain {head payload : List UInt8}
    (hhead : LengthPrefix.read.Reads 0 head payload.length)
    (hlong : LengthPrefix.maxLength < payload.length)
    (hsize : (0x77 :: (head ++ payload)).length ≤ defaultMaxInput) :
    Codec.default.decode (0x77 :: (head ++ payload)) =
        .ok (.obj [("Domain", .str (Hex.encode payload))]) ∧
      ¬∃ again, Codec.default.encode (.obj [("Domain", .str (Hex.encode payload))]) false =
        .ok again := by
  obtain ⟨hread, hdecode⟩ := decode_domain hhead hsize
  refine ⟨hdecode, fun hagain => ?_⟩
  obtain ⟨-, fields, hfields, hshown⟩ := decode_eq_ok_iff.1 hdecode
  cases hread.symm.trans hfields
  -- encoding would need a length for the payload that is not greater than the greatest one
  have hwritable := (exists_encode_iff regular_default rfl hfields hshown).1 hagain
  have hnormal : Object.normal [(domainField, .blob payload)] = [(domainField, .blob payload)] :=
    rfl
  rw [hnormal, Object.obeys_cons] at hwritable
  have hwidth := hwritable.1 rfl
  have hwritten : (Value.blob payload).toBytes = .ok payload := by
    rw [Value.toBytes, Value.write, Writer.run_append]
  rw [← Value.length_of_toBytes _ hwritten] at hwidth
  omega

/-- A domain of 918745 bytes is decoded and cannot be encoded: its length is one more than the
greatest that is written. -/
theorem default_not_reencodes :
    Codec.default.decode (0x77 :: ([254, 212, 24] ++ List.replicate 918745 0)) =
        .ok (.obj [("Domain", .str (Hex.encode (List.replicate 918745 0)))]) ∧
      ¬∃ again, Codec.default.encode
        (.obj [("Domain", .str (Hex.encode (List.replicate 918745 0)))]) false = .ok again := by
  have hhead : LengthPrefix.read.Reads 0 [254, 212, 24] 918745 := fun _ _ => rfl
  refine not_encode_domain ?_ ?_ ?_
  · rw [List.length_replicate]
    exact hhead
  · rw [List.length_replicate]
    decide
  · rw [List.length_cons, List.length_append, List.length_replicate]
    decide

end Codec

end FieldWire
