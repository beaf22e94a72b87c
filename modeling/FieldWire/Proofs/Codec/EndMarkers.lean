import FieldWire.Proofs.Value.ReadBack

/-!
# End markers

The fields of the end markers are there in every accepted registry, each with its marker as its
header. That alone does not make a marker known to the reader, which finds written fields only. A
marker's byte is read as the field of its name exactly if that field is written; then the byte
begins the header of no other field, and it ends what it is to end
(`Registry.WellFormed.reads_readFields_end`, `Registry.WellFormed.reads_readElements_end`). If it is
not written, the byte is free: an ordinary field may have it, and else no field is found
(`Registry.WellFormed.free_of_not_writesMarker`).

Whether a marker is written is not checked when a schema is loaded. In the schema `silentSchema` the
end of objects is read as the beginning of one.
-/

namespace FieldWire

namespace Registry

/-- The end markers, by the names of their fields and their bytes. -/
inductive IsEndMarker : String → UInt8 → Prop where
  /-- The end of an object. -/
  | object : IsEndMarker objectEndName objectEnd
  /-- The end of an array. -/
  | array : IsEndMarker arrayEndName arrayEnd

/-- The byte is read as the field of the name, whatever follows it. -/
def Recognizes (registry : Registry) (name : String) (byte : UInt8) : Prop :=
  ∃ f ∈ registry.fields, f.name = name ∧ ∀ depth, registry.readField.Reads depth [byte] f

/-- The byte is read as an ordinary field, or no field is found for it, whatever follows it. -/
def Frees (registry : Registry) (byte : UInt8) : Prop :=
  (∃ f ∈ registry.fields, f.isMarker = false ∧
      ∀ depth, registry.readField.Reads depth [byte] f) ∨
    ∃ header : Header, header.bytes = [byte] ∧ ∀ rest position depth,
      registry.readField ⟨byte :: rest, position, depth⟩ =
        .error (.unknownHeader header) ⟨rest, position + 1, depth⟩

/-! ### Bytes of markers -/

namespace IsEndMarker

variable {name : String} {byte : UInt8}

/-- A header that is an end marker has two codes that fit a byte. -/
theorem inRange (h : IsEndMarker name byte) {header : Header} (hbytes : header.bytes = [byte]) :
    header.InRange := by
  have hmarker : byte.toNat = 225 ∨ byte.toNat = 241 := by
    cases h with
    | object => exact .inl rfl
    | array => exact .inr rfl
  unfold Header.bytes at hbytes
  split_ifs at hbytes with htype hfield hfield
  · have hcodes := congrArg UInt8.toNat (List.cons.inj hbytes).1
    rw [UInt8.toNat_ofNat'] at hcodes
    unfold Header.InRange
    omega
  · cases hbytes
  · cases hbytes
  · cases hbytes

/-- The byte of an end marker tells its name. -/
theorem name_unique (h : IsEndMarker name byte) {name' : String}
    (h' : IsEndMarker name' byte) : name' = name := by
  cases h with
  | object => cases h'; rfl
  | array => cases h'; rfl

end IsEndMarker

/-- A field that is reserved has the name of an end marker. -/
theorem exists_isEndMarker {f : Field} (h : f.isMarker = true) :
    ∃ byte, IsEndMarker f.name byte := by
  rw [Field.isMarker, Bool.or_eq_true, decide_eq_true_eq, decide_eq_true_eq] at h
  obtain hname | hname := h
  · exact ⟨objectEnd, hname ▸ IsEndMarker.object⟩
  · exact ⟨arrayEnd, hname ▸ IsEndMarker.array⟩

namespace WellFormed

variable {registry : Registry} {name : String} {byte : UInt8} {limit fuel depth : Nat}

/-- The field of an end marker has the marker as its header. -/
theorem exists_marker (h : registry.WellFormed) (hmarker : IsEndMarker name byte) :
    ∃ f ∈ registry.fields, f.name = name ∧ f.header.bytes = [byte] := by
  cases hmarker with
  | object => exact h.objectEnd
  | array => exact h.arrayEnd

theorem recognizes_of_writesMarker (h : registry.WellFormed) (hmarker : IsEndMarker name byte)
    (hwritten : registry.WritesMarker name) : registry.Recognizes name byte := by
  obtain ⟨f, hf, hname, hbytes⟩ := h.exists_marker hmarker
  exact ⟨f, hf, hname, fun depth => hbytes ▸ h.reads_readField hf (hwritten f hf hname)⟩

/-- A byte that is recognized begins the header of one field only. -/
theorem name_eq_of_recognizes (h : registry.WellFormed) (hknown : registry.Recognizes name byte)
    {f : Field} (hf : f ∈ registry.fields) (hs : f.serialized = true)
    (hbyte : f.header.bytes.head? = some byte) : f.name = name := by
  obtain ⟨marker, -, hname, hreads⟩ := hknown
  obtain ⟨tail, htail⟩ := List.head?_eq_some_iff.1 hbyte
  -- the header of the field is the byte with a tail, which is left when the byte is read
  have hfield : registry.readField.Reads 0 f.header.bytes f := h.reads_readField hf hs
  have hbytes : f.header.bytes ++ [] = [byte] ++ tail := by
    rw [List.append_nil, htail, List.singleton_append]
  obtain ⟨rfl, -⟩ := hfield.unique (hreads 0) hbytes
  exact hname

/-- The byte of a marker that is not written belongs to an ordinary field or to none. -/
theorem free_of_not_writesMarker (h : registry.WellFormed) (hmarker : IsEndMarker name byte)
    (hsilent : ¬registry.WritesMarker name) : registry.Frees byte := by
  obtain ⟨marker, hmem, hname, hbytes⟩ := h.exists_marker hmarker
  have hheader : ∀ depth, Header.read.Reads depth [byte] marker.header := fun depth =>
    hbytes ▸ Header.reads_read (hmarker.inRange hbytes)
  cases hfind : registry.fieldByHeader marker.header with
  | ok f =>
    obtain ⟨hf, hs, hsame⟩ := h.fieldByHeader_eq_ok_iff.1 hfind
    refine .inl ⟨f, hf, Bool.eq_false_iff.2 fun hreserved => ?_, fun depth => ?_⟩
    · -- a reserved field with this byte is the field of the marker, and it is written
      obtain ⟨byte', hmarker'⟩ := exists_isEndMarker hreserved
      obtain ⟨marker', hmem', hname', hbytes'⟩ := h.exists_marker hmarker'
      obtain rfl := h.eq_of_name hmem' hf hname'
      rw [hsame, hbytes] at hbytes'
      obtain rfl := (List.cons.inj hbytes').1
      refine hsilent fun g hg hgname => ?_
      rw [h.eq_of_name hg hf (hgname.trans (hmarker.name_unique hmarker').symm)]
      exact hs
    · rw [← hbytes, ← hsame]
      exact h.reads_readField hf hs
  | error e =>
    refine .inr ⟨marker.header, hbytes, fun rest position depth => ?_⟩
    have hunknown : registry.fieldByHeader marker.header =
        .error (.unknownHeader marker.header) := by
      unfold fieldByHeader at hfind ⊢
      split at hfind
      · cases hfind
      · rfl
    have hread : Header.read ⟨byte :: rest, position, depth⟩ =
        .ok marker.header ⟨rest, position + 1, depth⟩ := hheader depth rest position
    rw [readField]
    refine (Reader.bind_of_ok hread).trans ?_
    rw [hunknown]
    rfl

/-- A marker is recognized if and only if it is written. -/
theorem recognizes_iff (h : registry.WellFormed) (hmarker : IsEndMarker name byte) :
    registry.Recognizes name byte ↔ registry.WritesMarker name := by
  refine ⟨?_, h.recognizes_of_writesMarker hmarker⟩
  rintro ⟨f, hf, hname, hreads⟩ g hg hgname
  obtain ⟨-, -, -, -, -, -, hs⟩ := yields_readField _ _ _ rfl (hreads 0 [] 0)
  rw [h.eq_of_name hg hf (hgname.trans hname.symm)]
  exact hs

end WellFormed

/-- **End markers are recognized exactly where they are written.** In an accepted registry the byte
of an end marker is read as the field of its name, before any tail, if and only if that field is
written. Then the byte begins the header of no other written field, and it closes the object or the
array that is read. Otherwise it is read as an ordinary field, or no field is found for it. -/
theorem Accepted.recognizes_iff_written {registry : Registry} (h : registry.Accepted) :
    (∀ name byte, IsEndMarker name byte →
      (registry.Recognizes name byte ↔ registry.WritesMarker name) ∧
      (registry.WritesMarker name → ∀ f ∈ registry.fields, f.serialized = true →
        f.header.bytes.head? = some byte → f.name = name) ∧
      (¬registry.WritesMarker name → registry.Frees byte)) ∧
    (registry.WritesMarker objectEndName → ∀ limit fuel inner taken depth,
      (Value.readFields registry limit (fuel + 1) inner taken).Reads depth [FieldWire.objectEnd]
        taken.reverse) ∧
    (registry.WritesMarker arrayEndName → ∀ limit fuel taken depth,
      (Value.readElements registry limit (fuel + 1) taken).Reads depth [FieldWire.arrayEnd]
        taken.reverse) := by
  have hwell := h.wellFormed
  refine ⟨fun name byte hmarker => ⟨hwell.recognizes_iff hmarker, fun hwritten => ?_,
    hwell.free_of_not_writesMarker hmarker⟩, fun hwritten _ _ inner taken _ => ?_,
    fun hwritten _ _ taken _ => ?_⟩
  · have hknown := hwell.recognizes_of_writesMarker hmarker hwritten
    exact fun f hf hs hbyte => hwell.name_eq_of_recognizes hknown hf hs hbyte
  · exact hwell.reads_readFields_end hwritten inner taken
  · exact hwell.reads_readElements_end hwritten taken

/-- The bundled registry recognizes both end markers. -/
theorem recognizes_bundled : bundled.Accepted ∧
    bundled.Recognizes objectEndName FieldWire.objectEnd ∧
    bundled.Recognizes arrayEndName FieldWire.arrayEnd := by
  have haccepted := regular_bundled.accepted
  obtain ⟨hmarkers, -, -⟩ := Accepted.recognizes_iff_written haccepted
  exact ⟨haccepted, (hmarkers _ _ .object).1.2 (regular_bundled.writesMarker (.inl rfl)),
    (hmarkers _ _ .array).1.2 (regular_bundled.writesMarker (.inr rfl))⟩

end Registry

/-! ### A silent marker -/

/-- A schema whose end marker of objects is not written and leaves its header to another field. -/
def silentSchema : Schema where
  types := [("STObject", 14), ("STArray", 15)]
  fields :=
    [⟨objectEndName, 1, false, false, true, "STObject"⟩,
     ⟨arrayEndName, 1, false, true, true, "STArray"⟩,
     ⟨"Memo", 1, false, true, true, "STObject"⟩]
  transactionTypes := []
  transactionResults := []
  ledgerEntryTypes := []

namespace Silent

/-- The field with the header of the end marker. -/
def memo : Field := ⟨"Memo", .object, ⟨14, 1⟩, false, true, true⟩

/-- The registry of the schema. -/
def registry : Registry where
  fields :=
    [⟨objectEndName, .object, ⟨14, 1⟩, false, false, true⟩,
     ⟨arrayEndName, .array, ⟨15, 1⟩, false, true, true⟩, memo]
  typeCodes := [("STObject", 14), ("STArray", 15)]
  transactionTypes := ⟨[]⟩
  transactionResults := ⟨[]⟩
  ledgerEntryTypes := ⟨[]⟩

theorem accepted : registry.Accepted :=
  ⟨silentSchema, ⟨List.nodup_nil, List.nodup_nil, List.nodup_nil⟩, rfl⟩

end Silent

/-- The end markers are recognized in every accepted registry. -/
def Registry.RecognizesMarkers : Prop :=
  ∀ registry : Registry, registry.Accepted →
    ∀ name byte, IsEndMarker name byte → registry.Recognizes name byte

/-- A schema with a silent end marker loads, and the marker is read as the beginning of an
object. -/
theorem Registry.not_recognizesMarkers_silent :
    Silent.registry.Accepted ∧
      (∀ depth, Silent.registry.readField.Reads depth [objectEnd] Silent.memo) ∧
      ¬RecognizesMarkers := by
  have hmemo : ∀ depth, Silent.registry.readField.Reads depth [objectEnd] Silent.memo :=
    fun _ => Silent.accepted.wellFormed.reads_readField (f := Silent.memo) (by decide) rfl
  refine ⟨Silent.accepted, hmemo, fun h => ?_⟩
  obtain ⟨f, -, hname, hreads⟩ := h _ Silent.accepted _ _ .object
  have hsame : [objectEnd] ++ [] = [objectEnd] ++ ([] : List UInt8) := rfl
  obtain ⟨rfl, -⟩ := (hreads 0).unique (hmemo 0) hsame
  exact absurd hname (by decide)

end FieldWire
