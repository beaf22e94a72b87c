import FieldWire.Proofs.Registry.Accepted
import FieldWire.Registry.Bundled

/-!
# Regular registries

A schema can be loaded and still describe fields that cannot be read back: an end marker that is
not written, bytes without a length, an object behind a length, a named value that is no number. A
*regular* registry is an accepted one without these. The condition can be checked on the entries of
the schema (`Registry.regular_of_load`), and the bundled schema passes (`Registry.regular_bundled`).

The header of a written field is read as that field, and nothing else is
(`Registry.WellFormed.reads_readField`, `Registry.yields_readField`).
-/

namespace FieldWire

namespace Registry

/-- An accepted registry all of whose fields can be read back. -/
structure Regular (registry : Registry) : Prop where
  /-- The registry comes from a schema. -/
  accepted : registry.Accepted
  /-- Both end markers are written. -/
  marker_serialized : ∀ f ∈ registry.fields, f.isMarker = true → f.serialized = true
  /-- Bytes and hashes in any number stand behind their length. -/
  bytes_variableLength : ∀ f ∈ registry.fields, f.kind = .blob ∨ f.kind = .vector256 →
    f.variableLength = true
  /-- Objects end with their marker alone. -/
  object_fixedLength : ∀ f ∈ registry.fields, f.kind = .object → f.variableLength = false
  /-- Fields that can wrap an element are written. -/
  object_serialized : ∀ f ∈ registry.fields, f.kind = .object → f.serialized = true
  /-- Fields with named values hold words of up to four bytes. -/
  named_word : ∀ f ∈ registry.fields, (registry.enumTable? f.name).isSome = true →
    f.kind = .uint8 ∨ f.kind = .uint16 ∨ f.kind = .uint32

end Registry

/-! ### Regular schemas -/

/-- The entry is not the reason why a registry is not regular. -/
def SchemaField.IsRegular (entry : SchemaField) : Prop :=
  (entry.name = objectEndName ∨ entry.name = arrayEndName → entry.serialized = true) ∧
    (entry.type = Kind.blob.name ∨ entry.type = Kind.vector256.name →
      entry.variableLength = true) ∧
    (entry.type = Kind.object.name → entry.variableLength = false ∧ entry.serialized = true) ∧
    (entry.name = "TransactionType" ∨ entry.name = "TransactionResult" ∨
        entry.name = "LedgerEntryType" →
      entry.type = Kind.uint8.name ∨ entry.type = Kind.uint16.name ∨
        entry.type = Kind.uint32.name)

instance (entry : SchemaField) : Decidable entry.IsRegular :=
  inferInstanceAs (Decidable (_ ∧ _ ∧ _ ∧ _))

namespace Registry

private theorem isSome_enumTable?_iff {registry : Registry} {name : String} :
    (registry.enumTable? name).isSome = true ↔
      name = "TransactionType" ∨ name = "TransactionResult" ∨ name = "LedgerEntryType" := by
  unfold enumTable?
  split_ifs <;> simp_all

/-- Every field comes from an entry that describes it. -/
theorem exists_entry_of_load {schema : Schema} {registry : Registry}
    (h : load schema = .ok registry) {f : Field} (hf : f ∈ registry.fields) :
    ∃ entry ∈ schema.fields, entry.Describes f := by
  obtain ⟨entry, hmem, hresolve⟩ := (mem_loadFields_iff (of_load_eq_ok h).1).1 hf
  exact ⟨entry, hmem, (of_resolve_eq_some hresolve).1⟩

/-- A schema of regular entries loads as a regular registry. -/
theorem regular_of_load {schema : Schema} {registry : Registry} (h : load schema = .ok registry)
    (hnames : schema.NamesDistinct) (hentries : ∀ entry ∈ schema.fields, entry.IsRegular) :
    registry.Regular := by
  -- every condition on a field is one on the entry that describes it
  have hentry : ∀ f ∈ registry.fields, ∃ entry : SchemaField, entry.IsRegular ∧
      entry.Describes f := by
    intro f hf
    obtain ⟨entry, hmem, hdescribed⟩ := exists_entry_of_load h hf
    exact ⟨entry, hentries entry hmem, hdescribed⟩
  refine ⟨⟨schema, hnames, h⟩, fun f hf hmarker => ?_, fun f hf hkind => ?_, fun f hf hkind => ?_,
    fun f hf hkind => ?_, fun f hf hnamed => ?_⟩ <;>
    obtain ⟨entry, ⟨hmarkers, hbytes, hobject, hnamedWords⟩, hf⟩ := hentry f hf
  · rw [hf.serialized]
    refine hmarkers ?_
    simpa [Field.isMarker, hf.name] using hmarker
  · rw [hf.variableLength]
    refine hbytes ?_
    rcases hkind with hkind | hkind
    · exact .inl (by rw [← hf.kind, hkind])
    · exact .inr (by rw [← hf.kind, hkind])
  · rw [hf.variableLength]
    exact (hobject (by rw [← hf.kind, hkind])).1
  · rw [hf.serialized]
    exact (hobject (by rw [← hf.kind, hkind])).2
  · rw [isSome_enumTable?_iff, hf.name] at hnamed
    have hword := hnamedWords hnamed
    rw [← hf.kind] at hword
    exact hword.imp Kind.name_injective (.imp Kind.name_injective Kind.name_injective)

/-- The bundled schema loads. -/
theorem load_bundled : load Bundled.schema = .ok bundled :=
  -- one evaluation of the loader decides both that it succeeds and what it yields
  eq_ok_of_toOption (by decide +kernel)

/-- The bundled registry is regular. -/
theorem regular_bundled : bundled.Regular := by
  refine regular_of_load load_bundled ?_ ?_
  · unfold Schema.NamesDistinct
    decide +kernel
  · decide +kernel

/-! ### Reading the field of a header -/

variable {registry : Registry} {depth : Nat}

/-- The header of a written field is read as that field. -/
theorem WellFormed.reads_readField (h : registry.WellFormed) {f : Field}
    (hf : f ∈ registry.fields) (hs : f.serialized = true) :
    registry.readField.Reads depth f.header.bytes f := by
  refine (Header.reads_read (h.inRange f hf hs)).bind_nil ?_
  rw [h.fieldByHeader_eq_ok_iff.2 ⟨hf, hs, rfl⟩]
  exact .lift f

/-- Whatever is read as a field is the header of that field, which is written. -/
theorem yields_readField : registry.readField.Yields depth fun taken f =>
    taken = f.header.bytes ∧ f ∈ registry.fields ∧ f.serialized = true := by
  refine Header.yields_read.bind ?_
  rintro _ header ⟨rfl, -⟩
  refine (Reader.Yields.lift _).mono ?_
  rintro _ f ⟨rfl, hf⟩
  obtain ⟨hs, hheader⟩ := serialized_of_fieldByHeader hf
  exact ⟨by rw [List.append_nil, hheader], mem_of_fieldByHeader hf, hs⟩

end Registry

end FieldWire
