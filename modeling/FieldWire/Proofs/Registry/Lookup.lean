import FieldWire.Proofs.Registry.Accepted
import Mathlib.Data.List.Nodup

/-!
# What look-ups find

A registry *mirrors* its schema (`Registry.Mirrors`): its fields are those of the supported entries,
one for one and in their order, each with the code of its type; look-ups by name and by header find
exactly the fields that are there, the latter only written ones; and neither names nor the headers
of written fields are shared. Every schema that loads is mirrored (`Registry.mirrors_of_load`).

A schema is *faulty* (`Schema.IsFaulty`) if two of its supported entries share a name or, both
written, a header, or if the number of a written one or the code of a type does not fit a header.
Nothing mirrors a faulty schema (`Registry.Mirrors.not_isFaulty`). Together these say what the text
of a schema document becomes (`Registry.ofText_mirrors`).
-/

namespace FieldWire

namespace Schema

/-- The entries of a supported type. -/
def supported (schema : Schema) : List SchemaField := schema.fields.filter (·.isSupported)

/-- What the schema gives an entry as its header: the code of its type, if it has one, and its
number. -/
def headerOf (schema : Schema) (entry : SchemaField) : Option Int × Int :=
  (Members.get? schema.types entry.type, entry.nth)

/-- The schema describes fields that no registry can hold. -/
inductive IsFaulty (schema : Schema) : Prop where
  /-- Two supported entries share a name. -/
  | sharedName (h : ¬(schema.supported.map (·.name)).Nodup)
  /-- Two supported entries that are written share a header. -/
  | sharedHeader (h : ¬((schema.supported.filter (·.serialized)).map schema.headerOf).Nodup)
  /-- The number of a supported entry that is written does not fit a byte. -/
  | nthRange (entry : SchemaField) (hmem : entry ∈ schema.supported)
      (hwritten : entry.serialized = true) (h : ¬(1 ≤ entry.nth ∧ entry.nth ≤ 255))
  /-- The type of a supported entry has no code that fits a byte. -/
  | typeCode (entry : SchemaField) (hmem : entry ∈ schema.supported)
      (h : ∀ code, Members.get? schema.types entry.type = some code → ¬(1 ≤ code ∧ code ≤ 255))

/-- The schema that the text of a document holds. -/
def ofText? (text : String) : Option Schema := (Json.parseLenient? text).bind ofJson?

end Schema

namespace Registry

/-- The registry has the fields of the schema, and its look-ups are inverse to their names and
headers. -/
structure Mirrors (registry : Registry) (schema : Schema) : Prop where
  /-- The fields are those that the supported entries describe, in order. -/
  describes : List.Forall₂ SchemaField.Describes schema.supported registry.fields
  /-- The first code of a header is that of the type, and fits a byte. -/
  typeCode : ∀ f ∈ registry.fields,
    Members.get? schema.types f.kind.name = some (f.header.typeCode : Int) ∧
      1 ≤ f.header.typeCode ∧ f.header.typeCode ≤ 255
  /-- No two fields share a name. -/
  names : (registry.fields.map (·.name)).Nodup
  /-- A name finds the field that has it. -/
  fieldByName_iff : ∀ name f,
    registry.fieldByName name = .ok f ↔ f ∈ registry.fields ∧ f.name = name
  /-- Both codes of written fields fit a byte. -/
  inRange : ∀ f ∈ registry.fields, f.serialized = true → f.header.InRange
  /-- A header finds the written field that has it. -/
  fieldByHeader_iff : ∀ header f, registry.fieldByHeader header = .ok f ↔
    f ∈ registry.fields ∧ f.serialized = true ∧ f.header = header
  /-- No two written fields share a header. -/
  headers : ((registry.fields.filter (·.serialized)).map (·.header)).Nodup

/-! ### Schemas that load -/

variable {registry : Registry} {schema : Schema}

/-- A registry mirrors the schema it is loaded from, if that gives every type and every named value
once. -/
theorem mirrors_of_load (htypes : schema.types.keys.Nodup) (hnames : schema.NamesDistinct)
    (h : load schema = .ok registry) : registry.Mirrors schema := by
  have hwell : registry.WellFormed := Accepted.wellFormed ⟨schema, hnames, h⟩
  obtain ⟨hresolved, hcompatible⟩ := loadFields_nil_eq_ok_iff.1 (of_load_eq_ok h).1
  refine ⟨?_, fun f hf => ?_, ?_, fun _ _ => hwell.fieldByName_eq_ok_iff, hwell.inRange,
    fun _ _ => hwell.fieldByHeader_eq_ok_iff, ?_⟩
  · exact hresolved.imp fun entry f hresolve => (of_resolve_eq_some hresolve).1
  · obtain ⟨entry, -, hresolve⟩ := exists_left_of_forall₂ hresolved hf
    obtain ⟨hentry, hcode, -⟩ := of_resolve_eq_some hresolve
    rw [hentry.kind]
    exact (get?_headerCodes htypes).1 hcode
  · exact List.pairwise_map.2 (hcompatible.imp And.left)
  · refine List.pairwise_map.2 (List.pairwise_filter.2 ?_)
    exact hcompatible.imp fun hfg hf hg => hfg.2 hf hg

/-! ### Schemas that do not load -/

namespace Mirrors

variable (h : registry.Mirrors schema)
include h

/-- The supported entries have the names of the fields. -/
theorem map_name_supported : schema.supported.map (·.name) = registry.fields.map (·.name) := by
  rw [← List.forall₂_eq_eq_eq, List.forall₂_map_left_iff, List.forall₂_map_right_iff]
  exact h.describes.imp fun _ _ hentry => hentry.name.symm

/-- The supported entries that are written have the headers of the written fields. -/
theorem map_headerOf_supported :
    (schema.supported.filter (·.serialized)).map schema.headerOf =
      (registry.fields.filter (·.serialized)).map
        fun f => (Members.get? schema.types f.kind.name, (f.header.fieldCode : Int)) := by
  rw [← List.forall₂_eq_eq_eq, List.forall₂_map_left_iff, List.forall₂_map_right_iff]
  refine (List.rel_filter (fun _ _ hentry => ?_) h.describes).imp fun _ _ hentry => ?_
  · exact (congrArg (· = true) hentry.serialized.symm).to_iff
  · rw [Schema.headerOf, hentry.kind, hentry.fieldCode]

/-- Nothing mirrors a faulty schema. -/
theorem not_isFaulty : ¬schema.IsFaulty := by
  intro hfaulty
  cases hfaulty with
  | sharedName hshared => exact hshared (h.map_name_supported ▸ h.names)
  | sharedHeader hshared =>
    refine hshared (h.map_headerOf_supported ▸ List.Nodup.map_on ?_ h.headers.of_map)
    -- fields with the same type code and number have the same header
    intro f hf g hg heq
    obtain ⟨htype, hnth⟩ := Prod.mk.inj heq
    rw [(h.typeCode f (List.mem_of_mem_filter hf)).1,
      (h.typeCode g (List.mem_of_mem_filter hg)).1] at htype
    refine List.inj_on_of_nodup_map h.headers hf hg (Header.ext ?_ ?_)
    · exact Int.ofNat_inj.1 (Option.some.inj htype)
    · exact Int.ofNat_inj.1 hnth
  | nthRange entry hmem hwritten hout =>
    obtain ⟨f, hf, hentry⟩ := exists_right_of_forall₂ h.describes hmem
    obtain ⟨-, -, hlow, hhigh⟩ := h.inRange f hf (hentry.serialized.trans hwritten)
    rw [← hentry.fieldCode] at hout
    omega
  | typeCode entry hmem hout =>
    obtain ⟨f, hf, hentry⟩ := exists_right_of_forall₂ h.describes hmem
    obtain ⟨hcode, hlow, hhigh⟩ := h.typeCode f hf
    exact hout _ (hentry.kind ▸ hcode) (by omega)

end Mirrors

/-! ### Documents -/

/-- A text is refused if it holds no schema; otherwise its schema is loaded. -/
theorem ofText_eq (text : String) : ofText text =
    match Schema.ofText? text with
    | none => .error (.registry .invalidDocument)
    | some schema => (load schema).mapError .registry := by
  unfold ofText ofDocument Schema.ofText?
  cases Json.parseLenient? text <;> rfl

/-- The schema of a text gives every type and every named value once. -/
theorem nodup_of_ofText? {text : String} (h : Schema.ofText? text = some schema) :
    schema.types.keys.Nodup ∧ schema.NamesDistinct := by
  obtain ⟨document, -, hdocument⟩ := Option.bind_eq_some_iff.1 h
  exact ⟨nodup_keys_types hdocument, namesDistinct_of_ofJson? hdocument⟩

/-- **A text loads as a registry that mirrors its schema, or is refused.** Whatever loads is the
text of a schema, which the registry mirrors; and the text of a faulty schema is refused with a
fault of the schema. -/
theorem ofText_mirrors (text : String) :
    (∀ registry, ofText text = .ok registry →
      ∃ schema, Schema.ofText? text = some schema ∧ registry.Mirrors schema) ∧
    ∀ schema, Schema.ofText? text = some schema → schema.IsFaulty →
      ∃ fault, ofText text = .error (.registry fault) := by
  rw [ofText_eq]
  cases hschema : Schema.ofText? text with
  | none => exact ⟨nofun, nofun⟩
  | some schema =>
    obtain ⟨htypes, hnames⟩ := nodup_of_ofText? hschema
    dsimp only
    cases hload : load schema with
    | error fault => exact ⟨nofun, fun _ _ _ => ⟨fault, rfl⟩⟩
    | ok registry =>
      have hmirrors := mirrors_of_load htypes hnames hload
      refine ⟨?_, ?_⟩
      · rintro _ ⟨⟩
        exact ⟨schema, rfl, hmirrors⟩
      · rintro _ ⟨⟩ hfaulty
        exact absurd hfaulty hmirrors.not_isFaulty

/-- A document that gives codes to the types of objects and arrays and describes `entries`. -/
def documentOf (entries : String) : String :=
  "[\x7b\"STObject\":14,\"STArray\":15\x7d,[" ++ entries ++ "]]"

/-- A document of the end markers, a field that is not written and one of an unknown type. -/
def markersText : String :=
  documentOf ("[\"ObjectEndMarker\",[1,false,true,true,\"STObject\"]]," ++
    "[\"Done\",[0,false,false,false,\"Unknown\"]]," ++
    "[\"ArrayEndMarker\",[1,false,true,true,\"STArray\"]]," ++
    "[\"Memo\",[1,false,false,true,\"STObject\"]]")

/-- A document of two fields of one name. -/
def twinsText : String :=
  documentOf ("[\"Memo\",[2,false,true,true,\"STObject\"]]," ++
    "[\"Memo\",[2,false,true,true,\"STArray\"]]")

/-- The document of the end markers loads, and the one of two fields of one name does not. -/
theorem ofText_mirrors_markers :
    (∃ registry schema, ofText markersText = .ok registry ∧ registry.fields.length = 3 ∧
        registry.Mirrors schema) ∧
      ∃ fault, ofText twinsText = .error (.registry fault) := by
  constructor
  · have hfields : ((ofText markersText).map fun registry => registry.fields.length) = .ok 3 :=
      eq_ok_of_toOption (by decide +kernel)
    obtain ⟨registry, hload, hlength⟩ := map_eq_ok_iff.1 hfields
    obtain ⟨schema, -, hmirrors⟩ := (ofText_mirrors markersText).1 registry hload
    exact ⟨registry, schema, hload, hlength, hmirrors⟩
  · have hnames : (Schema.ofText? twinsText).map (fun schema => schema.supported.map (·.name)) =
        some ["Memo", "Memo"] := by
      decide +kernel
    obtain ⟨schema, hschema, hshared⟩ := Option.map_eq_some_iff.1 hnames
    exact (ofText_mirrors twinsText).2 schema hschema (.sharedName (by rw [hshared]; decide))

end Registry

end FieldWire
